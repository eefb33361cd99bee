import ApplianceConfig.Proofs.Document.Lines

/-!
# The tokens of written documents

The text of a document whose words are words is cut into tokens again where it was put together: behind each key stand the tokens of its value, and each line feed that the encoder writes is a token. Margins leave no trace.
-/

namespace ApplianceConfig

open Grammar

mutual

/-- The tokens that stand behind the key of a value. -/
def Value.tailTokens : Value → List Token
  | .toggle => []
  | .absent => [.null]
  | .bool b => [.word (bareWord (if b then "true" else "false"))]
  | .int n => [.word (bareWord (toString n.toInt))]
  | .text s => [.word (writtenWord s)]
  | .raw s => (phraseWords s).map fun word => .word (writtenWord word)
  | .set items =>
    .openBrace :: ((items.map fun item => .word (writtenWord item)) ++ [.closeBrace])
  | .map _ [] => [.openBrace, .closeBrace]
  | .map _ (e :: entries) => .openBrace :: (groupTokens (e :: entries) ++ [.newline, .closeBrace])

/-- The tokens of entries between braces, each behind a line feed. -/
def groupTokens : List (String × Value) → List Token
  | [] => []
  | (key, value) :: rest =>
    .newline :: .word (bareWord key) :: (value.tailTokens ++ groupTokens rest)

end

/-- The tokens of keys. -/
def keyTokens (keys : List String) : List Token := keys.map fun key => .word (bareWord key)

theorem keyTokens_eq (keys : List String) : keyTokens keys = (keys.map bareWord).map .word := by
  rw [keyTokens, List.map_map]
  rfl

theorem map_text_bareWord (keys : List String) : (keys.map bareWord).map Word.text = keys := by
  rw [List.map_map]
  exact List.map_id keys

/-- A value that stands between braces has no lines of its own. -/
theorem Value.isLeaf_of_spelled {value : Value} (h : value.spelled = true) : value.isLeaf = true := by
  match value with
  | .map .chained (e :: entries) => cases h
  | .map .chained [] | .map .braced _ | .map .bare _ => rfl
  | .toggle | .absent | .bool _ | .int _ | .text _ | .raw _ | .set _ => rfl

theorem intercalate_phraseWords (s : String) : " ".intercalate (phraseWords s) = s := by
  have hpieces (cs : List Char) :
      (" ".intercalate ((Text.pieces ' ' cs).map String.ofList)).toList = cs := by
    induction cs with
    | nil => rfl
    | cons c cs ih =>
      obtain ⟨first, others, hcut⟩ := List.exists_cons_of_ne_nil (Text.pieces_ne_nil ' ' cs)
      rw [hcut] at ih
      rw [Text.pieces, hcut]
      by_cases hc : c = ' '
      · simpa [hc, String.intercalate_cons_cons] using ih
      · cases others <;> simpa [hc, String.intercalate_cons_cons] using ih
  exact String.toList_injective (hpieces s.toList)

/-- Holds of the lines that are cut again into the words and marks that they were put together from. -/
structure SpelledLine (l : String × List String × Value) : Prop where
  key : isBare l.1 = true
  path : ∀ key ∈ l.2.1, isBare key = true
  value : l.2.2.spelled = true

/-- Holds of the entries of documents all of whose lines are such. -/
def Entries.Spelled (entries : Entries) : Prop := ∀ l ∈ linesOf entries, SpelledLine l

/-- The tokens of lines, each of which ends with a line feed. -/
def lineTokens : List (String × List String × Value) → List Token
  | [] => []
  | l :: rest => .word (bareWord l.1) :: (keyTokens l.2.1 ++ l.2.2.tailTokens ++ .newline :: lineTokens rest)

namespace Encode

/-- The text of a value behind its key, if the value takes up the key's line alone. -/
def tail (indent level : Nat) : Value → String
  | .toggle => ""
  | .map style entries =>
    if entries.isEmpty then " \x7b\x7d"
    else " " ++ block style indent level (itemsOf indent (level + 1) "" entries)
  | value => " " ++ value.inline

/-- The text of keys behind another key. -/
def behind (keys : List String) : String := String.join (keys.map (" " ++ ·))

mutual

/-- What a value is written as are its lines, behind its key. -/
theorem items_eq_lines (indent level : Nat) (key : String) (value : Value) :
    items indent level key value =
      value.lines.map fun l => key ++ behind l.1 ++ tail indent level l.2 := by
  have hleaf (v : Value) : [([], v)].map (fun l => key ++ behind l.1 ++ tail indent level l.2) =
      [key ++ tail indent level v] := by
    simp [behind]
  match value with
  | .map .chained ((k, v) :: entries) =>
    rw [Value.lines, items, itemsOf_eq_lines indent level (key ++ " ") ((k, v) :: entries),
      List.map_map]
    refine List.map_congr_left fun l _ => ?_
    simp [behind, String.join_cons, String.append_assoc]
  | .map .chained [] | .map .braced [] | .map .bare [] =>
    rw [Value.lines, hleaf]
    · rfl
    · exact nofun
  | .map .braced (e :: entries) | .map .bare (e :: entries) =>
    rw [Value.lines, hleaf]
    · simp [items, tail, String.append_assoc]
    · exact nofun
  | .toggle =>
    rw [Value.lines, hleaf, tail, String.append_empty, items]
    exact nofun
  | .absent | .bool _ | .int _ | .text _ | .raw _ | .set _ =>
    rw [Value.lines, hleaf, tail, items, String.append_assoc]
    all_goals exact nofun

theorem itemsOf_eq_lines (indent level : Nat) (lead : String) (entries : List (String × Value)) :
    itemsOf indent level lead entries =
      (linesOf entries).map fun l =>
        lead ++ l.1 ++ behind l.2.1 ++ tail indent level l.2.2 := by
  match entries with
  | [] => rfl
  | (key, value) :: rest =>
    rw [itemsOf, linesOf, List.map_append, items_eq_lines indent level (lead ++ key) value,
      itemsOf_eq_lines indent level lead rest, List.map_map]
    rfl

end

/-! ### Cutting written text -/

theorem wordEnds_tail (indent level : Nat) (value : Value) {cs : List Char} (h : WordEnds cs) :
    WordEnds ((tail indent level value).toList ++ cs) := by
  have hblank (text : String) : WordEnds ((" " ++ text).toList ++ cs) := by
    rw [String.toList_append]
    exact wordEnds_cons (by decide) _
  match value with
  | .toggle => exact h
  | .map style [] => exact hblank "\x7b\x7d"
  | .map style (e :: entries) => exact hblank _
  | .absent | .bool _ | .int _ | .text _ | .raw _ | .set _ => exact hblank _

theorem lexes_behind {keys : List String} (hkeys : ∀ key ∈ keys, isBare key = true)
    {cs : List Char} {ts : List Token} (hend : WordEnds cs) (h : Lexes cs ts) :
    WordEnds ((behind keys).toList ++ cs) ∧
      Lexes ((behind keys).toList ++ cs) (keyTokens keys ++ ts) := by
  induction keys with
  | nil => exact ⟨hend, h⟩
  | cons key keys ih =>
    obtain ⟨hends, hlexes⟩ := ih fun k hk => hkeys k (List.mem_cons_of_mem key hk)
    have htext : (behind (key :: keys)).toList ++ cs =
        ' ' :: (key.toList ++ ((behind keys).toList ++ cs)) := by
      simp [behind]
    rw [htext]
    refine ⟨wordEnds_cons (by decide) _, ?_⟩
    exact (Lexes.bare (hkeys key List.mem_cons_self) hends hlexes).space

theorem lexes_items {items : List String} (hitems : ∀ item ∈ items, isWritable item = true)
    {cs : List Char} {ts : List Token} (hend : WordEnds cs) (h : Lexes cs ts) :
    Lexes ((" ".intercalate (items.map Quoted.encode)).toList ++ cs)
      (items.map (fun item => Token.word (writtenWord item)) ++ ts) := by
  match items with
  | [] => exact h
  | [item] => exact Lexes.written (hitems item List.mem_cons_self) hend h
  | item :: next :: rest =>
    have hrest := lexes_items (fun i hi => hitems i (List.mem_cons_of_mem item hi)) hend h
    have hwritten := Lexes.written (hitems item List.mem_cons_self) (wordEnds_cons (by decide) _)
      hrest.space
    simpa [String.intercalate_cons_cons] using hwritten

theorem isWordChar_of_isDigit {c : Char} (h : c.isDigit = true) : isWordChar c = true := by
  simp [isWordChar, Char.isAlphanum, h]

theorem toString_eq_repr {n : Int} (h : 0 ≤ n) : toString n = n.toNat.repr := by
  obtain ⟨m, rfl⟩ := Int.eq_ofNat_of_zero_le h
  rfl

theorem isDigit_of_mem_toString {n : Int} (h : 0 ≤ n) :
    ∀ c ∈ (toString n).toList, c.isDigit = true := by
  intro c hc
  rw [toString_eq_repr h, Nat.toList_repr] at hc
  exact Nat.isDigit_of_mem_toDigits (by decide) (by decide) hc

theorem isBare_toString {n : Int} (h : 0 ≤ n) : isBare (toString n) = true := by
  have hdigits := isDigit_of_mem_toString h
  have hne : toString n ≠ "" := by
    intro hempty
    rw [toString_eq_repr h, ← String.toList_eq_nil_iff, Nat.toList_repr] at hempty
    exact Nat.toDigits_ne_nil hempty
  have hnone : toString n ≠ "none" := by
    intro heq
    have hn := hdigits 'n' (by rw [heq]; decide)
    exact absurd hn (by decide)
  simp only [isBare, Bool.and_eq_true, Bool.not_eq_true', List.all_eq_true, bne_iff_ne]
  refine ⟨⟨?_, fun c hc => isWordChar_of_isDigit (hdigits c hc)⟩, hnone⟩
  rw [← Bool.not_eq_true, String.isEmpty_iff]
  exact hne

/-- The text of entries between braces. -/
def groupText (indent level : Nat) (entries : List (String × Value)) : String :=
  String.join ((itemsOf indent (level + 1) "" entries).map
    ("\n" ++ margin (indent * (level + 1)) ++ ·))

theorem toList_margin (width : Nat) : (margin width).toList = List.replicate width ' ' :=
  String.toList_ofList

theorem wordEnds_groupText (indent level : Nat) (entries : List (String × Value)) {cs : List Char}
    (h : WordEnds cs) : WordEnds ((groupText indent level entries).toList ++ cs) := by
  unfold groupText
  cases itemsOf indent (level + 1) "" entries with
  | nil => exact h
  | cons item items =>
    simp only [List.map_cons, String.join_cons, String.toList_append, List.append_assoc]
    exact wordEnds_cons (by decide) _

private theorem lexes_blank {text : String} {cs : List Char} {ts : List Token}
    (h : Lexes (text.toList ++ cs) ts) : Lexes ((" " ++ text).toList ++ cs) ts := by
  rw [String.toList_append, List.append_assoc]
  exact h.space

private theorem lexes_braces {cs : List Char} {ts : List Token} (h : Lexes cs ts) :
    Lexes ((" \x7b\x7d" : String).toList ++ cs) (.openBrace :: .closeBrace :: ts) := by
  have htext : (" \x7b\x7d" : String).toList = [' ', '\x7b', '\x7d'] := by decide
  rw [htext]
  exact h.closeBrace.openBrace.space

mutual

theorem lexes_tail (indent level : Nat) {value : Value} (hspelled : value.spelled = true) {cs : List Char}
    {ts : List Token} (hend : WordEnds cs) (h : Lexes cs ts) :
    Lexes ((tail indent level value).toList ++ cs) (value.tailTokens ++ ts) := by
  match value with
  | .toggle => exact h
  | .absent =>
    have hall : "none".toList.all isWordChar = true := by decide
    have hword : Lexes ("none".toList ++ cs) (.null :: ts) :=
      .word (by decide) (List.all_eq_true.mp hall) hend h
    exact lexes_blank hword
  | .bool false => exact lexes_blank (Lexes.bare (by decide) hend h)
  | .bool true => exact lexes_blank (Lexes.bare (by decide) hend h)
  | .int n =>
    rw [Value.spelled, decide_eq_true_eq] at hspelled
    exact lexes_blank (Lexes.bare (isBare_toString hspelled) hend h)
  | .text s => exact lexes_blank (Lexes.written hspelled hend h)
  | .raw s =>
    have hwords : ∀ word ∈ phraseWords s, isBare word = true := List.all_eq_true.mp hspelled
    have hitems := lexes_items (fun word hword => isWritable_of_isBare (hwords word hword)) hend h
    rw [List.map_congr_left fun word hword => encode_of_isBare (hwords word hword), List.map_id',
      intercalate_phraseWords] at hitems
    exact lexes_blank hitems
  | .set [] => exact lexes_braces h
  | .set (item :: items) =>
    have htext : (tail indent level (.set (item :: items))).toList ++ cs =
        ' ' :: '\x7b' :: ' ' :: ((" ".intercalate ((item :: items).map Quoted.encode)).toList ++
          ' ' :: '\x7d' :: cs) := by
      simp [tail, Value.inline]
    have hitems : ∀ i ∈ item :: items, isWritable i = true := List.all_eq_true.mp hspelled
    have hblank : WordEnds (' ' :: '\x7d' :: cs) := wordEnds_cons (by decide) _
    rw [htext, Value.tailTokens, List.cons_append, List.append_assoc]
    exact (lexes_items hitems hblank h.closeBrace.space).space.openBrace.space
  | .map _ [] => exact lexes_braces h
  | .map .braced (e :: entries) =>
    have htext : (tail indent level (.map .braced (e :: entries))).toList ++ cs =
        ' ' :: '\x7b' :: ((groupText indent level (e :: entries)).toList ++
          '\n' :: (List.replicate (indent * level) ' ' ++ '\x7d' :: cs)) := by
      simp [tail, block, groupText, toList_margin]
    rw [Value.spelled, Bool.and_eq_true] at hspelled
    rw [htext, Value.tailTokens, List.cons_append, List.append_assoc]
    have hclosing := (h.closeBrace.spaces (indent * level)).newline
    exact (lexes_group indent level hspelled.2 (wordEnds_cons (by decide) _) hclosing).openBrace.space
  | .map .bare (_ :: _) | .map .chained (_ :: _) => cases hspelled

theorem lexes_group (indent level : Nat) {entries : List (String × Value)}
    (hspelled : spelledEntries entries = true) {cs : List Char} {ts : List Token}
    (hend : WordEnds cs) (h : Lexes cs ts) :
    Lexes ((groupText indent level entries).toList ++ cs) (groupTokens entries ++ ts) := by
  match entries with
  | [] => exact h
  | (key, value) :: rest =>
    simp only [spelledEntries, Bool.and_eq_true] at hspelled
    obtain ⟨⟨hkey, hvalue⟩, hrest⟩ := hspelled
    have hleaf := Value.isLeaf_of_spelled hvalue
    have htext : (groupText indent level ((key, value) :: rest)).toList ++ cs =
        '\n' :: (List.replicate (indent * (level + 1)) ' ' ++ (key.toList ++
          ((tail indent (level + 1) value).toList ++
            ((groupText indent level rest).toList ++ cs)))) := by
      simp [groupText, itemsOf, items_eq_lines, Value.lines_of_isLeaf hleaf, behind, toList_margin]
    have hbehind := wordEnds_groupText indent level rest hend
    have htail := lexes_tail indent (level + 1) hvalue hbehind (lexes_group indent level hrest hend h)
    have hends := wordEnds_tail indent (level + 1) value hbehind
    rw [htext, groupTokens, List.cons_append, List.cons_append, List.append_assoc]
    exact ((Lexes.bare hkey hends htail).spaces (indent * (level + 1))).newline

end

/-- The text of lines, each of which ends with a line feed. -/
def lineText (indent : Nat) (lines : List (String × List String × Value)) : String :=
  String.join (lines.map fun l => l.1 ++ behind l.2.1 ++ tail indent 0 l.2.2 ++ "\n")

theorem lexes_lineText (indent : Nat) {lines : List (String × List String × Value)}
    (hlines : ∀ l ∈ lines, SpelledLine l) :
    Lexes (lineText indent lines).toList (lineTokens lines) := by
  induction lines with
  | nil => exact lexes_nil
  | cons l rest ih =>
    obtain ⟨hline, hrest⟩ := List.forall_mem_cons.mp hlines
    have htext : (lineText indent (l :: rest)).toList = l.1.toList ++ ((behind l.2.1).toList ++
        ((tail indent 0 l.2.2).toList ++ '\n' :: (lineText indent rest).toList)) := by
      simp [lineText]
    have hnewline : WordEnds ('\n' :: (lineText indent rest).toList) := wordEnds_cons (by decide) _
    have htail := lexes_tail indent 0 hline.value hnewline (ih hrest).newline
    have hends := wordEnds_tail indent 0 l.2.2 hnewline
    obtain ⟨hbehind, hlexes⟩ := lexes_behind hline.path hends htail
    rw [htext, lineTokens, List.append_assoc]
    exact .bare hline.key hbehind hlexes

end Encode

theorem Document.encode_eq_lineText (doc : Document) (indent : Nat) :
    doc.encode indent = Encode.lineText indent (linesOf doc.entries) := by
  rw [Document.encode, Encode.itemsOf_eq_lines, List.map_map, Encode.lineText]
  simp only [String.empty_append]
  rfl

/-- The tokens of a document whose words are words are those of its lines. -/
theorem Document.lexes_encode_of_spelled {doc : Document} (h : doc.entries.Spelled) (indent : Nat) :
    Lexes (doc.encode indent).toList (lineTokens (linesOf doc.entries)) := by
  rw [doc.encode_eq_lineText]
  exact Encode.lexes_lineText indent h

/-! ### Documents that can be read back -/

/-- A value that is read back between braces has no lines of its own. -/
theorem Value.isLeaf_of_writable_block {value : Value} (h : value.writable .block = true) :
    value.isLeaf = true := by
  match value with
  | .map .chained (e :: entries) => simp [Value.writable] at h
  | .map .chained [] | .map .braced _ | .map .bare _ => rfl
  | .toggle | .absent | .bool _ | .int _ | .text _ | .raw _ | .set _ => rfl

mutual

/-- What can be read back can be read. -/
theorem Value.spelled_of_writable {value : Value} {place : Place} (h : value.writable place = true)
    (hleaf : value.isLeaf = true) : value.spelled = true := by
  match value with
  | .toggle | .absent | .bool _ | .map _ [] => rfl
  | .int n => exact h
  | .text s =>
    rw [Value.writable, Bool.or_eq_true, Bool.and_eq_true] at h
    rw [Value.spelled, isWritable, Bool.or_eq_true]
    exact h.imp_right And.left
  | .set items =>
    rw [Value.writable, Bool.and_eq_true] at h
    exact h.2
  | .map .braced (e :: entries) => exact spelledEntries_of_writable h
  | .raw _ | .map .bare (_ :: _) => cases h
  | .map .chained (_ :: _) => cases hleaf

theorem spelledEntries_of_writable {entries : List (String × Value)}
    (h : writableEntries .block entries = true) : spelledEntries entries = true := by
  match entries with
  | [] => rfl
  | (key, value) :: rest =>
    simp only [writableEntries, Bool.and_eq_true] at h
    rw [spelledEntries, h.1.1, Value.spelled_of_writable h.1.2 (Value.isLeaf_of_writable_block h.1.2),
      spelledEntries_of_writable h.2]
    rfl

end

theorem WritableLine.spelled {l : String × List String × Value} (h : WritableLine l) : SpelledLine l where
  key := h.key
  path := h.path
  value := by
    obtain ⟨place, hvalue, -⟩ := h.value
    exact Value.spelled_of_writable hvalue h.leaf

/-- The tokens of a document that can be read back are those of its lines. -/
theorem Document.lexes_encode {doc : Document} (hwritable : doc.writable = true) (indent : Nat) :
    Lexes (doc.encode indent).toList (lineTokens (linesOf doc.entries)) :=
  doc.lexes_encode_of_spelled (fun l hl => (writableLine_of_mem hwritable l hl).spelled) indent

end ApplianceConfig
