import ApplianceConfig.Proofs.Document.Written
import ApplianceConfig.Proofs.Grammar.Paragraphs
import ApplianceConfig.Proofs.Grammar.Tails

/-!
# Reading written documents back

The tokens of a written value have an ordered derivation of that value, whatever is behind them: a scalar is its one word, a set is a block of keys, and any other block starts with a line feed, so it is no set. Derivations of the lines of a document follow, and merging their entries builds the document again.
-/

namespace ApplianceConfig

open Grammar

/-! ### Words as values -/

theorem signed?_of_isDigit {cs : List Char} (hne : cs ≠ []) (h : ∀ c ∈ cs, c.isDigit = true) :
    Text.signed? cs = some (Text.digitsFrom 0 cs : Int) := by
  have hunsigned := Text.unsigned?_of_isDigit hne h
  obtain ⟨c, cs, rfl⟩ := List.exists_cons_of_ne_nil hne
  have hminus : c ≠ '-' := by
    rintro rfl
    exact absurd (h '-' List.mem_cons_self) (by decide)
  rw [Text.signed?.eq_2 _ (by simp [hminus]), hunsigned]
  rfl

theorem toInt64?_toInt (n : Int64) : Text.toInt64? n.toInt = some n := by
  rw [Text.toInt64?, if_pos ⟨Int64.minValue_le_toInt n, Int64.toInt_le n⟩, Int64.ofInt_toInt]

theorem int64?_toString {n : Int64} (h : 0 ≤ n.toInt) : Text.int64? (toString n.toInt) = some n := by
  have hdigits := Encode.isDigit_of_mem_toString h
  have hne : (toString n.toInt).toList ≠ [] := by
    rw [Encode.toString_eq_repr h, Nat.toList_repr]
    exact Nat.toDigits_ne_nil
  rw [Text.int64?, signed?_of_isDigit hne hdigits, Encode.toString_eq_repr h, Nat.toList_repr,
    Text.digitsFrom_toDigits, Int.toNat_of_nonneg h]
  exact toInt64?_toInt n

theorem value_bareWord_int {n : Int64} (h : 0 ≤ n.toInt) :
    (bareWord (toString n.toInt)).value = .int n := by
  have hdigits : (toString n.toInt).toList.all Char.isDigit = true :=
    List.all_eq_true.mpr (Encode.isDigit_of_mem_toString h)
  rw [bareWord, if_pos hdigits, Word.value, Value.ofDigits, int64?_toString h]

theorem value_writtenWord {place : Place} {s : String}
    (h : (Value.text s).writable place = true) : (writtenWord s).value = .text s := by
  rw [writtenWord]
  by_cases hquotes : Quoted.needsQuotes s = true
  · rw [if_pos hquotes]
    rfl
  · have hother : looksOther s = false := by simp_all [Value.writable]
    simp only [looksOther, Bool.or_eq_false_iff, Bool.and_eq_false_iff, beq_eq_false_iff_ne] at hother
    obtain ⟨⟨htrue, hfalse⟩, hnumber⟩ := hother
    rw [if_neg hquotes, bareWord]
    by_cases hdigits : s.toList.all Char.isDigit = true
    · have hlarge : Text.int64? s = none := by simpa [hdigits] using hnumber
      rw [if_pos hdigits, Word.value, Value.ofDigits, hlarge]
    · rw [if_neg hdigits, Word.value, Value.ofWord, if_neg htrue, if_neg hfalse]

/-! ### Mappings with distinct keys -/

theorem keys_rereadEntries (entries : List (String × Value)) :
    Assoc.keys (rereadEntries entries) = Assoc.keys entries := by
  induction entries with
  | nil => rfl
  | cons e entries ih =>
    obtain ⟨key, value⟩ := e
    exact congrArg (key :: ·) ih

theorem mergeInto_of_nodup {entries present : Entries} (hnodup : (Assoc.keys entries).Nodup)
    (hnew : ∀ key ∈ Assoc.keys entries, key ∉ Assoc.keys present) :
    mergeInto entries present = present ++ entries := by
  induction entries generalizing present with
  | nil => exact (List.append_nil present).symm
  | cons e entries ih =>
    obtain ⟨key, value⟩ := e
    obtain ⟨hkey, hnodup⟩ := List.nodup_cons.mp hnodup
    rw [← List.singleton_append, mergeInto_append, mergeInto_new (hnew key List.mem_cons_self),
      ih hnodup, List.append_assoc]
    intro other hother
    refine Assoc.not_mem_keys_append (hnew other (List.mem_cons_of_mem key hother)) ?_ value
    rintro rfl
    exact hkey hother

/-- Entries with distinct keys are collected as they are. -/
theorem collect_rereadEntries {entries : List (String × Value)}
    (h : distinctEntries entries = true) : collect (rereadEntries entries) = rereadEntries entries := by
  have hnodup := (distinctEntries_iff.mp h).1
  rw [← keys_rereadEntries] at hnodup
  rw [collect_eq_mergeInto]
  exact mergeInto_of_nodup hnodup fun _ _ => List.not_mem_nil

/-! ### Derivations of values -/

/-- How the tokens behind a key are derived: there are none, or there is one for a scalar, or they are a block. -/
def Value.Derives (value : Value) : Prop :=
  value = .toggle ∨ (∃ t, value.tailTokens = [t] ∧ t.scalar? = some value.reread) ∨
    ∀ rest, Block.Derives .ordered (value.tailTokens ++ rest) value.reread rest

theorem Value.Derives.standsFor {value : Value} (h : value.Derives) (htoggle : value ≠ .toggle) :
    StandsFor value.tailTokens value.reread := h.resolve_left htoggle

theorem Value.Derives.entryTail {value : Value} (h : value.Derives) {rest : List Token}
    (hend : EntryEnds rest) : EntryTail.Derives .ordered (value.tailTokens ++ rest) value.reread rest := by
  by_cases htoggle : value = .toggle
  · subst htoggle
    exact .toggle hend
  · exact (h.standsFor htoggle).entryTail rest

theorem Value.Derives.lineTail {value : Value} (h : value.Derives) {path : List String}
    (hpath : path ≠ [] → value ≠ .toggle) (rest : List Token) :
    LineTail.Derives .ordered (keyTokens path ++ value.tailTokens ++ .newline :: rest)
      (chain path value.reread) (.newline :: rest) := by
  by_cases htoggle : value = .toggle
  · obtain rfl : path = [] := by_contra fun hne => hpath hne htoggle
    subst htoggle
    exact .toggle trivial
  · have htail := (h.standsFor htoggle).lineTail (path.map bareWord) (show LineEnds (.newline :: rest) from trivial)
    rwa [map_text_bareWord, ← keyTokens_eq, ← List.append_assoc] at htail

theorem entryEnds_groupTokens (entries : List (String × Value)) (rest : List Token) :
    EntryEnds (groupTokens entries ++ .newline :: rest) := by
  cases entries <;> exact trivial

mutual

theorem Value.derives {value : Value} {place : Place} (hdistinct : value.distinct = true)
    (hwritable : value.writable place = true) (hleaf : value.isLeaf = true) : value.Derives := by
  match value with
  | .toggle => exact .inl rfl
  | .absent => exact .inr (.inl ⟨.null, rfl, rfl⟩)
  | .bool true | .bool false => exact .inr (.inl ⟨_, rfl, rfl⟩)
  | .int n =>
    rw [Value.writable, decide_eq_true_eq] at hwritable
    exact .inr (.inl ⟨_, rfl, congrArg some (value_bareWord_int hwritable)⟩)
  | .text s => exact .inr (.inl ⟨_, rfl, congrArg some (value_writtenWord hwritable)⟩)
  | .set (item :: items) =>
    refine .inr (.inr fun rest => ?_)
    have htexts : ((item :: items).map writtenWord).map Word.text = item :: items := by
      rw [List.map_map]
      exact (List.map_congr_left fun s _ => writtenWord_text s).trans (List.map_id _)
    have hset : Block.Derives .ordered _ _ rest :=
      .set (List.cons_ne_nil (writtenWord item) (items.map writtenWord))
    rw [← List.map_cons, htexts, List.map_map] at hset
    rw [Value.tailTokens, List.cons_append, List.append_assoc]
    exact hset
  | .map _ [] =>
    refine .inr (.inr fun rest => .group (fun _ => ?_) .done .done)
    rintro ⟨keys, behind, hne, hts⟩
    obtain ⟨key, keys, rfl⟩ := List.exists_cons_of_ne_nil hne
    cases hts
  | .map .braced (e :: entries) =>
    refine .inr (.inr fun rest => ?_)
    obtain ⟨us, hlead, hmembers⟩ := members_derive hdistinct hwritable rest
    have hgroup : Block.Derives .ordered _ _ rest :=
      .group (fun _ => not_keysOnly_newline _) hlead hmembers
    rw [collect_rereadEntries hdistinct] at hgroup
    rw [Value.tailTokens, List.cons_append, List.append_assoc]
    exact hgroup
  | .map .bare (_ :: _) | .raw _ | .set [] => simp [Value.writable] at hwritable

theorem members_derive {entries : List (String × Value)} (hdistinct : distinctEntries entries = true)
    (hwritable : writableEntries .block entries = true) (rest : List Token) :
    ∃ us, Newlines (groupTokens entries ++ .newline :: .closeBrace :: rest) us ∧
      Members.Derives .ordered us (rereadEntries entries) (.closeBrace :: rest) := by
  match entries with
  | [] => exact ⟨_, .skip .done, .done⟩
  | (key, value) :: more =>
    simp only [distinctEntries, Bool.and_eq_true] at hdistinct
    simp only [writableEntries, Bool.and_eq_true] at hwritable
    obtain ⟨us, hlead, hmore⟩ := members_derive hdistinct.2 hwritable.2 rest
    have hvalue := Value.derives hdistinct.1.2 hwritable.1.2 (Value.isLeaf_of_writable_block hwritable.1.2)
    refine ⟨.word (bareWord key) :: (value.tailTokens ++
      (groupTokens more ++ .newline :: .closeBrace :: rest)), ?_, ?_⟩
    · rw [groupTokens, List.cons_append, List.cons_append, List.append_assoc]
      exact .skip .done
    · exact .entry (hvalue.entryTail (entryEnds_groupTokens more _)) hlead hmore

end

/-! ### Derivations of documents -/

theorem lines_derive {lines : List (String × List String × Value)}
    (hdistinct : ∀ l ∈ lines, l.2.2.distinct = true) (hwritable : ∀ l ∈ lines, WritableLine l) :
    Lines.Derives .ordered (lineTokens lines) (lines.map lineEntry) := by
  induction lines with
  | nil => exact .done
  | cons l lines ih =>
    obtain ⟨hline, hlines⟩ := List.forall_mem_cons.mp hwritable
    obtain ⟨hvalue, hvalues⟩ := List.forall_mem_cons.mp hdistinct
    obtain ⟨place, hplace, hchain⟩ := hline.value
    have htoggle : l.2.1 ≠ [] → l.2.2 ≠ .toggle := by
      intro hpath htoggle
      rw [hchain hpath, htoggle] at hplace
      cases hplace
    have htail := (Value.derives hvalue hplace hline.leaf).lineTail htoggle (lineTokens lines)
    exact .line htail (.skip .done) (ih hvalues hlines)

/-- A written document is parsed as what reading it back leaves of it. -/
theorem Document.parse_encode_eq {doc : Document} (hdistinct : doc.distinct = true)
    (hwritable : doc.writable = true) (indent : Nat) :
    Document.parse (doc.encode indent) = .ok { entries := rereadEntries doc.entries } := by
  have hlines := lines_derive (distinct_of_mem_linesOf hdistinct) (writableLine_of_mem hwritable)
  have hlead : Newlines (lineTokens (linesOf doc.entries)) (lineTokens (linesOf doc.entries)) := .done
  have hmerge : mergeInto ((linesOf doc.entries).map lineEntry) [] = [] ++ rereadEntries doc.entries :=
    mergeInto_linesOf hdistinct fun _ _ => List.not_mem_nil
  rw [Document.parse_of_lexes (doc.lexes_encode hwritable indent) ⟨_, hlead, hlines⟩,
    collect_eq_mergeInto, hmerge, List.nil_append]

/-- A writable document is read back from its text: the same keys with the same values, the items of its sets in order included, and with the same text again. -/
theorem Document.parse_encode {doc : Document} (hdistinct : doc.distinct = true)
    (hwritable : doc.writable = true) (indent : Nat) :
    ∃ again, Document.parse (doc.encode indent) = .ok again ∧ (again == doc) = true ∧
      again.unstyled = doc.unstyled ∧ again.encode indent = doc.encode indent := by
  refine ⟨_, Document.parse_encode_eq hdistinct hwritable indent, ?_, ?_, ?_⟩
  · exact sameEntries_reread doc.entries
  · rw [Document.unstyled, unstyledEntries_reread]
    rfl
  · rw [Document.encode, Document.encode, Encode.itemsOf_reread]

/-- Lines of one chain, a group in which a number is too large and texts need quotes, and a set. -/
def tricky : Document :=
  { entries :=
      [("ltm", .map .chained
          [("pool", .map .chained
              [("p1", .map .braced
                  [("members", .map .chained []), ("slow", .toggle),
                    ("limit", .text "99999999999999999999")]),
                ("p2", .set ["a b", "", "x:80"])]),
            ("none-such", .text "")]),
        ("enabled", .toggle),
        ("port", .int 443),
        ("rule", .text "when \x7b\n\treturn \"x\\y\"\n\x7d")] }

/-- A document that is hard to read back is read back. -/
theorem Document.parse_encode_tricky :
    tricky.distinct = true ∧ tricky.writable = true ∧
      ∃ again, Document.parse (tricky.encode 4) = .ok again ∧ (again == tricky) = true ∧
        again.unstyled = tricky.unstyled ∧ again.encode 4 = tricky.encode 4 := by
  have hdistinct : tricky.distinct = true := by decide
  have hwritable : tricky.writable = true := by decide
  exact ⟨hdistinct, hwritable, Document.parse_encode hdistinct hwritable 4⟩

end ApplianceConfig
