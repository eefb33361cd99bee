import ApplianceConfig.Proofs.Document.Written
import ApplianceConfig.Proofs.Grammar.Paragraphs

/-!
# Documents that can be read

The text of a document whose words are words can be read, though perhaps as another document: raw words behind a key are that key's value and further entries, and words that look like numbers become numbers. A derivation is found for the tokens of each value, and among all derivations any will do, as whatever can be derived is read.
-/

namespace ApplianceConfig

open Grammar

namespace Grammar

/-- Holds of tokens that end a group: entries up to the closing brace in front of `rest`. -/
def EndsGroup (ts rest : List Token) : Prop :=
  ∃ us entries, Newlines ts us ∧ Members.Derives .free us entries (.closeBrace :: rest)

namespace EndsGroup

variable {ts us rest : List Token}

theorem close (rest : List Token) : EndsGroup (.closeBrace :: rest) rest := ⟨_, [], .done, .done⟩

theorem newline (h : EndsGroup ts rest) : EndsGroup (.newline :: ts) rest := by
  obtain ⟨us, entries, hlead, hentries⟩ := h
  exact ⟨us, entries, .skip hlead, hentries⟩

theorem entry {w : Word} {v : Value} (htail : EntryTail.Derives .free ts v us) (h : EndsGroup us rest) :
    EndsGroup (.word w :: ts) rest := by
  obtain ⟨vs, entries, hlead, hentries⟩ := h
  exact ⟨_, _, .done, .entry htail hlead hentries⟩

/-- Words in front of the end of an entry are keys with their values, and the last may be a key alone. -/
theorem words (hend : EntryEnds ts) (h : EndsGroup ts rest) (words : List Word) :
    EndsGroup (words.map .word ++ ts) rest := by
  match words with
  | [] => exact h
  | [key] => exact entry (.toggle hend) h
  | key :: value :: more => exact entry (.scalar rfl) (EndsGroup.words hend h more)

theorem block (h : EndsGroup ts rest) : ∃ v, Block.Derives .free (.openBrace :: ts) v rest := by
  obtain ⟨us, entries, hlead, hentries⟩ := h
  refine ⟨_, .group (fun hordered => ?_) hlead hentries⟩
  cases hordered

end EndsGroup

theorem LineTail.Derives.exists_behind {ts rest : List Token} {v : Value}
    (h : LineTail.Derives .free ts v rest) (words : List Word) :
    ∃ w, LineTail.Derives .free (words.map .word ++ ts) w rest := by
  induction words with
  | nil => exact ⟨v, h⟩
  | cons word words ih =>
    obtain ⟨w, hw⟩ := ih
    exact ⟨_, .chain nofun hw⟩

end Grammar

/-! ### Values -/

/-- How the tokens behind a key can be read: they are words, or `none`, or a block. -/
inductive Value.Readable (value : Value) : Prop
  | words (words : List Word) (h : value.tailTokens = words.map .word)
  | null (h : value.tailTokens = [.null])
  | block (h : ∀ rest, ∃ v, Block.Derives .free (value.tailTokens ++ rest) v rest)

namespace Value.Readable

variable {value : Value}

theorem entry (h : value.Readable) {ts rest : List Token} (hend : EntryEnds ts) (hts : EndsGroup ts rest)
    (key : Word) : EndsGroup (.word key :: (value.tailTokens ++ ts)) rest := by
  cases h with
  | words words h =>
    rw [h]
    exact hts.words hend (key :: words)
  | null h =>
    rw [h]
    exact .entry (.scalar rfl) hts
  | block h =>
    obtain ⟨v, hblock⟩ := h ts
    exact .entry (.block hblock) hts

theorem lineTail (h : value.Readable) {rest : List Token} (hend : LineEnds rest) :
    ∃ v, LineTail.Derives .free (value.tailTokens ++ rest) v rest := by
  cases h with
  | words words h =>
    rw [h]
    exact LineTail.Derives.exists_behind (.toggle hend) words
  | null h =>
    rw [h]
    exact ⟨_, .scalar rfl hend⟩
  | block h =>
    obtain ⟨v, hblock⟩ := h rest
    exact ⟨v, .block hblock⟩

end Value.Readable

mutual

theorem Value.readable_of_spelled {value : Value} (h : value.spelled = true) : value.Readable := by
  match value with
  | .toggle => exact .words [] rfl
  | .absent => exact .null rfl
  | .bool b => exact .words [_] rfl
  | .int n => exact .words [_] rfl
  | .text s => exact .words [_] rfl
  | .raw s => exact .words ((phraseWords s).map writtenWord) (List.map_map ..).symm
  | .set [] | .map _ [] => exact .block fun rest => (EndsGroup.close rest).block
  | .set (item :: items) =>
    refine .block fun rest => ?_
    have hset : Block.Derives .free _ _ rest :=
      .set (List.cons_ne_nil (writtenWord item) (items.map writtenWord))
    rw [← List.map_cons, List.map_map] at hset
    rw [Value.tailTokens, List.cons_append, List.append_assoc]
    exact ⟨_, hset⟩
  | .map style (e :: entries) =>
    rw [Value.spelled, Bool.and_eq_true] at h
    refine .block fun rest => ?_
    rw [Value.tailTokens, List.cons_append, List.append_assoc]
    exact (endsGroup_of_spelled h.2 rest).block

theorem endsGroup_of_spelled {entries : List (String × Value)} (h : spelledEntries entries = true)
    (rest : List Token) : EndsGroup (groupTokens entries ++ .newline :: .closeBrace :: rest) rest := by
  match entries with
  | [] => exact (EndsGroup.close rest).newline
  | (key, value) :: more =>
    simp only [spelledEntries, Bool.and_eq_true] at h
    have hend : EntryEnds (groupTokens more ++ .newline :: .closeBrace :: rest) := by
      cases more <;> exact trivial
    rw [groupTokens, List.cons_append, List.cons_append, List.append_assoc]
    exact ((Value.readable_of_spelled h.1.2).entry hend (endsGroup_of_spelled h.2 rest) _).newline

end

/-! ### Documents -/

theorem exists_lines_derive {lines : List (String × List String × Value)} (h : ∀ l ∈ lines, SpelledLine l) :
    ∃ entries, Lines.Derives .free (lineTokens lines) entries := by
  induction lines with
  | nil => exact ⟨[], .done⟩
  | cons l lines ih =>
    obtain ⟨hline, hlines⟩ := List.forall_mem_cons.mp h
    obtain ⟨entries, hentries⟩ := ih hlines
    have hend : LineEnds (.newline :: lineTokens lines) := trivial
    obtain ⟨v, htail⟩ := (Value.readable_of_spelled hline.value).lineTail hend
    obtain ⟨w, hline⟩ := htail.exists_behind (l.2.1.map bareWord)
    rw [List.map_map, ← List.append_assoc] at hline
    exact ⟨_, .line hline (.skip .done) hentries⟩

/-- The text of a document whose words are words can be read. -/
theorem Document.exists_parse_encode {doc : Document} (h : doc.entries.Spelled) (indent : Nat) :
    ∃ again, Document.parse (doc.encode indent) = .ok again := by
  obtain ⟨entries, hlines⟩ := exists_lines_derive h
  have hderives : Grammar.Derives .free (lineTokens (linesOf doc.entries)) entries := ⟨_, .done, hlines⟩
  obtain ⟨more, hordered⟩ := hderives.toOrdered
  exact ⟨_, Document.parse_of_lexes (doc.lexes_encode_of_spelled h indent) hordered⟩

end ApplianceConfig
