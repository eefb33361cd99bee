import ApplianceConfig.Proofs.Document.Overwriting
import ApplianceConfig.Proofs.Grammar.Words
import ApplianceConfig.Proofs.Template.Document

/-!
# Spelled entries

Blocks are spelled when their keys and values are, and phrases when the words between their blanks are. A document is spelled when its lines are, and the lines of an object are one: the keys in front of it, its name, and its block.
-/

namespace ApplianceConfig

open Grammar

/-! ### Entries of blocks -/

theorem spelledEntries_iff {entries : List (String × Value)} :
    spelledEntries entries = true ↔ ∀ e ∈ entries, isBare e.1 = true ∧ e.2.spelled = true := by
  induction entries with
  | nil => simp [spelledEntries]
  | cons e entries ih =>
    rw [spelledEntries, Bool.and_eq_true, Bool.and_eq_true, ih, List.forall_mem_cons]

@[simp] theorem Value.spelled_block (entries : Entries) : (block entries).spelled = spelledEntries entries := by
  cases entries <;> rfl

theorem Value.spelled_text_of_isBare {s : String} (h : isBare s = true) : (text s).spelled = true :=
  isWritable_of_isBare h

/-- A text with a blank in it is quoted, so it may have anything else in it. -/
theorem Value.spelled_text_of_blank {s : String} (h : ' ' ∈ s.toList) : (text s).spelled = true := by
  have hany : s.toList.any Text.isBlank = true := List.any_eq_true.mpr ⟨' ', h, by decide⟩
  rw [spelled, isWritable, Quoted.needsQuotes, hany, Bool.or_true, Bool.true_or]

theorem Value.spelled_number {n : Nat} (h : n < UInt32.size) : (number n).spelled = true := by
  rw [UInt32.size] at h
  rw [number, spelled, Int64.toInt_ofNat_of_lt (by omega), decide_eq_true_eq]
  omega

theorem blank_not_mem_of_isBare {word : String} (h : isBare word = true) : ' ' ∉ word.toList := by
  intro hmem
  have hblank := List.all_eq_true.mp (isWordText_of_isBare h) ' ' hmem
  cases hblank

theorem phraseWords_append {word : String} (h : isBare word = true) (rest : String) :
    phraseWords (word ++ " " ++ rest) = word :: phraseWords rest := by
  have hcut : Text.pieces ' ' (' ' :: rest.toList) = [] :: Text.pieces ' ' rest.toList := by
    rw [Text.pieces, if_pos rfl]
  have hpieces := Text.pieces_append (blank_not_mem_of_isBare h) hcut
  simp [phraseWords, hpieces]

theorem phraseWords_of_isBare {word : String} (h : isBare word = true) : phraseWords word = [word] := by
  have hnil : Text.pieces ' ' [] = [[]] := rfl
  have hpieces := Text.pieces_append (blank_not_mem_of_isBare h) hnil
  simp only [List.append_nil] at hpieces
  simp [phraseWords, hpieces]

/-- Words with another word between any two of them are a phrase. -/
theorem Value.spelled_raw_intercalate {between : String} (hbetween : isBare between = true) {words : List String}
    (hne : words ≠ []) (hwords : ∀ word ∈ words, isBare word = true) :
    (raw ((" " ++ between ++ " ").intercalate words)).spelled = true := by
  match words with
  | [word] =>
    have hword := hwords word List.mem_cons_self
    simp [spelled, phraseWords_of_isBare hword, hword]
  | word :: next :: rest =>
    obtain ⟨hword, hmore⟩ := List.forall_mem_cons.mp hwords
    have hrest := spelled_raw_intercalate hbetween (List.cons_ne_nil next rest) hmore
    have htext : (" " ++ between ++ " ").intercalate (word :: next :: rest) =
        word ++ " " ++ (between ++ " " ++ (" " ++ between ++ " ").intercalate (next :: rest)) := by
      simp [String.intercalate_cons_cons, String.append_assoc]
    rw [spelled] at hrest
    rw [spelled, htext, phraseWords_append hword, phraseWords_append hbetween]
    simp [hword, hbetween, hrest]

/-! ### Lines of documents -/

theorem linesOf_append (entries more : List (String × Value)) :
    linesOf (entries ++ more) = linesOf entries ++ linesOf more := by
  induction entries with
  | nil => rfl
  | cons e entries ih =>
    obtain ⟨key, value⟩ := e
    rw [List.cons_append, linesOf, linesOf, ih, List.append_assoc]

namespace Entries.Spelled

variable {entries more : Entries}

theorem append (h : Entries.Spelled entries) (hmore : Entries.Spelled more) :
    Entries.Spelled (entries ++ more) := by
  unfold Entries.Spelled
  rw [linesOf_append]
  exact List.forall_mem_append.mpr ⟨h, hmore⟩

/-- A value that takes a line of its own. -/
theorem leaf {key : String} {value : Value} (hkey : isBare key = true) (hvalue : value.spelled = true) :
    Entries.Spelled [(key, value)] := by
  intro l hl
  rw [linesOf, Value.lines_of_isLeaf (Value.isLeaf_of_spelled hvalue), linesOf] at hl
  cases List.mem_singleton.mp hl
  exact ⟨hkey, nofun, hvalue⟩

/-- A word in front of all lines. -/
theorem under (h : Entries.Spelled entries) {key : String} (hkey : isBare key = true) :
    Entries.Spelled [(key, .map .chained entries)] := by
  cases entries with
  | nil => exact leaf hkey rfl
  | cons e entries =>
    intro l hl
    rw [linesOf, Value.lines, linesOf, List.append_nil, List.map_map, List.mem_map] at hl
    obtain ⟨line, hline, rfl⟩ := hl
    have hspelled := h line hline
    exact ⟨hkey, List.forall_mem_cons.mpr ⟨hspelled.key, hspelled.path⟩, hspelled.value⟩

theorem object {keys : List String} (hkeys : ∀ key ∈ keys, isBare key = true) {name : String}
    (hname : isBare name = true) (h : spelledEntries entries = true) :
    Entries.Spelled (object keys name entries) := by
  induction keys with
  | nil => exact leaf hname ((Value.spelled_block entries).trans h)
  | cons key keys ih =>
    obtain ⟨hkey, hkeys⟩ := List.forall_mem_cons.mp hkeys
    exact (ih hkeys).under hkey

end Entries.Spelled

end ApplianceConfig
