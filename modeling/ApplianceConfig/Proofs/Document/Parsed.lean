import ApplianceConfig.Document.Merge
import ApplianceConfig.Proofs.Document.Writable
import Mathlib.Tactic.SplitIfs

/-!
# Documents made of words

Reading gives documents of a certain kind only. Keys are distinct on every level, and each key, each item of a set and each scalar is a word of the text. Chains are never empty, stand on lines only and do not end with a key alone.

Writing such entries over others of the kind gives entries of the kind again. If the words are all bare they can be written, and nothing of them is lost by that.
-/

namespace ApplianceConfig

open Grammar

/-- Holds of the texts of words. -/
def Named (words : Word → Prop) (s : String) : Prop := ∃ w, words w ∧ w.text = s

/-- Holds of the values that are read from words at a place. Mappings are in braces or chained. -/
inductive Value.ReadFrom (words : Word → Prop) : Place → Value → Prop
  | toggle {place : Place} (hplace : place ≠ .chain) : ReadFrom words place .toggle
  | absent {place : Place} : ReadFrom words place .absent
  | bool {place : Place} {w : Word} {b : Bool} (hw : words w) (hvalue : w.value = .bool b) :
      ReadFrom words place (.bool b)
  | int {place : Place} {w : Word} {n : Int64} (hw : words w) (hvalue : w.value = .int n)
      (hsign : 0 ≤ n.toInt) : ReadFrom words place (.int n)
  | text {place : Place} {w : Word} {s : String} (hw : words w) (hvalue : w.value = .text s) :
      ReadFrom words place (.text s)
  | set {place : Place} {items : List String} (hne : items ≠ []) (hitems : ∀ item ∈ items, Named words item) :
      ReadFrom words place (.set items)
  | group {place : Place} {entries : Entries} (hnodup : (Assoc.keys entries).Nodup)
      (hnames : ∀ e ∈ entries, Named words e.1) (hvalues : ∀ e ∈ entries, ReadFrom words .block e.2) :
      ReadFrom words place (.map .braced entries)
  | chain {place : Place} {entries : Entries} (hplace : place ≠ .block) (hne : entries ≠ [])
      (hnodup : (Assoc.keys entries).Nodup) (hnames : ∀ e ∈ entries, Named words e.1)
      (hvalues : ∀ e ∈ entries, ReadFrom words .chain e.2) : ReadFrom words place (.map .chained entries)

/-- Holds of the entries that are read from words at a place. -/
structure Entries.ReadFrom (words : Word → Prop) (place : Place) (entries : Entries) : Prop where
  nodup : (Assoc.keys entries).Nodup
  names : ∀ e ∈ entries, Named words e.1
  values : ∀ e ∈ entries, e.2.ReadFrom words place

variable {words : Word → Prop} {place : Place}

/-! ### Writing entries over others -/

namespace Entries.ReadFrom

theorem nil : Entries.ReadFrom words place [] := ⟨List.nodup_nil, nofun, nofun⟩

theorem single {key : String} {value : Value} (hkey : Named words key) (hvalue : value.ReadFrom words place) :
    Entries.ReadFrom words place [(key, value)] where
  nodup := by simp [Assoc.keys]
  names := by simpa using hkey
  values := by simpa using hvalue

theorem alter {entries : Entries} (h : entries.ReadFrom words place) {key : String} (hkey : Named words key)
    {f : Option Value → Value} (hnone : (f none).ReadFrom words place)
    (hsome : ∀ v, v.ReadFrom words place → (f (some v)).ReadFrom words place) :
    Entries.ReadFrom words place (Assoc.alter entries key f) where
  nodup := Assoc.nodup_keys_alter h.nodup key f
  names := by
    intro e he
    obtain hmem | rfl | ⟨v, -, rfl⟩ := Assoc.mem_alter he
    · exact h.names e hmem
    · exact hkey
    · exact hkey
  values := by
    intro e he
    obtain hmem | rfl | ⟨v, hmem, rfl⟩ := Assoc.mem_alter he
    · exact h.values e hmem
    · exact hnone
    · exact hsome v (h.values _ hmem)

/-- Entries that keep the place when they are written over values of it. -/
theorem mergeInto {incoming present : Entries} (hpresent : present.ReadFrom words place)
    (hnames : ∀ e ∈ incoming, Named words e.1) (hvalues : ∀ e ∈ incoming, e.2.ReadFrom words place)
    (hover : ∀ e ∈ incoming, ∀ v, v.ReadFrom words place → (e.2.over v).ReadFrom words place) :
    Entries.ReadFrom words place (mergeInto incoming present) := by
  induction incoming generalizing present with
  | nil => exact hpresent
  | cons e rest ih =>
    obtain ⟨key, value⟩ := e
    rw [List.forall_mem_cons] at hnames hvalues hover
    exact ih (hpresent.alter hnames.1 hvalues.1 hover.1) hnames.2 hvalues.2 hover.2

end Entries.ReadFrom

theorem mergeInto_ne_nil {incoming present : Entries} (h : present ≠ []) : mergeInto incoming present ≠ [] := by
  induction incoming generalizing present with
  | nil => exact h
  | cons e rest ih => exact ih (Assoc.alter_ne_nil present e.1 _)

/-- Chains are merged into a chain, and any other value replaces the one it is written over. -/
theorem Value.ReadFrom.over {incoming : Value} (h : incoming.ReadFrom words place) {present : Value}
    (hpresent : present.ReadFrom words place) : (incoming.over present).ReadFrom words place := by
  induction h generalizing present with
  | toggle hplace => exact .toggle hplace
  | absent => exact .absent
  | bool hw hvalue => exact .bool hw hvalue
  | int hw hvalue hsign => exact .int hw hvalue hsign
  | text hw hvalue => exact .text hw hvalue
  | set hne hitems => exact .set hne hitems
  | group hnodup hnames hvalues => exact .group hnodup hnames hvalues
  | chain hplace hne hnodup hnames hvalues ih =>
    cases hpresent with
    | chain _ hother hnodup' hnames' hvalues' =>
      have hmerged := Entries.ReadFrom.mergeInto ⟨hnodup', hnames', hvalues'⟩ hnames hvalues
        fun e he v hv => ih e he hv
      exact .chain hplace (mergeInto_ne_nil hother) hmerged.nodup hmerged.names hmerged.values
    | toggle | absent | bool | int | text | set | group => exact .chain hplace hne hnodup hnames hvalues

theorem Entries.ReadFrom.merge {incoming present : Entries} (hpresent : present.ReadFrom words place)
    (hnames : ∀ e ∈ incoming, Named words e.1) (hvalues : ∀ e ∈ incoming, e.2.ReadFrom words place) :
    Entries.ReadFrom words place (ApplianceConfig.mergeInto incoming present) :=
  hpresent.mergeInto hnames hvalues fun e he _ hv => (hvalues e he).over hv

theorem Entries.ReadFrom.mergeEntry {entries : Entries} (h : entries.ReadFrom words place) {key : String}
    (hkey : Named words key) {value : Value} (hvalue : value.ReadFrom words place) :
    (entries.mergeEntry key value).ReadFrom words place :=
  h.merge (by simpa using hkey) (by simpa using hvalue)

/-! ### Writing what has been read -/

theorem rereadEntries_of_forall {entries : Entries} (h : ∀ e ∈ entries, e.2.reread = e.2) :
    rereadEntries entries = entries := by
  induction entries with
  | nil => rfl
  | cons e entries ih =>
    obtain ⟨key, value⟩ := e
    obtain ⟨hvalue, hentries⟩ := List.forall_mem_cons.mp h
    rw [rereadEntries, hvalue, ih hentries]

/-- Empty mappings are read as a pair of braces, and so they are read again. -/
theorem Value.ReadFrom.reread_eq {value : Value} (h : value.ReadFrom words place) : value.reread = value := by
  induction h with
  | toggle | absent | bool | int | text | set => rfl
  | @group _ entries _ _ _ ih =>
    cases entries with
    | nil => rfl
    | cons e entries => rw [reread, rereadEntries_of_forall ih]
  | @chain _ entries _ hne _ _ _ ih =>
    obtain ⟨e, entries, rfl⟩ := List.exists_cons_of_ne_nil hne
    rw [reread, rereadEntries_of_forall ih]

theorem distinctEntries_of_nodup {entries : Entries} (hnodup : (Assoc.keys entries).Nodup)
    (hvalues : ∀ e ∈ entries, e.2.distinct = true) : distinctEntries entries = true :=
  distinctEntries_iff.mpr ⟨hnodup, hvalues⟩

theorem Value.ReadFrom.distinct {value : Value} (h : value.ReadFrom words place) : value.distinct = true := by
  induction h with
  | toggle | absent | bool | int | text | set => rfl
  | group hnodup _ _ ih | chain _ _ hnodup _ _ ih => exact distinctEntries_of_nodup hnodup ih

/-- Holds of sorts of words that are all bare. -/
def Bare (words : Word → Prop) : Prop := ∀ w, words w → ∃ s, isBare s = true ∧ w = bareWord s

theorem isBare_of_named (hbare : Bare words) {s : String} (h : Named words s) : isBare s = true := by
  obtain ⟨w, hw, rfl⟩ := h
  obtain ⟨s, hs, rfl⟩ := hbare w hw
  exact hs

/-- A bare word that is read as a text is written as it stands. -/
theorem writable_of_value_bareWord {s text : String} (hs : isBare s = true)
    (hvalue : (bareWord s).value = .text text) : (Value.text text).writable place = true := by
  have hsame : text = s ∧ looksOther s = false := by
    rw [bareWord] at hvalue
    by_cases hdigits : s.toList.all Char.isDigit = true
    · rw [if_pos hdigits, Word.value, Value.ofDigits] at hvalue
      split at hvalue
      next => cases hvalue
      next hlarge =>
        cases hvalue
        have htrue : s ≠ "true" := by
          rintro rfl
          cases hdigits
        have hfalse : s ≠ "false" := by
          rintro rfl
          cases hdigits
        simp [looksOther, htrue, hfalse, hlarge]
    · rw [if_neg hdigits, Word.value, Value.ofWord] at hvalue
      split_ifs at hvalue with htrue hfalse
      cases hvalue
      simp [looksOther, htrue, hfalse, hdigits]
  rw [hsame.1, Value.writable, hs, hsame.2]
  simp

theorem writableEntries_of_forall {entries : Entries}
    (h : ∀ e ∈ entries, isBare e.1 = true ∧ e.2.writable place = true) : writableEntries place entries = true := by
  induction entries with
  | nil => rfl
  | cons e entries ih =>
    obtain ⟨key, value⟩ := e
    obtain ⟨⟨hkey, hvalue⟩, hentries⟩ := List.forall_mem_cons.mp h
    rw [writableEntries, hkey, hvalue, ih hentries]
    rfl

theorem Value.ReadFrom.writable (hbare : Bare words) {value : Value} (h : value.ReadFrom words place) :
    value.writable place = true := by
  induction h with
  | toggle hplace => exact bne_iff_ne.mpr hplace
  | absent | bool => rfl
  | int _ _ hsign => exact decide_eq_true hsign
  | text hw hvalue =>
    obtain ⟨s, hs, rfl⟩ := hbare _ hw
    exact writable_of_value_bareWord hs hvalue
  | set hne hitems =>
    rw [Value.writable, Bool.and_eq_true, List.all_eq_true]
    exact ⟨by simpa using hne, fun item hitem => isWritable_of_isBare (isBare_of_named hbare (hitems item hitem))⟩
  | @group _ entries _ hnames _ ih =>
    cases entries with
    | nil => rfl
    | cons e entries =>
      exact writableEntries_of_forall fun e he => ⟨isBare_of_named hbare (hnames e he), ih e he⟩
  | @chain place entries hplace hne _ hnames _ ih =>
    obtain ⟨e, entries, rfl⟩ := List.exists_cons_of_ne_nil hne
    rw [Value.writable, bne_iff_ne.mpr hplace, Bool.true_and]
    exact writableEntries_of_forall fun e he => ⟨isBare_of_named hbare (hnames e he), ih e he⟩

end ApplianceConfig
