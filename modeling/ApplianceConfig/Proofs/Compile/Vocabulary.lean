import ApplianceConfig.Compile.System
import ApplianceConfig.Compile.Traffic
import ApplianceConfig.Proofs.Compile.Answers
import ApplianceConfig.Proofs.Document.Spelled
import ApplianceConfig.Proofs.Document.Strings

/-!
# Vocabularies

What is put together from the texts of stamps stays within bounds that can be drawn in more than one way: it may have to be words, so that it can be read back, or to have no dollar sign. A vocabulary is such a bound. It says which texts are words, which values may be written and which entries make a document, and it is closed under the ways in which recipes put texts, values and documents together. What is proved of recipes for all vocabularies holds of each.
-/

namespace ApplianceConfig

open Grammar

/-- Holds of texts that are words in every vocabulary. -/
def Fixed (s : String) : Prop := isBare s = true ∧ Plain s

instance : DecidablePred Fixed := fun s => inferInstanceAs (Decidable (isBare s = true ∧ Plain s))

/-- Holds of what makes one word of the texts around it in every vocabulary. -/
def FixedMark (s : String) : Prop := isMark s = true ∧ Plain s

instance : DecidablePred FixedMark := fun s => inferInstanceAs (Decidable (isMark s = true ∧ Plain s))

/-- Holds of values that may be written in every vocabulary. -/
def Value.Fixed (value : Value) : Prop := value.spelled = true ∧ value.Within Plain

instance : DecidablePred Value.Fixed := fun value =>
  inferInstanceAs (Decidable (value.spelled = true ∧ value.Within Plain))

/-- A class of texts, of values and of documents that recipes stay in. -/
structure Vocabulary where
  /-- Holds of texts that may be put around marks. -/
  part : String → Prop
  word : String → Prop
  value : Value → Prop
  document : Entries → Prop
  fixed {s : String} : Fixed s → word s
  part_of_word {s : String} : word s → part s
  part_of_isAddressText {s : String} : Address.isAddressText s = true → part s
  word_around {mark before after : String} : FixedMark mark → part before → part after → word (before ++ mark ++ after)
  word_render (address : Address) : word address.render
  value_fixed {v : Value} : v.Fixed → value v
  value_text {s : String} : word s → value (.text s)
  value_text_of_blank {s : String} : ' ' ∈ s.toList → value (.text s)
  value_hash (user : User) : value (.text user.passwordHash)
  value_set {items : List String} : (∀ item ∈ items, word item) → value (.set items)
  value_monitors {monitors : List String} :
    monitors ≠ [] → (∀ monitor ∈ monitors, word monitor) → value (monitorRule monitors)
  value_block {entries : Entries} : (∀ e ∈ entries, word e.1 ∧ value e.2) → value (.block entries)
  document_object {keys : List String} {name : String} {entries : Entries} : (∀ key ∈ keys, Fixed key) → word name →
    (∀ e ∈ entries, word e.1 ∧ value e.2) → document (object keys name entries)
  document_append {entries more : Entries} : document entries → document more → document (entries ++ more)
  document_under {key : String} {entries : Entries} : Fixed key → document entries →
    document [(key, .map .chained entries)]

/-- Holds of entries of words and values of a vocabulary. -/
def Entries.KeepsTo (V : Vocabulary) (entries : Entries) : Prop := ∀ e ∈ entries, V.word e.1 ∧ V.value e.2

/-- Holds when a document, if there is one, is in a vocabulary. -/
def Output.KeepsTo (V : Vocabulary) (output : Output) : Prop :=
  ∀ doc, output.value = some doc → V.document doc.entries

section

variable {V : Vocabulary}

namespace Vocabulary

variable (V)

theorem part_number (n : Nat) : V.part (toString n) := V.part_of_isAddressText (Address.isAddressText_toString n)

theorem value_number {n : Nat} (h : n < UInt32.size) : V.value (.number n) :=
  V.value_fixed ⟨Value.spelled_number h, List.forall_mem_nil _⟩

theorem block {entries : Entries} (h : entries.KeepsTo V) : V.value (.block entries) := V.value_block h

theorem object {keys : List String} (hkeys : ∀ key ∈ keys, Fixed key) {name : String} (hname : V.word name)
    {entries : Entries} (h : entries.KeepsTo V) : V.document (object keys name entries) :=
  V.document_object hkeys hname h

theorem value_fixedText {s : String} (h : Fixed s) : V.value (.text s) := V.value_text (V.fixed h)

end Vocabulary

namespace Entries.KeepsTo

variable {entries more : Entries} {key : String} {value : Value}

theorem nil : Entries.KeepsTo V [] := List.forall_mem_nil _

theorem cons (hkey : V.word key) (hvalue : V.value value) (h : entries.KeepsTo V) :
    Entries.KeepsTo V ((key, value) :: entries) := List.forall_mem_cons.mpr ⟨⟨hkey, hvalue⟩, h⟩

theorem single (hkey : V.word key) (hvalue : V.value value) : Entries.KeepsTo V [(key, value)] := cons hkey hvalue nil

theorem of_fixed (h : ∀ e ∈ entries, Fixed e.1 ∧ e.2.Fixed) : entries.KeepsTo V :=
  fun e he => ⟨V.fixed (h e he).1, V.value_fixed (h e he).2⟩

theorem append (h : entries.KeepsTo V) (hmore : more.KeepsTo V) : Entries.KeepsTo V (entries ++ more) :=
  List.forall_mem_append.mpr ⟨h, hmore⟩

theorem put (h : entries.KeepsTo V) (hkey : V.word key) (hvalue : V.value value) :
    Entries.KeepsTo V (Assoc.put entries key value) := Assoc.forall_mem_put h ⟨hkey, hvalue⟩

theorem erase (h : entries.KeepsTo V) (key : String) : Entries.KeepsTo V (Assoc.erase entries key) :=
  fun e he => h e (Assoc.mem_of_mem_erase he)

theorem putAll (h : entries.KeepsTo V) (hmore : more.KeepsTo V) : Entries.KeepsTo V (Assoc.putAll entries more) :=
  Assoc.forall_mem_putAll h hmore

theorem skipIf {skip : Bool} (h : entries.KeepsTo V) (hmore : skip = false → more.KeepsTo V) :
    Entries.KeepsTo V (if skip then entries else more) := by
  cases skip
  · exact hmore rfl
  · exact h

theorem putUnless {skip : Bool} (h : entries.KeepsTo V) (hkey : V.word key) (hvalue : skip = false → V.value value) :
    Entries.KeepsTo V (if skip then entries else Assoc.put entries key value) :=
  skipIf h fun hskip => put h hkey (hvalue hskip)

theorem putOrErase {missing : Bool} (h : entries.KeepsTo V) (hkey : V.word key)
    (hvalue : missing = false → V.value value) :
    Entries.KeepsTo V (if missing then Assoc.erase entries key else Assoc.put entries key value) :=
  skipIf (erase h key) fun hmissing => put h hkey (hvalue hmissing)

/-- Words, each with a value that is the same for all. -/
theorem putAll_map {keys : List String} (hkeys : ∀ key ∈ keys, V.word key) (hvalue : V.value value) :
    Entries.KeepsTo V (Assoc.putAll [] (keys.map fun key => (key, value))) :=
  putAll nil (List.forall_mem_map.mpr fun key hkey => ⟨hkeys key hkey, hvalue⟩)

theorem toggles {keys : List String} (hkeys : ∀ key ∈ keys, V.word key) : Entries.KeepsTo V (toggles keys) :=
  putAll_map hkeys (V.value_fixed (by decide))

theorem emptyObjects {keys : List String} (hkeys : ∀ key ∈ keys, V.word key) :
    Entries.KeepsTo V (emptyObjects keys) := putAll_map hkeys (V.value_fixed (by decide))

end Entries.KeepsTo

namespace Output.KeepsTo

theorem empty : Output.KeepsTo V {} := nofun

theorem of_entries {key : Option String} {entries : Entries} (h : V.document entries) :
    Output.KeepsTo V { key, value := some { entries } } := by
  rintro doc ⟨⟩
  exact h

end Output.KeepsTo

end

/-! ### The vocabulary of words -/

/-- Documents that are spelled in words. -/
def Vocabulary.words : Vocabulary where
  part s := isWordText s = true
  word s := isBare s = true
  value v := v.spelled = true
  document := Entries.Spelled
  fixed h := h.1
  part_of_word h := isWordText_of_isBare h
  part_of_isAddressText h := isWordText_of_isAddressText h
  word_around hmark hbefore hafter := isBare_around hmark.1 hbefore hafter
  word_render := isBare_render
  value_fixed h := h.1
  value_text h := Value.spelled_text_of_isBare h
  value_text_of_blank h := Value.spelled_text_of_blank h
  value_hash user := Value.spelled_text_of_isBare (isBare_hashWith _ user.password (by decide))
  value_set h := List.all_eq_true.mpr fun item hitem => isWritable_of_isBare (h item hitem)
  value_monitors hne h := Value.spelled_raw_intercalate (show isBare "and" = true by decide) hne h
  value_block h := (Value.spelled_block _).trans (spelledEntries_iff.mpr h)
  document_object hkeys hname h :=
    .object (fun key hkey => (hkeys key hkey).1) hname (spelledEntries_iff.mpr h)
  document_append h hmore := h.append hmore
  document_under hkey h := h.under hkey.1

end ApplianceConfig
