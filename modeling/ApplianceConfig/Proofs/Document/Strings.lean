import ApplianceConfig.Proofs.Network.Address
import ApplianceConfig.Proofs.Template.Document

/-!
# Strings of documents

The strings of a document are its keys, the texts among its values and the items of its sets, at any depth. What is put together from texts without a dollar sign has none either.
-/

namespace ApplianceConfig

/-! ### Strings and their properties -/

mutual

/-- The strings of a value. -/
def Value.strings : Value → List String
  | .text s | .raw s => [s]
  | .set items => items
  | .map _ entries => stringsOf entries
  | _ => []

/-- The strings of entries, keys included. -/
def stringsOf : List (String × Value) → List String
  | [] => []
  | (key, value) :: rest => key :: (value.strings ++ stringsOf rest)

end

def Document.strings (doc : Document) : List String := stringsOf doc.entries

/-- Holds of values whose strings all have a property. -/
def Value.Within (P : String → Prop) (value : Value) : Prop := ∀ s ∈ value.strings, P s

/-- Holds of entries whose strings all have a property. -/
def Entries.Within (P : String → Prop) (entries : Entries) : Prop := ∀ s ∈ stringsOf entries, P s

section

variable {P : String → Prop}

instance [DecidablePred P] (value : Value) : Decidable (value.Within P) :=
  inferInstanceAs (Decidable (∀ s ∈ value.strings, P s))

instance [DecidablePred P] (entries : Entries) : Decidable (entries.Within P) :=
  inferInstanceAs (Decidable (∀ s ∈ stringsOf entries, P s))

namespace Value.Within

theorem text {s : String} (h : P s) : (Value.text s).Within P := List.forall_mem_singleton.mpr h

theorem raw {s : String} (h : P s) : (Value.raw s).Within P := List.forall_mem_singleton.mpr h

theorem set {items : List String} (h : ∀ item ∈ items, P item) : (Value.set items).Within P := h

theorem map {entries : Entries} (h : entries.Within P) (style : Style) : (Value.map style entries).Within P := h

theorem mono {value : Value} (h : value.Within P) {Q : String → Prop} (hweaker : ∀ s, P s → Q s) : value.Within Q :=
  fun s hs => hweaker s (h s hs)

end Value.Within

namespace Entries

theorem within_cons_iff {key : String} {value : Value} {entries : Entries} :
    Entries.Within P ((key, value) :: entries) ↔ (P key ∧ value.Within P) ∧ entries.Within P := by
  simp only [Within, Value.Within, stringsOf, List.forall_mem_cons, List.forall_mem_append, and_assoc]

theorem within_iff {entries : Entries} : entries.Within P ↔ ∀ e ∈ entries, P e.1 ∧ e.2.Within P := by
  induction entries with
  | nil => exact iff_of_true (List.forall_mem_nil _) (List.forall_mem_nil _)
  | cons e entries ih => rw [within_cons_iff, ih, List.forall_mem_cons]

namespace Within

variable {entries more : Entries} {key : String} {value : Value}

theorem single (hkey : P key) (hvalue : value.Within P) : Entries.Within P [(key, value)] :=
  within_cons_iff.mpr ⟨⟨hkey, hvalue⟩, List.forall_mem_nil _⟩

theorem append (h : entries.Within P) (hmore : more.Within P) : Entries.Within P (entries ++ more) := by
  rw [within_iff] at h hmore ⊢
  exact List.forall_mem_append.mpr ⟨h, hmore⟩

theorem object {keys : List String} (hkeys : ∀ key ∈ keys, P key) {name : String} (hname : P name)
    (h : entries.Within P) : Entries.Within P (object keys name entries) := by
  induction keys with
  | nil => exact single hname (.map h .braced)
  | cons key keys ih =>
    obtain ⟨hkey, hkeys⟩ := List.forall_mem_cons.mp hkeys
    exact single hkey (.map (ih hkeys) .chained)

end Within

end Entries

end

/-! ### Texts without dollar signs -/

/-- Holds of texts without a dollar sign. -/
def Plain (text : String) : Prop := '$' ∉ text.toList

instance : DecidablePred Plain := fun text => inferInstanceAs (Decidable ('$' ∉ text.toList))

namespace Plain

variable {first second : String}

theorem append (h : Plain first) (hsecond : Plain second) : Plain (first ++ second) := by
  rw [Plain, String.toList_append, List.mem_append, not_or]
  exact ⟨h, hsecond⟩

theorem intercalate {separator : String} (hseparator : Plain separator) {texts : List String}
    (h : ∀ text ∈ texts, Plain text) : Plain (separator.intercalate texts) := by
  match texts with
  | [] =>
    rw [String.intercalate_nil]
    decide
  | [text] =>
    rw [String.intercalate_singleton]
    exact h text List.mem_cons_self
  | text :: next :: rest =>
    obtain ⟨htext, hmore⟩ := List.forall_mem_cons.mp h
    rw [String.intercalate_cons_cons]
    exact (htext.append hseparator).append (intercalate hseparator hmore)

theorem of_isAddressText (h : Address.isAddressText first = true) : Plain first := by
  intro hmem
  have hdollar := List.all_eq_true.mp h '$' hmem
  cases hdollar

end Plain

end ApplianceConfig
