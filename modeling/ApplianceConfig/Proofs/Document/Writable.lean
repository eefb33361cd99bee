import ApplianceConfig.Document.Encode
import ApplianceConfig.Document.Equality
import ApplianceConfig.Proofs.Grammar.Lexing
import ApplianceConfig.Text.Segments

/-!
# Documents that can be read back

Not every document has a text that is read back as the same document. Keys and bare texts have to be words, a value must not look like one of another sort, and chains can stand only where lines do. These conditions are checked entry by entry, together with the place of the entry. That a text can be read at all takes less: only its words have to be words.

Reading a text back keeps all of a document but the styles of its empty mappings, which are always written as a pair of braces.
-/

namespace ApplianceConfig

/-- Where a key stands: in a line of a document, in a chain on such a line, or between braces. -/
inductive Place
  | line
  | chain
  | block
  deriving DecidableEq

/-- Holds of texts that would be read back as something else when they are written bare. -/
def looksOther (s : String) : Bool :=
  s == "true" || s == "false" || (s.toList.all Char.isDigit && (Text.int64? s).isSome)

mutual

/-- Holds of values that can be written behind a key and read back. -/
def Value.writable (place : Place) : Value → Bool
  | .toggle => place != .chain
  | .absent | .bool _ => true
  | .int n => decide (0 ≤ n.toInt)
  | .text s => Quoted.needsQuotes s || (Grammar.isBare s && !looksOther s)
  | .raw _ => false
  | .set items => !items.isEmpty && items.all Grammar.isWritable
  | .map _ [] => true
  | .map .braced (e :: entries) => writableEntries .block (e :: entries)
  | .map .chained (e :: entries) => place != .block && writableEntries .chain (e :: entries)
  | .map .bare (_ :: _) => false

def writableEntries (place : Place) : List (String × Value) → Bool
  | [] => true
  | (key, value) :: rest =>
    Grammar.isBare key && value.writable place && writableEntries place rest

end

/-- The stretches of a text between its blanks. -/
def phraseWords (s : String) : List String := (Text.pieces ' ' s.toList).map String.ofList

mutual

/-- Holds of values whose text is cut again into the words and marks that it was put together from, even if these are read as something else. Raw text has to be words with a blank between any two of them. -/
def Value.spelled : Value → Bool
  | .toggle | .absent | .bool _ => true
  | .int n => decide (0 ≤ n.toInt)
  | .text s => Grammar.isWritable s
  | .raw s => (phraseWords s).all Grammar.isBare
  | .set items => items.all Grammar.isWritable
  | .map style entries => (entries.isEmpty || style == .braced) && spelledEntries entries

def spelledEntries : List (String × Value) → Bool
  | [] => true
  | (key, value) :: rest => Grammar.isBare key && value.spelled && spelledEntries rest

end

/-- Holds of documents whose text can be read back. -/
def Document.writable (doc : Document) : Bool := writableEntries .line doc.entries

mutual

/-- Holds when no mapping in a value has two entries of one key. -/
def Value.distinct : Value → Bool
  | .map _ entries => distinctEntries entries
  | _ => true

def distinctEntries : List (String × Value) → Bool
  | [] => true
  | (key, value) :: rest => !Assoc.contains rest key && value.distinct && distinctEntries rest

end

theorem distinctEntries_iff {entries : List (String × Value)} : distinctEntries entries = true ↔
    (Assoc.keys entries).Nodup ∧ ∀ e ∈ entries, e.2.distinct = true := by
  induction entries with
  | nil => simp [distinctEntries, Assoc.keys]
  | cons e rest ih =>
    obtain ⟨key, value⟩ := e
    have hkey : Assoc.contains rest key = false ↔ key ∉ Assoc.keys rest :=
      ⟨Assoc.not_mem_keys_of_contains, Assoc.contains_of_not_mem_keys⟩
    have hkeys : Assoc.keys ((key, value) :: rest) = key :: Assoc.keys rest := rfl
    rw [distinctEntries, Bool.and_eq_true, Bool.and_eq_true, Bool.not_eq_true', hkey, ih, hkeys,
      List.nodup_cons, List.forall_mem_cons]
    exact and_and_and_comm

/-- Holds when no mapping in a document has two entries of one key. -/
def Document.distinct (doc : Document) : Bool := distinctEntries doc.entries

mutual

/-- The value with all mappings in braces. Unlike normal forms it keeps the order within sets. -/
def Value.unstyled : Value → Value
  | .map _ entries => .map .braced (unstyledEntries entries)
  | value => value

def unstyledEntries : List (String × Value) → List (String × Value)
  | [] => []
  | (key, value) :: rest => (key, value.unstyled) :: unstyledEntries rest

end

/-- The document without its styles. -/
def Document.unstyled (doc : Document) : Document := { entries := unstyledEntries doc.entries }

mutual

/-- The value with its empty mappings in braces, as it is read back. -/
def Value.reread : Value → Value
  | .map _ [] => .map .braced []
  | .map style (e :: entries) => .map style (rereadEntries (e :: entries))
  | value => value

def rereadEntries : List (String × Value) → List (String × Value)
  | [] => []
  | (key, value) :: rest => (key, value.reread) :: rereadEntries rest

end

/-! ### What reading back keeps -/

mutual

theorem Value.unstyled_reread (value : Value) : value.reread.unstyled = value.unstyled := by
  match value with
  | .map _ [] => rfl
  | .map style (e :: entries) =>
    rw [Value.reread, Value.unstyled, Value.unstyled, unstyledEntries_reread (e :: entries)]
  | .toggle | .absent | .bool _ | .int _ | .text _ | .raw _ | .set _ => rfl

theorem unstyledEntries_reread (entries : List (String × Value)) :
    unstyledEntries (rereadEntries entries) = unstyledEntries entries := by
  match entries with
  | [] => rfl
  | (key, value) :: rest =>
    rw [rereadEntries, unstyledEntries, unstyledEntries, value.unstyled_reread,
      unstyledEntries_reread rest]

end

mutual

/-- Values that differ in their styles only mean the same. -/
theorem Value.same_of_unstyled {value other : Value} (h : value.unstyled = other.unstyled) :
    value.same other = true := by
  match value with
  | .map _ entries =>
    cases other with
    | map _ others => exact sameEntries_of_unstyled (Value.map.inj h).2
    | toggle | absent | bool | int | text | raw | set => cases h
  | .set items =>
    cases other with
    | set others =>
      cases h
      exact List.isPerm_iff.mpr (.refl items)
    | toggle | absent | bool | int | text | raw | map => cases h
  | .toggle | .absent | .bool _ | .int _ | .text _ | .raw _ =>
    cases other <;> simp_all [Value.unstyled, Value.same]

theorem sameEntries_of_unstyled {entries others : List (String × Value)}
    (h : unstyledEntries entries = unstyledEntries others) : sameEntries entries others = true := by
  match entries, others with
  | [], [] => rfl
  | [], _ :: _ | _ :: _, [] => cases h
  | (key, value) :: rest, (other, present) :: more =>
    rw [unstyledEntries, unstyledEntries, List.cons.injEq, Prod.mk.injEq] at h
    rw [sameEntries, h.1.1, Value.same_of_unstyled h.1.2, sameEntries_of_unstyled h.2]
    simp

end

theorem sameEntries_reread (entries : List (String × Value)) :
    sameEntries (rereadEntries entries) entries = true :=
  sameEntries_of_unstyled (unstyledEntries_reread entries)

mutual

theorem Encode.items_reread (indent level : Nat) (key : String) (value : Value) :
    items indent level key value.reread = items indent level key value := by
  match value with
  | .map _ [] => rfl
  | .map style (e :: entries) =>
    rw [Value.reread, rereadEntries, items, items, ← rereadEntries,
      itemsOf_reread indent level (key ++ " ") (e :: entries),
      itemsOf_reread indent (level + 1) "" (e :: entries)]
    rfl
  | .toggle | .absent | .bool _ | .int _ | .text _ | .raw _ | .set _ => rfl

theorem Encode.itemsOf_reread (indent level : Nat) (lead : String)
    (entries : List (String × Value)) :
    itemsOf indent level lead (rereadEntries entries) = itemsOf indent level lead entries := by
  match entries with
  | [] => rfl
  | (key, value) :: rest =>
    rw [rereadEntries, itemsOf, itemsOf, items_reread indent level (lead ++ key) value,
      itemsOf_reread indent level lead rest]

end

end ApplianceConfig
