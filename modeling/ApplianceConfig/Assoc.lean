/-!
# Ordered association lists

Keys with values, in the order in which the keys first came. Writing to a key that is already there keeps its place, so an association list is a function from keys to values together with an order on the keys. Every operation that starts from distinct keys ends with distinct keys.
-/

namespace ApplianceConfig

/-- Keys with values in order; only the first entry of a key counts. -/
abbrev Assoc (α : Type) := List (String × α)

namespace Assoc

variable {α : Type}

def keys (entries : Assoc α) : List String := entries.map Prod.fst

def get? (entries : Assoc α) (key : String) : Option α :=
  match entries with
  | [] => none
  | (k, v) :: rest => if k = key then some v else get? rest key

def contains (entries : Assoc α) (key : String) : Bool := (get? entries key).isSome

/-- Writes what `f` makes of the present value, in its place, or at the end when the key is new. -/
def alter (entries : Assoc α) (key : String) (f : Option α → α) : Assoc α :=
  match entries with
  | [] => [(key, f none)]
  | (k, v) :: rest => if k = key then (k, f (some v)) :: rest else (k, v) :: alter rest key f

def put (entries : Assoc α) (key : String) (value : α) : Assoc α :=
  alter entries key fun _ => value

/-- Adds entries one after another, each overwriting an earlier one of its key in place. -/
def putAll (entries : Assoc α) (more : Assoc α) : Assoc α :=
  more.foldl (fun es e => put es e.1 e.2) entries

def erase (entries : Assoc α) (key : String) : Assoc α :=
  match entries with
  | [] => []
  | (k, v) :: rest => if k = key then rest else (k, v) :: erase rest key

/-- Changes the value of a key that is there; fails when it is missing or `f` fails. -/
def modify? (entries : Assoc α) (key : String) (f : α → Option α) : Option (Assoc α) :=
  match entries with
  | [] => none
  | (k, v) :: rest =>
    if k = key then (f v).map fun w => (k, w) :: rest
    else (modify? rest key f).map ((k, v) :: ·)

/-- Gives the entry of `old` another key, in its place. -/
def rekey (entries : Assoc α) (old new : String) : Assoc α :=
  match entries with
  | [] => []
  | (k, v) :: rest => if k = old then (new, v) :: rest else (k, v) :: rekey rest old new

/-- Renames a key in its place. It fails when `old` is missing or `new` names another entry. -/
def rename? (entries : Assoc α) (old new : String) : Option (Assoc α) :=
  if !contains entries old then none
  else if new = old then some entries
  else if contains entries new then none
  else some (rekey entries old new)

@[simp] theorem get?_nil (key : String) : get? ([] : Assoc α) key = none := rfl

theorem mem_of_get? {entries : Assoc α} {key : String} {value : α} (h : get? entries key = some value) :
    (key, value) ∈ entries := by
  induction entries with
  | nil => simp at h
  | cons entry rest ih =>
    obtain ⟨k, v⟩ := entry
    rw [get?] at h
    by_cases hk : k = key
    · simp_all
    · rw [if_neg hk] at h
      exact List.mem_cons_of_mem _ (ih h)

theorem get?_of_mem {entries : Assoc α} (hnodup : (keys entries).Nodup) {key : String}
    {value : α} (h : (key, value) ∈ entries) : get? entries key = some value := by
  induction entries with
  | nil => cases h
  | cons entry rest ih =>
    obtain ⟨k, v⟩ := entry
    obtain ⟨hk, hrest⟩ := List.nodup_cons.mp hnodup
    rw [get?]
    rcases List.mem_cons.mp h with heq | hmem
    · cases heq
      rw [if_pos rfl]
    · have hkey : key ∈ keys rest := List.mem_map.mpr ⟨_, hmem, rfl⟩
      have hne : k ≠ key := by
        rintro rfl
        exact hk hkey
      rw [if_neg hne, ih hrest hmem]

theorem get?_append (entries more : Assoc α) (key : String) :
    get? (entries ++ more) key = (get? entries key).or (get? more key) := by
  induction entries with
  | nil => rfl
  | cons e entries ih =>
    rw [List.cons_append, get?, get?, ih]
    split <;> rfl

theorem get?_alter (entries : Assoc α) (key other : String) (f : Option α → α) :
    get? (alter entries key f) other =
      if key = other then some (f (get? entries key)) else get? entries other := by
  induction entries with
  | nil => simp only [alter, get?]
  | cons entry rest ih =>
    obtain ⟨k, v⟩ := entry
    by_cases hk : k = key <;> by_cases ho : key = other <;> grind [alter, get?]

theorem keys_alter (entries : Assoc α) (key : String) (f : Option α → α) :
    keys (alter entries key f) =
      if key ∈ keys entries then keys entries else keys entries ++ [key] := by
  induction entries with
  | nil => simp [alter, keys]
  | cons entry rest ih =>
    obtain ⟨k, v⟩ := entry
    by_cases hk : k = key <;> grind [alter, keys]

theorem nodup_keys_alter {entries : Assoc α} (h : (keys entries).Nodup) (key : String)
    (f : Option α → α) : (keys (alter entries key f)).Nodup := by
  rw [keys_alter]
  by_cases hkey : key ∈ keys entries
  · rwa [if_pos hkey]
  · rw [if_neg hkey]
    exact List.nodup_append.mpr ⟨h, by simp, by grind⟩

theorem mem_keys_alter {entries : Assoc α} {key other : String} {f : Option α → α} :
    other ∈ keys (alter entries key f) ↔ other = key ∨ other ∈ keys entries := by
  rw [keys_alter]
  by_cases hkey : key ∈ keys entries
  · rw [if_pos hkey]
    constructor
    · exact .inr
    · rintro (rfl | hother)
      · exact hkey
      · exact hother
  · rw [if_neg hkey, List.mem_append, List.mem_singleton, or_comm]

theorem alter_alter (entries : Assoc α) (key : String) (f g : Option α → α) :
    alter (alter entries key f) key g = alter entries key fun v => g (some (f v)) := by
  induction entries with
  | nil => simp [alter]
  | cons entry rest ih =>
    obtain ⟨k, v⟩ := entry
    by_cases hk : k = key <;> simp [alter, hk, ih]

/-- Writing to a key that is there changes places with writing to another key. -/
theorem alter_comm {entries : Assoc α} {key other : String} (hkey : key ∈ keys entries) (hne : key ≠ other)
    (f g : Option α → α) : alter (alter entries other g) key f = alter (alter entries key f) other g := by
  induction entries with
  | nil => cases hkey
  | cons entry rest ih =>
    obtain ⟨k, v⟩ := entry
    by_cases hk : k = key
    · subst hk
      simp [alter, hne]
    · have hrest : key ∈ keys rest := (List.mem_cons.mp hkey).resolve_left (Ne.symm hk)
      by_cases ho : k = other
      · subst ho
        simp [alter, hk]
      · simp [alter, hk, ho, ih hrest]

theorem alter_ne_nil (entries : Assoc α) (key : String) (f : Option α → α) :
    alter entries key f ≠ [] := by
  cases entries with
  | nil => exact List.cons_ne_nil _ _
  | cons e entries =>
    rw [alter]
    split <;> exact List.cons_ne_nil _ _

theorem mem_alter {entries : Assoc α} {key : String} {f : Option α → α} {e : String × α}
    (h : e ∈ alter entries key f) :
    e ∈ entries ∨ e = (key, f none) ∨ ∃ v, (key, v) ∈ entries ∧ e = (key, f (some v)) := by
  induction entries with
  | nil => exact .inr (.inl (List.mem_singleton.mp h))
  | cons entry rest ih =>
    obtain ⟨k, v⟩ := entry
    by_cases hk : k = key <;> grind [alter]

theorem mem_put {entries : Assoc α} {key : String} {value : α} {e : String × α}
    (h : e ∈ put entries key value) : e = (key, value) ∨ e ∈ entries := by
  obtain hmem | rfl | ⟨v, -, rfl⟩ := mem_alter h
  · exact .inr hmem
  · exact .inl rfl
  · exact .inl rfl

theorem mem_of_mem_erase {entries : Assoc α} {key : String} {e : String × α}
    (h : e ∈ erase entries key) : e ∈ entries := by
  induction entries with
  | nil => exact h
  | cons entry rest ih =>
    obtain ⟨k, v⟩ := entry
    by_cases hk : k = key <;> grind [erase]

theorem not_mem_keys_of_contains {entries : Assoc α} {key : String}
    (h : contains entries key = false) : key ∉ keys entries := by
  induction entries with
  | nil => exact List.not_mem_nil
  | cons e entries ih =>
    obtain ⟨k, v⟩ := e
    rw [contains, get?] at h
    by_cases hk : k = key
    · rw [if_pos hk] at h
      cases h
    · rw [if_neg hk] at h
      simp only [keys, List.map_cons, List.mem_cons, not_or]
      exact ⟨Ne.symm hk, ih h⟩

theorem contains_of_not_mem_keys {entries : Assoc α} {key : String} (h : key ∉ keys entries) :
    contains entries key = false := by
  have hnone : get? entries key = none := by
    induction entries with
    | nil => rfl
    | cons e entries ih =>
      rw [keys, List.map_cons, List.mem_cons, not_or] at h
      rw [get?, if_neg (Ne.symm h.1), ih h.2]
  rw [contains, hnone]
  rfl

end Assoc

end ApplianceConfig
