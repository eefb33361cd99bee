import ApplianceConfig.Proofs.Document.Lines
import Mathlib.Data.List.Nodup

/-!
# Entries written one after another

Of several entries with one key, the value of the last stays, in the place of the first. So what is written under keys that are new and distinct stands behind everything else, in order, and of entries under one key that is written again and again only one is left.
-/

namespace ApplianceConfig

namespace Assoc

variable {α : Type} {entries more : Assoc α} {key : String}

theorem keys_append (entries more : Assoc α) : keys (entries ++ more) = keys entries ++ keys more := List.map_append

theorem put_append_of_not_mem (h : key ∉ keys entries) (rest : Assoc α) (value : α) :
    put (entries ++ rest) key value = entries ++ put rest key value := alter_append_of_not_mem h _

theorem put_of_not_mem (h : key ∉ keys entries) (value : α) : put entries key value = entries ++ [(key, value)] := by
  have hput := put_append_of_not_mem h [] value
  rwa [List.append_nil] at hput

theorem putAll_cons (entries : Assoc α) (e : String × α) (more : Assoc α) :
    putAll entries (e :: more) = putAll (put entries e.1 e.2) more := rfl

theorem not_mem_keys_of_nodup {e : String × α} (h : (keys (entries ++ e :: more)).Nodup) : e.1 ∉ keys entries := by
  rw [keys_append, List.nodup_append] at h
  exact fun hmem => h.2.2 e.1 hmem e.1 List.mem_cons_self rfl

/-- Entries under new and distinct keys come behind the others. -/
theorem putAll_of_nodup (h : (keys (entries ++ more)).Nodup) : putAll entries more = entries ++ more := by
  induction more generalizing entries with
  | nil => exact (List.append_nil entries).symm
  | cons e more ih =>
    rw [putAll_cons, put_of_not_mem (not_mem_keys_of_nodup h), ih (by rwa [List.append_assoc]), List.append_assoc]
    rfl

theorem putAll_nil_of_nodup (h : (keys more).Nodup) : putAll [] more = more := putAll_of_nodup h

theorem get?_put (entries : Assoc α) (key other : String) (value : α) :
    get? (put entries key value) other = if key = other then some value else get? entries other :=
  get?_alter ..

/-- What was written last under a key stays. -/
theorem get?_putAll (entries more : Assoc α) (key : String) :
    get? (putAll entries more) key = (get? more.reverse key).or (get? entries key) := by
  induction more generalizing entries with
  | nil => rfl
  | cons e more ih =>
    rw [putAll_cons, ih, get?_put, List.reverse_cons, get?_append, Option.or_assoc, get?, get?_nil]
    split <;> rfl

theorem nodup_keys_putAll (more : Assoc α) : (keys (putAll [] more)).Nodup :=
  List.foldlRecOn (motive := fun es => (keys es).Nodup) more _ List.nodup_nil fun _ hes e _ => nodup_keys_alter hes e.1 _

theorem mem_keys_putAll : key ∈ keys (putAll entries more) ↔ key ∈ keys entries ∨ key ∈ keys more := by
  induction more generalizing entries with
  | nil => simp [putAll, keys]
  | cons e more ih =>
    have hkeys : keys (e :: more) = e.1 :: keys more := rfl
    rw [putAll_cons, ih, put, mem_keys_alter, hkeys, List.mem_cons, or_assoc, or_left_comm]

/-- A key that is there and is written again and again among new and distinct ones keeps its place, with the value that it was given last. -/
theorem putAll_of_mem (hkey : key ∉ keys entries) (value : α) (rest : Assoc α)
    (hnodup : (keys (entries ++ rest ++ more.filter (·.1 ≠ key))).Nodup) :
    putAll (entries ++ (key, value) :: rest) more =
      entries ++ (key, (get? more.reverse key).getD value) :: (rest ++ more.filter (·.1 ≠ key)) := by
  induction more generalizing value rest with
  | nil => rw [putAll, List.foldl_nil, List.filter_nil, List.append_nil]; rfl
  | cons e more ih =>
    obtain ⟨k, v⟩ := e
    rw [putAll_cons, List.reverse_cons, get?_append]
    by_cases hk : k = key
    · subst hk
      have hfilter : ((k, v) :: more).filter (·.1 ≠ k) = more.filter (·.1 ≠ k) := List.filter_cons_of_neg (by simp)
      rw [hfilter] at hnodup ⊢
      rw [put_append_of_not_mem hkey, put, alter, if_pos rfl, ih v rest hnodup]
      cases get? more.reverse k <;> simp [get?]
    · have hfilter : ((k, v) :: more).filter (·.1 ≠ key) = (k, v) :: more.filter (·.1 ≠ key) :=
        List.filter_cons_of_pos (by simpa using hk)
      rw [hfilter] at hnodup ⊢
      have hnew : k ∉ keys (entries ++ (key, value) :: rest) := by
        have hk' := not_mem_keys_of_nodup hnodup
        simp only [keys_append, List.mem_append, not_or] at hk' ⊢
        refine ⟨hk'.1, fun hmem => ?_⟩
        exact (List.mem_cons.mp hmem).elim hk hk'.2
      rw [put_of_not_mem hnew, List.append_assoc, List.cons_append, ih value (rest ++ [(k, v)])]
      · simp [get?, hk]
      · rwa [← List.append_assoc, List.append_assoc (entries ++ rest)]

theorem forall_mem_put {P : String × α → Prop} {value : α} (h : ∀ e ∈ entries, P e) (hnew : P (key, value)) :
    ∀ e ∈ put entries key value, P e := by
  intro e he
  rcases mem_put he with rfl | hmem
  · exact hnew
  · exact h e hmem

theorem forall_mem_putAll {P : String × α → Prop} (h : ∀ e ∈ entries, P e) (hmore : ∀ e ∈ more, P e) :
    ∀ e ∈ putAll entries more, P e := by
  induction more generalizing entries with
  | nil => exact h
  | cons e more ih =>
    obtain ⟨hnew, hmore⟩ := List.forall_mem_cons.mp hmore
    exact ih (forall_mem_put h hnew) hmore

/-! ### What is left -/

theorem get?_eq_some_iff {value : α} :
    get? entries key = some value ↔ ∃ front back, entries = front ++ (key, value) :: back ∧ key ∉ keys front := by
  induction entries with
  | nil => simp
  | cons e entries ih =>
    obtain ⟨k, v⟩ := e
    rw [get?]
    by_cases hk : k = key
    · subst hk
      rw [if_pos rfl]
      constructor
      · rintro ⟨⟩
        exact ⟨[], entries, rfl, List.not_mem_nil⟩
      · rintro ⟨front, back, hsplit, hnew⟩
        cases front with
        | nil => cases hsplit; rfl
        | cons e front =>
          cases hsplit
          exact absurd List.mem_cons_self hnew
    · rw [if_neg hk, ih]
      constructor
      · rintro ⟨front, back, rfl, hnew⟩
        exact ⟨(k, v) :: front, back, rfl, fun hmem => (List.mem_cons.mp hmem).elim (Ne.symm hk) hnew⟩
      · rintro ⟨front, back, hsplit, hnew⟩
        cases front with
        | nil =>
          cases hsplit
          exact absurd rfl hk
        | cons e front =>
          cases hsplit
          exact ⟨front, back, rfl, fun hmem => hnew (List.mem_cons_of_mem _ hmem)⟩

/-- The entries that are left are those that no later one has the key of. -/
theorem mem_putAll_iff {e : String × α} :
    e ∈ putAll [] more ↔ ∃ before after, more = before ++ e :: after ∧ e.1 ∉ keys after := by
  have hmem : e ∈ putAll [] more ↔ get? more.reverse e.1 = some e.2 := by
    have hget := get?_putAll [] more e.1
    rw [get?_nil, Option.or_none] at hget
    rw [← hget]
    exact ⟨get?_of_mem (nodup_keys_putAll more), mem_of_get?⟩
  rw [hmem, get?_eq_some_iff]
  constructor
  · rintro ⟨front, back, hsplit, hnew⟩
    refine ⟨back.reverse, front.reverse, ?_, by simpa [keys] using hnew⟩
    rw [← more.reverse_reverse, hsplit]
    simp
  · rintro ⟨before, after, rfl, hnew⟩
    exact ⟨after.reverse, before.reverse, by simp, by simpa [keys] using hnew⟩

/-- Of entries that differ, all are left exactly if their keys differ. -/
theorem forall_mem_putAll_iff (hdistinct : more.Nodup) :
    (∀ e ∈ more, e ∈ putAll [] more) ↔ (keys more).Nodup := by
  constructor
  · intro hleft
    refine hdistinct.map_on fun e he f hf hkey => Prod.ext hkey ?_
    have hnodup := nodup_keys_putAll more
    have hfirst := get?_of_mem hnodup (hleft e he)
    rw [hkey, get?_of_mem hnodup (hleft f hf)] at hfirst
    exact (Option.some.inj hfirst).symm
  · intro hnodup e he
    rwa [putAll_nil_of_nodup hnodup]

end Assoc

end ApplianceConfig
