import ApplianceConfig.Proofs.Template.Document

/-!
# What the template cache keeps

The cache keeps what the texts of templates are read as, under distinct kinds and dialects, and it misses once for each template that it keeps. Asking it always gives a template, and either finds that the template is there or adds it.
-/

namespace ApplianceConfig

namespace Template.Cache

/-- A cache keeps only what templates are read as. -/
structure Faithful (cache : Cache) : Prop where
  parse_eq : ∀ {kind dialect template}, cache.find? kind dialect = some template →
    parse kind dialect = .ok template

theorem Faithful.get {cache : Cache} (h : cache.Faithful) (kind : Kind)
    (dialect : Dialect) :
    (cache.get kind dialect).1 = parse kind dialect ∧ (cache.get kind dialect).2.Faithful := by
  unfold Cache.get
  cases hfind : cache.find? kind dialect with
  | some template => exact ⟨(h.parse_eq hfind).symm, ⟨h.parse_eq⟩⟩
  | none =>
    cases hparse : parse kind dialect with
    | error e => exact ⟨rfl, ⟨h.parse_eq⟩⟩
    | ok template =>
      refine ⟨rfl, ⟨fun hfound => ?_⟩⟩
      rw [find?, List.lookup_cons] at hfound
      split at hfound
      · rename_i heq
        cases hfound
        rw [beq_iff_eq, Prod.mk.injEq] at heq
        rw [heq.1, heq.2, hparse]
      · exact h.parse_eq hfound

theorem Faithful.getAll {cache : Cache} (h : cache.Faithful)
    (requests : List (Kind × Dialect)) : (cache.getAll requests).2.Faithful := by
  induction requests generalizing cache with
  | nil => exact h
  | cons request requests ih =>
    obtain ⟨kind, dialect⟩ := request
    obtain ⟨-, hget⟩ := h.get kind dialect
    rw [Cache.getAll]
    generalize cache.get kind dialect = got at hget ⊢
    obtain ⟨found, next⟩ := got
    cases found with
    | error e => exact hget
    | ok template => exact ih hget

/-! ### Counters -/

/-- What the templates in the cache are found by. -/
def keys (cache : Cache) : List (Kind × Dialect) := cache.templates.map Prod.fst

/-- Each template in the cache was missed once. -/
structure Tallied (cache : Cache) : Prop where
  misses_eq : cache.misses = cache.templates.length
  nodup_keys : cache.keys.Nodup

theorem tallied_empty : Tallied {} := ⟨rfl, List.nodup_nil⟩

variable {cache : Cache} {kind : Kind} {dialect : Dialect}

theorem find?_eq_none_iff : cache.find? kind dialect = none ↔ (kind, dialect) ∉ cache.keys := by
  rw [find?, List.lookup_eq_none_iff, keys, List.mem_map, not_exists]
  refine forall_congr' fun entry => ?_
  rw [bne_iff_ne, not_and]
  exact imp_congr_right fun _ => ne_comm

/-- The cache always comes up with a template, a new one if it had none. -/
theorem get_cases (cache : Cache) (kind : Kind) (dialect : Dialect) :
    ((kind, dialect) ∈ cache.keys ∧
      ∃ template, cache.get kind dialect = (.ok template, { cache with hits := cache.hits + 1 })) ∨
    ((kind, dialect) ∉ cache.keys ∧
      ∃ template, cache.get kind dialect = (.ok template, {
        cache with
        misses := cache.misses + 1
        templates := ((kind, dialect), template) :: cache.templates })) := by
  cases hfind : cache.find? kind dialect with
  | some template =>
    refine .inl ⟨?_, template, by rw [get, hfind]⟩
    refine Decidable.byContradiction fun hkeys => ?_
    cases hfind.symm.trans (find?_eq_none_iff.mpr hkeys)
  | none =>
    refine .inr ⟨find?_eq_none_iff.mp hfind, document kind dialect, ?_⟩
    simp only [get, hfind, parse_eq]

theorem asked_get : (cache.get kind dialect).2.hits + (cache.get kind dialect).2.misses =
    cache.hits + cache.misses + 1 := by
  obtain ⟨-, template, hget⟩ | ⟨-, template, hget⟩ := cache.get_cases kind dialect
  · rw [hget, Nat.add_right_comm]
  · rw [hget, Nat.add_assoc]

theorem mem_keys_get {key : Kind × Dialect} :
    key ∈ (cache.get kind dialect).2.keys ↔ key = (kind, dialect) ∨ key ∈ cache.keys := by
  obtain ⟨hkeys, template, hget⟩ | ⟨-, template, hget⟩ := cache.get_cases kind dialect
  · rw [hget]
    exact ⟨.inr, fun hkey => hkey.elim (fun heq => heq ▸ hkeys) id⟩
  · rw [hget]
    exact List.mem_cons

theorem Tallied.get (h : cache.Tallied) (kind : Kind) (dialect : Dialect) : (cache.get kind dialect).2.Tallied := by
  obtain ⟨-, template, hget⟩ | ⟨hkeys, template, hget⟩ := cache.get_cases kind dialect
  · rw [hget]
    exact ⟨h.misses_eq, h.nodup_keys⟩
  · rw [hget]
    exact ⟨congrArg (· + 1) h.misses_eq, List.nodup_cons.mpr ⟨hkeys, h.nodup_keys⟩⟩

end Template.Cache

end ApplianceConfig
