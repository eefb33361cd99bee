import ApplianceConfig.Proofs.Template.Cache
import Mathlib.Data.Finset.Card

/-!
# The template cache cannot be noticed

Whoever asks a cache for templates is given copies, and may change them at will. Whatever was asked for before, and whatever became of the copies, a template that the cache gives is what its text is read as. Only the counters show that there is a cache: each lookup is a hit or a miss, and the misses are the different templates that were looked up. So once all templates that have a text have been read, none of them is missed again.
-/

namespace ApplianceConfig

namespace Template

/-- What can be done with a cache and the copies that it gave away: ask for a template, have all templates read, or make anything else of the copies. -/
inductive Call
  | get (kind : Kind) (dialect : Dialect)
  | prewarm
  | change (f : List Document → List Document)

/-- A cache, and the copies that it gave away as they are now. -/
structure Client where
  cache : Cache := {}
  copies : List Document := []

namespace Client

def step (client : Client) : Call → Client
  | .get kind dialect =>
    match client.cache.get kind dialect with
    | (.ok template, cache) => { cache, copies := template :: client.copies }
    | (.error _, cache) => { client with cache }
  | .prewarm => { client with cache := client.cache.prewarm.2 }
  | .change f => { client with copies := f client.copies }

/-- The client that starts with an empty cache and goes through some calls. -/
def run (calls : List Call) : Client := calls.foldl step {}

end Client

/-- The templates that a call looks up, one after another. -/
def Call.lookups : Call → List (Kind × Dialect)
  | .get kind dialect => [(kind, dialect)]
  | .prewarm => registered
  | .change _ => []

theorem mem_registered_iff {kind : Kind} {dialect : Dialect} :
    (kind, dialect) ∈ registered ↔ (source? kind dialect).isSome = true := by
  have hdialect : dialect ∈ Dialect.all := by cases dialect <;> decide
  have hpair : (kind, dialect) ∈ Kind.all.flatMap fun kind => Dialect.all.map (kind, ·) :=
    List.mem_flatMap.mpr ⟨kind, kind.mem_all, List.mem_map_of_mem hdialect⟩
  rw [registered, List.mem_filter]
  exact and_iff_right hpair

namespace Cache

/-- The cache after some lookups: all that it keeps is true, and it keeps what was looked up and nothing else. -/
structure Served (cache : Cache) (lookups : List (Kind × Dialect)) : Prop where
  faithful : cache.Faithful
  tallied : cache.Tallied
  asked : cache.hits + cache.misses = lookups.length
  mem_keys_iff : ∀ key, key ∈ cache.keys ↔ key ∈ lookups

theorem served_empty : Served {} [] where
  faithful := ⟨nofun⟩
  tallied := tallied_empty
  asked := rfl
  mem_keys_iff := fun _ => Iff.rfl

namespace Served

variable {cache : Cache} {lookups : List (Kind × Dialect)} (h : cache.Served lookups)

include h

theorem get_eq (kind : Kind) (dialect : Dialect) : (cache.get kind dialect).1 = .ok (document kind dialect) := by
  rw [(h.faithful.get kind dialect).1, parse_eq]

theorem get (kind : Kind) (dialect : Dialect) : (cache.get kind dialect).2.Served (lookups ++ [(kind, dialect)]) where
  faithful := (h.faithful.get kind dialect).2
  tallied := h.tallied.get kind dialect
  asked := by rw [asked_get, h.asked, List.length_append, List.length_singleton]
  mem_keys_iff := by
    intro key
    rw [mem_keys_get, h.mem_keys_iff, List.mem_append, List.mem_singleton, or_comm]

theorem getAll (requests : List (Kind × Dialect)) :
    (cache.getAll requests).1 = .ok () ∧ (cache.getAll requests).2.Served (lookups ++ requests) := by
  induction requests generalizing cache lookups with
  | nil =>
    rw [List.append_nil]
    exact ⟨rfl, h⟩
  | cons request requests ih =>
    obtain ⟨kind, dialect⟩ := request
    have hnext := h.get kind dialect
    have hget : cache.get kind dialect = (.ok (document kind dialect), (cache.get kind dialect).2) :=
      Prod.ext (h.get_eq kind dialect) rfl
    rw [Cache.getAll, hget, List.append_cons]
    exact ih hnext

/-- There is one miss for each template that was looked up, and one template for each miss. -/
theorem misses_eq_card : cache.misses = lookups.toFinset.card := by
  have hkeys : lookups.toFinset = cache.keys.toFinset := by
    ext key
    rw [List.mem_toFinset, List.mem_toFinset, h.mem_keys_iff]
  rw [hkeys, List.toFinset_card_of_nodup h.tallied.nodup_keys, keys, List.length_map, h.tallied.misses_eq]

/-- What was looked up before is not missed. -/
theorem misses_eq_of_subset {next : Cache} {requests : List (Kind × Dialect)}
    (hnext : next.Served (lookups ++ requests)) (hrequests : requests ⊆ lookups) : next.misses = cache.misses := by
  have hsame : (lookups ++ requests).toFinset = lookups.toFinset := by
    ext key
    rw [List.mem_toFinset, List.mem_toFinset, List.mem_append]
    exact or_iff_left_of_imp fun hmem => hrequests hmem
  rw [hnext.misses_eq_card, h.misses_eq_card, hsame]

end Served

end Cache

namespace Client

theorem served_step {client : Client} {lookups : List (Kind × Dialect)} (h : client.cache.Served lookups)
    (call : Call) : (client.step call).cache.Served (lookups ++ call.lookups) := by
  cases call with
  | get kind dialect =>
    have hget : client.cache.get kind dialect = (.ok (document kind dialect), (client.cache.get kind dialect).2) :=
      Prod.ext (h.get_eq kind dialect) rfl
    rw [step, hget]
    exact h.get kind dialect
  | prewarm => exact (h.getAll registered).2
  | change f =>
    show client.cache.Served (lookups ++ [])
    rw [List.append_nil]
    exact h

theorem served_foldl {client : Client} {lookups : List (Kind × Dialect)} (h : client.cache.Served lookups)
    (calls : List Call) : (calls.foldl step client).cache.Served (lookups ++ calls.flatMap Call.lookups) := by
  induction calls generalizing client lookups with
  | nil =>
    rw [List.flatMap_nil, List.append_nil]
    exact h
  | cons call calls ih =>
    rw [List.foldl_cons, List.flatMap_cons, ← List.append_assoc]
    exact ih (served_step h call)

theorem served_run (calls : List Call) : (run calls).cache.Served (calls.flatMap Call.lookups) := by
  have hempty : ({} : Client).cache.Served [] := Cache.served_empty
  exact served_foldl hempty calls

/-- After any calls, whatever became of the copies, a cache gives what the text of a template is read as, and the empty document where there is no text. Its hits and misses are the lookups that were made, and both its misses and its templates are as many as the different templates that were looked up. Once all texts have been read, no template that has one is missed again. -/
theorem run_transparent (calls : List Call) :
    let cache := (run calls).cache
    let lookups := calls.flatMap Call.lookups
    (∀ kind dialect, ∃ template, (cache.get kind dialect).1 = .ok template ∧
        match source? kind dialect with
        | some text => Document.parse text = .ok template
        | none => template = {}) ∧
      cache.prewarm.1 = .ok () ∧
      (∃ hits misses entries, cache.stats = (hits, misses, entries) ∧ hits + misses = lookups.length ∧
        misses = entries ∧ entries = lookups.toFinset.card) ∧
      (.prewarm ∈ calls → cache.prewarm.2.misses = cache.misses ∧
        ∀ kind dialect, (source? kind dialect).isSome = true → (cache.get kind dialect).2.misses = cache.misses) := by
  intro cache lookups
  have hserved : cache.Served lookups := served_run calls
  refine ⟨fun kind dialect => ⟨_, hserved.get_eq kind dialect, ?_⟩, (hserved.getAll registered).1, ?_, ?_⟩
  · have hparse := parse_eq kind dialect
    unfold parse at hparse
    cases hsource : source? kind dialect with
    | some text => rwa [hsource] at hparse
    | none =>
      rw [hsource] at hparse
      exact (Except.ok.inj hparse).symm
  · have hentries : cache.templates.length = lookups.toFinset.card := by
      rw [← hserved.tallied.misses_eq, hserved.misses_eq_card]
    exact ⟨_, _, _, rfl, hserved.asked, hserved.tallied.misses_eq, hentries⟩
  · intro hprewarm
    have hregistered : registered ⊆ lookups := fun key hkey => List.mem_flatMap.mpr ⟨.prewarm, hprewarm, hkey⟩
    refine ⟨hserved.misses_eq_of_subset (hserved.getAll registered).2 hregistered, fun kind dialect hsource => ?_⟩
    apply hserved.misses_eq_of_subset (hserved.get kind dialect)
    intro key hkey
    rw [List.mem_singleton.mp hkey]
    exact hregistered (mem_registered_iff.mpr hsource)

/-- A copy is cleared before its template is asked for again, and a template without a text is looked up as well. -/
def clearedCopy : List Call :=
  [.get .node .modern, .change (List.map Document.clear), .get .node .modern, .get .profile .legacy, .prewarm]

/-- Of 35 lookups only the two templates that were there already are hits. -/
theorem run_transparent_clearedCopy :
    .prewarm ∈ clearedCopy ∧
      (∃ template, ((run clearedCopy).cache.get .profile .legacy).1 = .ok template ∧ template = {}) ∧
      (run clearedCopy).cache.stats = (2, 33, 33) ∧ (run clearedCopy).cache.prewarm.2.misses = 33 ∧
      ((run clearedCopy).cache.get .pool .legacy).2.misses = 33 := by
  have hprewarm : .prewarm ∈ clearedCopy := by simp [clearedCopy]
  have hasked : (clearedCopy.flatMap Call.lookups).length = 35 := by decide +kernel
  have hread : (clearedCopy.flatMap Call.lookups).toFinset.card = 33 := by decide +kernel
  have htext : (source? .pool .legacy).isSome = true := by decide
  obtain ⟨hget, -, ⟨hits, misses, entries, hstats, hsum, hmissed, hentries⟩, hwarm⟩ := run_transparent clearedCopy
  obtain ⟨hagain, hpool⟩ := hwarm hprewarm
  have hcount : hits = 2 ∧ misses = 33 ∧ entries = 33 := by omega
  obtain ⟨rfl, rfl, rfl⟩ := hcount
  obtain ⟨-, hmisses, -⟩ : (run clearedCopy).cache.hits = 2 ∧ (run clearedCopy).cache.misses = 33 ∧
      (run clearedCopy).cache.templates.length = 33 := by
    simpa only [Cache.stats, Prod.mk.injEq] using hstats
  exact ⟨hprewarm, hget .profile .legacy, hstats, hagain.trans hmisses, (hpool .pool .legacy htext).trans hmisses⟩

end Client

end Template

end ApplianceConfig
