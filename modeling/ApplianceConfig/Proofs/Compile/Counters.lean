import ApplianceConfig.Proofs.Compile.Session
import Mathlib.Algebra.BigOperators.Group.Finset.Basic
import Mathlib.Data.Finset.Card

/-!
# Counters of sessions

The template cache is asked once for each run of a recipe, and for nothing else. So its hits and misses add up to the runs of all stamps, and it misses once for each kind and dialect that recipes were run for. A run that fails is counted like any other. A stamp that has a result is not run again.

The counter of a stamp has 32 bits. It tells how often the stamp has been run up to multiples of `2 ^ 32`, and a stamp that fails time and again brings it back to zero.
-/

namespace ApplianceConfig

/-- What a stamp's template is found by: its kind, and the dialect that it is written in. -/
def Tree.templateKey? (tree : Tree) (id : StampId) : Option (Kind × Dialect) :=
  (tree.stamp? id).map fun stamp => (stamp.kind, stamp.dialect tree.context.version)

theorem Tree.templateKey?_of_slot {tree : Tree} {id : StampId} {slot : Slot} (h : tree.slot? id = some slot) :
    tree.templateKey? id = some (slot.stamp.kind, slot.stamp.dialect tree.context.version) := by
  rw [templateKey?, stamp?, h]
  rfl

/-! ### Ledgers -/

namespace Ledger

/-- The counters of a ledger agree with the runs of stamps of a tree. -/
structure Counted (tree : Tree) (ledger : Ledger) : Prop where
  cache : ledger.cache.Tallied
  asked : ledger.cache.hits + ledger.cache.misses = ledger.runs.length
  mem_keys_iff : ∀ key, key ∈ ledger.cache.keys ↔ ∃ id ∈ ledger.runs, tree.templateKey? id = some key
  lt_length : ∀ id ∈ ledger.runs, id < tree.slots.length
  ran : ∀ {id compiled}, ledger.result? id = some compiled → id ∈ ledger.runs

/-- What computations on a tree do to a ledger, whether they fail or not: its counters stay in agreement, none goes down, and stamps that have a result keep it and are not run again. -/
structure Advances (tree : Tree) (before after : Ledger) : Prop where
  counted : before.Counted tree → after.Counted tree
  count_le : ∀ id, before.runs.count id ≤ after.runs.count id
  settled : ∀ {id compiled}, before.result? id = some compiled →
    after.result? id = some compiled ∧ after.runs.count id = before.runs.count id

/-- The ledger after a stamp's template has been asked for and the run of its recipe has been noted. -/
def entered (ledger : Ledger) (id : StampId) (kind : Kind) (dialect : Dialect) : Ledger :=
  { ledger with cache := (ledger.cache.get kind dialect).2, runs := id :: ledger.runs }

variable {tree : Tree} {before after : Ledger}

theorem counted_empty (tree : Tree) : ({} : Ledger).Counted tree where
  cache := Template.Cache.tallied_empty
  asked := rfl
  mem_keys_iff := by simp [Template.Cache.keys]
  lt_length := nofun
  ran := nofun

/-- A counter shows the number of runs up to multiples of `2 ^ 32`. -/
theorem count_eq (ledger : Ledger) (id : StampId) : ledger.count id = ledger.runs.count id % 2 ^ 32 := by
  rw [count, counter]
  induction ledger.runs with
  | nil => rfl
  | cons run runs ih =>
    rw [List.foldr_cons, List.count_cons]
    by_cases hrun : run = id
    · rw [if_pos hrun, UInt32.toNat_add, ih, hrun, beq_self_eq_true, if_pos rfl, UInt32.toNat_one, Nat.mod_add_mod]
    · rw [if_neg hrun, ih, beq_false_of_ne hrun]
      rfl

theorem count_eq_of_lt {ledger : Ledger} {id : StampId} (h : ledger.runs.count id < 2 ^ 32) :
    ledger.count id = ledger.runs.count id := by
  rw [count_eq, Nat.mod_eq_of_lt h]

theorem count_congr {id : StampId} (h : after.runs.count id = before.runs.count id) : after.count id = before.count id := by
  rw [count_eq, count_eq, h]

theorem result?_finish_ok (ledger : Ledger) (id other : StampId) (compiled : Compiled) :
    (ledger.finish id (.ok compiled)).result? other =
      if other = id then some compiled else ledger.result? other := by
  rw [finish, result?, List.lookup_cons, result?]
  by_cases h : other = id
  · rw [if_pos h, h, beq_self_eq_true]
  · rw [if_neg h, beq_false_of_ne h]

theorem runs_finish (ledger : Ledger) (id : StampId) (result : Except CompileError Compiled) :
    (ledger.finish id result).runs = ledger.runs := by
  cases result <;> rfl

namespace Advances

theorem refl (tree : Tree) (ledger : Ledger) : ledger.Advances tree ledger where
  counted := fun h => h
  count_le := fun _ => Nat.le_refl _
  settled := fun h => ⟨h, rfl⟩

theorem trans {last : Ledger} (h : before.Advances tree after) (hlast : after.Advances tree last) :
    before.Advances tree last where
  counted := fun hbefore => hlast.counted (h.counted hbefore)
  count_le := fun id => Nat.le_trans (h.count_le id) (hlast.count_le id)
  settled := by
    intro id compiled hresult
    obtain ⟨hafter, hcount⟩ := h.settled hresult
    obtain ⟨hkept, hsame⟩ := hlast.settled hafter
    exact ⟨hkept, hsame.trans hcount⟩

end Advances

namespace Counted

theorem exists_slot {ledger : Ledger} (h : ledger.Counted tree) {id : StampId} (hid : id ∈ ledger.runs) :
    ∃ slot, tree.slot? id = some slot := ⟨_, List.getElem?_eq_getElem (h.lt_length id hid)⟩

theorem entered {ledger : Ledger} (h : ledger.Counted tree) {id : StampId} {slot : Slot}
    (hslot : tree.slot? id = some slot) :
    (ledger.entered id slot.stamp.kind (slot.stamp.dialect tree.context.version)).Counted tree where
  cache := h.cache.get _ _
  asked := Template.Cache.asked_get.trans (congrArg (· + 1) h.asked)
  mem_keys_iff := by
    intro key
    refine Template.Cache.mem_keys_get.trans ?_
    simp only [Ledger.entered, List.exists_mem_cons_iff, Tree.templateKey?_of_slot hslot, h.mem_keys_iff,
      Option.some.injEq]
    exact or_congr_left eq_comm
  lt_length := List.forall_mem_cons.mpr ⟨(List.getElem?_eq_some_iff.mp hslot).1, h.lt_length⟩
  ran := fun hresult => List.mem_cons_of_mem id (h.ran hresult)

theorem finish {ledger : Ledger} (h : ledger.Counted tree) {id : StampId} (hid : id ∈ ledger.runs)
    (result : Except CompileError Compiled) : (ledger.finish id result).Counted tree := by
  cases result with
  | error e => exact ⟨h.cache, h.asked, h.mem_keys_iff, h.lt_length, h.ran⟩
  | ok compiled =>
    refine ⟨h.cache, h.asked, h.mem_keys_iff, h.lt_length, fun {other found} hfound => ?_⟩
    rw [result?_finish_ok] at hfound
    split at hfound
    · rename_i heq
      exact heq ▸ hid
    · exact h.ran hfound

end Counted

/-- The stamps of a larger tree have been run as often as they had been in the smaller one. -/
theorem Counted.grow {ledger : Ledger} (h : ledger.Counted tree) {larger : Tree} (hgrows : tree.Grows larger) :
    ledger.Counted larger where
  cache := h.cache
  asked := h.asked
  mem_keys_iff := by
    intro key
    rw [h.mem_keys_iff]
    refine exists_congr fun id => and_congr_right fun hid => ?_
    obtain ⟨slot, hslot⟩ := h.exists_slot hid
    obtain ⟨later, hlater, hstamp, -⟩ := hgrows.slot hslot
    rw [Tree.templateKey?_of_slot hslot, Tree.templateKey?_of_slot hlater, hstamp, hgrows.context]
  lt_length := by
    intro id hid
    obtain ⟨slot, hslot⟩ := h.exists_slot hid
    obtain ⟨later, hlater, -⟩ := hgrows.slot hslot
    exact (List.getElem?_eq_some_iff.mp hlater).1
  ran := h.ran

section Sums

variable {ledger : Ledger} (h : ledger.Counted tree)

include h

theorem Counted.sum_runs :
    ∑ id ∈ Finset.range tree.slots.length, ledger.runs.count id = ledger.cache.hits + ledger.cache.misses := by
  have hruns : ∀ id ∈ (ledger.runs : Multiset StampId), id ∈ Finset.range tree.slots.length :=
    fun id hid => Finset.mem_range.mpr (h.lt_length id hid)
  have hsum := (Multiset.sum_count_eq_card hruns).trans h.asked.symm
  simp only [Multiset.coe_count] at hsum
  exact hsum

theorem Counted.sum_count_mod : (∑ id ∈ Finset.range tree.slots.length, ledger.count id) % 2 ^ 32 =
    (ledger.cache.hits + ledger.cache.misses) % 2 ^ 32 := by
  simp only [count_eq]
  rw [← Finset.sum_nat_mod, h.sum_runs]

theorem Counted.sum_count (hfew : ∀ id, ledger.runs.count id < 2 ^ 32) :
    ∑ id ∈ Finset.range tree.slots.length, ledger.count id = ledger.cache.hits + ledger.cache.misses := by
  rw [← h.sum_runs]
  exact Finset.sum_congr rfl fun id _ => count_eq_of_lt (hfew id)

/-- The cache has as many templates as there are kinds and dialects of stamps that have been run. -/
theorem Counted.card_templateKey? :
    (((Finset.range tree.slots.length).filter (· ∈ ledger.runs)).image tree.templateKey?).card =
      ledger.cache.templates.length := by
  have himage : ((Finset.range tree.slots.length).filter (· ∈ ledger.runs)).image tree.templateKey? =
      (ledger.cache.keys.map some).toFinset := by
    ext key
    simp only [Finset.mem_image, Finset.mem_filter, Finset.mem_range, List.mem_toFinset, List.mem_map]
    constructor
    · rintro ⟨id, ⟨-, hid⟩, rfl⟩
      obtain ⟨slot, hslot⟩ := h.exists_slot hid
      have hkey := Tree.templateKey?_of_slot hslot
      exact ⟨_, (h.mem_keys_iff _).mpr ⟨id, hid, hkey⟩, hkey.symm⟩
    · rintro ⟨key, hkey, rfl⟩
      obtain ⟨id, hid, hown⟩ := (h.mem_keys_iff key).mp hkey
      exact ⟨id, ⟨h.lt_length id hid, hid⟩, hown⟩
  have hnodup : (ledger.cache.keys.map some).Nodup := h.cache.nodup_keys.map (Option.some_injective _)
  rw [himage, List.toFinset_card_of_nodup hnodup, List.length_map, Template.Cache.keys, List.length_map]

end Sums

/-- A stamp that had no result is entered, other stamps are compiled for it, and then it is finished. -/
theorem Advances.around {id : StampId} {slot : Slot} (hslot : tree.slot? id = some slot)
    (hresult : before.result? id = none)
    (h : ((before.begin id).entered id slot.stamp.kind (slot.stamp.dialect tree.context.version)).Advances tree after)
    (result : Except CompileError Compiled) : before.Advances tree (after.finish id result) where
  counted := by
    intro hbefore
    have hbegin : (before.begin id).Counted tree :=
      ⟨hbefore.cache, hbefore.asked, hbefore.mem_keys_iff, hbefore.lt_length, hbefore.ran⟩
    refine (h.counted (hbegin.entered hslot)).finish (List.count_pos_iff.mp ?_) result
    exact Nat.lt_of_lt_of_le (List.count_pos_iff.mpr List.mem_cons_self) (h.count_le id)
  count_le := by
    intro other
    rw [runs_finish]
    exact Nat.le_trans List.count_le_count_cons (h.count_le other)
  settled := by
    intro other compiled hother
    have hne : other ≠ id := by
      rintro rfl
      cases hresult.symm.trans hother
    obtain ⟨hkept, hcount⟩ := h.settled hother
    refine ⟨?_, ?_⟩
    · cases result with
      | error e => exact hkept
      | ok own => rw [result?_finish_ok, if_neg hne, hkept]
    · rw [runs_finish, hcount]
      exact List.count_cons_of_ne hne.symm

end Ledger

/-! ### Computations -/

namespace Compile

variable {α β : Type} {tree : Tree}

/-- A computation that only goes on with the counting. -/
def Advances (tree : Tree) (x : Compile α) : Prop := ∀ ledger : Ledger, ledger.Advances tree (x ledger).2

theorem advances_pure (a : α) : Advances tree (pure a) := Ledger.Advances.refl tree

theorem advances_raise (e : CompileError) : Advances tree (raise e : Compile α) := Ledger.Advances.refl tree

theorem Advances.bind {x : Compile α} (h : Advances tree x) {f : α → Compile β}
    (hnext : ∀ a, Advances tree (f a)) : Advances tree (x >>= f) := by
  intro ledger
  have hx := h ledger
  change ledger.Advances tree (andThen x f ledger).2
  unfold andThen
  generalize x ledger = got at hx ⊢
  obtain ⟨result, after⟩ := got
  cases result with
  | error e => exact hx
  | ok a => exact hx.trans (hnext a after)

theorem Advances.referredBy {x : Compile α} (h : Advances tree x) (kind : Kind) :
    Advances tree (referredBy kind x) := by
  intro ledger
  have hx := h ledger
  unfold Compile.referredBy
  generalize x ledger = got at hx ⊢
  obtain ⟨result, after⟩ := got
  cases result <;> exact hx

theorem Advances.mapM {f : α → Compile β} (h : ∀ a, Advances tree (f a)) (items : List α) :
    Advances tree (items.mapM f) := by
  have hloop : ∀ done, Advances tree (List.mapM.loop f items done) := by
    induction items with
    | nil => exact fun done => advances_pure _
    | cons a items ih => exact fun done => (h a).bind fun b => ih (b :: done)
  exact hloop []

theorem advances_run {rank : Nat}
    {answer : (id : StampId) → (kind : Kind) → kind.rank < rank → Compile String}
    (h : ∀ id kind lower, Advances tree (answer id kind lower)) (recipe : Recipe rank α) :
    Advances tree (recipe.run raise answer) := by
  induction recipe with
  | done result => exact advances_pure result
  | fail e => exact advances_raise e
  | refer id kind lower next ih => exact (h id kind lower).bind ih

/-- A recipe is run on a template that the cache came up with. -/
theorem exists_runRecipe_eq (tree : Tree) (id : StampId) (stamp : Stamp) (folder : FolderId)
    (answer : (id : StampId) → (kind : Kind) → kind.rank < stamp.kind.rank → Compile String) (ledger : Ledger) :
    let dialect := stamp.dialect tree.context.version
    ∃ template, (ledger.cache.get stamp.kind dialect).1 = .ok template ∧
      tree.runRecipe id stamp folder answer ledger =
        (do
          let output ← (stamp.recipe dialect (tree.scope folder stamp.kind) template).run raise answer
          return { key := output.key, value := output.value, dialect } : Compile Compiled)
        (ledger.entered id stamp.kind dialect) := by
  intro dialect
  have hget : ∃ template, (ledger.cache.get stamp.kind dialect).1 = .ok template := by
    obtain ⟨-, template, hget⟩ | ⟨-, template, hget⟩ := ledger.cache.get_cases stamp.kind dialect
    · exact ⟨template, congrArg Prod.fst hget⟩
    · exact ⟨template, congrArg Prod.fst hget⟩
  obtain ⟨template, hget⟩ := hget
  refine ⟨template, hget, ?_⟩
  have htemplate : Compile.template stamp.kind dialect ledger =
      (.ok template, { ledger with cache := (ledger.cache.get stamp.kind dialect).2 }) := by
    unfold Compile.template
    generalize ledger.cache.get stamp.kind dialect = got at hget ⊢
    obtain ⟨found, cache⟩ := got
    cases hget
    rfl
  change andThen (Compile.template stamp.kind dialect) _ ledger = _
  rw [andThen, htemplate]
  rfl

theorem advances_compileSlot {id : StampId} {slot : Slot} (hslot : tree.slot? id = some slot)
    {answer : (id : StampId) → (kind : Kind) → kind.rank < slot.stamp.kind.rank → Compile String}
    (hanswer : ∀ target kind lower, Advances tree (answer target kind lower)) :
    Advances tree (tree.compileSlot id slot answer) := by
  intro ledger
  unfold Tree.compileSlot
  cases hresult : ledger.result? id with
  | some compiled => exact .refl tree ledger
  | none =>
    cases slot.folder with
    | none => exact .refl tree ledger
    | some folder =>
      by_cases hrunning : ledger.running.contains id = true
      · simp only [if_pos hrunning]
        exact .refl tree ledger
      · simp only [if_neg hrunning]
        obtain ⟨template, -, heq⟩ := exists_runRecipe_eq tree id slot.stamp folder answer (ledger.begin id)
        rw [heq]
        refine Ledger.Advances.around hslot hresult ?_ _
        exact ((advances_run hanswer _).bind fun output => advances_pure _) _

theorem advances_compileBelow {bound : Nat} {id : StampId} {slot : Slot} (hslot : tree.slot? id = some slot)
    (hrank : slot.stamp.kind.rank < bound) : Advances tree (tree.compileBelow bound id slot hrank) := by
  induction bound generalizing id slot with
  | zero => exact absurd hrank (Nat.not_lt_zero _)
  | succ bound ih =>
    refine advances_compileSlot hslot fun target kind lower => ?_
    cases htarget : tree.slot? target with
    | none => exact advances_raise _
    | some other =>
      by_cases hkind : other.stamp.kind = kind
      · simp only [dif_pos hkind]
        refine ((ih htarget _).referredBy _).bind fun compiled => ?_
        cases compiled.key with
        | some key => exact advances_pure key
        | none => exact advances_raise _
      · simp only [dif_neg hkind]
        exact advances_raise _

theorem advances_compile (tree : Tree) (id : StampId) : Advances tree (tree.compile id) := by
  unfold Tree.compile
  cases hslot : tree.slot? id with
  | none => exact advances_raise _
  | some slot => exact advances_compileBelow hslot _

theorem advances_reference (tree : Tree) (id : StampId) : Advances tree (tree.reference id) :=
  (advances_compile tree id).bind fun compiled => advances_pure compiled.key

theorem advances_render (tree : Tree) (start : FolderId) (options : RenderOptions) (wanted : Stamp → Bool) :
    Advances tree (tree.render start options wanted) := by
  have hstamp (id : StampId) : Advances tree (tree.renderStamp options.indent id) := by
    refine (advances_compile tree id).bind fun compiled => ?_
    cases compiled.value with
    | some doc => exact advances_pure _
    | none => exact advances_pure _
  exact (Advances.mapM hstamp _).bind fun texts => advances_pure _

end Compile

/-! ### Results that are kept -/

namespace Compile

variable {tree : Tree} {ledger : Ledger} {compiled : Compiled}

theorem result?_of_compileSlot {id : StampId} {slot : Slot}
    {answer : (id : StampId) → (kind : Kind) → kind.rank < slot.stamp.kind.rank → Compile String}
    (h : (tree.compileSlot id slot answer ledger).1 = .ok compiled) :
    (tree.compileSlot id slot answer ledger).2.result? id = some compiled := by
  unfold Tree.compileSlot at h ⊢
  cases hresult : ledger.result? id with
  | some found =>
    simp only [hresult] at h
    cases h
    exact hresult
  | none =>
    cases hfolder : slot.folder with
    | none =>
      simp only [hresult, hfolder] at h
      cases h
    | some folder =>
      by_cases hrunning : ledger.running.contains id = true
      · simp only [hresult, hfolder, if_pos hrunning] at h
        cases h
      · simp only [hresult, hfolder, if_neg hrunning] at h ⊢
        rw [h, Ledger.result?_finish_ok, if_pos rfl]

/-- A stamp that is compiled keeps its result. -/
theorem result?_of_compile {id : StampId} (h : (tree.compile id ledger).1 = .ok compiled) :
    (tree.compile id ledger).2.result? id = some compiled := by
  unfold Tree.compile at h ⊢
  cases hslot : tree.slot? id with
  | none =>
    rw [hslot] at h
    cases h
  | some slot =>
    rw [hslot] at h
    exact result?_of_compileSlot h

end Compile

/-! ### Stamps that fail -/

/-- A stamp whose recipe fails without asking for keys is run at each call. -/
theorem Compile.compile_of_fail {tree : Tree} {id : StampId} {slot : Slot} (hslot : tree.slot? id = some slot)
    {folder : FolderId} (hfolder : slot.folder = some folder) {e : CompileError}
    (hfails : ∀ template, slot.stamp.recipe (slot.stamp.dialect tree.context.version)
      (tree.scope folder slot.stamp.kind) template = .fail e)
    {ledger : Ledger} (hresult : ledger.result? id = none) (hidle : id ∉ ledger.running) :
    tree.compile id ledger =
      (.error e, ledger.entered id slot.stamp.kind (slot.stamp.dialect tree.context.version)) := by
  have hnot : ledger.running.contains id = false := by
    rw [← Bool.not_eq_true, List.contains_iff_mem]
    exact hidle
  have hend : ((ledger.begin id).entered id slot.stamp.kind (slot.stamp.dialect tree.context.version)).finish id (.error e) =
      ledger.entered id slot.stamp.kind (slot.stamp.dialect tree.context.version) := by
    simp [Ledger.finish, Ledger.entered, Ledger.begin]
  unfold Tree.compile
  rw [hslot]
  show tree.compileSlot id slot _ ledger = _
  unfold Tree.compileSlot
  simp only [hresult, hfolder, hnot, Bool.false_eq_true, if_false]
  obtain ⟨template, -, heq⟩ := exists_runRecipe_eq tree id slot.stamp folder _ (ledger.begin id)
  rw [heq, hfails]
  exact congrArg (Prod.mk _) hend

/-! ### Sessions -/

namespace Session

/-- What a session does with its one cache: the counters stay in agreement, and stamps that have a result keep it and are not run again. -/
structure Advances (before after : Session) : Prop where
  counted : before.ledger.Counted before.tree → after.ledger.Counted after.tree
  settled : ∀ {id compiled}, before.ledger.result? id = some compiled →
    after.ledger.result? id = some compiled ∧ after.ledger.runs.count id = before.ledger.runs.count id

theorem Advances.trans {before after last : Session} (h : before.Advances after) (hlast : after.Advances last) :
    before.Advances last where
  counted := fun hbefore => hlast.counted (h.counted hbefore)
  settled := by
    intro id compiled hresult
    obtain ⟨hafter, hcount⟩ := h.settled hresult
    obtain ⟨hkept, hsame⟩ := hlast.settled hafter
    exact ⟨hkept, hsame.trans hcount⟩

theorem advances_grow (session : Session) {tree : Tree} (h : session.tree.Grows tree) :
    session.Advances { session with tree } where
  counted := fun hcounted => hcounted.grow h
  settled := fun hresult => ⟨hresult, rfl⟩

theorem advances_after (session : Session) {α : Type} {x : Compile α} (h : x.Advances session.tree) :
    session.Advances { session with ledger := (x session.ledger).2 } where
  counted := (h session.ledger).counted
  settled := (h session.ledger).settled

theorem step_advances (session : Session) {operation : Operation}
    (hcache : ∀ requests, operation ≠ .recache requests) : session.Advances (session.step operation) := by
  have hrefl : session.Advances session := session.advances_grow (.refl session.tree)
  cases operation with
  | add parent name =>
    simp only [step]
    split
    · rename_i hparent
      cases hadd : session.tree.add parent name hparent with
      | error e => exact hrefl
      | ok grown => exact session.advances_grow (Tree.grows_add hadd)
    · exact hrefl
  | insert stamp => exact session.advances_grow (session.tree.grows_insert stamp)
  | hook folder ids =>
    simp only [step]
    split
    · cases hhook : session.tree.hook folder ids with
      | error e => exact hrefl
      | ok grown => exact session.advances_grow (Tree.grows_hook hhook)
    · exact hrefl
  | hookStamp folder stamp =>
    simp only [step]
    split
    · exact session.advances_grow (session.tree.grows_hookStamp folder stamp)
    · exact hrefl
  | compile id => exact session.advances_after (Compile.advances_compile session.tree id)
  | reference id => exact session.advances_after (Compile.advances_reference session.tree id)
  | render start options wanted =>
    exact session.advances_after (Compile.advances_render session.tree start options wanted)
  | recache requests => exact absurd rfl (hcache requests)

theorem foldl_advances (session : Session) {operations : List Operation}
    (hcache : ∀ requests, Operation.recache requests ∉ operations) :
    session.Advances (operations.foldl step session) := by
  induction operations generalizing session with
  | nil => exact session.advances_grow (.refl session.tree)
  | cons operation operations ih =>
    have hfirst : ∀ requests, operation ≠ .recache requests := by
      rintro requests rfl
      exact hcache requests List.mem_cons_self
    refine (session.step_advances hfirst).trans (ih _ fun requests hmem => ?_)
    exact hcache requests (List.mem_cons_of_mem operation hmem)

/-- Calls for a stamp that fails are all counted. -/
theorem foldl_compile_of_fail (session : Session) {id : StampId} {slot : Slot} (hslot : session.tree.slot? id = some slot)
    {folder : FolderId} (hfolder : slot.folder = some folder) {e : CompileError}
    (hfails : ∀ template, slot.stamp.recipe (slot.stamp.dialect session.tree.context.version)
      (session.tree.scope folder slot.stamp.kind) template = .fail e)
    (hresult : session.ledger.result? id = none) (hidle : id ∉ session.ledger.running) (calls : Nat) :
    let after := (List.replicate calls (.compile id)).foldl step session
    after.tree = session.tree ∧ after.ledger.runs = List.replicate calls id ++ session.ledger.runs ∧
      after.ledger.cache.hits + after.ledger.cache.misses =
        session.ledger.cache.hits + session.ledger.cache.misses + calls := by
  induction calls generalizing session with
  | zero => exact ⟨rfl, rfl, rfl⟩
  | succ calls ih =>
    have hstep : session.step (.compile id) = { session with
        ledger := session.ledger.entered id slot.stamp.kind (slot.stamp.dialect session.tree.context.version) } := by
      rw [step, Compile.compile_of_fail hslot hfolder hfails hresult hidle]
    intro after
    obtain ⟨htree, hruns, hasked⟩ := ih (session.step (.compile id)) (by rw [hstep]; exact hslot)
      (by rw [hstep]; exact hfails) (by rw [hstep]; exact hresult) (by rw [hstep]; exact hidle)
    have hafter : after = (List.replicate calls (.compile id)).foldl step (session.step (.compile id)) := rfl
    rw [← hafter, hstep] at htree hruns hasked
    refine ⟨htree, ?_, ?_⟩
    · rw [hruns, Ledger.entered, List.replicate_succ', List.append_assoc, List.singleton_append]
    · rw [hasked, Ledger.entered, Template.Cache.asked_get, Nat.add_assoc, Nat.add_comm 1 calls]

end Session

end ApplianceConfig
