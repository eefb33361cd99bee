import ApplianceConfig.Proofs.Compile.Answers
import ApplianceConfig.Proofs.Compile.Counters
import ApplianceConfig.Proofs.Render.Repetition
import Mathlib.Logic.Relation

/-!
# Stamps that are compiled for a rendering

A rendering compiles the stamps that it writes, those that they request the keys of, those that these request the keys of, and no others. As long as nothing fails, each of them is run once, whichever stamp it is compiled for first.
-/

namespace ApplianceConfig

namespace Tree

/-- The first stamp is given the key of the second one when it is compiled. -/
def Requests (tree : Tree) (asker target : StampId) : Prop := ∃ kind key, (target, kind, key) ∈ tree.taken asker

/-- The second stamp is the first one, or its key is requested on the way, directly or for another key. -/
def Needs (tree : Tree) : StampId → StampId → Prop := Relation.ReflTransGen tree.Requests

theorem needs_iff {tree : Tree} {id target : StampId} :
    tree.Needs id target ↔ target = id ∨ ∃ other ∈ (tree.taken id).map Prod.fst, tree.Needs other target := by
  rw [Needs, Relation.ReflTransGen.cases_head_iff, eq_comm]
  refine or_congr_right (exists_congr fun other => and_congr_left fun _ => ?_)
  simp [Requests]

theorem taken_eq {tree : Tree} {id : StampId} {slot : Slot} (hslot : tree.slot? id = some slot)
    {folder : FolderId} (hfolder : slot.folder = some folder) :
    tree.taken id = (tree.recipeOf slot folder).taken (tree.answer slot.stamp.kind) := by
  obtain ⟨stamp, hooked⟩ := slot
  cases hfolder
  rw [taken, hslot]

end Tree

namespace Ledger

/-- All that a ledger has run has succeeded at the first attempt or is still running, and what was requested for a result has a result itself. -/
structure Complete (tree : Tree) (ledger : Ledger) : Prop where
  sound : ledger.Sound tree
  closed : ∀ {id target}, (ledger.result? id).isSome → tree.Requests id target → (ledger.result? target).isSome
  count_eq : ∀ id, ledger.runs.count id = if id ∈ ledger.running ∨ (ledger.result? id).isSome then 1 else 0

/-- The second ledger has the results of the first one, and those that are needed for some stamps. -/
def AddsResults (tree : Tree) (before after : Ledger) (ids : List StampId) : Prop :=
  ∀ target, (after.result? target).isSome ↔
    (before.result? target).isSome ∨ ∃ id ∈ ids, tree.Needs id target

variable {tree : Tree} {ledger after : Ledger} {id : StampId} {slot : Slot}

theorem AddsResults.refl (tree : Tree) (ledger : Ledger) : ledger.AddsResults tree ledger [] := by
  intro target
  simp

theorem AddsResults.trans {last : Ledger} {ids more : List StampId} (h : ledger.AddsResults tree after ids)
    (hlast : after.AddsResults tree last more) : ledger.AddsResults tree last (ids ++ more) := by
  intro target
  simp only [hlast target, h target, or_assoc, List.mem_append, or_and_right, exists_or]

theorem isSome_result?_finish_ok (ledger : Ledger) (id other : StampId) (compiled : Compiled) :
    ((ledger.finish id (.ok compiled)).result? other).isSome ↔ other = id ∨ (ledger.result? other).isSome := by
  rw [result?_finish_ok]
  split <;> simp_all

theorem AddsResults.finish (h : ledger.AddsResults tree after ((tree.taken id).map Prod.fst)) (compiled : Compiled) :
    ledger.AddsResults tree (after.finish id (.ok compiled)) [id] := by
  intro target
  have hneeds : (∃ other ∈ [id], tree.Needs other target) ↔
      target = id ∨ ∃ other ∈ (tree.taken id).map Prod.fst, tree.Needs other target := by
    simp only [← Tree.needs_iff, List.mem_singleton, exists_eq_left]
  rw [isSome_result?_finish_ok, h target, hneeds]
  exact or_left_comm

namespace Complete

theorem isSome_of_needs (h : ledger.Complete tree) (hid : (ledger.result? id).isSome) {target : StampId}
    (hneeds : tree.Needs id target) : (ledger.result? target).isSome := by
  induction hneeds with
  | refl => exact hid
  | tail _ hrequests ih => exact h.closed ih hrequests

/-- A ledger in which nothing has been run. -/
theorem of_runs_eq_nil (hsound : ledger.Sound tree) (hidle : ledger.running = [])
    (hcounted : ledger.Counted tree) (hruns : ledger.runs = []) : ledger.Complete tree := by
  have hnone (id : StampId) : ledger.result? id = none := by
    refine Option.eq_none_iff_forall_ne_some.mpr fun compiled hresult => ?_
    have hran := hcounted.ran hresult
    rw [hruns] at hran
    cases hran
  refine ⟨hsound, fun {id target} hid _ => ?_, fun id => ?_⟩
  · rw [hnone] at hid
    cases hid
  · simp [hruns, hidle, hnone]

section Entered

variable (h : ledger.Complete tree) (hslot : tree.slot? id = some slot) (hidle : id ∉ ledger.running)
  (hresult : ledger.result? id = none)

include h hslot hidle hresult

theorem entered : ((ledger.begin id).entered id slot.stamp.kind (slot.stamp.dialect tree.context.version)).Complete tree where
  sound := ⟨(h.sound.cache.get _ _).2, h.sound.results⟩
  closed := h.closed
  count_eq := by
    intro other
    have hcount := h.count_eq other
    change (id :: ledger.runs).count other =
      if other ∈ id :: ledger.running ∨ (ledger.result? other).isSome then 1 else 0
    rw [List.count_cons, show ledger.runs.count other = _ from hcount]
    by_cases hother : other = id
    · subst hother
      simp [hidle, hresult]
    · simp [hother, Ne.symm hother]

end Entered

/-- A stamp is finished after those that it requested the keys of. -/
theorem finish (h : after.Complete tree) (hslot : tree.slot? id = some slot) {running : List StampId}
    (hrunning : after.running = id :: running) (hidle : id ∉ running) {compiled : Compiled}
    (hcompiled : tree.result slot = .ok compiled)
    (hrequests : ∀ target, tree.Requests id target → (after.result? target).isSome) :
    (after.finish id (.ok compiled)).Complete tree := by
  have hisSome (other : StampId) := isSome_result?_finish_ok after id other compiled
  refine ⟨hcompiled ▸ h.sound.finish hslot, fun {other target} hother hrequested => ?_, fun other => ?_⟩
  · rw [hisSome] at hother ⊢
    rcases hother with rfl | hother
    · exact .inr (hrequests target hrequested)
    · exact .inr (h.closed hother hrequested)
  · have hstill : (after.finish id (.ok compiled)).running = running := by
      rw [running_finish, hrunning, List.erase_cons_head]
    rw [runs_finish, h.count_eq other, hrunning, hstill]
    simp only [hisSome, List.mem_cons]
    refine if_congr ?_ rfl rfl
    rw [or_assoc]
    exact or_left_comm

end Complete

end Ledger

/-! ### Computations that succeed -/

namespace Compile

variable {α β : Type} {tree : Tree} {running ids more : List StampId}

/-- From a ledger in which nothing has failed, a computation that succeeds adds the results that are needed for some stamps, and nothing has failed then either. -/
def Fills (tree : Tree) (running : List StampId) (x : Compile α) (ids : List StampId) : Prop :=
  ∀ ledger a, ledger.Complete tree → ledger.running = running → (x ledger).1 = .ok a →
    (x ledger).2.Complete tree ∧ (x ledger).2.running = running ∧ ledger.AddsResults tree (x ledger).2 ids

theorem fills_pure (a : α) : Fills tree running (pure a) [] :=
  fun ledger _ hcomplete hrunning _ => ⟨hcomplete, hrunning, .refl tree ledger⟩

theorem fills_raise (e : CompileError) : Fills tree running (raise e : Compile α) ids := nofun

theorem Fills.bind {x : Compile α} (h : Fills tree running x ids) {f : α → Compile β}
    (hnext : ∀ a, (∃ ledger, ledger.Sound tree ∧ ledger.running = running ∧ (x ledger).1 = .ok a) →
      Fills tree running (f a) more) : Fills tree running (x >>= f) (ids ++ more) := by
  intro ledger b hcomplete hrunning hok
  change (andThen x f ledger).1 = .ok b at hok
  change (andThen x f ledger).2.Complete tree ∧ (andThen x f ledger).2.running = running ∧
    ledger.AddsResults tree (andThen x f ledger).2 (ids ++ more)
  unfold andThen at hok ⊢
  cases hran : x ledger with
  | mk result after =>
    cases result with
    | error e =>
      rw [hran] at hok
      cases hok
    | ok a =>
      have hfirst : (x ledger).1 = .ok a := by rw [hran]
      obtain ⟨hafter, hstill, hadds⟩ := h ledger a hcomplete hrunning hfirst
      rw [hran] at hok hafter hstill hadds
      obtain ⟨hlast, hend, hmore⟩ := hnext a ⟨ledger, hcomplete.sound, hrunning, hfirst⟩ after b hafter hstill hok
      exact ⟨hlast, hend, hadds.trans hmore⟩

theorem Fills.last {x : Compile α} (h : Fills tree running x ids) {f : α → Compile β}
    (hnext : ∀ a, Fills tree running (f a) []) : Fills tree running (x >>= f) ids := by
  have hbind := h.bind fun a _ => hnext a
  rwa [List.append_nil] at hbind

theorem Fills.referredBy {x : Compile α} (h : Fills tree running x ids) (kind : Kind) :
    Fills tree running (referredBy kind x) ids := by
  intro ledger a hcomplete hrunning hok
  unfold Compile.referredBy at hok ⊢
  have hx := h ledger a hcomplete hrunning
  generalize x ledger = got at hx hok ⊢
  obtain ⟨result, after⟩ := got
  cases result with
  | error e => cases hok
  | ok found => exact hx hok

theorem Fills.mapM {f : StampId → Compile β} (h : ∀ id, Fills tree running (f id) [id]) (ids : List StampId) :
    Fills tree running (ids.mapM f) ids := by
  have hloop : ∀ done, Fills tree running (List.mapM.loop f ids done) ids := by
    induction ids with
    | nil => exact fun done => fills_pure _
    | cons id ids ih => exact fun done => (h id).bind fun b _ => ih (b :: done)
  exact hloop []

/-- A run fills in what is needed for the stamps that it takes keys from. -/
theorem fills_run {rank : Nat} {answer : (id : StampId) → (kind : Kind) → kind.rank < rank → Compile String}
    {answer' : StampId → Kind → Except CompileError String}
    (hgives : ∀ id kind lower, Gives tree running (answer id kind lower) (answer' id kind))
    (hfills : ∀ id kind lower, Fills tree running (answer id kind lower) [id]) (recipe : Recipe rank α) :
    Fills tree running (recipe.run raise answer) ((recipe.taken answer').map Prod.fst) := by
  induction recipe with
  | done result => exact fills_pure result
  | fail e => exact fills_raise e
  | refer id kind lower next ih =>
    have hanswered : ∀ key, (∃ ledger, ledger.Sound tree ∧ ledger.running = running ∧
        (answer id kind lower ledger).1 = .ok key) → answer' id kind = .ok key := by
      rintro key ⟨ledger, hsound, hrunning, hok⟩
      exact (hgives id kind lower ledger hsound hrunning).1.symm.trans hok
    cases hkey : answer' id kind with
    | error e =>
      intro ledger a hcomplete hrunning hok
      have hgot := ((hgives id kind lower).bind fun key => gives_run hgives (next key)) ledger
        hcomplete.sound hrunning
      rw [hkey] at hgot
      cases hok.symm.trans hgot.1
    | ok key =>
      rw [Recipe.taken, hkey]
      refine (hfills id kind lower).bind fun other hother => ?_
      cases hkey.symm.trans (hanswered other hother)
      exact ih key

/-! ### The compiler -/

section Slots

variable {id : StampId} {slot : Slot} (hslot : tree.slot? id = some slot)
  (hwaiting : Waiting tree running slot.stamp.kind.rank)
  {answer : (id : StampId) → (kind : Kind) → kind.rank < slot.stamp.kind.rank → Compile String}
  (hgives : ∀ target kind lower, Gives tree (id :: running) (answer target kind lower)
    (tree.answer slot.stamp.kind target kind))
  (hfills : ∀ target kind lower, Fills tree (id :: running) (answer target kind lower) [target])

include hslot hwaiting hgives hfills

/-- While the recipe of a stamp without a result is run, what is needed for the keys that it takes is filled in. -/
theorem fills_runRecipe {folder : FolderId} (hfolder : slot.folder = some folder) {ledger : Ledger}
    (hcomplete : ledger.Complete tree) (hrunning : ledger.running = running) (hmemo : ledger.result? id = none)
    {compiled : Compiled} (hok : (tree.runRecipe id slot.stamp folder answer (ledger.begin id)).1 = .ok compiled) :
    (tree.runRecipe id slot.stamp folder answer (ledger.begin id)).2.Complete tree ∧
      (tree.runRecipe id slot.stamp folder answer (ledger.begin id)).2.running = id :: running ∧
      ledger.AddsResults tree (tree.runRecipe id slot.stamp folder answer (ledger.begin id)).2
        ((tree.taken id).map Prod.fst) := by
  -- the cache has the template that its text is read as, so the recipe is the stamp's own
  obtain ⟨template, htemplate, heq⟩ := exists_runRecipe_eq tree id slot.stamp folder answer (ledger.begin id)
  have hparse := (hcomplete.sound.cache.get slot.stamp.kind (slot.stamp.dialect tree.context.version)).1
  cases (htemplate.symm.trans hparse).trans (Template.parse_eq ..)
  rw [heq] at hok ⊢
  have hrun := (fills_run hgives hfills (tree.recipeOf slot folder)).last fun output =>
    fills_pure (⟨output.key, output.value, slot.stamp.dialect tree.context.version⟩ : Compiled)
  rw [← tree.taken_eq hslot hfolder] at hrun
  have hentered := hcomplete.entered hslot (hrunning ▸ hwaiting.not_mem hslot) hmemo
  exact hrun _ compiled hentered (congrArg (id :: ·) hrunning) hok

theorem fills_compileSlot : Fills tree running (tree.compileSlot id slot answer) [id] := by
  intro ledger compiled hcomplete hrunning hok
  have hresult := (gives_compileSlot hslot hwaiting hgives ledger hcomplete.sound hrunning).1.symm.trans hok
  unfold Tree.compileSlot at hok ⊢
  cases hmemo : ledger.result? id with
  | some found =>
    refine ⟨hcomplete, hrunning, fun target => (or_iff_left_of_imp ?_).symm⟩
    rintro ⟨other, hother, hneeds⟩
    cases List.mem_singleton.mp hother
    exact hcomplete.isSome_of_needs (by rw [hmemo]; rfl) hneeds
  | none =>
    cases hfolder : slot.folder with
    | none =>
      simp only [hmemo, hfolder] at hok
      cases hok
    | some folder =>
      have hidle : id ∉ running := hwaiting.not_mem hslot
      have hnot : ledger.running.contains id = false := by
        rw [← Bool.not_eq_true, List.contains_iff_mem, hrunning]
        exact hidle
      simp only [hmemo, hfolder, hnot, Bool.false_eq_true, if_false] at hok ⊢
      obtain ⟨hafter, hstill, hadds⟩ :=
        fills_runRecipe hslot hwaiting hgives hfills hfolder hcomplete hrunning hmemo hok
      rw [hok]
      refine ⟨hafter.finish hslot hstill hidle hresult fun target hrequests => ?_, ?_, hadds.finish compiled⟩
      · have htaken : target ∈ (tree.taken id).map Prod.fst := by
          obtain ⟨kind, key, hkey⟩ := hrequests
          exact List.mem_map.mpr ⟨_, hkey, rfl⟩
        exact (hadds target).mpr (.inr ⟨target, htaken, .refl⟩)
      · rw [Ledger.running_finish, hstill, List.erase_cons_head]

end Slots

theorem fills_compileBelow {bound : Nat} {id : StampId} {slot : Slot} (hslot : tree.slot? id = some slot)
    (hrank : slot.stamp.kind.rank < bound) (hwaiting : Waiting tree running slot.stamp.kind.rank) :
    Fills tree running (tree.compileBelow bound id slot hrank) [id] := by
  induction bound generalizing id slot running with
  | zero => exact absurd hrank (Nat.not_lt_zero _)
  | succ bound ih =>
    have hwaits {other : Slot} {kind : Kind} (hkind : other.stamp.kind = kind)
        (lower : kind.rank < slot.stamp.kind.rank) : Waiting tree (id :: running) other.stamp.kind.rank :=
      hwaiting.cons hslot (hkind ▸ lower)
    refine fills_compileSlot hslot hwaiting (fun target kind lower => ?_) fun target kind lower => ?_
    · exact gives_answer fun other hkind hother => gives_compileBelow hother _ (hwaits hkind lower)
    · cases htarget : tree.slot? target with
      | none => exact fills_raise _
      | some other =>
        by_cases hkind : other.stamp.kind = kind
        · simp only [dif_pos hkind]
          refine ((ih htarget _ (hwaits hkind lower)).referredBy _).last fun compiled => ?_
          cases compiled.key with
          | some key => exact fills_pure key
          | none => exact fills_raise _
        · simp only [dif_neg hkind]
          exact fills_raise _

theorem fills_compile (tree : Tree) (id : StampId) : Fills tree [] (tree.compile id) [id] := by
  unfold Tree.compile
  cases hslot : tree.slot? id with
  | none => exact fills_raise _
  | some slot => exact fills_compileBelow hslot _ nofun

theorem fills_render (tree : Tree) (start : FolderId) (options : RenderOptions) (wanted : Stamp → Bool) :
    Fills tree [] (tree.render start options wanted) (tree.visitedStamps start options.recursive wanted) := by
  have hstamp (id : StampId) : Fills tree [] (tree.renderStamp options.indent id) [id] := by
    refine (fills_compile tree id).last fun compiled => ?_
    cases compiled.value with
    | some doc => exact fills_pure _
    | none => exact fills_pure _
  exact (Fills.mapM hstamp _).last fun texts => fills_pure _

end Compile

/-! ### Sessions -/

namespace Session

/-- The counters of a session agree with each other and with its stamps, as far as their 32 bits go. -/
structure CountersAgree (session : Session) : Prop where
  /-- Hits and misses are as many as all runs of stamps, -/
  asked : session.ledger.cache.stats.1 + session.ledger.cache.stats.2.1 = session.ledger.runs.length
  /-- and what the counters of the stamps add up to, up to multiples of `2 ^ 32`. -/
  asked_mod : (session.ledger.cache.stats.1 + session.ledger.cache.stats.2.1) % 2 ^ 32 =
    (∑ id ∈ Finset.range session.tree.slots.length, session.ledger.count id) % 2 ^ 32
  /-- As long as no stamp has been run `2 ^ 32` times, that is the number itself. -/
  asked_few : (∀ id, session.ledger.runs.count id < 2 ^ 32) →
    session.ledger.cache.stats.1 + session.ledger.cache.stats.2.1 =
      ∑ id ∈ Finset.range session.tree.slots.length, session.ledger.count id
  missed : session.ledger.cache.stats.2.1 = session.ledger.cache.stats.2.2
  /-- There are as many templates as kinds and dialects of stamps that have been run. -/
  read : session.ledger.cache.stats.2.2 =
    (((Finset.range session.tree.slots.length).filter (· ∈ session.ledger.runs)).image session.tree.templateKey?).card
  kept : ∀ {id compiled}, (session.tree.compile id session.ledger).1 = .ok compiled →
    (session.step (.compile id)).ledger.result? id = some compiled
  settled : ∀ {id compiled}, session.ledger.result? id = some compiled →
    ∀ operations : List Operation, (∀ requests, Operation.recache requests ∉ operations) →
      (operations.foldl step session).ledger.count id = session.ledger.count id
  /-- A rendering that succeeds where nothing has been run runs each stamp once that is needed for one that it visits, and no others. -/
  once : ∀ start options wanted, session.ledger.runs = [] →
    (∃ text, (session.tree.render start options wanted session.ledger).1 = .ok text) →
    ∀ id, (session.step (.render start options wanted)).ledger.count id =
      open Classical in
      if ∃ visited ∈ session.tree.visitedStamps start options.recursive wanted, session.tree.Needs visited id
      then 1 else 0

theorem Valid.countersAgree {session : Session} (h : session.Valid) (hcounted : session.ledger.Counted session.tree) :
    session.CountersAgree where
  asked := hcounted.asked
  asked_mod := hcounted.sum_count_mod.symm
  asked_few := fun hfew => (hcounted.sum_count hfew).symm
  missed := hcounted.cache.misses_eq
  read := hcounted.card_templateKey?.symm
  kept := Compile.result?_of_compile
  settled := fun hresult operations hcache =>
    Ledger.count_congr ((session.foldl_advances hcache).settled hresult).2
  once := by
    rintro start options wanted hruns ⟨text, hok⟩ id
    have hcomplete := Ledger.Complete.of_runs_eq_nil h.sound h.idle hcounted hruns
    obtain ⟨hafter, hidle, hadds⟩ :=
      Compile.fills_render session.tree start options wanted session.ledger text hcomplete h.idle hok
    have hnone : ¬ (session.ledger.result? id).isSome := by
      intro hsome
      have hcount := hcomplete.count_eq id
      rw [if_pos (.inr hsome), hruns] at hcount
      cases hcount
    classical
    have hcount : (session.step (.render start options wanted)).ledger.runs.count id =
        if ∃ visited ∈ session.tree.visitedStamps start options.recursive wanted, session.tree.Needs visited id
        then 1 else 0 := by
      refine (hafter.count_eq id).trans (if_congr ?_ rfl rfl)
      rw [hidle, hadds id, or_iff_right hnone, or_iff_right List.not_mem_nil]
    refine (Ledger.count_eq_of_lt ?_).trans hcount
    rw [hcount]
    split <;> decide

/-- As long as a session keeps its cache, the counters of the cache and of the stamps agree. -/
theorem counters_agree (context : Context) (partitions : Option Nat) (operations : List Operation)
    (hcache : ∀ requests, Operation.recache requests ∉ operations) :
    (runFrom context partitions operations).CountersAgree := by
  have hvalid : (runFrom context partitions operations).Valid :=
    (Tree.History.ofSession context partitions operations).valid
  exact hvalid.countersAgree ((foldl_advances _ hcache).counted (Ledger.counted_empty _))

/-- Two nodes, and a pool that the first of them is in. -/
def pooledNode : List Operation := [
  .hookStamp 1 (.node { address := "10.0.0.1" }), .hookStamp 1 (.node { address := "10.0.0.2" }),
  .hookStamp 1 (.pool { name := "web", members := [{ node := 1, port := 80 }] })]

/-- When only pools are written, the node in the pool is run for it, and the other one is not run. -/
theorem counters_agree_pooledNode :
    let context : Context := { version := .release .bigip 11 5 0 }
    let session := runFrom context (some 0) pooledNode
    let pools : Stamp → Bool := fun stamp => stamp.kind == .pool
    (∀ requests, Operation.recache requests ∉ pooledNode) ∧
      session.ledger.runs = [] ∧
      (∃ text, (session.tree.render Tree.root {} pools session.ledger).1 = .ok text) ∧
      session.CountersAgree ∧
      (List.range 4).map (session.step (.render Tree.root {} pools)).ledger.count = [0, 1, 0, 1] := by
  intro context session pools
  have hcache : ∀ requests, Operation.recache requests ∉ pooledNode := by simp [pooledNode]
  have hrender : (session.tree.render Tree.root {} pools session.ledger).1.toOption.isSome = true := by decide +kernel
  refine ⟨hcache, rfl, ?_, counters_agree context (some 0) pooledNode hcache, by decide +kernel⟩
  cases hresult : (session.tree.render Tree.root {} pools session.ledger).1 with
  | error e =>
    rw [hresult] at hrender
    cases hrender
  | ok text => exact ⟨text, rfl⟩

/-! ### Stamps that are run again -/

/-- A pool whose one member is on a stamp that does not exist. -/
def strayPool : List Operation := [.hookStamp 0 (.pool { name := "web", members := [{ node := 1, port := 80 }] })]

/-- Each call for the pool fails and asks the cache, and the counter of the pool is back at zero whenever it has gone round. -/
theorem asked_strayPool {calls : Nat} (hround : calls % 2 ^ 32 = 0) :
    let stray := runFrom { version := .release .bigip 11 5 0 } none (strayPool ++ List.replicate calls (.compile 0))
    stray.ledger.cache.stats.1 + stray.ledger.cache.stats.2.1 = calls ∧
      ∑ id ∈ Finset.range stray.tree.slots.length, stray.ledger.count id = 0 := by
  intro stray
  let hooked := runFrom { version := .release .bigip 11 5 0 } none strayPool
  have hstray : stray = (List.replicate calls (.compile 0)).foldl step hooked := List.foldl_append
  obtain ⟨htree, hruns, hasked⟩ := foldl_compile_of_fail hooked (show hooked.tree.slot? 0 = some _ from rfl) rfl
    (fun _ => rfl) rfl List.not_mem_nil calls
  rw [← hstray] at htree hruns hasked
  have hlength : stray.tree.slots.length = 1 := by
    rw [htree]
    rfl
  have hcount : stray.ledger.runs.count 0 = calls := by
    rw [hruns, List.count_append, List.count_replicate_self]
    rfl
  refine ⟨hasked.trans (Nat.zero_add calls), ?_⟩
  rw [hlength, Finset.sum_range_one, Ledger.count_eq, hcount, hround]

/-- A pool whose node is hooked only when writing the pool has failed. -/
def pooledLate (pools : Stamp → Bool) : List Operation := [
  .insert (.node { address := "10.0.0.1" }), .hookStamp 1 (.pool { name := "web", members := [{ node := 1, port := 80 }] }),
  .render Tree.root {} pools, .hook 1 [1]]

/-- A stamp that fails is run again, and counted again, at each call. After `2 ^ 32` calls its counter is back at zero, although the cache has been asked at each of them. And the first rendering that succeeds, in a tree of which nothing has been compiled, leaves a stamp that failed before at two. -/
theorem counters_rerun :
    let context : Context := { version := .release .bigip 11 5 0 }
    let pools : Stamp → Bool := fun stamp => stamp.kind == .pool
    let stray := runFrom context none (strayPool ++ List.replicate (2 ^ 32) (.compile 0))
    let late := runFrom context (some 0) (pooledLate pools)
    (stray.ledger.cache.stats.1 + stray.ledger.cache.stats.2.1 = 2 ^ 32 ∧
      ∑ id ∈ Finset.range stray.tree.slots.length, stray.ledger.count id = 0) ∧
      late.ledger.results.isEmpty = true ∧ late.tree.visitedStamps Tree.root true pools = [2] ∧
      (late.tree.render Tree.root {} pools late.ledger).1.toOption.isSome = true ∧
      (late.step (.render Tree.root {} pools)).ledger.count 2 = 2 := by
  refine ⟨asked_strayPool (Nat.mod_self _), ?_⟩
  decide +kernel

end Session

end ApplianceConfig
