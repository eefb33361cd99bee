import ApplianceConfig.Proofs.Compile.Refinement
import ApplianceConfig.Proofs.Template.Cache
import ApplianceConfig.Proofs.Tree.Growth
import ApplianceConfig.Render

/-!
# What a stamp compiles to

A stamp of a tree has one result, which is found without a ledger: each question of its recipe is answered by the result of the stamp that it names. The compiler, which keeps results and looks them up again, gives this result whatever it kept before, as long as all that it kept was true of the tree.
-/

namespace ApplianceConfig

namespace Tree

/-- What the stamp of a slot compiles to. -/
def result (tree : Tree) (slot : Slot) : Except CompileError Compiled :=
  match slot.folder with
  | none => .error (.missingContext slot.stamp.kind)
  | some folder => do
    let dialect := slot.stamp.dialect tree.context.version
    let template ← (Template.parse slot.stamp.kind dialect).mapError .grammar
    let scope := tree.scope folder slot.stamp.kind
    let output ← (slot.stamp.recipe dialect scope template).run .error fun id kind _ =>
      match tree.slot? id with
      | none => .error (.unknownStamp id)
      | some other =>
        if _ : other.stamp.kind = kind then do
          let compiled ← (tree.result other).mapError (.reference slot.stamp.kind)
          match compiled.key with
          | some key => return key
          | none => .error (.noReferenceKey kind)
        else .error (.unexpectedKind kind other.stamp.kind)
    return { key := output.key, value := output.value, dialect }
  termination_by slot.stamp.kind.rank
  decreasing_by rwa [‹other.stamp.kind = kind›]

/-- The answer to a question of a recipe: the key of a stamp of a kind. -/
def answer (tree : Tree) (asker : Kind) (id : StampId) (kind : Kind) : Except CompileError String :=
  match tree.slot? id with
  | none => .error (.unknownStamp id)
  | some other =>
    if other.stamp.kind = kind then do
      let compiled ← (tree.result other).mapError (.reference asker)
      match compiled.key with
      | some key => return key
      | none => .error (.noReferenceKey kind)
    else .error (.unexpectedKind kind other.stamp.kind)

theorem result_eq (tree : Tree) (slot : Slot) :
    tree.result slot = match slot.folder with
      | none => .error (.missingContext slot.stamp.kind)
      | some folder => do
        let dialect := slot.stamp.dialect tree.context.version
        let template ← (Template.parse slot.stamp.kind dialect).mapError .grammar
        let scope := tree.scope folder slot.stamp.kind
        let output ← (slot.stamp.recipe dialect scope template).run .error fun id kind _ =>
          tree.answer slot.stamp.kind id kind
        return { key := output.key, value := output.value, dialect } := by
  rw [result]
  rfl

/-- What a stamp of the tree compiles to. -/
def outcome (tree : Tree) (id : StampId) : Except CompileError Compiled :=
  match tree.slot? id with
  | none => .error (.unknownStamp id)
  | some slot => tree.result slot

/-- The text of a stamp, empty when there is nothing to write. -/
def stampText (tree : Tree) (indent : Nat) (id : StampId) : Except CompileError String := do
  match (← tree.outcome id).value with
  | some doc => return doc.encode indent
  | none => return ""

/-- The text of the wanted stamps from a folder on. -/
def rendering (tree : Tree) (start : FolderId) (options : RenderOptions) (wanted : Stamp → Bool) :
    Except CompileError String := do
  let ids := (tree.visited start options.recursive).flatMap fun folder =>
    (tree.folder folder).content.filter (tree.accepts wanted)
  return String.join (← ids.mapM (tree.stampText options.indent))

end Tree

/-! ### True ledgers -/

/-- All that a ledger keeps is true of a tree. -/
structure Ledger.Sound (tree : Tree) (ledger : Ledger) : Prop where
  cache : ledger.cache.Faithful
  results : ∀ {id compiled}, ledger.result? id = some compiled →
    ∃ slot, tree.slot? id = some slot ∧ tree.result slot = .ok compiled

theorem Ledger.sound_empty (tree : Tree) : ({} : Ledger).Sound tree := ⟨⟨nofun⟩, nofun⟩

theorem Ledger.Sound.forget {tree : Tree} {ledger : Ledger} (h : ledger.Sound tree) :
    ledger.forget.Sound tree where
  cache := h.cache
  results := nofun

theorem Ledger.running_finish (ledger : Ledger) (id : StampId) (result : Except CompileError Compiled) :
    (ledger.finish id result).running = ledger.running.erase id := by
  cases result <;> rfl

theorem Ledger.Sound.finish {tree : Tree} {ledger : Ledger} (h : ledger.Sound tree) {id : StampId}
    {slot : Slot} (hslot : tree.slot? id = some slot) :
    (ledger.finish id (tree.result slot)).Sound tree := by
  unfold Ledger.finish
  cases hresult : tree.result slot with
  | error e => exact ⟨h.cache, h.results⟩
  | ok compiled =>
    refine ⟨h.cache, fun {other found} hfound => ?_⟩
    rw [result?, List.lookup_cons] at hfound
    split at hfound
    · rename_i heq
      cases hfound
      rw [beq_iff_eq] at heq
      exact ⟨slot, by rw [heq, hslot], hresult⟩
    · exact h.results hfound

namespace Compile

variable {α β : Type} {tree : Tree} {running : List StampId}

/-- A computation gives a result from every true ledger with some stamps running, and leaves a true ledger with the same stamps running. -/
def Gives (tree : Tree) (running : List StampId) (x : Compile α) (result : Except CompileError α) :
    Prop :=
  ∀ ledger, ledger.Sound tree → ledger.running = running →
    (x ledger).1 = result ∧ (x ledger).2.Sound tree ∧ (x ledger).2.running = running

theorem gives_pure (a : α) : Gives tree running (pure a) (.ok a) :=
  fun _ hsound hrunning => ⟨rfl, hsound, hrunning⟩

theorem gives_raise (e : CompileError) : Gives tree running (raise e : Compile α) (.error e) :=
  fun _ hsound hrunning => ⟨rfl, hsound, hrunning⟩

theorem gives_noteRun (id : StampId) : Gives tree running (noteRun id) (.ok ()) :=
  fun _ hsound hrunning => ⟨rfl, ⟨hsound.cache, hsound.results⟩, hrunning⟩

theorem gives_template (kind : Kind) (dialect : Dialect) :
    Gives tree running (template kind dialect) ((Template.parse kind dialect).mapError .grammar) := by
  intro ledger hsound hrunning
  obtain ⟨hparse, hcache⟩ := hsound.cache.get kind dialect
  unfold template
  rw [← hparse]
  generalize ledger.cache.get kind dialect = got at hcache ⊢
  obtain ⟨found, cache⟩ := got
  cases found with
  | error e => exact ⟨rfl, ⟨hcache, hsound.results⟩, hrunning⟩
  | ok doc => exact ⟨rfl, ⟨hcache, hsound.results⟩, hrunning⟩

theorem Gives.bind {x : Compile α} {r : Except CompileError α} (h : Gives tree running x r)
    {f : α → Compile β} {s : α → Except CompileError β} (hnext : ∀ a, Gives tree running (f a) (s a)) :
    Gives tree running (x >>= f) (r >>= s) := by
  intro ledger hsound hrunning
  obtain ⟨hr, hsound', hrunning'⟩ := h ledger hsound hrunning
  change (andThen x f ledger).1 = _ ∧ (andThen x f ledger).2.Sound tree ∧
    (andThen x f ledger).2.running = running
  unfold andThen
  cases hx : x ledger with
  | mk got after =>
    rw [hx] at hr hsound' hrunning'
    subst hr
    cases got with
    | error e => exact ⟨rfl, hsound', hrunning'⟩
    | ok a => exact hnext a after hsound' hrunning'

theorem Gives.referredBy {x : Compile α} {r : Except CompileError α} (h : Gives tree running x r)
    (kind : Kind) : Gives tree running (referredBy kind x) (r.mapError (.reference kind)) := by
  intro ledger hsound hrunning
  obtain ⟨hr, hsound', hrunning'⟩ := h ledger hsound hrunning
  unfold Compile.referredBy
  cases hx : x ledger with
  | mk got after =>
    rw [hx] at hr hsound' hrunning'
    subst hr
    cases got with
    | error e => exact ⟨rfl, hsound', hrunning'⟩
    | ok a => exact ⟨rfl, hsound', hrunning'⟩

theorem Gives.mapM {f : α → Compile β} {s : α → Except CompileError β}
    (h : ∀ a, Gives tree running (f a) (s a)) (items : List α) :
    Gives tree running (items.mapM f) (items.mapM s) :=
  mapM_related (fun _ => Gives tree running) gives_pure (fun h hnext => h.bind hnext) h items

theorem gives_run {rank : Nat}
    {answer : (id : StampId) → (kind : Kind) → kind.rank < rank → Compile String}
    {answer' : (id : StampId) → (kind : Kind) → kind.rank < rank → Except CompileError String}
    (h : ∀ id kind lower, Gives tree running (answer id kind lower) (answer' id kind lower))
    (recipe : Recipe rank α) : Gives tree running (recipe.run raise answer) (recipe.run .error answer') := by
  induction recipe with
  | done result => exact gives_pure result
  | fail e => exact gives_raise e
  | refer id kind lower next ih => exact (h id kind lower).bind ih

theorem Gives.of_eq {x : Compile α} {r s : Except CompileError α} (h : Gives tree running x r)
    (heq : r = s) : Gives tree running x s := heq ▸ h

/-! ### The compiler -/

/-- The running stamps all wait for stamps of a lower rank than their own. -/
def Waiting (tree : Tree) (running : List StampId) (rank : Nat) : Prop :=
  ∀ id ∈ running, ∃ slot, tree.slot? id = some slot ∧ rank < slot.stamp.kind.rank

theorem Waiting.not_mem {id : StampId} {slot : Slot} (hslot : tree.slot? id = some slot)
    (h : Waiting tree running slot.stamp.kind.rank) : id ∉ running := by
  intro hid
  obtain ⟨same, hsame, hrank⟩ := h id hid
  rw [hslot] at hsame
  cases hsame
  exact Nat.lt_irrefl _ hrank

theorem Waiting.cons {id : StampId} {slot : Slot} (hslot : tree.slot? id = some slot)
    (h : Waiting tree running slot.stamp.kind.rank) {rank : Nat}
    (lower : rank < slot.stamp.kind.rank) : Waiting tree (id :: running) rank := by
  intro other hother
  rcases List.mem_cons.mp hother with rfl | hother
  · exact ⟨slot, hslot, lower⟩
  · obtain ⟨found, hfound, hlower⟩ := h other hother
    exact ⟨found, hfound, Nat.lt_trans lower hlower⟩

/-- A hooked stamp gives its result as soon as its questions are answered by those that they name. -/
theorem gives_runRecipe (id : StampId) {slot : Slot} {folder : FolderId}
    (hfolder : slot.folder = some folder)
    {answer : (id : StampId) → (kind : Kind) → kind.rank < slot.stamp.kind.rank → Compile String}
    (hanswer : ∀ target kind lower, Gives tree running (answer target kind lower)
      (tree.answer slot.stamp.kind target kind)) :
    Gives tree running (tree.runRecipe id slot.stamp folder answer) (tree.result slot) := by
  have hgives : Gives tree running (tree.runRecipe id slot.stamp folder answer) _ :=
    (gives_template _ _).bind fun template => (gives_noteRun id).bind fun _ =>
      (gives_run hanswer _).bind fun output => gives_pure _
  rw [tree.result_eq, hfolder]
  exact hgives

theorem gives_compileSlot {id : StampId} {slot : Slot} (hslot : tree.slot? id = some slot)
    (hwaiting : Waiting tree running slot.stamp.kind.rank)
    {answer : (id : StampId) → (kind : Kind) → kind.rank < slot.stamp.kind.rank → Compile String}
    (hanswer : ∀ target kind lower, Gives tree (id :: running) (answer target kind lower)
      (tree.answer slot.stamp.kind target kind)) :
    Gives tree running (tree.compileSlot id slot answer) (tree.result slot) := by
  intro ledger hsound hrunning
  unfold Tree.compileSlot
  cases hmemo : ledger.result? id with
  | some compiled =>
    obtain ⟨same, hsame, hresult⟩ := hsound.results hmemo
    rw [hslot] at hsame
    cases hsame
    exact ⟨hresult.symm, hsound, hrunning⟩
  | none =>
    cases hfolder : slot.folder with
    | none =>
      rw [tree.result_eq, hfolder]
      exact ⟨rfl, hsound, hrunning⟩
    | some folder =>
      have hidle : ledger.running.contains id = false := by
        rw [← Bool.not_eq_true, List.contains_iff_mem, hrunning]
        exact hwaiting.not_mem hslot
      have hbegin : (ledger.begin id).Sound tree := ⟨hsound.cache, hsound.results⟩
      have hrunning' : (ledger.begin id).running = id :: running := by rw [← hrunning]; rfl
      obtain ⟨hresult, hafter, hstill⟩ :=
        gives_runRecipe id hfolder hanswer (ledger.begin id) hbegin hrunning'
      have hdone := hafter.finish hslot
      simp only [hidle]
      generalize tree.runRecipe id slot.stamp folder answer (ledger.begin id) = ran at *
      obtain ⟨got, after⟩ := ran
      subst hresult
      refine ⟨rfl, hdone, ?_⟩
      change (after.finish id _).running = running
      rw [Ledger.running_finish, hstill, List.erase_cons_head]

/-- A question is answered as soon as the stamp that it names gives its result. -/
theorem gives_answer {target : StampId} {asker kind : Kind}
    {compile : (other : Slot) → other.stamp.kind = kind → Compile Compiled}
    (h : ∀ other hkind, tree.slot? target = some other → Gives tree running (compile other hkind) (tree.result other)) :
    Gives tree running
      (match tree.slot? target with
      | none => raise (.unknownStamp target)
      | some other =>
        if hkind : other.stamp.kind = kind then do
          let compiled ← Compile.referredBy asker (compile other hkind)
          match compiled.key with
          | some key => return key
          | none => raise (.noReferenceKey kind)
        else raise (.unexpectedKind kind other.stamp.kind))
      (tree.answer asker target kind) := by
  unfold Tree.answer
  cases htarget : tree.slot? target with
  | none => exact gives_raise _
  | some other =>
    by_cases hkind : other.stamp.kind = kind
    · simp only [dif_pos hkind, if_pos hkind]
      refine ((h other hkind htarget).referredBy _).bind fun compiled => ?_
      cases compiled.key with
      | some key => exact gives_pure key
      | none => exact gives_raise _
    · simp only [dif_neg hkind, if_neg hkind]
      exact gives_raise _

theorem gives_compileBelow {bound : Nat} {id : StampId} {slot : Slot}
    (hslot : tree.slot? id = some slot) (hrank : slot.stamp.kind.rank < bound)
    (hwaiting : Waiting tree running slot.stamp.kind.rank) :
    Gives tree running (tree.compileBelow bound id slot hrank) (tree.result slot) := by
  induction bound generalizing id slot running with
  | zero => exact absurd hrank (Nat.not_lt_zero _)
  | succ bound ih =>
    refine gives_compileSlot hslot hwaiting fun target kind lower => ?_
    refine gives_answer fun other hkind hother => ?_
    exact ih hother _ (hwaiting.cons hslot (by rwa [hkind] : other.stamp.kind.rank < _))

theorem gives_compile (tree : Tree) (id : StampId) :
    Gives tree [] (tree.compile id) (tree.outcome id) := by
  unfold Tree.compile Tree.outcome
  cases hslot : tree.slot? id with
  | none => exact gives_raise _
  | some slot => exact gives_compileBelow hslot _ nofun

theorem gives_reference (tree : Tree) (id : StampId) :
    Gives tree [] (tree.reference id) ((tree.outcome id).map Compiled.key) := by
  refine ((gives_compile tree id).bind fun compiled => gives_pure compiled.key).of_eq ?_
  cases tree.outcome id <;> rfl

theorem gives_render (tree : Tree) (start : FolderId) (options : RenderOptions)
    (wanted : Stamp → Bool) :
    Gives tree [] (tree.render start options wanted) (tree.rendering start options wanted) := by
  have hstamp (id : StampId) : Gives tree [] (tree.renderStamp options.indent id)
      (tree.stampText options.indent id) := by
    refine (gives_compile tree id).bind fun compiled => ?_
    cases compiled.value with
    | some doc => exact gives_pure _
    | none => exact gives_pure _
  exact (Gives.mapM hstamp _).bind fun texts => gives_pure _

end Compile

namespace Tree

/-! ### Results in larger trees -/

theorem Grows.scope {before after : Tree} (hgrows : before.Grows after) (hanchored : before.Anchored)
    {folder : FolderId} (hfolder : folder < before.size) (kind : Kind) :
    (before.scope folder kind).Extends (after.scope folder kind) := by
  have hpartition := Nat.lt_of_le_of_lt (before.partitionOf_le folder) hfolder
  obtain ⟨hname, hindex, -⟩ := hgrows.folder _ hpartition
  have hscope : after.scope folder kind = { before.scope folder kind with
      stamp? := after.stamp?
      hookPath? := fun id => (after.stampFolder? id).map after.path } := by
    simp only [Tree.scope, hgrows.context, hgrows.path_eq hfolder, hgrows.partitionOf_eq hfolder,
      hname, hindex]
  rw [hscope]
  refine .more hgrows.stamp? fun {id path} hpath => ?_
  obtain ⟨hooked, hhooked, rfl⟩ := Option.map_eq_some_iff.mp hpath
  rw [hgrows.stampFolder? hhooked, Option.map_some, hgrows.path_eq (hanchored.lt_size hhooked)]

/-- The answer to a question stays the same in a larger tree if the result that it comes from does. -/
theorem Grows.answer {before after : Tree} (hgrows : before.Grows after) {asker kind : Kind}
    {target : StampId}
    (hresult : ∀ slot later, before.slot? target = some slot → after.slot? target = some later →
      slot.stamp.kind = kind → Within (before.result slot) (after.result later)) :
    Within (before.answer asker target kind) (after.answer asker target kind) := by
  unfold Tree.answer
  cases htarget : before.slot? target with
  | none => exact .error _ _
  | some slot =>
    obtain ⟨later, hlater, hsame, -⟩ := hgrows.slot htarget
    by_cases hkind : slot.stamp.kind = kind
    · simp only [hlater, hsame, if_pos hkind]
      exact (hresult slot later htarget hlater hkind).mapError.bind fun compiled => .refl _
    · simp only [if_neg hkind]
      exact .error _ _

/-- What a stamp compiles to stays the same while the tree grows, although a failure need not stay. -/
theorem Grows.result {before after : Tree} (hgrows : before.Grows after) (hanchored : before.Anchored)
    {id : StampId} {slot later : Slot} (hslot : before.slot? id = some slot)
    (hlater : after.slot? id = some later) : Within (before.result slot) (after.result later) := by
  obtain ⟨same, hsame, hstamp, hfolder⟩ := hgrows.slot hslot
  rw [hlater] at hsame
  cases hsame
  obtain ⟨stamp, hooked⟩ := later
  subst hstamp
  rw [before.result_eq, after.result_eq]
  cases hbefore : slot.folder with
  | none => exact .error _ _
  | some folder =>
    have hhooked : before.stampFolder? id = some folder := by
      rw [Tree.stampFolder?, hslot, Option.bind_some, hbefore]
    have hsize := hanchored.lt_size hhooked
    have hstays : hooked = some folder := hfolder folder hbefore
    subst hstays
    have hanswer (target : StampId) (kind : Kind) (lower : kind.rank < slot.stamp.kind.rank) :
        Within (before.answer slot.stamp.kind target kind) (after.answer slot.stamp.kind target kind) :=
      hgrows.answer fun other more hother hmore hkind => hgrows.result hanchored hother hmore
    have hrecipe := (hgrows.scope hanchored hsize slot.stamp.kind).recipe slot.stamp
      (slot.stamp.dialect before.context.version)
    simp only [hgrows.context]
    refine (Within.refl _).bind fun template => ?_
    exact ((hrecipe template).run_eq_ok hanswer).bind fun output => .refl _
  termination_by slot.stamp.kind.rank
  decreasing_by
    rw [hkind]
    exact lower

theorem Grows.sound {before after : Tree} (hgrows : before.Grows after) (hanchored : before.Anchored)
    {ledger : Ledger} (h : ledger.Sound before) : ledger.Sound after where
  cache := h.cache
  results := by
    intro id compiled hresult
    obtain ⟨slot, hslot, hcompiled⟩ := h.results hresult
    obtain ⟨later, hlater, -⟩ := hgrows.slot hslot
    exact ⟨later, hlater, hgrows.result hanchored hslot hlater compiled hcompiled⟩

end Tree

end ApplianceConfig
