import ApplianceConfig.Proofs.Compile.Result
import ApplianceConfig.Proofs.Template.Document
import ApplianceConfig.Stamp.Reference

/-!
# What recipes ask for and end with

A recipe knows the other stamps by the keys that it is given only. So a property of what it ends with is proved for all keys that may be given, and goes through sequences and lists of recipes part by part. The questions do not depend on the keys at all, and a run that comes to its end has an answer to each.
-/

namespace ApplianceConfig

/-- A computation that does not fail ends with a result that has a property. -/
def Yields {α : Type} (post : α → Prop) (x : Except CompileError α) : Prop := ∀ a, x = .ok a → post a

namespace Yields

variable {α β : Type} {mid : α → Prop} {post : β → Prop}

theorem ok {a : α} (h : mid a) : Yields mid (.ok a) := by
  intro b hb
  cases hb
  exact h

theorem error (e : CompileError) : Yields mid (.error e) := nofun

theorem bind {x : Except CompileError α} (h : Yields mid x) {f : α → Except CompileError β}
    (hnext : ∀ a, mid a → Yields post (f a)) : Yields post (x >>= f) := by
  cases x with
  | error e => exact error e
  | ok a => exact hnext a (h a rfl)

theorem bind_ok {x : Except CompileError α} {a : α} (h : x = .ok a) {f : α → Except CompileError β}
    (hnext : Yields post (f a)) : Yields post (x >>= f) := by
  rw [h]
  exact hnext

theorem of_eq_ok {x : Except CompileError α} {a : α} (h : x = .ok a) (ha : mid a) : Yields mid x := by
  rw [h]
  exact ok ha

theorem skipIf {skip : Bool} {output : α} {x : Except CompileError α} (hskip : mid output) (h : Yields mid x) :
    Yields mid (if skip then pure output else x) := by
  cases skip
  · exact h
  · exact ok hskip

theorem trivial (x : Except CompileError α) : Yields (fun _ => True) x := fun _ _ => True.intro

theorem mapM {f : α → Except CompileError β} {items : List α} (h : ∀ a ∈ items, Yields post (f a)) :
    Yields (fun results => ∀ b ∈ results, post b) (items.mapM f) := by
  induction items with
  | nil => exact .ok fun b hb => nomatch hb
  | cons a items ih =>
    rw [List.mapM_cons]
    obtain ⟨ha, hitems⟩ := List.forall_mem_cons.mp h
    refine ha.bind fun b hb => (ih hitems).bind fun results hresults => ?_
    exact .ok (List.forall_mem_cons.mpr ⟨hb, hresults⟩)

end Yields

namespace Recipe

variable {rank : Nat} {α β : Type} {answers : Kind → String → Prop} {mid : α → Prop} {post : β → Prop}

/-- As long as the recipe is given keys that may be answered, it fails or ends with a result that has a property. -/
def Ensures (answers : Kind → String → Prop) (post : α → Prop) : Recipe rank α → Prop
  | .done result => post result
  | .fail _ => True
  | .refer _ kind _ next => ∀ key, answers kind key → (next key).Ensures answers post

namespace Ensures

theorem mono {recipe : Recipe rank α} (h : recipe.Ensures answers mid) {weaker : α → Prop}
    (hweaker : ∀ a, mid a → weaker a) : recipe.Ensures answers weaker := by
  induction recipe with
  | done result => exact hweaker result h
  | fail e => exact True.intro
  | refer id kind lower next ih => exact fun key hkey => ih key (h key hkey)

theorem trivial (recipe : Recipe rank α) : recipe.Ensures answers fun _ => True := by
  induction recipe with
  | done result => exact True.intro
  | fail e => exact True.intro
  | refer id kind lower next ih => exact fun key _ => ih key

theorem bind {x : Recipe rank α} (h : x.Ensures answers mid) {f : α → Recipe rank β}
    (hnext : ∀ a, mid a → (f a).Ensures answers post) : (x >>= f).Ensures answers post := by
  change (x.andThen f).Ensures answers post
  induction x with
  | done result => exact hnext result h
  | fail e => exact True.intro
  | refer id kind lower next ih => exact fun key hkey => ih key (h key hkey)

theorem lift {x : Except CompileError α} (h : Yields mid x) :
    (liftM x : Recipe rank α).Ensures answers mid := by
  cases x with
  | error e => exact True.intro
  | ok a => exact h a rfl

theorem ofExcept {x : Except CompileError α} (h : Yields mid x) :
    (.ofExcept x : Recipe rank α).Ensures answers mid := lift h

theorem bind_ok {x : Except CompileError α} {a : α} (h : x = .ok a) {f : α → Recipe rank β}
    (hnext : (f a).Ensures answers post) :
    ((liftM x : Recipe rank α) >>= f).Ensures answers post := by
  rw [h]
  exact hnext

theorem key (id : StampId) (kind : Kind) (lower : kind.rank < rank) :
    (Recipe.key id kind lower).Ensures answers (answers kind) := fun _ hkey => hkey

theorem skipIf {skip : Bool} {output : α} {x : Recipe rank α} (hskip : mid output)
    (h : x.Ensures answers mid) : (if skip then pure output else x).Ensures answers mid := by
  cases skip
  · exact h
  · exact hskip

theorem mapM {f : α → Recipe rank β} {items : List α} (h : ∀ a ∈ items, (f a).Ensures answers post) :
    (items.mapM f).Ensures answers fun results => ∀ b ∈ results, post b := by
  -- results are collected in front and turned around at the end
  have hloop : ∀ done : List β, (∀ b ∈ done, post b) →
      (List.mapM.loop f items done).Ensures answers fun results => ∀ b ∈ results, post b := by
    induction items with
    | nil => exact fun done hdone b hb => hdone b (List.mem_reverse.mp hb)
    | cons a items ih =>
      intro done hdone
      refine (h a List.mem_cons_self).bind fun b hb => ?_
      exact ih (fun other hother => h other (List.mem_cons_of_mem a hother)) (b :: done)
        (List.forall_mem_cons.mpr ⟨hb, hdone⟩)
  exact hloop [] (fun b hb => nomatch hb)

/-- A run that is given such keys ends as the recipe does. -/
theorem run {recipe : Recipe rank α} (h : recipe.Ensures answers mid)
    {answer : (id : StampId) → (kind : Kind) → kind.rank < rank → Except CompileError String}
    (hanswer : ∀ id kind lower, Yields (answers kind) (answer id kind lower)) :
    Yields mid (recipe.run .error answer) := by
  induction recipe with
  | done result => exact .ok h
  | fail e => exact .error e
  | refer id kind lower next ih => exact (hanswer id kind lower).bind fun key hkey => ih key (h key hkey)

end Ensures

/-! ### Questions and the keys that answer them -/

/-- The recipe poses these questions one after another and no others, unless it fails on the way. -/
def Poses : Recipe rank α → List (StampId × Kind) → Prop
  | .done _, questions => questions = []
  | .fail _, _ => True
  | .refer id kind _ next, questions =>
    ∃ rest, questions = (id, kind) :: rest ∧ ∀ key, (next key).Poses rest

/-- The keys that a run is given, with the stamps and the kinds that they were asked for. -/
def taken (answer : StampId → Kind → Except CompileError String) :
    Recipe rank α → List (StampId × Kind × String)
  | .done _ | .fail _ => []
  | .refer id kind _ next =>
    match answer id kind with
    | .ok key => (id, kind, key) :: (next key).taken answer
    | .error _ => []

namespace Poses

variable {questions more : List (StampId × Kind)}

theorem done (a : α) : (.done a : Recipe rank α).Poses [] := rfl

theorem bind {x : Recipe rank α} (h : x.Poses questions) {f : α → Recipe rank β}
    (hnext : ∀ a, (f a).Poses more) : (x >>= f).Poses (questions ++ more) := by
  change (x.andThen f).Poses (questions ++ more)
  induction x generalizing questions with
  | done result =>
    cases h
    exact hnext result
  | fail e => exact True.intro
  | refer id kind lower next ih =>
    obtain ⟨rest, rfl, hrest⟩ := h
    exact ⟨rest ++ more, rfl, fun key => ih key (hrest key)⟩

theorem last {x : Recipe rank α} (h : x.Poses questions) {f : α → Recipe rank β}
    (hnext : ∀ a, (f a).Poses []) : (x >>= f).Poses questions := by
  have hbind := h.bind hnext
  rwa [List.append_nil] at hbind

theorem map {x : Recipe rank α} (h : x.Poses questions) (g : α → β) :
    (do return g (← x) : Recipe rank β).Poses questions := h.last fun a => done (g a)

theorem lift (x : Except CompileError α) : (liftM x : Recipe rank α).Poses [] := by
  cases x with
  | error e => exact True.intro
  | ok a => exact done a

theorem ofExcept (x : Except CompileError α) : (.ofExcept x : Recipe rank α).Poses [] := lift x

theorem key (id : StampId) (kind : Kind) (lower : kind.rank < rank) :
    (Recipe.key id kind lower).Poses [(id, kind)] := ⟨[], rfl, done⟩

theorem skipIf {skip : Bool} {output : α} {x : Recipe rank α} (h : x.Poses questions) :
    (if skip then pure output else x).Poses (if skip then [] else questions) := by
  cases skip
  · exact h
  · exact done output

theorem mapM {f : α → Recipe rank β} {asked : α → List (StampId × Kind)} (h : ∀ a, (f a).Poses (asked a))
    (items : List α) : (items.mapM f).Poses (items.flatMap asked) := by
  have hloop : ∀ results : List β, (List.mapM.loop f items results).Poses (items.flatMap asked) := by
    induction items with
    | nil => exact fun results => done _
    | cons a items ih => exact fun results => (h a).bind fun b => ih (b :: results)
  exact hloop []

/-- A run that comes to its end has been given a key for each of its questions. -/
theorem map_taken {recipe : Recipe rank α} (h : recipe.Poses questions)
    {answer : StampId → Kind → Except CompileError String} {a : α}
    (hrun : (recipe.run .error fun id kind _ => answer id kind) = .ok a) :
    ((recipe.taken answer).map fun t => (t.1, t.2.1)) = questions := by
  induction recipe generalizing questions with
  | done result => exact h.symm
  | fail e => cases hrun
  | refer id kind lower next ih =>
    obtain ⟨rest, rfl, hrest⟩ := h
    obtain ⟨key, hkey, hnext⟩ := bind_eq_ok hrun
    simp only [taken, hkey, List.map_cons, ih key (hrest key) hnext]

/-- Each key that a run is given is the answer to one of the questions. -/
theorem of_mem_taken {recipe : Recipe rank α} (h : recipe.Poses questions)
    {answer : StampId → Kind → Except CompileError String} {id : StampId} {kind : Kind} {key : String}
    (htaken : (id, kind, key) ∈ recipe.taken answer) : (id, kind) ∈ questions ∧ answer id kind = .ok key := by
  induction recipe generalizing questions with
  | done result => cases htaken
  | fail e => cases htaken
  | refer other otherKind lower next ih =>
    obtain ⟨rest, rfl, hrest⟩ := h
    rw [taken] at htaken
    cases hother : answer other otherKind with
    | error e =>
      rw [hother] at htaken
      cases htaken
    | ok otherKey =>
      rw [hother] at htaken
      rcases List.mem_cons.mp htaken with heq | hlater
      · cases heq
        exact ⟨List.mem_cons_self, hother⟩
      · obtain ⟨hasked, hanswer⟩ := ih otherKey (hrest otherKey) hlater
        exact ⟨List.mem_cons_of_mem _ hasked, hanswer⟩

end Poses

end Recipe

namespace Tree

/-- The recipe of a slot's stamp on its template, as it sees the tree from a folder. -/
def recipeOf (tree : Tree) (slot : Slot) (folder : FolderId) : Recipe slot.stamp.kind.rank Output :=
  let dialect := slot.stamp.dialect tree.context.version
  slot.stamp.recipe dialect (tree.scope folder slot.stamp.kind) (Template.document slot.stamp.kind dialect)

theorem exists_slot_of_outcome {tree : Tree} {id : StampId} {compiled : Compiled}
    (h : tree.outcome id = .ok compiled) :
    ∃ slot, tree.slot? id = some slot ∧ tree.result slot = .ok compiled := by
  unfold outcome at h
  cases hslot : tree.slot? id with
  | none =>
    rw [hslot] at h
    cases h
  | some slot =>
    rw [hslot] at h
    exact ⟨slot, rfl, h⟩

theorem stampFolder?_of_slot {tree : Tree} {id : StampId} {slot : Slot} (h : tree.slot? id = some slot) :
    tree.stampFolder? id = slot.folder := by
  rw [stampFolder?, h, Option.bind_some]

theorem stamp?_of_slot {tree : Tree} {id : StampId} {slot : Slot} (h : tree.slot? id = some slot) :
    tree.stamp? id = some slot.stamp := by
  rw [stamp?, h, Option.map_some]

/-- A stamp that is compiled is hooked onto a folder, and its recipe has been run to the end. -/
theorem exists_output_of_result {tree : Tree} {slot : Slot} {compiled : Compiled}
    (h : tree.result slot = .ok compiled) :
    ∃ folder output, slot.folder = some folder ∧
      ((tree.recipeOf slot folder).run .error fun id kind _ => tree.answer slot.stamp.kind id kind) =
        .ok output ∧
      compiled = {
        key := output.key, value := output.value, dialect := slot.stamp.dialect tree.context.version } := by
  rw [result_eq] at h
  cases hfolder : slot.folder with
  | none =>
    rw [hfolder] at h
    cases h
  | some folder =>
    simp only [hfolder, Template.parse_eq] at h
    obtain ⟨template, htemplate, h⟩ := bind_eq_ok h
    cases htemplate
    obtain ⟨output, hrun, hcompiled⟩ := bind_eq_ok h
    cases hcompiled
    exact ⟨folder, output, rfl, hrun, rfl⟩

/-- The answer to a question is the key of a stamp of the kind, and that stamp has been compiled. -/
theorem exists_result_of_answer {tree : Tree} {asker kind : Kind} {id : StampId} {key : String}
    (h : tree.answer asker id kind = .ok key) :
    ∃ slot compiled, tree.slot? id = some slot ∧ slot.stamp.kind = kind ∧
      tree.result slot = .ok compiled ∧ compiled.key = some key := by
  unfold answer at h
  cases hslot : tree.slot? id with
  | none =>
    rw [hslot] at h
    cases h
  | some slot =>
    simp only [hslot] at h
    by_cases hkind : slot.stamp.kind = kind
    · rw [if_pos hkind] at h
      obtain ⟨compiled, hcompiled, hkey⟩ := bind_eq_ok h
      refine ⟨slot, compiled, rfl, hkind, ?_, ?_⟩
      · cases hresult : tree.result slot with
        | error e =>
          rw [hresult] at hcompiled
          cases hcompiled
        | ok found =>
          rw [hresult] at hcompiled
          cases hcompiled
          rfl
      · cases hfound : compiled.key with
        | none =>
          rw [hfound] at hkey
          cases hkey
        | some found =>
          rw [hfound] at hkey
          cases hkey
          rfl
    · rw [if_neg hkind] at h
      cases h

/-- The keys that a stamp takes from other stamps when it is compiled. -/
def taken (tree : Tree) (id : StampId) : List (StampId × Kind × String) :=
  match tree.slot? id with
  | some ⟨stamp, some folder⟩ =>
    (tree.recipeOf ⟨stamp, some folder⟩ folder).taken (tree.answer stamp.kind)
  | _ => []

end Tree

end ApplianceConfig
