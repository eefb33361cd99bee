import ApplianceConfig.Proofs.Render.Decomposition
import ApplianceConfig.Proofs.Tree.Backward

/-!
# How often stamps are written

A walk comes to no folder twice, and a stamp stands in one folder only. So a stamp is written twice only if it stands twice in its folder, and it does so only after a list was hooked with the stamp in it twice: all of a list is looked at before the first of its stamps is hooked, and then each of them is still free.
-/

namespace ApplianceConfig

namespace Tree

/-- The stamps that stand in folders, folder by folder. -/
def contents (tree : Tree) : List StampId :=
  (List.range tree.size).flatMap fun folder => (tree.folder folder).content

/-! ### Folders of a walk -/

theorem Linked.nodup_visited {tree : Tree} (h : tree.Linked) (start : FolderId) (recursive : Bool) :
    (tree.visited start recursive).Nodup := by
  cases recursive with
  | true =>
    rw [visited_true]
    exact h.nodup_preorder start
  | false =>
    have hbelow : (tree.folder start).childIds.Nodup := h.childIds_nodup start
    rw [visited]
    split
    · exact hbelow
    · refine List.nodup_cons.mpr ⟨fun hmem => ?_, hbelow⟩
      exact Nat.lt_irrefl start (tree.child_gt_of_folder hmem).1

/-! ### Stamps of folders -/

section Filed

variable {tree : Tree} (h : tree.Filed)

include h

/-- A stamp stands in one folder only. -/
theorem Filed.folder_unique {first second : FolderId} {id : StampId} (hfirst : id ∈ (tree.folder first).content)
    (hsecond : id ∈ (tree.folder second).content) : first = second :=
  Option.some.inj (((h.mem_content_iff first id).mp hfirst).symm.trans ((h.mem_content_iff second id).mp hsecond))

/-- No stamp is repeated in some folders if none is repeated in one of them. -/
theorem Filed.nodup_flatMap {folders : List FolderId} (hfolders : folders.Nodup) {f : FolderId → List StampId}
    (hcontent : ∀ folder, (f folder).Sublist (tree.folder folder).content) :
    (folders.flatMap f).Nodup ↔ ∀ folder ∈ folders, (f folder).Nodup := by
  rw [List.nodup_flatMap, and_iff_left_iff_imp]
  refine fun _ => hfolders.imp fun hne id hfirst hsecond => ?_
  exact hne (h.folder_unique ((hcontent _).subset hfirst) ((hcontent _).subset hsecond))

theorem Filed.nodup_contents_iff : tree.contents.Nodup ↔ ∀ folder, (tree.folder folder).content.Nodup := by
  rw [contents, h.nodup_flatMap List.nodup_range fun folder => List.Sublist.refl _]
  refine ⟨fun hcontents folder => ?_, fun hcontents folder _ => hcontents folder⟩
  by_cases hfolder : folder < tree.size
  · exact hcontents folder (List.mem_range.mpr hfolder)
  · rw [folder_of_size_le (Nat.le_of_not_lt hfolder)]
    exact List.nodup_nil

end Filed

/-- Where no stamp stands twice, none is visited twice. -/
theorem WellFormed.nodup_visitedStamps {tree : Tree} (h : tree.WellFormed) (hcontents : tree.contents.Nodup)
    (start : FolderId) (recursive : Bool) (wanted : Stamp → Bool) :
    (tree.visitedStamps start recursive wanted).Nodup := by
  have hcontent (folder : FolderId) : (tree.wantedStamps wanted folder).Sublist (tree.folder folder).content :=
    List.filter_sublist
  rw [visitedStamps, h.nodup_flatMap (h.nodup_visited start recursive) hcontent]
  exact fun folder _ => (h.nodup_contents_iff.mp hcontents folder).filter _

/-! ### Operations -/

theorem nodup_append_of_new {α : Type} {xs ys : List α} (h : ∀ y ∈ ys, y ∉ xs) :
    (xs ++ ys).Nodup ↔ xs.Nodup ∧ ys.Nodup := by
  rw [List.nodup_append]
  refine and_congr_right fun _ => and_iff_left fun x hx y hy heq => ?_
  exact h y hy (heq ▸ hx)

theorem nodup_contents_new (context : Context) : (new context).contents.Nodup := by
  refine (filed_new context).nodup_contents_iff.mpr fun folder => ?_
  rw [folder_new]
  exact List.nodup_nil

/-- The stamp that is put into the tree to be hooked is a new one. -/
theorem Filed.nodup_contents_hookStamp {tree : Tree} (h : tree.Filed) {folder : FolderId} (hfolder : folder < tree.size)
    (stamp : Stamp) : (tree.hookStamp folder stamp).2.contents.Nodup ↔ tree.contents.Nodup := by
  rw [(h.hookStamp hfolder stamp).nodup_contents_iff, h.nodup_contents_iff]
  refine forall_congr' fun id => ?_
  have hnew : ∀ number ∈ if id = folder then [tree.slots.length] else [], number ∉ (tree.folder id).content := by
    split
    · simpa using fun hmem => Nat.lt_irrefl _ (h.lt_length hmem)
    · exact nofun
  rw [content_hookStamp hfolder, nodup_append_of_new hnew, and_iff_left]
  split
  · exact List.nodup_singleton _
  · exact List.nodup_nil

theorem Filed.nodup_contents_extend {tree : Tree} (h : tree.Filed) {parent : FolderId} (name : String)
    (hparent : parent < tree.size) : (tree.extend parent name hparent).contents.Nodup ↔ tree.contents.Nodup := by
  have hgrown := h.grow name hparent
  rw [extend, hgrown.nodup_contents_hookStamp (tree.size_lt_size_grow parent name hparent), hgrown.nodup_contents_iff,
    h.nodup_contents_iff]
  exact forall_congr' fun id => by rw [(tree.content_grow parent name hparent id).1]

theorem Bare.nodup_contents {tree : Tree} (h : tree.Bare) : tree.contents.Nodup := by
  induction h with
  | new context => exact nodup_contents_new context
  | extend hbare hparent _ ih => exact (hbare.wellFormed.nodup_contents_extend _ hparent).mpr ih

/-- A list brings its own repetitions with it, and makes no others. -/
theorem WellFormed.nodup_contents_hook {tree after : Tree} (h : tree.WellFormed) {folder : FolderId}
    (hfolder : folder < tree.size) {ids : List StampId} (hhook : tree.hook folder ids = .ok after) :
    after.contents.Nodup ↔ tree.contents.Nodup ∧ ids.Nodup := by
  have hafter := h.hook hfolder hhook
  obtain ⟨herror, rfl⟩ := hook_eq_ok_iff.mp hhook
  have hids := free_of_hookError? herror
  have hcontent (id : FolderId) := content_foldl_attach hfolder (fun id hid => (hids id hid).1) id
  have hnew (id : FolderId) : ∀ number ∈ if id = folder then ids else [], number ∉ (tree.folder id).content := by
    split
    · intro number hnumber hmem
      have hhooked := (h.mem_content_iff _ _).mp hmem
      rw [(hids number hnumber).2] at hhooked
      cases hhooked
    · exact nofun
  rw [hafter.nodup_contents_iff, h.nodup_contents_iff]
  simp only [hcontent, nodup_append_of_new (hnew _), forall_and]
  refine and_congr_right fun _ => ⟨fun hrepeat => ?_, fun hrepeat id => ?_⟩
  · simpa using hrepeat folder
  · split
    · exact hrepeat
    · exact List.nodup_nil

end Tree

/-! ### Sessions -/

namespace Session

/-- The stamps that an operation hooks from a list, in the order of the list. -/
def hooks (session : Session) : Operation → List StampId
  | .hook folder ids => if folder < session.tree.size ∧ (session.tree.hookError? ids).isNone then ids else []
  | _ => []

/-- Holds of operations that hook no list with a stamp in it twice. -/
def HooksOnce (session : Session) : List Operation → Prop
  | [] => True
  | operation :: operations => (session.hooks operation).Nodup ∧ (session.step operation).HooksOnce operations

theorem nodup_contents_step {session : Session} (h : session.tree.WellFormed) (operation : Operation) :
    (session.step operation).tree.contents.Nodup ↔
      session.tree.contents.Nodup ∧ (session.hooks operation).Nodup := by
  cases operation with
  | add parent name =>
    refine Iff.trans ?_ (and_iff_left List.nodup_nil).symm
    rw [step]
    split
    · rename_i hparent
      cases hadd : session.tree.add parent name hparent with
      | error e => rfl
      | ok grown =>
        obtain ⟨-, hgrown⟩ := Tree.of_add_eq_ok hadd
        change grown.2.contents.Nodup ↔ _
        rw [hgrown]
        exact h.nodup_contents_extend name hparent
    · rfl
  | insert stamp => exact (and_iff_left List.nodup_nil).symm
  | hook folder ids =>
    rw [hooks, step]
    by_cases hfolder : folder < session.tree.size
    · cases hhook : session.tree.hook folder ids with
      | error e =>
        have herror : session.tree.hookError? ids ≠ none := by
          intro hnone
          cases hhook.symm.trans (Tree.hook_eq_ok_iff.mpr ⟨hnone, rfl⟩)
        simp [hfolder, herror]
      | ok grown =>
        obtain ⟨herror, -⟩ := Tree.hook_eq_ok_iff.mp hhook
        simp [hfolder, herror, h.nodup_contents_hook hfolder hhook]
    · simp [hfolder]
  | hookStamp folder stamp =>
    refine Iff.trans ?_ (and_iff_left List.nodup_nil).symm
    rw [step]
    split
    · rename_i hfolder
      exact h.nodup_contents_hookStamp hfolder stamp
    · rfl
  | compile | reference | render | recache => exact (and_iff_left List.nodup_nil).symm

theorem nodup_contents_foldl {session : Session} (h : session.tree.WellFormed) (operations : List Operation) :
    (operations.foldl step session).tree.contents.Nodup ↔
      session.tree.contents.Nodup ∧ session.HooksOnce operations := by
  induction operations generalizing session with
  | nil => exact (and_iff_left trivial).symm
  | cons operation operations ih =>
    rw [List.foldl_cons, ih (step_wellFormed h operation), nodup_contents_step h, and_assoc]
    rfl

theorem bare_initial (context : Context) (partitions : Option Nat) : (Tree.initial context partitions).Bare := by
  cases partitions with
  | none => exact .new context
  | some count => exact Tree.bare_withPartitions context count

/-- A stamp stands in one folder at most, whatever is hooked. No stamp stands there twice exactly if no list was hooked with a stamp in it twice, and then no rendering visits a stamp twice. -/
theorem hooked_once_iff (context : Context) (partitions : Option Nat) (operations : List Operation) :
    let tree := (runFrom context partitions operations).tree
    (∀ first second id, id ∈ (tree.folder first).content → id ∈ (tree.folder second).content → first = second) ∧
      (tree.contents.Nodup ↔ HooksOnce { tree := .initial context partitions } operations) ∧
      (tree.contents.Nodup → ∀ start recursive wanted, (tree.visitedStamps start recursive wanted).Nodup) := by
  intro tree
  have hbare := bare_initial context partitions
  have hwellFormed : tree.WellFormed := foldl_wellFormed hbare.wellFormed operations
  have hcontents := @nodup_contents_foldl { tree := .initial context partitions } hbare.wellFormed operations
  rw [and_iff_right hbare.nodup_contents] at hcontents
  exact ⟨fun _ _ _ => hwellFormed.folder_unique, hcontents, hwellFormed.nodup_visitedStamps⟩

/-- A node that is given twice in one list stands twice in its folder, and is written twice. -/
theorem hooked_twice :
    let context : Context := { version := .release .bigip 11 5 0 }
    let tree := (runFrom context (some 0) [.insert (.node { address := "10.0.0.1" }), .hook 1 [1, 1]]).tree
    ¬ tree.contents.Nodup ∧ ¬ (tree.visitedStamps Tree.root true fun _ => true).Nodup := by
  decide +kernel

end Session

end ApplianceConfig
