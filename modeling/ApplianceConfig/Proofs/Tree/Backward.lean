import ApplianceConfig.Proofs.Tree.Paths
import ApplianceConfig.Proofs.Tree.Shape
import ApplianceConfig.Stamp.Reference

/-!
# References to earlier stamps

A tree can be made folder by folder and then filled stamp by stamp, each one hooked as soon as it is there. If stamps name only what is hooked already, all references lead to hooked stamps with smaller numbers.
-/

namespace ApplianceConfig

namespace Tree

/-! ### Trees without stamps of their own -/

/-- A tree of folders and their markers. -/
inductive Bare : Tree → Prop
  | new (context : Context) : Bare (.new context)
  | extend {tree : Tree} {parent : FolderId} {name : String} (h : tree.Bare) (hparent : parent < tree.size)
      (hname : name ∉ Assoc.keys (tree.folder parent).children) : Bare (tree.extend parent name hparent)

theorem Bare.add {tree after : Tree} (h : tree.Bare) {parent child : FolderId} {name : String}
    {hparent : parent < tree.size} (hadd : tree.add parent name hparent = .ok (child, after)) : after.Bare := by
  obtain ⟨hname, rfl⟩ := of_add_eq_ok hadd
  exact h.extend hparent hname

theorem bare_withPartitions (context : Context) (count : Nat) : (withPartitions context count).Bare := by
  unfold withPartitions
  refine List.foldlRecOn _ _ (.new context) fun tree h name _ => ?_
  split
  · cases hadd : tree.add root name ‹_› with
    | error e => exact h
    | ok added => exact h.add hadd
  · exact h

section Missing

variable {tree : Tree} {parent : FolderId} {name : String} (h : tree.child? parent name = none)

include h

theorem contains_of_child? : Assoc.contains (tree.folder parent).children name = false := by
  rw [Assoc.contains, show Assoc.get? (tree.folder parent).children name = none from h]
  rfl

theorem not_mem_keys_of_child? : name ∉ Assoc.keys (tree.folder parent).children :=
  Assoc.not_mem_keys_of_contains (contains_of_child? h)

/-- A folder that is missing can be added. -/
theorem add_of_child? (hparent : parent < tree.size) :
    tree.add parent name hparent = .ok (tree.size, tree.extend parent name hparent) := by
  rw [add, contains_of_child? h]
  rfl

end Missing

theorem Bare.ensure {tree : Tree} (h : tree.Bare) {start : FolderId} (hstart : start < tree.size)
    (names : List String) : (tree.ensure start hstart names).Bare := by
  induction names generalizing tree start with
  | nil => exact h
  | cons name names ih =>
    cases hchild : tree.child? start name with
    | some next =>
      rw [ensure_of_some hchild]
      exact ih h _
    | none =>
      rw [ensure_of_none hchild]
      exact ih (h.extend hstart (not_mem_keys_of_child? hchild)) _

theorem Bare.ensurePath {tree : Tree} (h : tree.Bare) (path : String) : (tree.ensurePath path).Bare := by
  unfold Tree.ensurePath
  split
  · exact h.ensure _ _
  · exact h

theorem Bare.wellFormed {tree : Tree} (h : tree.Bare) : tree.WellFormed := by
  induction h with
  | new context => exact wellFormed_new context
  | extend _ hparent hname ih => exact ih.extend hparent hname

theorem Bare.anchored {tree : Tree} (h : tree.Bare) : tree.Anchored := by
  induction h with
  | new context => exact anchored_new context
  | extend _ hparent _ ih =>
    exact (ih.grow _ hparent).hookStamp (size_lt_size_grow _ _ _ hparent) _

/-! ### One more stamp -/

section Hook

variable (tree : Tree) (folder : FolderId) (stamp : Stamp)

theorem length_slots_hookStamp : (tree.hookStamp folder stamp).2.slots.length = tree.slots.length + 1 := by
  unfold hookStamp attach
  simp only [insert]
  split <;> simp

theorem slot?_hookStamp (id : StampId) :
    (tree.hookStamp folder stamp).2.slot? id =
      if id = tree.slots.length then some { stamp, folder := some folder } else tree.slot? id := by
  have hattach := (tree.insert stamp).2.slot?_attach folder tree.slots.length id
  rw [slot?_insert] at hattach
  refine hattach.trans ?_
  by_cases hid : id = tree.slots.length
  · rw [if_pos hid, if_pos hid, Option.map_some, if_pos hid.symm]
  · rw [if_neg hid, if_neg hid]
    simp only [if_neg (Ne.symm hid), Option.map_id']

theorem stamp?_hookStamp (id : StampId) :
    (tree.hookStamp folder stamp).2.stamp? id =
      if id = tree.slots.length then some stamp else tree.stamp? id := by
  rw [stamp?, slot?_hookStamp]
  split <;> rfl

theorem stampFolder?_hookStamp (id : StampId) :
    (tree.hookStamp folder stamp).2.stampFolder? id =
      if id = tree.slots.length then some folder else tree.stampFolder? id := by
  rw [stampFolder?, slot?_hookStamp]
  split <;> rfl

end Hook

theorem lt_length_of_stampFolder? {tree : Tree} {id : StampId} {folder : FolderId}
    (h : tree.stampFolder? id = some folder) : id < tree.slots.length := by
  obtain ⟨slot, hslot, -⟩ := Option.bind_eq_some_iff.mp h
  exact (List.getElem?_eq_some_iff.mp hslot).1

/-! ### References to earlier stamps -/

/-- All stamps refer to hooked stamps with smaller numbers than their own. -/
def RefersBack (tree : Tree) : Prop :=
  ∀ id stamp, tree.stamp? id = some stamp → ∀ target ∈ stamp.references,
    target < id ∧ ∃ folder, tree.stampFolder? target = some folder

theorem RefersBack.hookStamp {tree : Tree} (h : tree.RefersBack) (folder : FolderId) {stamp : Stamp}
    (hreferences : ∀ target ∈ stamp.references, ∃ hooked, tree.stampFolder? target = some hooked) :
    (tree.hookStamp folder stamp).2.RefersBack := by
  intro id other hother target htarget
  rw [stamp?_hookStamp] at hother
  have hback : target < id ∧ ∃ hooked, tree.stampFolder? target = some hooked := by
    by_cases hid : id = tree.slots.length
    · rw [if_pos hid] at hother
      cases hother
      obtain ⟨hooked, hfolder⟩ := hreferences target htarget
      exact ⟨hid ▸ lt_length_of_stampFolder? hfolder, hooked, hfolder⟩
    · rw [if_neg hid] at hother
      exact h id other hother target htarget
  obtain ⟨hlt, hooked, hfolder⟩ := hback
  exact ⟨hlt, hooked, (tree.grows_hookStamp folder stamp).stampFolder? hfolder⟩

theorem references_marker (tree : Tree) (parent : FolderId) : (tree.marker parent).references = [] := by
  unfold marker
  split <;> rfl

theorem Bare.refersBack {tree : Tree} (h : tree.Bare) : tree.RefersBack := by
  induction h with
  | new context => exact fun id stamp hstamp => nomatch hstamp
  | @extend tree parent name _ hparent _ ih =>
    have hgrown : (tree.grow parent name hparent).RefersBack := ih
    refine hgrown.hookStamp tree.size fun target htarget => ?_
    rw [references_marker] at htarget
    cases htarget

end Tree

end ApplianceConfig
