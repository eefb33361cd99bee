import ApplianceConfig.Context
import ApplianceConfig.Stamp.Basic

/-!
# Folder trees

Folders are numbered in the order in which they are made; the root has number 0 and no name. The folders right under the root are partitions. Stamps are numbered in the order in which they are put into the tree, and a stamp that is hooked onto a folder stays there. Every folder but the root starts with a marker stamp of its own.

A folder is made after its parent, so its number is larger. This is what every descent and every ascent in the tree ends by, and it is part of the type.
-/

namespace ApplianceConfig

/-- The number of a folder in its tree. -/
abbrev FolderId := Nat

/-- A folder: its name, its place among its siblings, the folders in it by name, and the stamps hooked onto it, in the order of hooking and sorted by kind. -/
structure Folder where
  name : String
  index : Nat
  parent : Option FolderId
  children : Assoc FolderId := []
  content : List StampId := []
  byKind : List (Kind × List StampId) := []
  deriving Repr, Inhabited

namespace Folder

def isRoot (folder : Folder) : Bool := folder.parent.isNone

def childIds (folder : Folder) : List FolderId := folder.children.map Prod.snd

/-- The stamps of a kind that are hooked onto the folder, in the order of hooking. -/
def ofKind (folder : Folder) (kind : Kind) : List StampId :=
  (folder.byKind.lookup kind).getD []

/-- Puts a stamp behind those of its kind. -/
def sortIn (kind : Kind) (id : StampId) : List (Kind × List StampId) → List (Kind × List StampId)
  | [] => [(kind, [id])]
  | (k, ids) :: rest => if k = kind then (k, ids ++ [id]) :: rest else (k, ids) :: sortIn kind id rest

def hooked (folder : Folder) (kind : Kind) (id : StampId) : Folder :=
  { folder with content := folder.content ++ [id], byKind := sortIn kind id folder.byKind }

def withChild (folder : Folder) (name : String) (id : FolderId) : Folder :=
  { folder with children := folder.children ++ [(name, id)] }

end Folder

/-- A stamp in a tree, and the folder that it is hooked onto. -/
structure Slot where
  stamp : Stamp
  folder : Option FolderId := none

structure Tree where
  context : Context
  folders : List Folder
  slots : List Slot
  parent_lt : ∀ {i : Nat} {f : Folder}, folders[i]? = some f → ∀ {p : Nat}, f.parent = some p → p < i
  child_gt : ∀ {i : Nat} {f : Folder}, folders[i]? = some f →
    ∀ {c : Nat}, c ∈ f.childIds → i < c ∧ c < folders.length

inductive TreeError
  | duplicateFolder (parent name : String)
  | alreadyHooked (id : StampId) (folder : String)
  | unknownFolder (path : String)
  | unknownStamp (id : StampId)
  deriving DecidableEq, Repr

def TreeError.message : TreeError → String
  | .duplicateFolder parent name =>
    "folder '" ++ name ++ "' already exists under '" ++ parent ++ "'"
  | .alreadyHooked id folder =>
    "stamp #" ++ toString id ++ " is already hooked to '" ++ folder ++ "'"
  | .unknownFolder path => "no folder named '" ++ path ++ "'"
  | .unknownStamp id => "unknown stamp #" ++ toString id

namespace Tree

def root : FolderId := 0

def size (tree : Tree) : Nat := tree.folders.length

/-- The folder of a number. A number that no folder has stands for one without name and content. -/
def folder (tree : Tree) (id : FolderId) : Folder :=
  (tree.folders[id]?).getD { name := "", index := 0, parent := none }

def slot? (tree : Tree) (id : StampId) : Option Slot := tree.slots[id]?

def stamp? (tree : Tree) (id : StampId) : Option Stamp := (tree.slot? id).map Slot.stamp

def stampFolder? (tree : Tree) (id : StampId) : Option FolderId :=
  (tree.slot? id).bind Slot.folder

theorem parent_lt_of_folder (tree : Tree) {id p : FolderId}
    (hparent : (tree.folder id).parent = some p) : p < id := by
  unfold folder at hparent
  cases hfolder : tree.folders[id]? with
  | none => simp [hfolder] at hparent
  | some f => exact tree.parent_lt hfolder (by simpa [hfolder] using hparent)

theorem child_gt_of_folder (tree : Tree) {id c : FolderId}
    (hchild : c ∈ (tree.folder id).childIds) : id < c ∧ c < tree.size := by
  unfold folder at hchild
  cases hfolder : tree.folders[id]? with
  | none => simp [hfolder, Folder.childIds] at hchild
  | some f => exact tree.child_gt hfolder (by simpa [hfolder] using hchild)

/-! ### Names -/

/-- The names of the folders from the partition down to this one. -/
def names (tree : Tree) (id : FolderId) : List String :=
  match _h : (tree.folder id).parent with
  | none => []
  | some p => tree.names p ++ [(tree.folder id).name]
  termination_by id
  decreasing_by exact tree.parent_lt_of_folder ‹_›

/-- The names from the partition down with slashes between them. The root has the empty key. -/
def key (tree : Tree) (id : FolderId) : String := "/".intercalate (tree.names id)

/-- The key behind a slash, as objects name it. The root has the empty path. -/
def path (tree : Tree) (id : FolderId) : String :=
  if (tree.folder id).isRoot then "" else "/" ++ tree.key id

/-- The partition that a folder is in. The root counts as its own. -/
def partitionOf (tree : Tree) (id : FolderId) : FolderId :=
  match _h : (tree.folder id).parent with
  | none => id
  | some p => if (tree.folder p).isRoot then id else tree.partitionOf p
  termination_by id
  decreasing_by exact tree.parent_lt_of_folder ‹_›

/-! ### Growing -/

def new (context : Context) : Tree where
  context := context
  folders := [{ name := "", index := 0, parent := none }]
  slots := []
  parent_lt := by
    intro i f hf p hp
    cases i <;> simp_all
    subst hf
    simp at hp
  child_gt := by
    intro i f hf c hc
    cases i <;> simp_all
    subst hf
    simp [Folder.childIds] at hc

/-- Puts a stamp into the tree without hooking it, and gives its number. -/
def insert (tree : Tree) (stamp : Stamp) : StampId × Tree :=
  (tree.slots.length, { tree with slots := tree.slots ++ [{ stamp }] })

def attach (tree : Tree) (folder : FolderId) (id : StampId) : Tree :=
  match tree.stamp? id with
  | none => tree
  | some stamp =>
    { tree with
      slots := tree.slots.modify id fun slot => { slot with folder := some folder }
      folders := tree.folders.modify folder (·.hooked stamp.kind id)
      parent_lt := by
        intro i f hf p hp
        rw [List.getElem?_modify] at hf
        obtain ⟨g, hg, rfl⟩ := Option.map_eq_some_iff.mp hf
        exact tree.parent_lt hg (by revert hp; split <;> exact fun h => h)
      child_gt := by
        intro i f hf c hc
        rw [List.getElem?_modify] at hf
        obtain ⟨g, hg, rfl⟩ := Option.map_eq_some_iff.mp hf
        rw [List.length_modify]
        exact tree.child_gt hg (by revert hc; split <;> exact fun h => h) }

def hookStamp (tree : Tree) (folder : FolderId) (stamp : Stamp) : StampId × Tree :=
  let (id, tree) := tree.insert stamp
  (id, tree.attach folder id)

/-- The first of some stamps that cannot be hooked, and why. -/
def hookError? (tree : Tree) (ids : List StampId) : Option TreeError :=
  ids.findSome? fun id =>
    match tree.slot? id with
    | none => some (.unknownStamp id)
    | some slot => slot.folder.map fun folder => .alreadyHooked id (tree.key folder)

/-- Hooks stamps onto a folder in order. All of them are looked at before the first is hooked, so a failure leaves the tree as it was. -/
def hook (tree : Tree) (folder : FolderId) (ids : List StampId) : Except TreeError Tree :=
  match tree.hookError? ids with
  | some e => .error e
  | none => .ok (ids.foldl (fun tree id => tree.attach folder id) tree)

/-- The tree with one more folder, which has no marker yet. -/
def grow (tree : Tree) (parent : FolderId) (name : String) (hparent : parent < tree.size) : Tree :=
  let child : Folder :=
    { name, index := (tree.folder parent).children.length, parent := some parent }
  { tree with
    folders := tree.folders.modify parent (·.withChild name tree.size) ++ [child]
    parent_lt := by
      intro i f hf p hp
      rw [List.getElem?_append, List.length_modify] at hf
      split at hf
      · rw [List.getElem?_modify] at hf
        obtain ⟨g, hg, rfl⟩ := Option.map_eq_some_iff.mp hf
        exact tree.parent_lt hg (by revert hp; split <;> exact fun h => h)
      · have hi : i = tree.folders.length := by
          have := (List.getElem?_eq_some_iff.mp hf).1
          simp only [List.length_singleton] at this
          omega
        subst hi
        simp only [Nat.sub_self, List.getElem?_cons_zero, Option.some.injEq] at hf
        subst hf
        simp only [child, Option.some.injEq] at hp
        subst hp
        exact hparent
    child_gt := by
      intro i f hf c hc
      rw [List.length_append, List.length_modify, List.length_singleton]
      rw [List.getElem?_append, List.length_modify] at hf
      split at hf
      · rename_i hi
        rw [List.getElem?_modify] at hf
        obtain ⟨g, hg, rfl⟩ := Option.map_eq_some_iff.mp hf
        have hold : c ∈ g.childIds ∨ c = tree.folders.length := by
          revert hc
          split
          · simp only [Folder.withChild, Folder.childIds, List.map_append, List.mem_append,
              List.map_cons, List.map_nil, List.mem_singleton]
            exact fun h => h
          · exact .inl
        rcases hold with hold | rfl
        · have := tree.child_gt hg hold
          exact ⟨this.1, Nat.lt_succ_of_lt this.2⟩
        · exact ⟨hi, Nat.lt_succ_self _⟩
      · have hnil : f = child := by
          have := List.mem_of_getElem? hf
          simpa using this
        subst hnil
        simp [child, Folder.childIds] at hc }

def marker (tree : Tree) (parent : FolderId) : Stamp :=
  if (tree.folder parent).isRoot then .partition {} else .folder

/-- The tree with one more folder and its marker hooked onto it. -/
def extend (tree : Tree) (parent : FolderId) (name : String) (hparent : parent < tree.size) :
    Tree :=
  ((tree.grow parent name hparent).hookStamp tree.size (tree.marker parent)).2

/-- Makes a folder in another. A name can be given only once in a folder. -/
def add (tree : Tree) (parent : FolderId) (name : String) (hparent : parent < tree.size) :
    Except TreeError (FolderId × Tree) :=
  if Assoc.contains (tree.folder parent).children name then
    .error (.duplicateFolder (tree.key parent) name)
  else .ok (tree.size, tree.extend parent name hparent)

@[simp] theorem size_attach (tree : Tree) (folder : FolderId) (id : StampId) :
    (tree.attach folder id).size = tree.size := by
  unfold attach size
  split <;> simp

@[simp] theorem size_hookStamp (tree : Tree) (folder : FolderId) (stamp : Stamp) :
    (tree.hookStamp folder stamp).2.size = tree.size := by
  simp only [hookStamp, size_attach]
  rfl

@[simp] theorem size_extend (tree : Tree) (parent : FolderId) (name : String)
    (hparent : parent < tree.size) :
    (tree.extend parent name hparent).size = tree.size + 1 := by
  rw [extend, size_hookStamp]
  simp [grow, size]

theorem size_new (context : Context) : (new context).size = 1 := rfl

end Tree

end ApplianceConfig
