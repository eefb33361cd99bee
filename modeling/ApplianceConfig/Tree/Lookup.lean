import ApplianceConfig.Text.Segments
import ApplianceConfig.Tree.Basic

/-!
# Finding folders
-/

namespace ApplianceConfig

/-- The partition that all others share. -/
def commonPartition : String := "Common"

namespace Tree

def child? (tree : Tree) (parent : FolderId) (name : String) : Option FolderId :=
  Assoc.get? (tree.folder parent).children name

def partition? (tree : Tree) (name : String) : Option FolderId := tree.child? root name

/-- The folder that a path of names leads to from a folder. -/
def descend? (tree : Tree) (start : FolderId) : List String → Option FolderId
  | [] => some start
  | name :: rest =>
    match tree.child? start name with
    | none => none
    | some next => tree.descend? next rest

/-- The folder of a key. Slashes too many make no difference. -/
def find? (tree : Tree) (key : String) : Option FolderId :=
  tree.descend? root (Text.segments key)

theorem mem_children_of_child? {tree : Tree} {parent c : FolderId} {name : String}
    (h : tree.child? parent name = some c) : c ∈ (tree.folder parent).children.map Prod.snd :=
  List.mem_map.mpr ⟨_, Assoc.mem_of_get? h, rfl⟩

theorem child?_lt_size (tree : Tree) {parent c : FolderId} {name : String}
    (h : tree.child? parent name = some c) : c < tree.size :=
  (tree.child_gt_of_folder (mem_children_of_child? h)).2

end Tree

end ApplianceConfig
