import ApplianceConfig.Total
import ApplianceConfig.Tree.Lookup

/-!
# Walks through folder trees

A walk visits a folder before the folders in it, and those in the order in which they were made. It keeps a stack of the folders that are still to be visited. The root is passed through but not visited.
-/

namespace ApplianceConfig

namespace Tree

/-- The number of folders in the subtree of a folder, itself included. -/
def subtreeSize (tree : Tree) (id : FolderId) : Nat :=
  1 + total ((tree.folder id).childIds.attach.map fun c => tree.subtreeSize c.1)
  termination_by tree.size - id
  decreasing_by
    have := tree.child_gt_of_folder c.2
    exact Nat.sub_lt_sub_left (Nat.lt_trans this.1 this.2) this.1

theorem subtreeSize_eq (tree : Tree) (id : FolderId) :
    tree.subtreeSize id = 1 + total ((tree.folder id).childIds.map tree.subtreeSize) := by
  rw [subtreeSize, List.attach_map_val (f := tree.subtreeSize)]

/-- The folders that a stack leads to, the top of the stack first. -/
def walk (tree : Tree) : List FolderId → List FolderId
  | [] => []
  | id :: stack =>
    let others := tree.walk ((tree.folder id).childIds ++ stack)
    if (tree.folder id).isRoot then others else id :: others
  termination_by stack => total (stack.map tree.subtreeSize)
  decreasing_by
    rw [List.map_append, total_append, List.map_cons, total_cons, tree.subtreeSize_eq id]
    omega

/-- The subtree of a folder as a recursive walk visits it. -/
def preorder (tree : Tree) (id : FolderId) : List FolderId :=
  (if (tree.folder id).isRoot then [] else [id]) ++
    (tree.folder id).childIds.attach.flatMap fun c => tree.preorder c.1
  termination_by tree.size - id
  decreasing_by
    have := tree.child_gt_of_folder c.2
    exact Nat.sub_lt_sub_left (Nat.lt_trans this.1 this.2) this.1

/-- The folders from a folder on: its whole subtree, or only the folders right in it. -/
def enumerate (tree : Tree) (start : FolderId) (recursive : Bool) : List FolderId :=
  if recursive then tree.walk [start] else (tree.folder start).childIds

/-- The stamps of a kind in the subtree of a folder, behind those of the common partition when they are wanted and the folder lies elsewhere. -/
def enumerateStamps (tree : Tree) (folder : FolderId) (kind : Kind) (includeCommon : Bool) :
    List StampId :=
  let shared := if includeCommon then
      (tree.partition? commonPartition).toList.filter (· ≠ tree.partitionOf folder)
    else []
  (shared ++ [folder]).flatMap fun start =>
    (tree.enumerate start true).flatMap fun id => (tree.folder id).ofKind kind

/-- A tree with the common partition and as many numbered ones. -/
def withPartitions (context : Context) (count : Nat) : Tree :=
  let names := commonPartition ::
    (List.range count).map fun i => "Partition" ++ toString (i + 1)
  names.foldl
    (fun tree name =>
      if hroot : root < tree.size then
        match tree.add root name hroot with
        | .ok (_, grown) => grown
        | .error _ => tree
      else tree)
    (new context)

end Tree

/-- The items of a partition, behind those of the common partition when they are wanted and the partition is another. -/
def commonFirst {α : Type} (byPartition : Assoc (List α)) (partition : String)
    (includeCommon : Bool) : List α :=
  let shared := if includeCommon && partition != commonPartition then
      (Assoc.get? byPartition commonPartition).getD []
    else []
  shared ++ (Assoc.get? byPartition partition).getD []

/-- The first items of a list repeated without end. -/
def cycled {α : Type} (items : List α) (count : Nat) : List α :=
  if items.isEmpty then []
  else ((List.replicate (count / items.length + 1) items).flatten).take count

end ApplianceConfig
