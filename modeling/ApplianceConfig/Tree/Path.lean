import ApplianceConfig.Tree.Lookup

/-!
# Paths of folders

A path names the folders from the partition down. Making a path adds the folders that are missing along it, each in the one before, so it never fails.
-/

namespace ApplianceConfig

namespace Tree

/-- Makes the folders that are missing along a path of names from a folder. -/
def ensure (tree : Tree) (start : FolderId) (hstart : start < tree.size) : List String → Tree
  | [] => tree
  | name :: rest =>
    match hchild : tree.child? start name with
    | some next => tree.ensure next (tree.child?_lt_size hchild) rest
    | none =>
      (tree.extend start name hstart).ensure tree.size
        (Nat.lt_of_lt_of_eq (Nat.lt_succ_self _) (tree.size_extend start name hstart).symm) rest

def ensurePath (tree : Tree) (path : String) : Tree :=
  if hroot : root < tree.size then tree.ensure root hroot (Text.segments path) else tree

end Tree

end ApplianceConfig
