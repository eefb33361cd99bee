import ApplianceConfig.Compile.Run
import ApplianceConfig.Document.Encode
import ApplianceConfig.Tree.Walk

/-!
# Rendering trees

The text of a tree is that of its stamps, folder by folder in the order of the walk, and within a folder in the order of hooking. Stamps that exist only to be referred to are left out, and the first failure ends the rendering without any text.
-/

namespace ApplianceConfig

structure RenderOptions where
  indent : Nat := Document.defaultIndent
  recursive : Bool := true
  deriving Repr, Inhabited

namespace Tree

/-- The folders that a rendering from a folder visits: its subtree, or only the folder itself and the folders right in it. -/
def visited (tree : Tree) (start : FolderId) (recursive : Bool) : List FolderId :=
  (if recursive || start == root then [] else [start]) ++ tree.enumerate start recursive

/-- Whether a stamp is to be written at all. -/
def accepts (tree : Tree) (wanted : Stamp → Bool) (id : StampId) : Bool :=
  match tree.stamp? id with
  | some stamp => !stamp.builtIn && wanted stamp
  | none => false

/-- The text of a stamp, empty when there is nothing to write. -/
def renderStamp (tree : Tree) (indent : Nat) (id : StampId) : Compile String := do
  match (← tree.compile id).value with
  | some doc => return doc.encode indent
  | none => return ""

/-- The text of the wanted stamps from a folder on. -/
def render (tree : Tree) (start : FolderId) (options : RenderOptions) (wanted : Stamp → Bool) :
    Compile String := do
  let ids := (tree.visited start options.recursive).flatMap fun folder =>
    (tree.folder folder).content.filter (tree.accepts wanted)
  return String.join (← ids.mapM (tree.renderStamp options.indent))

/-- The text of all stamps from a folder on. -/
def renderAll (tree : Tree) (start : FolderId) (options : RenderOptions) : Compile String :=
  tree.render start options fun _ => true

/-- Appends the text of the wanted stamps to a buffer. A failure leaves the buffer as it was. -/
def renderInto (tree : Tree) (buffer : String) (start : FolderId) (options : RenderOptions)
    (wanted : Stamp → Bool) (ledger : Ledger) : String × Except CompileError Unit × Ledger :=
  match tree.render start options wanted ledger with
  | (.ok text, ledger) => (buffer ++ text, .ok (), ledger)
  | (.error e, ledger) => (buffer, .error e, ledger)

end Tree

end ApplianceConfig
