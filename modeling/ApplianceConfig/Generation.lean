import ApplianceConfig.Render
import ApplianceConfig.Topology.Reader

/-!
# Configurations from topologies

The text of a topology description is read, built for a version and rendered, all of it or one of its partitions.
-/

namespace ApplianceConfig

structure GenerationOptions where
  render : RenderOptions := {}
  target : Option Version := none
  partition : Option String := none
  deriving Repr, Inhabited

inductive GenerationError
  | topology (e : TopologyError)
  | compile (e : CompileError)
  | unknownPartition (name : String)
  deriving DecidableEq, Repr

def GenerationError.message : GenerationError → String
  | .topology e => "topology error: " ++ e.message
  | .compile e => "compile error: " ++ e.message
  | .unknownPartition name => "no partition named '" ++ name ++ "'"

namespace Topology

/-- The folder that rendering starts from: the root, or the partition that is asked for. -/
def startFolder (topology : Topology) (partition : Option String) :
    Except GenerationError FolderId :=
  match partition with
  | none => .ok Tree.root
  | some name =>
    match topology.tree.partition? name with
    | some folder => .ok folder
    | none => .error (.unknownPartition name)

def generate (topology : Topology) (options : GenerationOptions) :
    Except GenerationError String := do
  let start ← topology.startFolder options.partition
  match topology.tree.renderAll start options.render {} with
  | (.ok text, _) => return text
  | (.error e, _) => throw (.compile e)

def Description.generate (description : Description) (options : GenerationOptions) :
    Except GenerationError String :=
  match description.load options.target with
  | .ok topology => topology.generate options
  | .error e => .error (.topology e)

end Topology

/-- The configuration text for the text of a topology. -/
def generate (source : String) (options : GenerationOptions) : Except GenerationError String :=
  match Topology.Description.parse? source with
  | none => .error (.topology .malformed)
  | some description => description.generate options

end ApplianceConfig
