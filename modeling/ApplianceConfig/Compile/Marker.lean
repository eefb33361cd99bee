import ApplianceConfig.Compile.Recipe

/-!
# Markers and raw objects
-/

namespace ApplianceConfig

/-- The dialect of markers. They exist on every EM release, unlike most other objects. -/
def markerDialect (version : Version) : Dialect :=
  if version.atLeast (.release .bigip 11 0 0) || version.product == .em ||
      version.product == .bigiq then .modern
  else .legacy

namespace Partition

def describe (partition : Partition) (index : Nat) : String :=
  partition.description.getD ("This is partition " ++ toString index)

def modern (partition : Partition) (scope : Scope) (template : Document) :
    Except CompileError Output := do
  let name := scope.partitionName
  let description := partition.describe scope.partitionIndex
  let template ← scope.fillAs template ["auth", "partition", "$name"] name
    (Assoc.put · "description" (.text description))
  let template ← scope.fillAs template ["sys", "folder", "$key"] scope.folderPath id
  let template ← scope.fill template ["cli", "admin-partitions"]
    (Assoc.put · "update-partition" (.text name))
  return { key := name, value := template }

def legacy (partition : Partition) (scope : Scope) (template : Document) :
    Except CompileError Output := do
  let name := scope.partitionName
  let description := partition.describe scope.partitionIndex
  let template ← scope.fillAs template ["partition", "$name"] name
    (Assoc.put · "description" (.text description))
  let template ← scope.fill template ["shell", "write"] (Assoc.put · "partition" (.text name))
  return { key := name, value := template }

end Partition

def folderMarkerModern (scope : Scope) (template : Document) : Except CompileError Output := do
  let key := scope.folderPath
  return { key, value := ← scope.fillAs template ["sys", "folder", "$key"] key id }

def RawObject.output (object : RawObject) : Output :=
  { key := object.key, value := object.document }

end ApplianceConfig
