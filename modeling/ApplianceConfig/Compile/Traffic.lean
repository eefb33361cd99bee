import ApplianceConfig.Compile.Network

/-!
# Traffic objects

Nodes, pools and virtual servers. Only BIG-IP has them; on other products they come to nothing.
-/

namespace ApplianceConfig

/-- What stands between an address and a port: a colon behind an IPv4 address, a point behind an IPv6 address. -/
def portSeparator (address : String) : Except CompileError String :=
  match Address.parse? address with
  | some ip => .ok (if ip.isV4 then ":" else ".")
  | none => .error (.invalidAddress address)

/-- Monitors that all have to succeed. -/
def monitorRule (monitors : List String) : Value := .raw (" and ".intercalate monitors)

/-- Writes the entry for monitors, if there are any. -/
def putMonitors (monitors : List String) (entries : Entries) : Entries :=
  if monitors.isEmpty then entries else Assoc.put entries "monitor" (monitorRule monitors)

namespace Node

def modern (node : Node) (scope : Scope) (template : Document) : Except CompileError Output := do
  if !scope.isBigip then return {}
  let key := scope.path node.name
  let suffix ← scope.routeDomainSuffix node.routeDomain
  let template ← scope.fillAs template ["ltm", "node", "$key"] key fun entries =>
    putMonitors node.monitors (Assoc.put entries "address" (.text (node.address ++ suffix)))
  return { key, value := template }

def legacy (node : Node) (scope : Scope) (template : Document) : Except CompileError Output := do
  if !scope.isBigip then return {}
  let template ← scope.fillAs template ["node", "$address"] node.address fun entries =>
    putMonitors node.monitors (Assoc.put entries "screen" (.text node.name))
  return { key := node.name, value := template }

end Node

namespace Member

/-- The node that a member is on. -/
def target (member : Member) (scope : Scope) : Except CompileError Node := do
  match ← scope.stamp member.node with
  | .node node => return node
  | other => throw (.unexpectedKind .node other.kind)

/-- What stands between the key of a node and a port. A key that is a bare address takes the separator of its family. -/
def separator (node : Node) (key : String) : Except CompileError String :=
  if key = node.address then portSeparator key else .ok ":"

/-- The member under its node's key and its port. -/
def modernEntry (member : Member) (scope : Scope) : Recipe 1 (String × Value) := do
  let node ← member.target scope
  let key ← Recipe.key member.node .node Nat.one_pos
  let separator ← separator node key
  return (key ++ separator ++ toString member.port,
    .block (putMonitors member.monitors [("address", .text node.address)]))

/-- The lines of a member: its address and port, and its monitors. -/
def legacyEntries (member : Member) (scope : Scope) : Except CompileError Entries := do
  let node ← member.target scope
  let separator ← portSeparator node.address
  let line := (node.address ++ separator ++ toString member.port, Value.toggle)
  return line :: putMonitors member.monitors []

end Member

namespace Pool

def modern (pool : Pool) (scope : Scope) (template : Document) : Recipe 1 Output := do
  if !scope.isBigip then return {}
  let key := scope.path pool.name
  let members ← pool.members.mapM fun member => member.modernEntry scope
  let template ← scope.fillAs template ["ltm", "pool", "$key"] key fun entries =>
    let entries :=
      if pool.monitors.isEmpty then Assoc.erase entries "monitor"
      else Assoc.put entries "monitor" (monitorRule pool.monitors)
    Assoc.put entries "members" (.block (Assoc.putAll [] members))
  return { key, value := template }

def legacy (pool : Pool) (scope : Scope) (template : Document) : Except CompileError Output := do
  if !scope.isBigip then return {}
  let members ← pool.members.mapM fun member => member.legacyEntries scope
  let template ← scope.fillAs template ["pool", "$name"] pool.name fun _ =>
    let monitors :=
      if pool.monitors.isEmpty then [] else [("monitor all", monitorRule pool.monitors)]
    Assoc.putAll (Assoc.put monitors "members" .toggle) members.flatten
  return { key := pool.name, value := template }

end Pool

namespace VirtualServer

/-- The address and port that a virtual server listens on. -/
def destination (server : VirtualServer) (scope : Scope) : Except CompileError String := do
  let separator ← portSeparator server.address
  let suffix ← scope.routeDomainSuffix server.routeDomain
  return server.address ++ suffix ++ separator ++ toString server.port

def profile (scope : Scope) (id : StampId) : Except CompileError Profile := do
  match ← scope.stamp id with
  | .profile profile => return profile
  | other => throw (.unexpectedKind .profile other.kind)

def profileNames (server : VirtualServer) (scope : Scope) : Except CompileError (List String) := do
  return (← server.profiles.mapM (profile scope)).map Profile.name

def profileEntry (scope : Scope) (id : StampId) : Except CompileError (String × Value) := do
  let profile ← profile scope id
  let path ← scope.stampPath id profile.name
  return (path, .block [("context", .text profile.context.name)])

def profileEntries (server : VirtualServer) (scope : Scope) : Except CompileError Entries :=
  server.profiles.mapM (profileEntry scope)

def poolKey (server : VirtualServer) : Recipe 2 (Option String) := do
  match server.pool with
  | none => return none
  | some id => return some (← Recipe.key id .pool Nat.one_lt_two)

def putPool (pool : Option String) (entries : Entries) : Entries :=
  match pool with
  | some key => Assoc.put entries "pool" (.text key)
  | none => entries

def modern (server : VirtualServer) (scope : Scope) (template : Document) : Recipe 2 Output := do
  if !scope.isBigip then return {}
  let key := scope.path server.name
  let suffix ← scope.routeDomainSuffix server.routeDomain
  let profiles ← server.profileEntries scope
  let rules ← attachedRules (scope.context.feature "afm") server.rules scope Nat.one_lt_two
  let pool ← server.poolKey
  let destination ← server.destination scope
  let template ← scope.fillAs template ["ltm", "virtual", "$key"] key fun entries =>
    let entries := Assoc.put entries "destination" (.text destination)
    let entries := Assoc.put entries "profiles" (.block (Assoc.putAll [] profiles))
    putPool pool (putRules rules entries)
  let template ← scope.fillAs template ["ltm", "virtual-address", "$key_va"]
    (scope.path server.address) (Assoc.put · "address" (.text (server.address ++ suffix)))
  return { key, value := template }

def legacy (server : VirtualServer) (scope : Scope) (template : Document) : Recipe 2 Output := do
  if !scope.isBigip then return {}
  let names ← server.profileNames scope
  let pool ← server.poolKey
  let destination ← server.destination scope
  let template ← scope.fillAs template ["virtual", "$name"] server.name fun _ =>
    let listed :=
      if names.isEmpty then [] else [("profiles", Value.raw (" ".intercalate names))]
    putPool pool (("destination", .text destination) :: listed)
  return { key := server.name, value := template }

end VirtualServer

end ApplianceConfig
