import ApplianceConfig.Grammar.Reader
import ApplianceConfig.Topology.Entry
import ApplianceConfig.Tree.Path
import ApplianceConfig.Tree.Walk
import ApplianceConfig.Version.Reader

/-!
# Topologies

A topology is a tree together with the ids of its stamps. A description is built entry by entry: an entry finds its folder, its references are the stamps of earlier entries, and its stamp is hooked. The first entry that fails ends the building.
-/

namespace ApplianceConfig

structure Topology where
  tree : Tree
  ids : Assoc StampId := []

/-- Why there is no topology: the text is no description, its version is missing or no version, a folder is missing, a document or an address cannot be read, an id is given twice or not yet, or tagged interfaces have no tag. -/
inductive TopologyError
  | malformed
  | missingVersion
  | invalidVersion (text : String)
  | tree (e : TreeError)
  | grammar (e : Grammar.Error)
  | duplicateId (id : Topology.EntryId)
  | unknownId (id : Topology.EntryId)
  | invalidAddress (text : String)
  | missingTag (vlan : String)
  deriving DecidableEq, Repr

def TopologyError.message : TopologyError → String
  | .malformed => "Failed to parse topology TOML"
  | .missingVersion => "no target version given"
  | .invalidVersion text => Version.invalidMessage text
  | .tree e => e.message
  | .grammar e => "raw stamp: " ++ e.display
  | .duplicateId id => "stamp id '" ++ id ++ "' is defined twice"
  | .unknownId id => "stamp id '" ++ id ++ "' is not defined by an earlier entry"
  | .invalidAddress text => "invalid address '" ++ text ++ "'"
  | .missingTag vlan => "vlan '" ++ vlan ++ "' has tagged interfaces but no tag"

namespace Topology

def stamp? (topology : Topology) (id : EntryId) : Option StampId := Assoc.get? topology.ids id

def resolve (topology : Topology) (id : EntryId) : Except TopologyError StampId :=
  match topology.stamp? id with
  | some stamp => .ok stamp
  | none => .error (.unknownId id)

/-! ### Objects -/

def readAddress (text : String) : Except TopologyError Address :=
  match Address.parse? text with
  | some address => .ok address
  | none => .error (.invalidAddress text)

/-- An address with a length, or an address alone, which is a subnet of its own. -/
def readSubnet (text : String) : Except TopologyError Subnet :=
  match Subnet.parse? text with
  | some subnet => .ok subnet
  | none =>
    match Address.parse? text with
    | some address => .ok (.host address)
    | none => .error (.invalidAddress text)

def readDocument (text : String) : Except TopologyError Document :=
  match Document.parse text with
  | .ok doc => .ok doc
  | .error e => .error (.grammar e)

def SelfIpEntry.resolve (entry : SelfIpEntry) (find : EntryId → Except TopologyError StampId) :
    Except TopologyError SelfIp := do
  let address ← readSubnet entry.address
  let vlan ← find entry.vlan
  let rules ← entry.rules.mapM fun rule => rule.resolve find
  let routeDomain ← resolve? find entry.routeDomain
  let selfIp : SelfIp := { address, vlan, rules, routeDomain }
  return { selfIp with
    name := entry.name.getD selfIp.name
    allow := if entry.allow.isEmpty then selfIp.allow else entry.allow }

def PlatformEntry.resolve (entry : PlatformEntry) : Except TopologyError Platform := do
  let gateway ← readAddress entry.gateway
  let address ← readSubnet entry.address
  let platform : Platform := { address, gateway, dhcp := entry.dhcp, wizard := entry.wizard }
  return { platform with hostname := entry.hostname.getD platform.hostname }

/-- The stamp that an object becomes when its references are looked up. -/
def Object.resolve (object : Object) (find : EntryId → Except TopologyError StampId) :
    Except TopologyError Stamp := do
  match object with
  | .raw text key => return .raw { key, document := ← readDocument text }
  | .node s => return .node (← s.resolve find)
  | .pool s => return .pool (← s.resolve find)
  | .virtualServer s => return .virtualServer (← s.resolve find)
  | .profile s => return .profile s
  | .selfIp s => return .selfIp (← s.resolve find)
  | .trunk s => return .trunk s
  | .vlan s =>
    if s.tag.isNone && !s.tagged.isEmpty then throw (.missingTag s.name)
    return .vlan s
  | .provision s => return .provision s
  | .defaults => return .defaults
  | .platform s => return .platform (← s.resolve)
  | .dns s => return .dns s
  | .ntp s => return .ntp s
  | .mail s => return .mail s
  | .user s => return .user s
  | .addressList s => return .addressList s
  | .portList s => return .portList s
  | .ruleList s => return .ruleList (← s.resolve find)
  | .firewall s => return .firewall (← s.resolve find)

theorem SelfIpEntry.references_resolve {entry : SelfIpEntry} {selfIp : SelfIp}
    {find : EntryId → Except TopologyError StampId} (h : entry.resolve find = .ok selfIp) :
    Found find (Object.selfIp entry).references selfIp.references := by
  obtain ⟨address, -, h⟩ := bind_eq_ok h
  obtain ⟨vlan, hvlan, h⟩ := bind_eq_ok h
  obtain ⟨rules, hrules, h⟩ := bind_eq_ok h
  obtain ⟨routeDomain, hdomain, h⟩ := bind_eq_ok h
  cases h
  have hrules := Found.flatMap AttachedRule.references_resolve hrules
  exact ((Found.single hvlan).append hrules).append (.toList hdomain)

/-- The stamp of an object refers to the stamps that the object's ids stand for, and to no others. -/
theorem Object.references_resolve {object : Object} {stamp : Stamp}
    {find : EntryId → Except TopologyError StampId} (h : object.resolve find = .ok stamp) :
    Found find object.references stamp.references := by
  cases object with
  | node s =>
    obtain ⟨node, hnode, h⟩ := bind_eq_ok h
    cases h
    exact Node.references_resolve hnode
  | pool s =>
    obtain ⟨pool, hpool, h⟩ := bind_eq_ok h
    cases h
    exact Pool.references_resolve hpool
  | virtualServer s =>
    obtain ⟨server, hserver, h⟩ := bind_eq_ok h
    cases h
    exact VirtualServer.references_resolve hserver
  | selfIp s =>
    obtain ⟨selfIp, hself, h⟩ := bind_eq_ok h
    cases h
    exact SelfIpEntry.references_resolve hself
  | ruleList s =>
    obtain ⟨list, hlist, h⟩ := bind_eq_ok h
    cases h
    exact RuleList.references_resolve hlist
  | firewall s =>
    obtain ⟨firewall, hfirewall, h⟩ := bind_eq_ok h
    cases h
    exact Firewall.references_resolve hfirewall
  | raw text key =>
    obtain ⟨document, -, h⟩ := bind_eq_ok h
    cases h
    exact .nil
  | platform s =>
    obtain ⟨platform, -, h⟩ := bind_eq_ok h
    cases h
    exact .nil
  | vlan s =>
    simp only [Object.resolve] at h
    split at h
    · cases h
    · cases h
      exact .nil
  | profile s | trunk s | provision s | defaults | dns s | ntp s | mail s | user s
  | addressList s | portList s =>
    cases h
    exact .nil

/-! ### Building -/

/-- Hooks the stamp of an entry and keeps its id. -/
def addEntry (topology : Topology) (entry : Entry) : Except TopologyError Topology := do
  let folder ← match topology.tree.find? entry.folder with
    | some folder => pure folder
    | none => throw (.tree (.unknownFolder entry.folder))
  if let some id := entry.id then
    if Assoc.contains topology.ids id then throw (.duplicateId id)
  let stamp ← entry.object.resolve topology.resolve
  let (number, tree) := topology.tree.hookStamp folder stamp
  return { tree, ids := topology.ids ++ entry.id.toList.map (·, number) }

namespace Description

def context (description : Description) (version : Version) : Context :=
  description.features.foldl (fun context (name, on) => context.withFeature name on) { version }

/-- The tree before its first entry: partitions and the folders of all paths. -/
def folderTree (description : Description) (version : Version) : Tree :=
  description.folders.foldl Tree.ensurePath
    (Tree.withPartitions (description.context version) description.partitions)

def build (description : Description) (version : Version) : Except TopologyError Topology :=
  description.entries.foldlM addEntry { tree := description.folderTree version }

/-- The version to build for: the target if there is one, else the description's own. -/
def chooseVersion (description : Description) (target : Option Version) :
    Except TopologyError Version :=
  match target, description.version with
  | some version, _ => .ok version
  | none, none => .error .missingVersion
  | none, some text =>
    match Version.parse? text with
    | some version => .ok version
    | none => .error (.invalidVersion text)

def load (description : Description) (target : Option Version) : Except TopologyError Topology := do
  description.build (← description.chooseVersion target)

end Description

end Topology

end ApplianceConfig
