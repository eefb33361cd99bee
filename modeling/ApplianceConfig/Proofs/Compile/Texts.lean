import ApplianceConfig.Proofs.Compile.Vocabulary

/-!
# Texts of stamps

The texts that a stamp is given, and the parts of recipes that put them together. When these texts are words of a vocabulary and so are the keys that others are referred to by, each part ends with entries that keep to the vocabulary.
-/

namespace ApplianceConfig

open Grammar

/-! ### Texts of stamps -/

def RuleMatch.texts (side : RuleMatch) : List String := side.addresses ++ side.ports

def Rule.texts (rule : Rule) : List String :=
  [rule.name, rule.action] ++ rule.ipProtocol.toList ++ rule.source.texts ++ rule.destination.texts

def AttachedRule.texts : AttachedRule → List String
  | .inline rule => rule.texts
  | .list _ => []

/-- The texts that a stamp is given, but for passwords and for what a raw object holds. -/
def Stamp.texts : Stamp → List String
  | .partition s => s.description.toList
  | .node s => [s.address, s.name] ++ s.monitors
  | .pool s => s.name :: s.monitors ++ s.members.flatMap Member.monitors
  | .virtualServer s => [s.name, s.address] ++ s.rules.flatMap AttachedRule.texts
  | .profile s => [s.name]
  | .selfIp s => s.name :: s.allow ++ s.rules.flatMap AttachedRule.texts
  | .trunk s => s.name :: s.interfaces
  | .vlan s => s.name :: s.untagged ++ s.tagged
  | .routeDomain s => s.name :: s.parent.toList ++ s.rules.flatMap AttachedRule.texts
  | .provision s => [s.module, s.level]
  | .platform s => [s.hostname]
  | .dns s => s.servers ++ s.suffixes
  | .ntp s => s.servers ++ s.timezone.toList
  | .mail s => [s.server, s.originator]
  | .user s => [s.name, s.role]
  | .addressList s => s.name :: s.addresses
  | .portList s => s.name :: s.ports
  | .ruleList s => s.name :: s.rules.flatMap Rule.texts
  | .firewall s => s.rules.flatMap AttachedRule.texts
  | .folder | .raw _ | .defaults => []

/-- Holds of texts all of which are words. -/
def Worded (texts : List String) : Prop := ∀ text ∈ texts, isBare text = true

instance (texts : List String) : Decidable (Worded texts) := inferInstanceAs (Decidable (∀ text ∈ texts, _))

/-- What a stamp sees of its surroundings, when all texts in them are words. -/
structure Scope.InWords (scope : Scope) : Prop where
  folderPath : isBare scope.folderPath = true
  partitionName : isBare scope.partitionName = true
  stamps : ∀ id stamp, scope.stamp? id = some stamp → Worded stamp.texts
  hookPaths : ∀ id path, scope.hookPath? id = some path → isWordText path = true

/-- Holds of the kinds whose keys others take. -/
def Kind.isReferredTo : Kind → Bool
  | .node | .pool | .vlan | .addressList | .portList | .ruleList => true
  | _ => false

/-- Holds of the keys that a recipe may be given when all keys that others take are words. -/
def WordedKey (kind : Kind) (key : String) : Prop := kind.isReferredTo = true → isBare key = true

/-- Holds when a document, if there is one, is spelled in words. -/
def Output.Spelled (output : Output) : Prop := ∀ doc, output.value = some doc → doc.entries.Spelled

section

variable (V : Vocabulary)

/-- What a stamp sees of its surroundings, when all texts in them are words of a vocabulary. -/
structure Scope.KeepsTo (scope : Scope) : Prop where
  folderPath : V.word scope.folderPath
  partitionName : V.word scope.partitionName
  stamps : ∀ id stamp, scope.stamp? id = some stamp → ∀ text ∈ stamp.texts, V.word text
  hookPaths : ∀ id path, scope.hookPath? id = some path → V.part path

/-- Holds of the keys that a recipe may be given when all keys that others take are words of a vocabulary. -/
def Vocabulary.Key (kind : Kind) (key : String) : Prop := kind.isReferredTo = true → V.word key

end

theorem Scope.InWords.keepsTo {scope : Scope} (h : scope.InWords) : scope.KeepsTo .words where
  folderPath := h.folderPath
  partitionName := h.partitionName
  stamps := h.stamps
  hookPaths := h.hookPaths

/-! ### Texts put together -/

theorem isBare_path {path name : String} (hpath : isWordText path = true) (hname : isBare name = true) :
    isBare (path ++ "/" ++ name) = true := isBare_around (by decide) hpath (isWordText_of_isBare hname)

section

variable {V : Vocabulary}

theorem Vocabulary.word_path {path name : String} (hpath : V.part path) (hname : V.word name) :
    V.word (path ++ "/" ++ name) := V.word_around (by decide) hpath (V.part_of_word hname)

namespace Scope

variable {scope : Scope}

theorem KeepsTo.path (h : scope.KeepsTo V) {name : String} (hname : V.word name) : V.word (scope.path name) :=
  V.word_path (V.part_of_word h.folderPath) hname

theorem KeepsTo.stamp (h : scope.KeepsTo V) (id : StampId) :
    Yields (fun stamp => ∀ text ∈ stamp.texts, V.word text) (scope.stamp id) := by
  unfold Scope.stamp
  cases hstamp : scope.stamp? id with
  | none => exact .error _
  | some stamp => exact .ok (h.stamps id stamp hstamp)

/-- What stands behind an address leaves it a word. -/
theorem routeDomainSuffix_keepsTo (V : Vocabulary) (scope : Scope) (routeDomain : Option StampId) :
    Yields (fun suffix => ∀ word, V.word word → V.word (word ++ suffix)) (scope.routeDomainSuffix routeDomain) := by
  cases routeDomain with
  | none =>
    refine .ok fun word hword => ?_
    rwa [String.append_empty]
  | some id =>
    refine (Yields.trivial (scope.stamp id)).bind fun stamp _ => ?_
    cases stamp with
    | routeDomain domain =>
      refine .ok fun word hword => ?_
      rw [← String.append_assoc]
      exact V.word_around (by decide) (V.part_of_word hword) (V.part_number domain.id.toNat)
    | _ => exact .error _

end Scope

theorem portSeparator_yields (address : String) : Yields FixedMark (portSeparator address) := by
  unfold portSeparator
  cases Address.parse? address with
  | none => exact .error _
  | some ip => cases hv4 : ip.isV4 <;> exact .ok (by rw [hv4]; decide)

theorem putMonitors_keepsTo {monitors : List String} (h : ∀ monitor ∈ monitors, V.word monitor) {entries : Entries}
    (hentries : entries.KeepsTo V) : (putMonitors monitors entries).KeepsTo V :=
  hentries.putUnless (V.fixed (by decide)) fun hne => V.value_monitors (by simpa using hne) h

theorem putText_keepsTo {key : String} (hkey : V.word key) {text : Option String} (h : ∀ s ∈ text.toList, V.word s)
    {entries : Entries} (hentries : entries.KeepsTo V) : (putText key text entries).KeepsTo V := by
  cases text with
  | none => exact hentries
  | some text => exact hentries.put hkey (V.value_text (h text List.mem_cons_self))

theorem Vlan.tagValue_keepsTo (V : Vocabulary) (vlan : Vlan) : V.value vlan.tagValue := by
  unfold tagValue
  cases vlan.tag with
  | none => exact V.value_fixed (by decide)
  | some tag => exact V.value_number (Nat.lt_trans tag.toNat_lt_size (by decide))

/-! ### Rules -/

section Rules

variable {rank : Nat}

theorem keySet_keepsTo (ids : List StampId) {kind : Kind} (hkind : kind.isReferredTo = true)
    (lower : kind.rank < rank) : (keySet ids kind lower).Ensures V.Key V.value :=
  (Recipe.Ensures.mapM fun id _ => .key id kind lower).bind fun _ hkeys =>
    V.value_set fun key hkey => hkeys key hkey hkind

theorem RuleMatch.part_keepsTo {α : Type} {name : String} (hname : Fixed name) (items : List α)
    {value : Recipe rank Value} (h : value.Ensures V.Key V.value) :
    (part name items value).Ensures V.Key (Entries.KeepsTo V) :=
  .skipIf .nil (h.bind fun _ hvalue => .single (V.fixed hname) hvalue)

theorem RuleMatch.entries_keepsTo {side : RuleMatch} (h : ∀ text ∈ side.texts, V.word text) (low : 0 < rank) :
    (side.entries low).Ensures V.Key (Entries.KeepsTo V) := by
  obtain ⟨haddresses, hports⟩ := List.forall_mem_append.mp h
  have hplain {items : List String} (hitems : ∀ item ∈ items, V.word item) :
      (pure (.block (emptyObjects items)) : Recipe rank Value).Ensures V.Key V.value := by
    exact V.block (.emptyObjects hitems)
  refine (part_keepsTo (by decide) _ (keySet_keepsTo _ rfl _)).bind fun addressLists haddressLists => ?_
  refine (part_keepsTo (by decide) _ (hplain haddresses)).bind fun addresses haddresses => ?_
  refine (part_keepsTo (by decide) _ (keySet_keepsTo _ rfl _)).bind fun portLists hportLists => ?_
  refine (part_keepsTo (by decide) _ (hplain hports)).bind fun ports hports => ?_
  refine (part_keepsTo (by decide) _ (keySet_keepsTo _ rfl _)).bind fun vlans hvlans => ?_
  exact (((haddressLists.append haddresses).append hportLists).append hports).append hvlans

theorem Rule.side_keepsTo {name : String} (hname : Fixed name) {side : RuleMatch}
    (h : ∀ text ∈ side.texts, V.word text) (low : 0 < rank) :
    (Rule.side name side low).Ensures V.Key (Entries.KeepsTo V) :=
  .skipIf .nil ((RuleMatch.entries_keepsTo h low).bind fun _ hentries =>
    .single (V.fixed hname) (V.block hentries))

theorem Rule.body_keepsTo {rule : Rule} (h : ∀ text ∈ rule.texts, V.word text) (low : 0 < rank) :
    (rule.body low).Ensures V.Key V.value := by
  simp only [texts, List.forall_mem_append, List.forall_mem_cons] at h
  obtain ⟨⟨⟨⟨-, haction, -⟩, hprotocol⟩, hsource⟩, hdestination⟩ := h
  have hprotocols : Entries.KeepsTo V (rule.ipProtocol.toList.map fun p => ("ip-protocol", Value.text p)) :=
    List.forall_mem_map.mpr fun p hp => ⟨V.fixed (show Fixed "ip-protocol" by decide), V.value_text (hprotocol p hp)⟩
  refine (side_keepsTo (by decide) hdestination low).bind fun destination hdest => ?_
  refine (side_keepsTo (by decide) hsource low).bind fun source hsrc => ?_
  have haction : Entries.KeepsTo V [("action", .text rule.action)] :=
    .single (V.fixed (by decide)) (V.value_text haction)
  exact V.block (((haction.append hprotocols).append hdest).append hsrc)

variable {scope : Scope} (hscope : scope.KeepsTo V)

include hscope

theorem AttachedRule.entry_keepsTo {rule : AttachedRule} (h : ∀ text ∈ rule.texts, V.word text) (low : 1 < rank) :
    (rule.entry scope low).Ensures V.Key fun e => V.word e.1 ∧ V.value e.2 := by
  cases rule with
  | inline rule =>
    have hname : V.word rule.name := h rule.name List.mem_cons_self
    exact (Rule.body_keepsTo h _).bind fun body hbody => ⟨hname, hbody⟩
  | list id =>
    refine (Recipe.Ensures.lift (hscope.stamp id)).bind fun stamp hstamp => ?_
    cases stamp with
    | ruleList list =>
      have hname : V.word list.name := hstamp list.name List.mem_cons_self
      refine (Recipe.Ensures.key id .ruleList low).bind fun key hkey => ⟨hname, ?_⟩
      exact V.block (.single (V.fixed (by decide)) (V.value_text (hkey rfl)))
    | _ => exact True.intro

theorem AttachedRule.block_keepsTo {rules : List AttachedRule}
    (h : ∀ text ∈ rules.flatMap AttachedRule.texts, V.word text) (low : 1 < rank) :
    (AttachedRule.block rules scope low).Ensures V.Key V.value := by
  rw [List.forall_mem_flatMap] at h
  have hentries := Recipe.Ensures.mapM fun rule hrule => AttachedRule.entry_keepsTo hscope (h rule hrule) low
  exact hentries.bind fun entries hkept => V.block (.putAll .nil hkept)

theorem attachedRules_keepsTo (attach : Bool) {rules : List AttachedRule}
    (h : ∀ text ∈ rules.flatMap AttachedRule.texts, V.word text) (low : 1 < rank) :
    (attachedRules attach rules scope low).Ensures V.Key fun rules? => ∀ block, rules? = some block → V.value block := by
  unfold attachedRules
  cases attach with
  | false => exact nofun
  | true =>
    cases rules with
    | nil => exact nofun
    | cons rule rules =>
      refine (AttachedRule.block_keepsTo hscope h low).bind fun block hblock => ?_
      rintro block ⟨⟩
      exact hblock

end Rules

theorem putRules_keepsTo {rules : Option Value} (hrules : ∀ block, rules = some block → V.value block)
    {entries : Entries} (h : entries.KeepsTo V) : (putRules rules entries).KeepsTo V := by
  cases rules with
  | none => exact h.erase "fw-rules"
  | some block => exact h.put (V.fixed (by decide)) (hrules block rfl)

/-! ### Pools and servers -/

namespace Member

variable {scope : Scope} (hscope : scope.KeepsTo V)

include hscope

theorem target_keepsTo (member : Member) : Yields (fun node : Node => V.word node.address) (member.target scope) := by
  refine (hscope.stamp member.node).bind fun stamp hstamp => ?_
  cases stamp with
  | node node => exact .ok (hstamp node.address List.mem_cons_self)
  | _ => exact .error _

theorem modernEntry_keepsTo {member : Member} (h : ∀ monitor ∈ member.monitors, V.word monitor) :
    (member.modernEntry scope).Ensures V.Key fun e => V.word e.1 ∧ V.value e.2 := by
  have hseparator (node : Node) (key : String) : Yields FixedMark (separator node key) := by
    unfold separator
    split
    · exact portSeparator_yields _
    · exact .ok (by decide)
  refine (Recipe.Ensures.lift (member.target_keepsTo hscope)).bind fun node haddress => ?_
  refine (Recipe.Ensures.key member.node .node Nat.one_pos).bind fun key hkey => ?_
  refine (Recipe.Ensures.lift (hseparator node key)).bind fun separator hmark => ⟨?_, ?_⟩
  · exact V.word_around hmark (V.part_of_word (hkey rfl)) (V.part_number member.port.toNat)
  · exact V.block (putMonitors_keepsTo h (.single (V.fixed (by decide)) (V.value_text haddress)))

/-- The address and port of a member take a line of their own. -/
theorem legacyEntries_keepsTo {member : Member} (h : ∀ monitor ∈ member.monitors, V.word monitor) :
    Yields (Entries.KeepsTo V) (member.legacyEntries scope) := by
  refine (member.target_keepsTo hscope).bind fun node haddress => ?_
  refine (portSeparator_yields node.address).bind fun separator hmark => .ok ?_
  have hline := V.word_around hmark (V.part_of_word haddress) (V.part_number member.port.toNat)
  exact .cons hline (V.value_fixed (by decide)) (putMonitors_keepsTo h .nil)

end Member

namespace VirtualServer

theorem destination_keepsTo (scope : Scope) {server : VirtualServer} (haddress : V.word server.address) :
    Yields V.word (server.destination scope) := by
  refine (portSeparator_yields server.address).bind fun separator hmark => ?_
  refine (scope.routeDomainSuffix_keepsTo V server.routeDomain).bind fun suffix hsuffix => ?_
  exact .ok (V.word_around hmark (V.part_of_word (hsuffix _ haddress)) (V.part_number server.port.toNat))

section Profiles

variable {scope : Scope} (hscope : scope.KeepsTo V)

include hscope

theorem profile_keepsTo (id : StampId) : Yields (fun profile : Profile => V.word profile.name) (profile scope id) := by
  refine (hscope.stamp id).bind fun stamp hstamp => ?_
  cases stamp with
  | profile profile => exact .ok (hstamp profile.name List.mem_cons_self)
  | _ => exact .error _

theorem profileNames_keepsTo (server : VirtualServer) :
    Yields (fun names => ∀ name ∈ names, V.word name) (server.profileNames scope) :=
  (Yields.mapM fun id _ => profile_keepsTo hscope id).bind fun _ hprofiles => .ok (List.forall_mem_map.mpr hprofiles)

theorem profileEntries_keepsTo (server : VirtualServer) :
    Yields (Entries.KeepsTo V) (server.profileEntries scope) := by
  refine .mapM fun id _ => (profile_keepsTo hscope id).bind fun profile hname => ?_
  have hpath : Yields V.word (scope.stampPath id profile.name) := by
    unfold Scope.stampPath
    cases hhook : scope.hookPath? id with
    | none => exact (Yields.trivial (scope.stamp id)).bind fun stamp _ => .error _
    | some path => exact .ok (V.word_path (hscope.hookPaths id path hhook) hname)
  have hcontext : Fixed profile.context.name := by cases profile.context <;> decide
  refine hpath.bind fun path hword => .ok ⟨hword, ?_⟩
  exact V.block (.single (V.fixed (by decide)) (V.value_fixedText hcontext))

end Profiles

theorem putPool_keepsTo {pool : Option String} (hpool : ∀ key, pool = some key → V.word key) {entries : Entries}
    (h : entries.KeepsTo V) : (putPool pool entries).KeepsTo V := by
  cases pool with
  | none => exact h
  | some key => exact h.put (V.fixed (by decide)) (V.value_text (hpool key rfl))

theorem poolKey_keepsTo (V : Vocabulary) (server : VirtualServer) :
    server.poolKey.Ensures V.Key fun pool => ∀ key, pool = some key → V.word key := by
  unfold poolKey
  cases server.pool with
  | none => exact nofun
  | some id =>
    refine (Recipe.Ensures.key id .pool Nat.one_lt_two).bind fun key hkey => ?_
    rintro key ⟨⟩
    exact hkey rfl

end VirtualServer

end

end ApplianceConfig
