import ApplianceConfig.Proofs.Compile.Answers
import ApplianceConfig.Proofs.Compile.Filled

/-!
# The objects that documents define

Nodes, pools and the lists of firewalls are objects that others name. In the modern dialect such a stamp is given the key that its object is headed by, and no stamp of another kind writes an object under the same heading.
-/

namespace ApplianceConfig

/-- The keys in front of the names of a kind's objects, for the kinds whose objects others name. -/
def Kind.heading? : Kind → Option (List String)
  | .node => some ["ltm", "node"]
  | .pool => some ["ltm", "pool"]
  | .ruleList => some ["security", "firewall", "rule-list"]
  | .addressList => some ["security", "firewall", "address-list"]
  | .portList => some ["security", "firewall", "port-list"]
  | _ => none

/-- The name that a stamp gives to its object, for the same kinds. -/
def Stamp.objectName? : Stamp → Option String
  | .node s => some s.name
  | .pool s => some s.name
  | .ruleList s => some s.name
  | .addressList s => some s.name
  | .portList s => some s.name
  | _ => none

/-- Holds when a document has an object of a kind with a name. -/
def Document.defines (doc : Document) (kind : Kind) (name : String) : Bool :=
  match kind.heading? with
  | some heading => (doc.block? (heading ++ [name])).isSome
  | none => false

/-- Of the objects that others name, a document defines the one of the stamp's own kind that the stamp's key names. -/
structure Output.Titled (stamp : Stamp) (scope : Scope) (output : Output) : Prop where
  defines_iff : ∀ doc, output.value = some doc → ∀ kind heading, kind.heading? = some heading → ∀ name,
    doc.defines kind name = true ↔ kind = stamp.kind ∧ output.key = some name
  named : ∀ key, output.key = some key → ∀ heading, stamp.kind.heading? = some heading →
    output.value.isSome = true ∧ ∃ name, stamp.objectName? = some name ∧ key = scope.path name

/-! ### Blocks of objects -/

namespace Entries

theorem block?_object_self (keys : List String) (name other : String) (entries : Entries) :
    block? (object keys name entries) (keys ++ [other]) = if name = other then some entries else none := by
  induction keys with
  | nil => by_cases h : name = other <;> simp [object, block?, Assoc.get?, Value.block, h]
  | cons key keys ih => simpa [object, block?, Assoc.get?] using ih

/-- A path that leads to another place finds no block. -/
theorem block?_object_of_ne {keys path : List String} (h : ¬ keys <+: path) (h' : ¬ path <+: keys)
    (name : String) (entries : Entries) : block? (object keys name entries) path = none := by
  induction keys generalizing path with
  | nil => exact absurd List.nil_prefix h
  | cons key keys ih =>
    cases path with
    | nil => exact absurd List.nil_prefix h'
    | cons first path =>
      by_cases hkey : key = first
      · subst hkey
        rw [List.cons_prefix_cons, and_iff_right rfl] at h h'
        simpa [object, block?, Assoc.get?] using ih h h'
      · simp [object, block?, Assoc.get?, hkey]

end Entries

namespace Kind

/-- No heading leads into the objects of another kind. -/
theorem eq_of_heading?_prefix {kind other : Kind} {heading otherHeading : List String}
    (h : kind.heading? = some heading) (hother : other.heading? = some otherHeading) {name : String}
    (hleads : heading <+: otherHeading ++ [name] ∨ otherHeading ++ [name] <+: heading) : other = kind := by
  unfold heading? at h hother
  split at h <;> cases h <;> split at hother <;> cases hother <;> simp_all

theorem head_of_heading? {kind : Kind} {heading : List String} (h : kind.heading? = some heading) :
    ∃ rest, heading = "ltm" :: rest ∨ heading = "security" :: rest := by
  unfold heading? at h
  split at h <;> cases h <;> simp

end Kind

theorem Document.defines_eq {kind : Kind} {heading : List String} (h : kind.heading? = some heading)
    (doc : Document) (name : String) :
    doc.defines kind name = (Entries.block? doc.entries (heading ++ [name])).isSome := by
  simp [defines, h, block?]

namespace Output.Titled

variable {stamp : Stamp} {scope : Scope}

theorem empty : Titled stamp scope {} where
  defines_iff := nofun
  named := nofun

/-- The object of a kind whose objects others name is headed by the kind's keys and its own. -/
theorem of_object {keys : List String} {name : String} (hkeys : stamp.kind.heading? = some keys)
    (hname : stamp.objectName? = some name) (entries : Entries) :
    Titled stamp scope
      { key := scope.path name, value := some { entries := object keys (scope.path name) entries } } where
  defines_iff := by
    rintro doc ⟨⟩ kind heading hheading other
    rw [Document.defines_eq hheading]
    by_cases hkind : kind = stamp.kind
    · subst hkind
      rw [hkeys] at hheading
      cases hheading
      by_cases hother : scope.path name = other <;> simp [Entries.block?_object_self, hother]
    · have hne : ¬ (keys <+: heading ++ [other] ∨ heading ++ [other] <+: keys) :=
        fun hleads => hkind (Kind.eq_of_heading?_prefix hkeys hheading hleads)
      rw [not_or] at hne
      simp [Entries.block?_object_of_ne hne.1 hne.2, hkind]
  named := by
    rintro key ⟨⟩ heading hheading
    exact ⟨rfl, name, hname, rfl⟩

/-- Stamps of kinds whose objects no others name only have to keep clear of the headings. -/
theorem of_clear {output : Output} (hkind : stamp.kind.heading? = none)
    (hclear : ∀ doc, output.value = some doc → ∀ (kind : Kind) heading, kind.heading? = some heading →
      ∀ name, Entries.block? doc.entries (heading ++ [name]) = none) : Titled stamp scope output where
  defines_iff := by
    intro doc hdoc kind heading hheading name
    rw [Document.defines_eq hheading, hclear doc hdoc kind heading hheading name]
    refine iff_of_false Bool.false_ne_true ?_
    rintro ⟨rfl, -⟩
    rw [hkind] at hheading
    cases hheading
  named := by
    intro key hkey heading hheading
    rw [hkind] at hheading
    cases hheading

/-- They do so when neither of the words that headings start with starts a line of theirs. -/
theorem of_heads {key : Option String} {entries : Entries} (hkind : stamp.kind.heading? = none)
    (hltm : Assoc.get? entries "ltm" = none) (hsecurity : Assoc.get? entries "security" = none) :
    Titled stamp scope { key, value := some { entries } } := by
  refine of_clear hkind ?_
  rintro doc ⟨⟩ kind heading hheading name
  obtain ⟨rest, rfl | rfl⟩ := Kind.head_of_heading? hheading
  · simp [Entries.block?, hltm]
  · simp [Entries.block?, hsecurity]

end Output.Titled

/-! ### Recipes of each kind -/

/-- A virtual server shares its first word with headings, but not the second one. -/
theorem VirtualServer.block?_objects {kind : Kind} {heading : List String} (h : kind.heading? = some heading)
    {key name address : String} {server virtualAddress : Entries} :
    Entries.block? (objects key server address virtualAddress) (heading ++ [name]) = none := by
  unfold Kind.heading? at h
  split at h <;> cases h <;> simp [objects, object, Entries.block?, Assoc.get?]

/-- A rule set of the device has none of the third words of headings as its name. -/
theorem FirewallContext.block?_object {kind : Kind} {heading : List String} (h : kind.heading? = some heading)
    (context : FirewallContext) {name : String} {entries : Entries} :
    Entries.block? (object ["security", "firewall"] context.blockName entries) (heading ++ [name]) = none := by
  unfold Kind.heading? at h
  cases context <;> split at h <;> cases h <;>
    simp [object, Entries.block?, Assoc.get?, Value.block, blockName]

namespace Stamp

open Template Scope

/-- Whatever keys its questions are answered by, the recipe of a modern stamp ends with the object that the stamp's key names. -/
theorem modernRecipe_titled (stamp : Stamp) (hraw : stamp.kind ≠ .raw) (scope : Scope) :
    (stamp.modernRecipe scope (document stamp.kind .modern)).Ensures (fun _ _ => True)
      (Output.Titled stamp scope) := by
  cases stamp with
  | raw object => exact absurd rfl hraw
  | partition settings =>
    exact .ofExcept (.of_eq_ok (settings.modern_eq scope) (.of_heads rfl rfl rfl))
  | folder =>
    exact .ofExcept (.bind_ok (fillAs_object scope ["sys", "folder"] "$key" _ _ _) (.ok (.of_heads rfl rfl rfl)))
  | node node =>
    refine .ofExcept (.skipIf .empty ((Yields.trivial _).bind fun suffix _ => ?_))
    exact .bind_ok (fillAs_object scope ["ltm", "node"] "$key" _ _ _) (.ok (.of_object rfl rfl _))
  | pool pool =>
    refine .skipIf .empty (.bind (.trivial _) fun members _ => ?_)
    exact .bind_ok (fillAs_object scope ["ltm", "pool"] "$key" _ _ _) (Output.Titled.of_object rfl rfl _)
  | virtualServer server =>
    refine .skipIf .empty (.bind (.trivial _) fun suffix _ => .bind (.trivial _) fun profiles _ => ?_)
    refine .bind (.trivial _) fun rules _ => .bind (.trivial _) fun pool _ => ?_
    refine .bind (.trivial _) fun destination _ => ?_
    refine .bind_ok (VirtualServer.fillAs_server scope _ _) ?_
    refine .bind_ok (VirtualServer.fillAs_address scope _ _ _ _) (Output.Titled.of_clear rfl ?_)
    rintro doc ⟨⟩ kind heading hheading name
    exact VirtualServer.block?_objects hheading
  | profile profile => exact Output.Titled.empty
  | selfIp selfIp =>
    refine .skipIf .empty (.bind (.trivial _) fun suffix _ => .bind (.trivial _) fun vlan _ => ?_)
    refine .bind (.trivial _) fun rules _ => ?_
    exact .bind_ok (fillAs_object scope ["net", "self"] "$key" _ _ _) (Output.Titled.of_heads rfl rfl rfl)
  | trunk trunk =>
    exact .ofExcept (.bind_ok (fillAs_object scope ["net", "trunk"] "$name" _ _ _) (.ok (.of_heads rfl rfl rfl)))
  | vlan vlan =>
    exact .ofExcept (.bind_ok (fillAs_object scope ["net", "vlan"] "$name" _ _ _) (.ok (.of_heads rfl rfl rfl)))
  | routeDomain domain =>
    refine .bind (.trivial _) fun vlans _ => .bind (.trivial _) fun rules _ => ?_
    exact .bind_ok (fillAs_object scope ["net", "route-domain"] "$name" _ _ _)
      (Output.Titled.of_heads rfl rfl rfl)
  | provision provision =>
    exact .ofExcept (.bind_ok (fillAs_object scope ["sys", "provision"] "$name" _ _ _)
      (.ok (.of_heads rfl rfl rfl)))
  | defaults => exact Output.Titled.of_heads rfl rfl rfl
  | platform platform => exact .ofExcept (.of_eq_ok (platform.modern_eq scope) (.of_heads rfl rfl rfl))
  | dns dns => exact .ofExcept (.of_eq_ok (dns.modern_eq scope) (.of_heads rfl rfl rfl))
  | ntp ntp => exact .ofExcept (.of_eq_ok (ntp.modern_eq scope) (.of_heads rfl rfl rfl))
  | mail mail =>
    refine .ofExcept (.skipIf .empty ?_)
    exact .bind_ok (fillAs_object scope ["sys", "smtp-server"] "$key" _ _ _) (.ok (.of_heads rfl rfl rfl))
  | user user =>
    exact .ofExcept (.bind_ok (fillAs_object scope ["auth", "user"] "$name" _ _ _) (.ok (.of_heads rfl rfl rfl)))
  | addressList list =>
    refine .ofExcept (.skipIf .empty ?_)
    exact .bind_ok (fillAs_object scope ["security", "firewall", "address-list"] "$key" _ _ _)
      (.ok (.of_object rfl rfl _))
  | portList list =>
    refine .ofExcept (.skipIf .empty ?_)
    exact .bind_ok (fillAs_object scope ["security", "firewall", "port-list"] "$key" _ _ _)
      (.ok (.of_object rfl rfl _))
  | ruleList list =>
    refine .skipIf .empty (.bind (.trivial _) fun rules _ => ?_)
    exact .bind_ok (fillAs_object scope ["security", "firewall", "rule-list"] "$key" _ _ _)
      (Output.Titled.of_object rfl rfl _)
  | firewall firewall =>
    refine .skipIf .empty (.bind (.trivial _) fun rules _ => ?_)
    refine .bind_ok (fillAs_object scope ["security", "firewall"] "$context" _ _ _) (Output.Titled.of_clear rfl ?_)
    rintro doc ⟨⟩ kind heading hheading name
    exact firewall.context.block?_object hheading

end Stamp

end ApplianceConfig
