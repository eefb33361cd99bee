import ApplianceConfig.Proofs.Compile.Filled
import ApplianceConfig.Proofs.Compile.Texts

/-!
# Documents in a vocabulary

When the texts that a modern stamp is given are words of a vocabulary, its recipe ends with a document in the vocabulary. Of the password of an account only the hash and a description with blanks are written, so it may be any text. Raw objects are left aside, since they may hold any document. In the vocabulary of words, these are documents that are spelled in words.
-/

namespace ApplianceConfig

open Template Scope

theorem Partition.describe_keepsTo (V : Vocabulary) {settings : Partition}
    (h : ∀ s ∈ settings.description.toList, V.word s) (index : Nat) : V.value (.text (settings.describe index)) := by
  unfold describe
  cases hcase : settings.description with
  | none => exact V.value_text_of_blank (by simp)
  | some description => exact V.value_text (h description (by simp [hcase]))

section Kinds

variable {V : Vocabulary} {scope : Scope} (hscope : scope.KeepsTo V)

include hscope

theorem Partition.modern_keepsTo {settings : Partition} (h : ∀ s ∈ settings.description.toList, V.word s) :
    Yields (Output.KeepsTo V) (settings.modern scope (document .partition .modern)) := by
  refine .of_eq_ok (settings.modern_eq scope) (.of_entries (V.document_append (V.document_append ?_ ?_) ?_))
  · exact V.object (by decide) hscope.partitionName
      (.single (V.fixed (by decide)) (settings.describe_keepsTo V h scope.partitionIndex))
  · exact V.object (by decide) hscope.folderPath (.of_fixed (by decide))
  · exact V.object (by decide) (V.fixed (by decide))
      (.single (V.fixed (by decide)) (V.value_text hscope.partitionName))

theorem folderMarkerModern_keepsTo :
    Yields (Output.KeepsTo V) (folderMarkerModern scope (document .folder .modern)) :=
  .bind_ok (fillAs_object scope ["sys", "folder"] "$key" _ _ _)
    (.ok (.of_entries (V.object (by decide) hscope.folderPath (.of_fixed (by decide)))))

theorem Node.modern_keepsTo {node : Node} (h : ∀ text ∈ (Stamp.node node).texts, V.word text) :
    Yields (Output.KeepsTo V) (node.modern scope (document .node .modern)) := by
  simp only [Stamp.texts, List.forall_mem_append, List.forall_mem_cons] at h
  obtain ⟨⟨haddress, hname, -⟩, hmonitors⟩ := h
  refine .skipIf .empty ((scope.routeDomainSuffix_keepsTo V node.routeDomain).bind fun suffix hsuffix => ?_)
  refine .bind_ok (fillAs_object scope ["ltm", "node"] "$key" _ _ _) (.ok (.of_entries ?_))
  refine V.object (by decide) (hscope.path hname) (putMonitors_keepsTo hmonitors ?_)
  exact .put .nil (V.fixed (by decide)) (V.value_text (hsuffix _ haddress))

theorem Pool.modern_keepsTo {pool : Pool} (h : ∀ text ∈ (Stamp.pool pool).texts, V.word text) :
    (pool.modern scope (document .pool .modern)).Ensures V.Key (Output.KeepsTo V) := by
  simp only [Stamp.texts, List.forall_mem_append, List.forall_mem_cons, List.forall_mem_flatMap] at h
  obtain ⟨⟨hname, hmonitors⟩, hmembers⟩ := h
  have hentries := Recipe.Ensures.mapM fun member hmember =>
    Member.modernEntry_keepsTo hscope (hmembers member hmember)
  refine .skipIf .empty (hentries.bind fun members hkept => ?_)
  refine .bind_ok (fillAs_object scope ["ltm", "pool"] "$key" _ _ _) (Output.KeepsTo.of_entries ?_)
  refine V.object (by decide) (hscope.path hname)
    (.put (.putOrErase (.of_fixed (by decide)) (V.fixed (by decide)) fun hne => ?_) (V.fixed (by decide)) ?_)
  · exact V.value_monitors (by simpa using hne) hmonitors
  · exact V.block (.putAll .nil hkept)

theorem VirtualServer.modern_keepsTo {server : VirtualServer}
    (h : ∀ text ∈ (Stamp.virtualServer server).texts, V.word text) :
    (server.modern scope (document .virtualServer .modern)).Ensures V.Key (Output.KeepsTo V) := by
  simp only [Stamp.texts, List.forall_mem_append, List.forall_mem_cons] at h
  obtain ⟨⟨hname, haddress, -⟩, hrules⟩ := h
  refine .skipIf .empty (.bind (.lift (scope.routeDomainSuffix_keepsTo V server.routeDomain)) fun suffix hsuffix => ?_)
  refine .bind (.lift (profileEntries_keepsTo hscope server)) fun profiles hprofiles => ?_
  refine .bind (attachedRules_keepsTo hscope _ hrules Nat.one_lt_two) fun rules hrules => ?_
  refine .bind (server.poolKey_keepsTo V) fun pool hpool => ?_
  refine .bind (.lift (destination_keepsTo scope haddress)) fun destination hdestination => ?_
  refine .bind_ok (fillAs_server scope _ _) (.bind_ok (fillAs_address scope _ _ _ _) (Output.KeepsTo.of_entries ?_))
  refine V.document_under (by decide) (V.document_append ?_ ?_)
  · refine V.object (by decide) (hscope.path hname) (putPool_keepsTo hpool (putRules_keepsTo hrules
      (.put (.put (.of_fixed (by decide)) (V.fixed (by decide)) ?_) (V.fixed (by decide)) ?_)))
    · exact V.value_text hdestination
    · exact V.block (.putAll .nil hprofiles)
  · exact V.object (by decide) (hscope.path haddress)
      (.put .nil (V.fixed (by decide)) (V.value_text (hsuffix _ haddress)))

theorem SelfIp.modern_keepsTo {selfIp : SelfIp} (h : ∀ text ∈ (Stamp.selfIp selfIp).texts, V.word text) :
    (selfIp.modern scope (document .selfIp .modern)).Ensures V.Key (Output.KeepsTo V) := by
  simp only [Stamp.texts, List.forall_mem_append, List.forall_mem_cons] at h
  obtain ⟨⟨hname, hallow⟩, hrules⟩ := h
  refine .skipIf .empty (.bind (.lift (scope.routeDomainSuffix_keepsTo V selfIp.routeDomain)) fun suffix hsuffix => ?_)
  refine .bind (.key selfIp.vlan .vlan Nat.two_pos) fun vlan hvlan => ?_
  refine .bind (attachedRules_keepsTo hscope _ hrules Nat.one_lt_two) fun rules hrules => ?_
  refine .bind_ok (fillAs_object scope ["net", "self"] "$key" _ _ _) (Output.KeepsTo.of_entries ?_)
  have haddress := V.word_around (show FixedMark "/" by decide)
    (V.part_of_word (hsuffix _ (V.word_render selfIp.address.address))) (V.part_number selfIp.address.length)
  refine V.object (by decide) (hscope.path hname) (.put (putRules_keepsTo hrules
    (.put (.put (.of_fixed (by decide)) (V.fixed (by decide)) ?_) (V.fixed (by decide)) ?_)) (V.fixed (by decide)) ?_)
  · exact V.value_text haddress
  · exact V.block (.toggles hallow)
  · exact V.value_text (hvlan rfl)

theorem Vlan.modern_keepsTo {vlan : Vlan} (h : ∀ text ∈ (Stamp.vlan vlan).texts, V.word text) :
    Yields (Output.KeepsTo V) (vlan.modern scope (document .vlan .modern)) := by
  simp only [Stamp.texts, List.forall_mem_append, List.forall_mem_cons] at h
  obtain ⟨⟨hname, huntagged⟩, htagged⟩ := h
  have hinterfaces : Entries.KeepsTo V (vlan.untagged.map (fun i => (i, Value.set [])) ++
      vlan.tagged.map fun i => (i, Value.set ["tagged"])) := by
    refine .append (List.forall_mem_map.mpr fun i hi => ?_) (List.forall_mem_map.mpr fun i hi => ?_)
    · exact ⟨huntagged i hi, V.value_fixed (show Value.Fixed (.set []) by decide)⟩
    · exact ⟨htagged i hi, V.value_fixed (show Value.Fixed (.set ["tagged"]) by decide)⟩
  refine .bind_ok (fillAs_object scope ["net", "vlan"] "$name" _ _ _) (.ok (.of_entries ?_))
  refine V.object (by decide) hname (.putUnless (.put (.putOrErase (.put (.of_fixed (by decide))
    (V.fixed (by decide)) ?_) (V.fixed (by decide)) fun _ => ?_) (V.fixed (by decide)) ?_)
    (V.fixed (by decide)) fun _ => vlan.tagValue_keepsTo V)
  · exact V.value_text hscope.partitionName
  · exact V.block (.putAll .nil hinterfaces)
  · exact V.value_text hname

theorem RouteDomain.modern_keepsTo {domain : RouteDomain}
    (h : ∀ text ∈ (Stamp.routeDomain domain).texts, V.word text) :
    (domain.modern scope (document .routeDomain .modern)).Ensures V.Key (Output.KeepsTo V) := by
  simp only [Stamp.texts, List.forall_mem_append, List.forall_mem_cons] at h
  obtain ⟨⟨hname, hparent⟩, hrules⟩ := h
  refine .bind (.mapM fun id _ => .key id .vlan Nat.two_pos) fun vlans hvlans => ?_
  refine .bind (attachedRules_keepsTo hscope _ hrules Nat.one_lt_two) fun rules hrules => ?_
  refine .bind_ok (fillAs_object scope ["net", "route-domain"] "$name" _ _ _) (Output.KeepsTo.of_entries ?_)
  refine V.object (by decide) hname (putRules_keepsTo hrules ?_)
  change Entries.KeepsTo V (putText "parent" domain.parent _)
  refine putText_keepsTo (V.fixed (by decide)) hparent (.putOrErase (.put (.put (.of_fixed (by decide))
    (V.fixed (by decide)) ?_) (V.fixed (by decide)) ?_) (V.fixed (by decide)) fun _ => ?_)
  · exact V.value_number domain.id.toNat_lt_size
  · exact V.value_text hscope.partitionName
  · exact V.block (.toggles fun key hkey => hvlans key hkey rfl)

theorem Mail.modern_keepsTo {mail : Mail} (h : ∀ text ∈ (Stamp.mail mail).texts, V.word text) :
    Yields (Output.KeepsTo V) (mail.modern scope (document .mail .modern)) := by
  simp only [Stamp.texts, List.forall_mem_cons] at h
  obtain ⟨hserver, horiginator, -⟩ := h
  refine .skipIf .empty (.bind_ok (fillAs_object scope ["sys", "smtp-server"] "$key" _ _ _) (.ok (.of_entries ?_)))
  refine V.object (by decide) (hscope.path hserver) (.put (.put (.put (.of_fixed (by decide))
    (V.fixed (by decide)) ?_) (V.fixed (by decide)) ?_) (V.fixed (by decide)) ?_)
  · exact V.value_text hserver
  · exact V.value_number (Nat.lt_trans mail.port.toNat_lt_size (by decide))
  · exact V.value_text horiginator

theorem AddressList.modern_keepsTo {list : AddressList} (h : ∀ text ∈ (Stamp.addressList list).texts, V.word text) :
    Yields (Output.KeepsTo V) (list.modern scope (document .addressList .modern)) := by
  obtain ⟨hname, haddresses⟩ := List.forall_mem_cons.mp h
  refine .skipIf .empty (.bind_ok (fillAs_object scope ["security", "firewall", "address-list"] "$key" _ _ _)
    (.ok (.of_entries (V.object (by decide) (hscope.path hname) ?_))))
  exact .put (.of_fixed (by decide)) (V.fixed (by decide)) (V.block (.emptyObjects haddresses))

theorem PortList.modern_keepsTo {list : PortList} (h : ∀ text ∈ (Stamp.portList list).texts, V.word text) :
    Yields (Output.KeepsTo V) (list.modern scope (document .portList .modern)) := by
  obtain ⟨hname, hports⟩ := List.forall_mem_cons.mp h
  refine .skipIf .empty (.bind_ok (fillAs_object scope ["security", "firewall", "port-list"] "$key" _ _ _)
    (.ok (.of_entries (V.object (by decide) (hscope.path hname) ?_))))
  exact .put (.of_fixed (by decide)) (V.fixed (by decide)) (V.block (.emptyObjects hports))

theorem RuleList.modern_keepsTo {list : RuleList} (h : ∀ text ∈ (Stamp.ruleList list).texts, V.word text) :
    (list.modern scope (document .ruleList .modern)).Ensures V.Key (Output.KeepsTo V) := by
  simp only [Stamp.texts, List.forall_mem_cons, List.forall_mem_flatMap] at h
  obtain ⟨hname, hrules⟩ := h
  have hrule : ∀ rule ∈ list.rules, Recipe.Ensures V.Key (fun e : String × Value => V.word e.1 ∧ V.value e.2) (do
      let body ← rule.body Nat.one_pos
      return (rule.name, body) : Recipe 1 (String × Value)) := by
    intro rule hmem
    have hname := hrules rule hmem rule.name List.mem_cons_self
    exact (Rule.body_keepsTo (hrules rule hmem) Nat.one_pos).bind fun body hbody => ⟨hname, hbody⟩
  refine .skipIf .empty (.bind (.mapM hrule) fun rules hkept => ?_)
  refine .bind_ok (fillAs_object scope ["security", "firewall", "rule-list"] "$key" _ _ _)
    (Output.KeepsTo.of_entries (V.object (by decide) (hscope.path hname) ?_))
  exact .put (.of_fixed (by decide)) (V.fixed (by decide)) (V.block (.putAll .nil hkept))

theorem Firewall.modern_keepsTo {firewall : Firewall} (h : ∀ text ∈ (Stamp.firewall firewall).texts, V.word text) :
    (firewall.modern scope (document .firewall .modern)).Ensures V.Key (Output.KeepsTo V) := by
  have hcontext : Fixed firewall.context.blockName := by cases firewall.context <;> decide
  refine .skipIf .empty (.bind (AttachedRule.block_keepsTo hscope h Nat.one_lt_two) fun rules hrules => ?_)
  refine .bind_ok (fillAs_object scope ["security", "firewall"] "$context" _ _ _)
    (Output.KeepsTo.of_entries (V.object (by decide) (V.fixed hcontext) ?_))
  exact .put (.of_fixed (by decide)) (V.fixed (by decide)) hrules

end Kinds

/-! ### Settings of the device -/

section Settings

variable {V : Vocabulary} (scope : Scope)

theorem Trunk.modern_keepsTo {trunk : Trunk} (h : ∀ text ∈ (Stamp.trunk trunk).texts, V.word text) :
    Yields (Output.KeepsTo V) (trunk.modern scope (document .trunk .modern)) := by
  obtain ⟨hname, hinterfaces⟩ := List.forall_mem_cons.mp h
  refine .bind_ok (fillAs_object scope ["net", "trunk"] "$name" _ _ _) (.ok (.of_entries ?_))
  have hentries {entries : Entries} (h : entries.KeepsTo V) :
      Entries.KeepsTo V (if trunk.lacp then Assoc.put entries "lacp" (.text "enabled") else entries) := by
    cases trunk.lacp
    · exact h
    · exact h.put (V.fixed (by decide)) (V.value_fixedText (by decide))
  refine V.object (by decide) hname (hentries (.putOrErase (.of_fixed (by decide)) (V.fixed (by decide)) fun _ => ?_))
  exact V.block (.toggles hinterfaces)

theorem Provision.modern_keepsTo {provision : Provision}
    (h : ∀ text ∈ (Stamp.provision provision).texts, V.word text) :
    Yields (Output.KeepsTo V) (provision.modern scope (document .provision .modern)) := by
  simp only [Stamp.texts, List.forall_mem_cons] at h
  obtain ⟨hmodule, hlevel, -⟩ := h
  refine .bind_ok (fillAs_object scope ["sys", "provision"] "$name" _ _ _) (.ok (.of_entries ?_))
  exact V.object (by decide) hmodule (.put (.of_fixed (by decide)) (V.fixed (by decide)) (V.value_text hlevel))

theorem Platform.modern_keepsTo {platform : Platform} (h : ∀ text ∈ (Stamp.platform platform).texts, V.word text) :
    Yields (Output.KeepsTo V) (platform.modern scope (document .platform .modern)) := by
  obtain ⟨hhostname, -⟩ := List.forall_mem_cons.mp h
  have hmanagement := V.word_path (V.part_of_word (V.word_render platform.address.address))
    (V.word_render platform.address.netmask)
  have henabled (flag : Bool) : Fixed (enabled flag) := by cases flag <;> decide
  have hdhcp : Fixed (if platform.dhcp then "enable" else "disable") := by cases platform.dhcp <;> decide
  refine .of_eq_ok (platform.modern_eq scope) (.of_entries (V.document_under (by decide)
    (V.document_append (V.document_append (V.document_append ?_ ?_) ?_) ?_)))
  · exact V.object (by decide) hmanagement .nil
  · exact V.object (by decide) (V.fixed (by decide))
      (.single (V.fixed (by decide)) (V.value_text (V.word_render platform.gateway)))
  · exact V.object (by decide) (V.fixed (by decide)) (.single (V.fixed (by decide)) (V.value_fixedText hdhcp))
  · refine V.object (by decide) (V.fixed (by decide)) (.cons (V.fixed (by decide)) ?_
      (.cons (V.fixed (by decide)) ?_ (.single (V.fixed (by decide)) ?_)))
    · exact V.value_fixedText (henabled _)
    · exact V.value_fixedText (henabled _)
    · exact V.value_text hhostname

theorem Dns.modern_keepsTo {dns : Dns} (h : ∀ text ∈ (Stamp.dns dns).texts, V.word text) :
    Yields (Output.KeepsTo V) (dns.modern scope (document .dns .modern)) := by
  obtain ⟨hservers, hsuffixes⟩ := List.forall_mem_append.mp h
  refine .of_eq_ok (dns.modern_eq scope) (.of_entries (V.object (by decide) (V.fixed (by decide)) ?_))
  exact .cons (V.fixed (by decide)) (V.value_set hservers) (.single (V.fixed (by decide)) (V.value_set hsuffixes))

theorem Ntp.modern_keepsTo {ntp : Ntp} (h : ∀ text ∈ (Stamp.ntp ntp).texts, V.word text) :
    Yields (Output.KeepsTo V) (ntp.modern scope (document .ntp .modern)) := by
  obtain ⟨hservers, htimezone⟩ := List.forall_mem_append.mp h
  refine .of_eq_ok (ntp.modern_eq scope) (.of_entries (V.object (by decide) (V.fixed (by decide)) ?_))
  exact putText_keepsTo (V.fixed (by decide)) htimezone (.single (V.fixed (by decide)) (V.value_set hservers))

theorem User.description_keepsTo (V : Vocabulary) (user : User) : V.value (.text user.description) :=
  V.value_text_of_blank (by simp [description])

/-- The password may be any text: its hash may be written, and so may the description, which has blanks. -/
theorem User.modern_keepsTo {user : User} (h : ∀ text ∈ (Stamp.user user).texts, V.word text) :
    Yields (Output.KeepsTo V) (user.modern scope (document .user .modern)) := by
  simp only [Stamp.texts, List.forall_mem_cons] at h
  obtain ⟨hname, hrole, -⟩ := h
  refine .bind_ok (fillAs_object scope ["auth", "user"] "$name" _ _ _) (.ok (.of_entries ?_))
  refine V.object (by decide) hname (.put (.put (.put (.of_fixed (by decide))
    (V.fixed (by decide)) (V.value_hash user)) (V.fixed (by decide)) ?_) (V.fixed (by decide)) ?_)
  · exact V.value_text hrole
  · exact user.description_keepsTo V

theorem defaults_keepsTo (V : Vocabulary) : V.document (document .defaults .modern).entries :=
  V.document_append (V.object (by decide) (V.fixed (by decide)) (.of_fixed (by decide)))
    (V.object (by decide) (V.fixed (by decide)) (.of_fixed (by decide)))

end Settings

/-- Whatever words its questions are answered by, the recipe of a modern stamp made of words of a vocabulary ends with a document in it. -/
theorem Stamp.modernRecipe_keepsTo {V : Vocabulary} {stamp : Stamp} (h : ∀ text ∈ stamp.texts, V.word text)
    (hraw : stamp.kind ≠ .raw) {scope : Scope} (hscope : scope.KeepsTo V) :
    (stamp.modernRecipe scope (document stamp.kind .modern)).Ensures V.Key (Output.KeepsTo V) := by
  cases stamp with
  | raw object => exact absurd rfl hraw
  | partition settings => exact .ofExcept (settings.modern_keepsTo hscope h)
  | folder => exact .ofExcept (folderMarkerModern_keepsTo hscope)
  | node node => exact .ofExcept (node.modern_keepsTo hscope h)
  | pool pool => exact pool.modern_keepsTo hscope h
  | virtualServer server => exact server.modern_keepsTo hscope h
  | profile profile => exact Output.KeepsTo.empty
  | selfIp selfIp => exact selfIp.modern_keepsTo hscope h
  | trunk trunk => exact .ofExcept (trunk.modern_keepsTo scope h)
  | vlan vlan => exact .ofExcept (vlan.modern_keepsTo hscope h)
  | routeDomain domain => exact domain.modern_keepsTo hscope h
  | provision provision => exact .ofExcept (provision.modern_keepsTo scope h)
  | defaults => exact Output.KeepsTo.of_entries (defaults_keepsTo V)
  | platform platform => exact .ofExcept (platform.modern_keepsTo scope h)
  | dns dns => exact .ofExcept (dns.modern_keepsTo scope h)
  | ntp ntp => exact .ofExcept (ntp.modern_keepsTo scope h)
  | mail mail => exact .ofExcept (mail.modern_keepsTo hscope h)
  | user user => exact .ofExcept (user.modern_keepsTo scope h)
  | addressList list => exact .ofExcept (list.modern_keepsTo hscope h)
  | portList list => exact .ofExcept (list.modern_keepsTo hscope h)
  | ruleList list => exact list.modern_keepsTo hscope h
  | firewall firewall => exact firewall.modern_keepsTo hscope h

/-- The recipe of a modern stamp made of words ends with a document made of words. -/
theorem Stamp.modernRecipe_spelled {stamp : Stamp} (h : Worded stamp.texts) (hraw : stamp.kind ≠ .raw)
    {scope : Scope} (hscope : scope.InWords) :
    (stamp.modernRecipe scope (document stamp.kind .modern)).Ensures WordedKey Output.Spelled :=
  modernRecipe_keepsTo (V := .words) h hraw hscope.keepsTo

end ApplianceConfig
