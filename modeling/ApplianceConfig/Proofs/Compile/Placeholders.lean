import ApplianceConfig.Proofs.Compile.Runs
import ApplianceConfig.Proofs.Compile.Spelling
import ApplianceConfig.Proofs.Render.Grammatical

/-!
# Placeholders are filled in

In a template, a word with a dollar sign stands for what is filled in. When the texts that a stamp is made from have no dollar sign, no such word is left in its document, at any depth, in either dialect. Passwords may be any texts, though their hashes have dollar signs too. Raw objects are left aside, since they may hold any document.
-/

namespace ApplianceConfig

open Template Scope

/-! ### Placeholders of templates -/

namespace Template

/-- The words of templates that stand for what is filled in. -/
def placeholders : List String := ["$key", "$key_va", "$name", "$address", "$context", "$ip", "$ip/$netmask"]

theorem plain_or_mem_placeholders (kind : Kind) (dialect : Dialect) :
    ∀ s ∈ (document kind dialect).strings, Plain s ∨ s ∈ placeholders := by
  cases dialect <;> cases kind <;> decide +kernel

/-- The placeholders are the strings of templates that have dollar signs. -/
theorem mem_placeholders_iff (s : String) :
    s ∈ placeholders ↔ ¬ Plain s ∧ ∃ kind dialect, s ∈ (document kind dialect).strings := by
  have hdollars : ∀ s ∈ placeholders, ¬ Plain s := by decide
  have hoccur : ∀ s ∈ placeholders, ∃ source ∈ [(Kind.virtualServer, Dialect.modern), (.trunk, .modern),
      (.node, .legacy), (.firewall, .modern), (.platform, .legacy), (.platform, .modern)],
      s ∈ (document source.1 source.2).strings := by
    decide
  constructor
  · intro hs
    obtain ⟨source, -, hmem⟩ := hoccur s hs
    exact ⟨hdollars s hs, source.1, source.2, hmem⟩
  · rintro ⟨hdollar, kind, dialect, hs⟩
    exact (plain_or_mem_placeholders kind dialect s hs).resolve_left hdollar

theorem not_placeholder_of_plain {s : String} (h : Plain s) : s ∉ placeholders :=
  fun hs => ((mem_placeholders_iff s).mp hs).1 h

theorem not_placeholder_of_blank {s : String} (h : ' ' ∈ s.toList) : s ∉ placeholders := by
  have hblanks : ∀ p ∈ placeholders, ' ' ∉ p.toList := by decide
  exact fun hs => hblanks s hs h

/-- A hash has a dollar sign in front, but another character behind it than placeholders. -/
theorem not_placeholder_hash (password salt : String) : Password.hash password salt ∉ placeholders := by
  have hmarks : ∀ p ∈ placeholders, ¬ Password.mark <+: p.toList := by decide
  intro hs
  refine hmarks _ hs ?_
  rw [Password.hash, Password.hashWith, String.toList_ofList, List.append_assoc]
  exact List.prefix_append _ _

theorem within_of_plain {entries : Entries} (h : ∀ e ∈ entries, Plain e.1 ∧ e.2.Within (· ∉ placeholders)) :
    entries.Within (· ∉ placeholders) :=
  Entries.within_iff.mpr fun e he => ⟨not_placeholder_of_plain (h e he).1, (h e he).2⟩

end Template

/-! ### The vocabulary of filled documents -/

/-- Documents that no placeholder is left in, of words without dollar signs. -/
def Vocabulary.filled : Vocabulary where
  part := Plain
  word := Plain
  value v := v.Within (· ∉ placeholders)
  document entries := entries.Within (· ∉ placeholders)
  fixed h := h.2
  part_of_word h := h
  part_of_isAddressText h := .of_isAddressText h
  word_around hmark hbefore hafter := (hbefore.append hmark.2).append hafter
  word_render address := .of_isAddressText address.isAddressText_render
  value_fixed h := h.2.mono fun _ => not_placeholder_of_plain
  value_text h := .text (not_placeholder_of_plain h)
  value_text_of_blank h := .text (not_placeholder_of_blank h)
  value_hash user := .text (not_placeholder_hash user.password User.salt)
  value_set h := .set fun item hitem => not_placeholder_of_plain (h item hitem)
  value_monitors _ h := .raw (not_placeholder_of_plain (.intercalate (by decide) h))
  value_block h := .map (within_of_plain h) .braced
  document_object hkeys hname h :=
    .object (fun key hkey => not_placeholder_of_plain (hkeys key hkey).2) (not_placeholder_of_plain hname)
      (within_of_plain h)
  document_append h hmore := h.append hmore
  document_under hkey h := .single (not_placeholder_of_plain hkey.2) (.map h .chained)

open Vocabulary (filled)

theorem Vocabulary.filled_raw {words : List String} (h : ∀ word ∈ words, Plain word) :
    filled.value (.raw (" ".intercalate words)) := .raw (not_placeholder_of_plain (.intercalate (by decide) h))

/-! ### Legacy objects -/

section Kinds

variable {scope : Scope} (hscope : scope.KeepsTo filled)

include hscope

theorem Partition.legacy_filled {settings : Partition} (h : ∀ s ∈ settings.description.toList, Plain s) :
    Yields (Output.KeepsTo filled) (settings.legacy scope (document .partition .legacy)) := by
  have hname := filled.value_text hscope.partitionName
  refine .of_eq_ok (settings.legacy_eq scope) (.of_entries (filled.document_append ?_ ?_))
  · exact filled.object (by decide) hscope.partitionName
      (.single (filled.fixed (by decide)) (settings.describe_keepsTo filled h scope.partitionIndex))
  · exact filled.document_under (by decide) (filled.document_under (by decide) (.single (by decide) hname))

theorem Pool.legacy_filled {pool : Pool} (h : ∀ text ∈ (Stamp.pool pool).texts, Plain text) :
    Yields (Output.KeepsTo filled) (pool.legacy scope (document .pool .legacy)) := by
  simp only [Stamp.texts, List.forall_mem_append, List.forall_mem_cons, List.forall_mem_flatMap] at h
  obtain ⟨⟨hname, hmonitors⟩, hmembers⟩ := h
  have hlines := Yields.mapM fun member hmember =>
    Member.legacyEntries_keepsTo hscope (hmembers member hmember)
  have hrule : Entries.KeepsTo filled
      (if pool.monitors.isEmpty then [] else [("monitor all", monitorRule pool.monitors)]) :=
    .skipIf .nil fun hne => .single (show Plain "monitor all" by decide)
      (filled.value_monitors (by simpa using hne) hmonitors)
  refine .skipIf .empty (hlines.bind fun members hkept => ?_)
  refine .bind_ok (fillAs_object scope ["pool"] "$name" _ _ _) (.ok (.of_entries (filled.object (by decide) hname ?_)))
  exact (hrule.put (filled.fixed (by decide)) (filled.value_fixed (by decide))).putAll
    (List.forall_mem_flatten.mpr hkept)

theorem VirtualServer.legacy_filled {server : VirtualServer}
    (h : ∀ text ∈ (Stamp.virtualServer server).texts, Plain text) :
    (server.legacy scope (document .virtualServer .legacy)).Ensures filled.Key (Output.KeepsTo filled) := by
  simp only [Stamp.texts, List.forall_mem_append, List.forall_mem_cons] at h
  obtain ⟨⟨hname, haddress, -⟩, -⟩ := h
  refine .skipIf .empty (.bind (.lift (profileNames_keepsTo hscope server)) fun names hnames => ?_)
  refine .bind (server.poolKey_keepsTo filled) fun pool hpool => ?_
  refine .bind (.lift (destination_keepsTo (V := filled) scope haddress)) fun destination hdestination => ?_
  refine .bind_ok (fillAs_object scope ["virtual"] "$name" _ _ _) (Output.KeepsTo.of_entries ?_)
  refine filled.object (by decide) hname (putPool_keepsTo hpool (.cons (filled.fixed (by decide)) ?_ ?_))
  · exact filled.value_text hdestination
  · exact .skipIf .nil fun _ => .single (filled.fixed (by decide)) (Vocabulary.filled_raw hnames)

end Kinds

section Settings

variable (scope : Scope)

theorem Node.legacy_filled {node : Node} (h : ∀ text ∈ (Stamp.node node).texts, Plain text) :
    Yields (Output.KeepsTo filled) (node.legacy scope (document .node .legacy)) := by
  simp only [Stamp.texts, List.forall_mem_append, List.forall_mem_cons] at h
  obtain ⟨⟨haddress, hname, -⟩, hmonitors⟩ := h
  refine .skipIf .empty (.bind_ok (fillAs_object scope ["node"] "$address" _ _ _) (.ok (.of_entries ?_)))
  refine filled.object (by decide) haddress (putMonitors_keepsTo hmonitors ?_)
  exact .put (.of_fixed (by decide)) (filled.fixed (by decide)) (filled.value_text hname)

/-- The characters of a service are divided between its protocol and its port. -/
theorem SelfIp.legacyService_filled {service : String} (h : Plain service) :
    Plain (legacyService service).1 ∧ filled.value (legacyService service).2 := by
  have hpart {cs : List Char} (hcs : cs ⊆ service.toList) : Plain (String.ofList cs) := by
    rw [Plain, String.toList_ofList]
    exact fun hmem => h (hcs hmem)
  unfold legacyService
  split
  next colon port hdrop =>
    have hport : port ⊆ service.toList := fun c hc =>
      (List.dropWhile_sublist _).subset (hdrop ▸ List.mem_cons_of_mem colon hc)
    exact ⟨hpart (List.takeWhile_sublist _).subset, filled.value_text (hpart hport)⟩
  next => exact ⟨h, filled.value_fixed (show Value.toggle.Fixed by decide)⟩

theorem SelfIp.legacy_filled {selfIp : SelfIp} (h : ∀ text ∈ (Stamp.selfIp selfIp).texts, Plain text) :
    (selfIp.legacy scope (document .selfIp .legacy)).Ensures filled.Key (Output.KeepsTo filled) := by
  simp only [Stamp.texts, List.forall_mem_append, List.forall_mem_cons] at h
  obtain ⟨⟨-, hallow⟩, -⟩ := h
  have hservices : Entries.KeepsTo filled (selfIp.allow.map legacyService) :=
    List.forall_mem_map.mpr fun service hservice => legacyService_filled (hallow service hservice)
  have hentry : filled.value (legacyAllow selfIp.allow) := by
    unfold legacyAllow
    split
    next service hsingle => exact filled.value_text (hallow service (hsingle ▸ List.mem_cons_self))
    next => exact filled.block (.putAll .nil hservices)
  refine .bind (.key selfIp.vlan .vlan Nat.two_pos) fun vlan hvlan => ?_
  refine .bind_ok (fillAs_object scope ["self"] "$address" _ _ _) (Output.KeepsTo.of_entries ?_)
  refine filled.object (by decide) (filled.word_render _) (.put (.put (.put (.of_fixed (by decide))
    (filled.fixed (by decide)) ?_) (filled.fixed (by decide)) ?_) (filled.fixed (by decide)) hentry)
  · exact filled.value_text (filled.word_render _)
  · exact filled.value_text (hvlan rfl)

theorem Vlan.legacy_filled {vlan : Vlan} (h : ∀ text ∈ (Stamp.vlan vlan).texts, Plain text) :
    Yields (Output.KeepsTo filled) (vlan.legacy scope (document .vlan .legacy)) := by
  simp only [Stamp.texts, List.forall_mem_append, List.forall_mem_cons] at h
  obtain ⟨⟨hname, huntagged⟩, htagged⟩ := h
  have hinterfaces {names : List String} (hnames : ∀ i ∈ names, Plain i) :
      filled.value (.map (legacyStyle scope.context.version) (toggles names)) :=
    .map (within_of_plain (Entries.KeepsTo.toggles (V := filled) hnames)) _
  have htemplate : Entries.KeepsTo filled [("interfaces", .block [])] := .of_fixed (by decide)
  have hentries := htemplate.putOrErase (show Plain "interfaces" by decide) fun _ : vlan.untagged.isEmpty = false =>
    hinterfaces huntagged
  refine .bind_ok (fillAs_object scope ["vlan"] "$name" _ _ _) (.ok (.of_entries (filled.object (by decide) hname ?_)))
  refine .skipIf hentries fun _ => .put (.put hentries (filled.fixed (by decide)) (vlan.tagValue_keepsTo filled)) ?_ ?_
  · exact show Plain "interfaces tagged" by decide
  · exact hinterfaces htagged

theorem Provision.legacy_filled {provision : Provision} (h : ∀ text ∈ (Stamp.provision provision).texts, Plain text) :
    Yields (Output.KeepsTo filled) (provision.legacy scope (document .provision .legacy)) := by
  simp only [Stamp.texts, List.forall_mem_cons] at h
  obtain ⟨hmodule, hlevel, -⟩ := h
  refine .skipIf .empty (.bind_ok (fillAs_object scope ["provision"] "$name" _ _ _) (.ok (.of_entries ?_)))
  refine filled.object (by decide) hmodule (.put (.of_fixed (by decide)) (filled.fixed (by decide)) ?_)
  exact filled.value_text hlevel

theorem defaultsLegacy_filled :
    Yields (Output.KeepsTo filled) (defaultsLegacy scope (document .defaults .legacy)) := by
  have habsent : filled.value .absent := filled.value_fixed (by decide)
  have hservices : Plain legacyDefaultServices := .append (by decide) (by decide)
  refine .of_eq_ok (defaultsLegacy_eq scope) (.of_entries (filled.document_append ?_ ?_))
  · exact filled.object (by decide) (filled.fixed (by decide)) (.single (show Plain "config name" by decide) habsent)
  · exact filled.object (by decide) (filled.fixed (by decide)) (.single hservices habsent)

theorem Platform.legacy_filled {platform : Platform} (h : ∀ text ∈ (Stamp.platform platform).texts, Plain text) :
    Yields (Output.KeepsTo filled) (platform.legacy scope (document .platform .legacy)) := by
  obtain ⟨hhostname, -⟩ := List.forall_mem_cons.mp h
  have hwizard : Fixed (enable platform.wizard) := by cases platform.wizard <;> decide
  have hrender (address : Address) : filled.value (.text address.render) := filled.value_text (filled.word_render _)
  refine .of_eq_ok (platform.legacy_eq scope) (.of_entries (filled.document_append
    (filled.document_under (by decide) (filled.document_append ?_ ?_)) ?_))
  · exact filled.object (by decide) (filled.word_render _) (.single (filled.fixed (by decide)) (hrender _))
  · exact filled.object (by decide) (filled.fixed (by decide)) (.single (filled.fixed (by decide)) (hrender _))
  · exact filled.object (by decide) (filled.fixed (by decide)) (.cons (filled.fixed (by decide))
      (filled.value_text hhostname) (.single (show Plain "gui setup" by decide) (filled.value_fixedText hwizard)))

theorem Dns.legacy_filled {dns : Dns} (h : ∀ text ∈ (Stamp.dns dns).texts, Plain text) :
    Yields (Output.KeepsTo filled) (dns.legacy scope (document .dns .legacy)) := by
  obtain ⟨hservers, hsuffixes⟩ := List.forall_mem_append.mp h
  have hsearch : ∀ key ∈ (if dns.suffixes.isEmpty then [] else "search" :: dns.suffixes), Plain key := by
    cases dns.suffixes.isEmpty
    · exact List.forall_mem_cons.mpr ⟨by decide, hsuffixes⟩
    · exact List.forall_mem_nil _
  have hkeys := List.forall_mem_cons.mpr ⟨show Plain "nameservers" by decide, hservers⟩
  refine .of_eq_ok (dns.legacy_eq scope) (.of_entries (filled.object (by decide) (filled.fixed (by decide)) ?_))
  exact .toggles (List.forall_mem_append.mpr ⟨hkeys, hsearch⟩)

theorem Ntp.legacy_filled {ntp : Ntp} (h : ∀ text ∈ (Stamp.ntp ntp).texts, Plain text) :
    Yields (Output.KeepsTo filled) (ntp.legacy scope (document .ntp .legacy)) := by
  obtain ⟨hservers, htimezone⟩ := List.forall_mem_append.mp h
  refine .of_eq_ok (ntp.legacy_eq scope) (.of_entries (filled.object (by decide) (filled.fixed (by decide)) ?_))
  refine putText_keepsTo (filled.fixed (by decide)) htimezone (.skipIf .nil fun _ => ?_)
  exact .single (filled.fixed (by decide)) (Vocabulary.filled_raw hservers)

theorem User.legacy_filled {user : User} (h : ∀ text ∈ (Stamp.user user).texts, Plain text) :
    Yields (Output.KeepsTo filled) (user.legacy scope (document .user .legacy)) := by
  have hname : Plain user.name := h user.name List.mem_cons_self
  refine .bind_ok (fillAs_object scope ["user"] "$name" _ _ _) (.ok (.of_entries ?_))
  refine filled.object (by decide) hname (.put (.put (.put (.of_fixed (by decide)) ?_ (filled.value_hash user))
    (filled.fixed (by decide)) ?_) (filled.fixed (by decide)) (user.description_keepsTo filled))
  · exact show Plain "password crypt" by decide
  · exact .raw (not_placeholder_of_blank (by simp))

end Settings

namespace Stamp

theorem legacyRecipe_filled {stamp : Stamp} (h : ∀ text ∈ stamp.texts, Plain text) (hraw : stamp.kind ≠ .raw)
    {scope : Scope} (hscope : scope.KeepsTo filled) :
    (stamp.legacyRecipe scope (document stamp.kind .legacy)).Ensures filled.Key (Output.KeepsTo filled) := by
  cases stamp with
  | raw object => exact absurd rfl hraw
  | partition settings => exact .ofExcept (settings.legacy_filled hscope h)
  | node node => exact .ofExcept (node.legacy_filled scope h)
  | pool pool => exact .ofExcept (pool.legacy_filled hscope h)
  | virtualServer server => exact server.legacy_filled hscope h
  | selfIp selfIp => exact selfIp.legacy_filled scope h
  | vlan vlan => exact .ofExcept (vlan.legacy_filled scope h)
  | provision provision => exact .ofExcept (provision.legacy_filled scope h)
  | defaults => exact .ofExcept (defaultsLegacy_filled scope)
  | platform platform => exact .ofExcept (platform.legacy_filled scope h)
  | dns dns => exact .ofExcept (dns.legacy_filled scope h)
  | ntp ntp => exact .ofExcept (ntp.legacy_filled scope h)
  | user user => exact .ofExcept (user.legacy_filled scope h)
  | folder | profile _ | trunk _ | routeDomain _ | mail _ | addressList _ | portList _ | ruleList _ | firewall _ =>
    exact Output.KeepsTo.empty

/-- Whatever keys without dollar signs its questions are answered by, a recipe for texts without them leaves no placeholder. -/
theorem recipe_filled {stamp : Stamp} (h : ∀ text ∈ stamp.texts, Plain text) (hraw : stamp.kind ≠ .raw)
    {scope : Scope} (hscope : scope.KeepsTo filled) (dialect : Dialect) :
    (stamp.recipe dialect scope (document stamp.kind dialect)).Ensures filled.Key (Output.KeepsTo filled) := by
  cases dialect with
  | modern => exact modernRecipe_keepsTo (V := filled) h hraw hscope
  | legacy => exact legacyRecipe_filled h hraw hscope

/-- Of the kinds that others refer to, a stamp is referred to by one of its texts, alone or behind the path of its folder. -/
theorem recipe_key {stamp : Stamp} (h : stamp.kind.isReferredTo = true) (dialect : Dialect) (scope : Scope) :
    (stamp.recipe dialect scope (document stamp.kind dialect)).Ensures (fun _ _ => True) fun output =>
      ∀ key, output.key = some key → ∃ name ∈ stamp.texts, key = name ∨ key = scope.path name := by
  have hname {output : Output} {name : String} (hkey : output.key = some name) (hmem : name ∈ stamp.texts) :
      ∀ key, output.key = some key → ∃ name ∈ stamp.texts, key = name ∨ key = scope.path name := by
    intro key hkeyed
    exact ⟨name, hmem, .inl (Option.some.inj (hkeyed.symm.trans hkey))⟩
  cases dialect with
  | modern =>
    refine (modernRecipe_key h scope).mono fun output hkeys key hkey => ?_
    obtain ⟨name, hmem, hpath⟩ := hkeys key hkey
    exact ⟨name, hmem, .inr hpath⟩
  | legacy =>
    cases stamp with
    | node node =>
      exact .ofExcept (.skipIf nofun ((Yields.trivial _).bind fun doc _ => .ok (hname rfl (by simp [texts]))))
    | pool pool =>
      refine .ofExcept (.skipIf nofun ((Yields.trivial _).bind fun members _ => ?_))
      exact (Yields.trivial _).bind fun doc _ => .ok (hname rfl (by simp [texts]))
    | vlan vlan => exact .ofExcept ((Yields.trivial _).bind fun doc _ => .ok (hname rfl (by simp [texts])))
    | addressList | portList | ruleList => exact nofun
    | _ => cases h

end Stamp

namespace Tree

/-- No name of a folder and no text of a stamp has a dollar sign. -/
structure IsPlain (tree : Tree) : Prop where
  folders : ∀ id < tree.size, Plain (tree.folder id).name
  stamps : ∀ slot ∈ tree.slots, ∀ text ∈ slot.stamp.texts, Plain text

instance (tree : Tree) : Decidable tree.IsPlain :=
  decidable_of_iff ((∀ id < tree.size, Plain (tree.folder id).name) ∧
      ∀ slot ∈ tree.slots, ∀ text ∈ slot.stamp.texts, Plain text)
    ⟨fun h => ⟨h.1, h.2⟩, fun h => ⟨h.folders, h.stamps⟩⟩

namespace IsPlain

variable {tree : Tree} (h : tree.IsPlain)

include h

theorem name (id : FolderId) : Plain (tree.folder id).name := by
  by_cases hid : id < tree.size
  · exact h.folders id hid
  · rw [folder, List.getElem?_eq_none (Nat.le_of_not_lt hid)]
    decide

theorem path (id : FolderId) : Plain (tree.path id) :=
  tree.path_induction Plain (by decide) (fun id _ _ hbefore => filled.word_path hbefore (h.name id)) id

theorem scope (folder : FolderId) (kind : Kind) : (tree.scope folder kind).KeepsTo filled where
  folderPath := h.path folder
  partitionName := h.name (tree.partitionOf folder)
  stamps := by
    intro id stamp hstamp
    obtain ⟨slot, hslot, rfl⟩ := Option.map_eq_some_iff.mp hstamp
    exact h.stamps slot (List.mem_of_getElem? hslot)
  hookPaths := by
    intro id path hpath
    obtain ⟨folder, -, rfl⟩ := Option.map_eq_some_iff.mp hpath
    exact h.path folder

theorem answer (asker : Kind) (id : StampId) (kind : Kind) : Yields (filled.Key kind) (tree.answer asker id kind) := by
  intro key hkey hreferred
  obtain ⟨slot, compiled, hslot, rfl, hresult, hcompiled⟩ := exists_result_of_answer hkey
  obtain ⟨folder, output, -, hrun, rfl⟩ := exists_output_of_result hresult
  have hkeys := Stamp.recipe_key hreferred (slot.stamp.dialect tree.context.version) (tree.scope folder slot.stamp.kind)
  obtain ⟨name, hmem, hname⟩ := hkeys.run (fun _ _ _ => .trivial _) output hrun key hcompiled
  have hplain := h.stamps slot (List.mem_of_getElem? hslot) name hmem
  rcases hname with rfl | rfl
  · exact hplain
  · exact filled.word_path (h.path folder) hplain

end IsPlain

/-- When no name of a folder and no text of a stamp has a dollar sign, what a stamp is compiled to has no placeholder in it, wherever it is hooked and whatever it is compiled for. Passwords may be any texts. -/
theorem compile_filled {tree : Tree} (history : tree.History) (hplain : tree.IsPlain) {id : StampId} {stamp : Stamp}
    (hstamp : tree.stamp? id = some stamp) (hraw : stamp.kind ≠ .raw) {compiled : Compiled}
    (h : (tree.compile id history.ledger).1 = .ok compiled) {doc : Document} (hdoc : compiled.value = some doc) :
    ∀ placeholder ∈ placeholders, placeholder ∉ doc.strings := by
  obtain ⟨folder, output, -, hrun, rfl⟩ := exists_run_of_compile history hstamp h
  obtain ⟨slot, hslot, rfl⟩ := Option.map_eq_some_iff.mp hstamp
  have htexts := hplain.stamps slot (List.mem_of_getElem? hslot)
  have hrecipe := Stamp.recipe_filled htexts hraw (hplain.scope folder slot.stamp.kind)
    (slot.stamp.dialect tree.context.version)
  have hfilled := hrecipe.run (fun target kind _ => hplain.answer slot.stamp.kind target kind) output hrun
  exact fun placeholder hplaceholder hmem => hfilled doc hdoc placeholder hmem hplaceholder

/-- A virtual server with its pool and node, whose template has two placeholders, and a user whose password is one. -/
def serverAndGuest : List Operation := [
  .hookStamp 1 (.node { address := "10.0.0.1" }),
  .hookStamp 1 (.pool { name := "web", members := [{ node := 1, port := 80 }] }),
  .hookStamp 1 (.virtualServer { name := "vs", address := "10.0.0.9", port := 443, pool := some 2 }),
  .hookStamp 1 (.user { name := "guest", password := "$name" })]

theorem compile_filled_serverAndGuest :
    let context : Context := { version := .release .bigip 11 5 0 }
    let history := History.ofSession context (some 0) serverAndGuest
    let tree := (Session.runFrom context (some 0) serverAndGuest).tree
    tree.IsPlain ∧ ∀ id ∈ [3, 4], ∃ compiled doc, (tree.compile id history.ledger).1 = .ok compiled ∧
      compiled.value = some doc ∧ ∀ placeholder ∈ placeholders, placeholder ∉ doc.strings := by
  intro context history tree
  have hplain : tree.IsPlain := by decide +kernel
  have hwritten : ∀ id ∈ [3, 4], (tree.stamp? id).map (fun stamp => decide (stamp.kind = .raw)) = some false ∧
      (tree.compile id history.ledger).1.toOption.map (fun compiled => compiled.value.isSome) = some true := by
    decide +kernel
  refine ⟨hplain, fun id hid => ?_⟩
  obtain ⟨hkind, hcompiled⟩ := hwritten id hid
  obtain ⟨stamp, hstamp, hraw⟩ := Option.map_eq_some_iff.mp hkind
  obtain ⟨compiled, hcompile, hvalue⟩ := exists_eq_ok_of_toOption hcompiled
  obtain ⟨doc, hdoc⟩ := Option.isSome_iff_exists.mp hvalue
  exact ⟨compiled, doc, hcompile, hdoc,
    compile_filled history hplain hstamp (of_decide_eq_false hraw) hcompile hdoc⟩

end Tree

end ApplianceConfig
