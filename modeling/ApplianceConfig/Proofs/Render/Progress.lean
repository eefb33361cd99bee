import ApplianceConfig.Proofs.Compile.Faults
import ApplianceConfig.Proofs.Compile.Modern
import ApplianceConfig.Proofs.Render.Decomposition

/-!
# Well-typed trees can be rendered

In a well-typed tree each reference leads to a hooked stamp of the kind that it is made for, and each address is one, so nothing is wrong with any stamp. What could be missing then are keys only. The flat dialect has them for the few kinds that its stamps ask for, and the modern one for all kinds from the release on that brings firewall objects.
-/

namespace ApplianceConfig

/-! ### Keys of each release -/

/-- BIG-IP changes its dialect with release 11.0.0. -/
theorem Dialect.ofVersion_of_bigip {version : Version} (h : version.product = .bigip) :
    ofVersion version = if version.atLeast (.release .bigip 11 0 0) then .modern else .legacy := by
  have hem : version.atLeast (.release .em 2 0 0) = false := by
    rw [← Bool.not_eq_true]
    intro hatLeast
    have hproduct : version.product = .em := Version.product_eq_of_atLeast hatLeast
    rw [h] at hproduct
    cases hproduct
  simp [ofVersion, h, hem]

/-- Markers of BIG-IP change with all other objects. -/
theorem Stamp.dialect_of_bigip {version : Version} (h : version.product = .bigip) (stamp : Stamp) :
    stamp.dialect version = Dialect.ofVersion version := by
  have hmarker : markerDialect version = Dialect.ofVersion version := by
    simp [markerDialect, Dialect.ofVersion_of_bigip h, h]
  cases stamp <;> first | rfl | exact hmarker

/-- BIG-IP has keys for all that its stamps ask for, but for the first modern releases. -/
theorem Kind.isKeyed_of_isAsked {context : Context} (hproduct : context.version.product = .bigip)
    (hrelease : context.atLeast .bigip 11 0 0 = false ∨ context.atLeast .bigip 11 3 0 = true)
    {kind : Kind} (h : kind.isAsked (Dialect.ofVersion context.version) = true) :
    kind.isKeyed context (Dialect.ofVersion context.version) = true := by
  rw [Dialect.ofVersion_of_bigip hproduct] at h ⊢
  by_cases hmodern : context.version.atLeast (.release .bigip 11 0 0) = true
  · have hfirewall := hrelease.resolve_left (by simp [Context.atLeast, hmodern])
    rw [if_pos hmodern] at h ⊢
    revert h
    cases kind <;> simp [isAsked, isKeyed, hproduct, hfirewall]
  · rw [if_neg hmodern] at h ⊢
    revert h
    cases kind <;> simp [isAsked, isKeyed, hproduct]

namespace Tree

/-- Each reference leads to a hooked stamp of its kind, and each text that has to be an address is one. -/
structure WellTyped (tree : Tree) : Prop where
  typed : ∀ slot ∈ tree.slots, ∀ use ∈ slot.stamp.uses,
    (tree.stamp? use.1).map Stamp.kind = some use.2 ∧ (tree.stampFolder? use.1).isSome = true
  addressed : ∀ slot ∈ tree.slots, ∀ text ∈ slot.stamp.addresses, (Address.parse? text).isSome = true

instance (tree : Tree) : Decidable tree.WellTyped :=
  decidable_of_iff (_ ∧ _) ⟨fun ⟨typed, addressed⟩ => ⟨typed, addressed⟩, fun h => ⟨h.typed, h.addressed⟩⟩

variable {tree : Tree}

theorem WellTyped.not_fault (h : tree.WellTyped) {slot : Slot} (hslot : slot ∈ tree.slots)
    {folder : FolderId} {e : CompileError} : ¬ (tree.scope folder slot.stamp.kind).Fault slot.stamp e := by
  intro hfault
  cases hfault with
  | missing huse hmissing =>
    obtain ⟨hkind, -⟩ := h.typed slot hslot _ huse
    rw [show tree.stamp? _ = none from hmissing] at hkind
    cases hkind
  | unhooked huse htarget hpath =>
    obtain ⟨-, hfolder⟩ := h.typed slot hslot _ huse
    rw [Option.map_eq_none_iff.mp hpath] at hfolder
    cases hfolder
  | mistyped huse htarget hne =>
    obtain ⟨hkind, -⟩ := h.typed slot hslot _ huse
    rw [show tree.stamp? _ = some _ from htarget] at hkind
    exact hne (Option.some.inj hkind)
  | address htext hparse =>
    have hsome := h.addressed slot hslot _ htext
    rw [hparse] at hsome
    cases hsome
  | nodeAddress huse hnode hparse =>
    obtain ⟨node, hmem, hstamp⟩ := Option.map_eq_some_iff.mp hnode
    have hsome := h.addressed node (List.mem_of_getElem? hmem)
    rw [hstamp] at hsome
    have hsome := hsome _ (List.mem_singleton_self _)
    rw [hparse] at hsome
    cases hsome

/-- On the releases of BIG-IP before modern objects and from firewall objects on, a well-typed tree can be rendered from each folder, whatever has been compiled before and whichever stamps are wanted. -/
theorem render_succeeds {tree : Tree} (history : tree.History)
    (hproduct : tree.context.version.product = .bigip)
    (hrelease : tree.context.atLeast .bigip 11 0 0 = false ∨ tree.context.atLeast .bigip 11 3 0 = true)
    (htyped : tree.WellTyped) (start : FolderId) (options : RenderOptions) (wanted : Stamp → Bool) :
    ∃ text, tree.renderAfter history start options wanted = .ok text := by
  have hcovered : tree.Covered fun _ => False := by
    refine ⟨fun slot hslot folder e => htyped.not_fault hslot, fun asker target hasked hunkeyed => ?_,
      fun _ _ h => h⟩
    rw [Stamp.dialect_of_bigip hproduct] at hasked hunkeyed
    rw [Kind.isKeyed_of_isAsked hproduct hrelease hasked] at hunkeyed
    cases hunkeyed
  have hsettles := hcovered.rendering history.wellFormed.toFiled start options wanted
  have hgives := history.eq_of_gives (Compile.gives_render tree start options wanted)
  rw [renderAfter, hgives]
  cases hrendering : tree.rendering start options wanted with
  | ok text => exact ⟨text, rfl⟩
  | error e =>
    rw [hrendering] at hsettles
    exact hsettles.elim

/-- A virtual server and a self IP with all that they can refer to. -/
def serverAndSelfIp : List Operation := [
  .hookStamp 1 (.node { address := "10.0.0.1" }),
  .hookStamp 1 (.node { address := "2001:db8::1", name := "web2" }),
  .hookStamp 1 (.pool { name := "web", members := [{ node := 1, port := 80 }, { node := 2, port := 80 }] }),
  .hookStamp 1 (.profile { name := "tcp" }),
  .hookStamp 1 (.vlan { name := "internal", untagged := ["1.1"] }),
  .hookStamp 1 (.addressList { name := "hosts", addresses := ["10.1.0.0/16"] }),
  .hookStamp 1 (.ruleList {
    name := "rules", rules := [{ name := "r", source := { addressLists := [6], vlans := [5] } }] }),
  .hookStamp 1 (.routeDomain { id := 7, vlans := [5], rules := [.list 7] }),
  .hookStamp 1 (.virtualServer {
    name := "vs", address := "10.0.0.9", port := 443, pool := some 3, profiles := [4], rules := [.list 7]
    routeDomain := some 8 }),
  .hookStamp 1 (.selfIp {
    address := .host (.v4 0x0a000002), vlan := 5, rules := [.list 7], routeDomain := some 8 })]

theorem render_succeeds_serverAndSelfIp :
    let context : Context := { version := .release .bigip 11 3 0, features := [("afm", true)] }
    let history := History.ofSession context (some 0) serverAndSelfIp
    let tree := (Session.runFrom context (some 0) serverAndSelfIp).tree
    tree.WellTyped ∧ ∃ text, tree.renderAfter history root {} (fun _ => true) = .ok text := by
  intro context history tree
  have htyped : tree.WellTyped := by decide +kernel
  refine ⟨htyped, render_succeeds history ?_ (.inr ?_) htyped root {} fun _ => true⟩
  · decide +kernel
  · decide +kernel

end Tree

end ApplianceConfig
