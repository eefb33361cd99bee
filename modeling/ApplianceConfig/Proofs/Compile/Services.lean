import ApplianceConfig.Proofs.Compile.Runs
import Mathlib.Data.List.TakeWhile

/-!
# Allowed services

In the flat dialect a service of a self IP is written under the text before its first colon, with what stands behind the colon as its value. Services stand in a mapping, so of those that have this text in common only the last is written. All of them are written exactly if no two have it in common.
-/

namespace ApplianceConfig

namespace SelfIp

/-! ### Services -/

/-- How an allowed service is written: a protocol with its port, or a bare name. -/
inductive ServiceEntry : String → String × Value → Prop
  | port {protocol port : String} (hprotocol : ':' ∉ protocol.toList) :
    ServiceEntry (protocol ++ ":" ++ port) (protocol, .text port)
  | bare {name : String} (hname : ':' ∉ name.toList) : ServiceEntry name (name, .toggle)

/-- What a service is written under. -/
def serviceName (service : String) : String := String.ofList (service.toList.takeWhile (· ≠ ':'))

theorem exists_serviceEntry (service : String) : ∃ e, ServiceEntry service e := by
  by_cases hcolon : ':' ∈ service.toList
  · obtain ⟨protocol, port, hsplit, hprotocol⟩ := List.eq_append_cons_of_mem hcolon
    have hservice : service = String.ofList protocol ++ ":" ++ String.ofList port := by
      rw [← String.toList_inj, hsplit]
      simp
    rw [hservice]
    exact ⟨_, .port (by rwa [String.toList_ofList])⟩
  · exact ⟨_, .bare hcolon⟩

namespace ServiceEntry

variable {service other : String} {e : String × Value}

theorem take_drop (h : ServiceEntry service e) :
    service.toList.takeWhile (· ≠ ':') = e.1.toList ∧
      service.toList.dropWhile (· ≠ ':') = match e.2 with
        | .text behind => ':' :: behind.toList
        | _ => [] := by
  have hall {cs : List Char} (h : ':' ∉ cs) : ∀ c ∈ cs, decide (c ≠ ':') = true :=
    fun c hc => decide_eq_true fun heq => h (heq ▸ hc)
  cases h with
  | @port protocol port hprotocol =>
    have hchars : (protocol ++ ":" ++ port).toList = protocol.toList ++ ':' :: port.toList := by simp
    rw [hchars, List.takeWhile_append_of_pos (hall hprotocol), List.dropWhile_append_of_pos (hall hprotocol)]
    simp
  | bare hname => exact ⟨List.takeWhile_eq_self_iff.mpr (hall hname), List.dropWhile_eq_nil_iff.mpr (hall hname)⟩

theorem legacyService_eq (h : ServiceEntry service e) : legacyService service = e := by
  obtain ⟨htake, hdrop⟩ := h.take_drop
  unfold legacyService
  cases h with
  | port => simp only [hdrop, htake, String.ofList_toList]
  | bare => simp only [hdrop]

theorem serviceName_eq (h : ServiceEntry service e) : serviceName service = e.1 := by
  rw [serviceName, h.take_drop.1, String.ofList_toList]

/-- The entry of a service tells the service. -/
theorem eq_of_eq (h : ServiceEntry service e) (hother : ServiceEntry other e) : service = other := by
  cases h with
  | port => cases hother; rfl
  | bare => cases hother; rfl

end ServiceEntry

theorem serviceEntry_iff {service : String} {e : String × Value} :
    ServiceEntry service e ↔ legacyService service = e := by
  refine ⟨ServiceEntry.legacyService_eq, ?_⟩
  rintro rfl
  obtain ⟨e, he⟩ := exists_serviceEntry service
  rwa [he.legacyService_eq]

theorem legacyService_injective : Function.Injective legacyService := fun _ _ h =>
  (serviceEntry_iff.mpr h).eq_of_eq (serviceEntry_iff.mpr rfl)

theorem fst_legacyService (service : String) : (legacyService service).1 = serviceName service :=
  (serviceEntry_iff.mpr rfl).serviceName_eq.symm

theorem keys_legacyServices (services : List String) :
    Assoc.keys (services.map legacyService) = services.map serviceName := by
  rw [Assoc.keys, List.map_map]
  exact List.map_congr_left fun service _ => fst_legacyService service

theorem legacyAllow_eq {allow : List String} (h : 2 ≤ allow.length) :
    legacyAllow allow = .block (Assoc.putAll [] (allow.map legacyService)) := by
  match allow with
  | _ :: _ :: _ => rfl

/-! ### What is left of them -/

/-- What a mapping of allowed services holds of a list of them: the last one of each name, and so all of them exactly if their names differ, in order. -/
structure AllowsLast (services : List String) (allowed : Entries) : Prop where
  nodup : (Assoc.keys allowed).Nodup
  mem_iff : ∀ e, e ∈ allowed ↔ ∃ before service after, services = before ++ service :: after ∧
    ServiceEntry service e ∧ ∀ later ∈ after, serviceName later ≠ serviceName service
  all_iff : (∀ service ∈ services, ∃ e ∈ allowed, ServiceEntry service e) ↔ (services.map serviceName).Nodup
  in_order : (services.map serviceName).Nodup → List.Forall₂ ServiceEntry services allowed

theorem allowsLast {services : List String} (hdistinct : services.Nodup) :
    AllowsLast services (Assoc.putAll [] (services.map legacyService)) where
  nodup := Assoc.nodup_keys_putAll _
  mem_iff := by
    intro e
    rw [Assoc.mem_putAll_iff]
    constructor
    · rintro ⟨before, after, hsplit, hlast⟩
      obtain ⟨before, rest, rfl, rfl, hrest⟩ := List.map_eq_append_iff.mp hsplit
      obtain ⟨service, after, rfl, rfl, rfl⟩ := List.map_eq_cons_iff.mp hrest
      rw [keys_legacyServices, fst_legacyService, List.mem_map, not_exists] at hlast
      refine ⟨before, service, after, rfl, serviceEntry_iff.mpr rfl, fun later hlater hname => ?_⟩
      exact hlast later ⟨hlater, hname⟩
    · rintro ⟨before, service, after, rfl, hentry, hlast⟩
      obtain rfl := serviceEntry_iff.mp hentry
      refine ⟨before.map legacyService, after.map legacyService, by simp, ?_⟩
      rw [keys_legacyServices, fst_legacyService, List.mem_map, not_exists]
      exact fun later hlater => hlast later hlater.1 hlater.2
  all_iff := by
    rw [← keys_legacyServices, ← Assoc.forall_mem_putAll_iff (hdistinct.map legacyService_injective),
      List.forall_mem_map]
    refine forall₂_congr fun service _ => ?_
    simp only [serviceEntry_iff, exists_eq_right']
  in_order := by
    intro hnames
    rw [← keys_legacyServices] at hnames
    rw [Assoc.putAll_nil_of_nodup hnames, List.forall₂_map_right_iff, List.forall₂_same]
    exact fun service _ => serviceEntry_iff.mpr rfl

/-! ### Compiled self IPs -/

theorem exists_entries_of_legacy {selfIp : SelfIp} {scope : Scope}
    {answer : (id : StampId) → (kind : Kind) → kind.rank < 2 → Except CompileError String} {output : Output}
    (h : (selfIp.legacy scope (Template.document .selfIp .legacy)).run .error answer = .ok output) :
    ∃ entries, output = ⟨selfIp.address.address.render, some ⟨.braced, object ["self"] selfIp.address.address.render
      (Assoc.put entries "allow" (legacyAllow selfIp.allow))⟩⟩ := by
  unfold legacy at h
  rw [Recipe.run_bind] at h
  obtain ⟨vlan, -, h⟩ := bind_eq_ok h
  rw [Recipe.run_bind, Recipe.run_lift] at h
  obtain ⟨template, hfill, h⟩ := bind_eq_ok h
  cases (Scope.fillAs_object scope ["self"] "$address" _ _ _).symm.trans hfill
  cases h
  exact ⟨_, rfl⟩

end SelfIp

namespace Tree

/-- A self IP that is compiled in the flat dialect allows the last service of each name. -/
theorem services_written {tree : Tree} (history : tree.History) {id : StampId} {selfIp : SelfIp}
    (hself : tree.stamp? id = some (.selfIp selfIp)) {compiled : Compiled}
    (hcompile : (tree.compile id history.ledger).1 = .ok compiled) (hdialect : compiled.dialect = .legacy)
    (hmany : 2 ≤ selfIp.allow.length) (hdistinct : selfIp.allow.Nodup) :
    ∃ doc allowed, compiled.value = some doc ∧
      doc.block? ["self", selfIp.address.address.render, "allow"] = some allowed ∧
      SelfIp.AllowsLast selfIp.allow allowed := by
  obtain ⟨folder, output, -, hrun, rfl⟩ := exists_run_of_compile history hself hcompile
  simp only at hdialect
  rw [hdialect] at hrun
  obtain ⟨entries, rfl⟩ := SelfIp.exists_entries_of_legacy hrun
  refine ⟨_, _, rfl, ?_, SelfIp.allowsLast hdistinct⟩
  rw [SelfIp.legacyAllow_eq hmany]
  exact (Entries.block?_object_append ["self"] _ _ ["allow"]).trans (Entries.block?_put ..)

/-- A self IP with two services of one protocol. -/
def twoPorts : List Operation := [
  .hookStamp 0 (.vlan { name := "internal" }),
  .hookStamp 0 (.selfIp { address := ⟨.v4 0x0A020101, 16, by decide⟩, vlan := 0, allow := ["tcp:22", "tcp:443"] })]

theorem services_written_twoPorts :
    let context : Context := { version := .release .bigip 10 2 0 }
    let tree := (Session.runFrom context none twoPorts).tree
    let history := History.ofSession context none twoPorts
    ∃ compiled selfIp doc allowed, (tree.compile 1 history.ledger).1 = .ok compiled ∧
      tree.stamp? 1 = some (.selfIp selfIp) ∧ compiled.value = some doc ∧
      doc.block? ["self", selfIp.address.address.render, "allow"] = some allowed ∧
      SelfIp.AllowsLast selfIp.allow allowed := by
  intro context tree history
  have hdialect : (tree.compile 1 history.ledger).1.toOption.map Compiled.dialect = some .legacy := by decide +kernel
  cases hcompile : (tree.compile 1 history.ledger).1 with
  | error e =>
    rw [hcompile] at hdialect
    cases hdialect
  | ok compiled =>
    rw [hcompile] at hdialect
    have hself : tree.stamp? 1 = some (.selfIp _) := rfl
    obtain ⟨doc, allowed, hdoc, hblock, hlast⟩ :=
      services_written history hself hcompile (Option.some.inj hdialect) (by decide) (by decide)
    exact ⟨compiled, _, doc, allowed, rfl, rfl, hdoc, hblock, hlast⟩

/-- The first of the two ports is closed. -/
theorem services_lost :
    let context : Context := { version := .release .bigip 10 2 0 }
    let tree := (Session.runFrom context none twoPorts).tree
    let history := History.ofSession context none twoPorts
    ((tree.compile 1 history.ledger).1.toOption.bind Compiled.value).map (Document.encode · 4) =
      some "self 10.2.1.1 \x7b\n    netmask 255.255.0.0\n    vlan internal\n    allow \x7b\n        tcp 443\n    \x7d\n\x7d\n" := by
  decide +kernel

end Tree

end ApplianceConfig
