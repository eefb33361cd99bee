import ApplianceConfig.Compile.Run
import ApplianceConfig.Proofs.Compile.Failure

/-!
# Filled templates

What the templates become that hold more than one object, or whose object has no name to fill in.
-/

namespace ApplianceConfig

open Template

namespace Partition

/-- The partition itself, the folder that it is, and the setting that makes it the current one. -/
def objects (name folderPath description : String) : Entries :=
  object ["auth", "partition"] name [("description", .text description)] ++
    object ["sys", "folder"] folderPath [
      ("inherited-devicegroup", .bool true), ("inherited-traffic-group", .bool true),
      ("traffic-group", .text "/Common/traffic-group-1")] ++
    object ["cli"] "admin-partitions" [("update-partition", .text name)]

theorem modern_eq (settings : Partition) (scope : Scope) :
    settings.modern scope (document .partition .modern) = .ok {
      key := scope.partitionName
      value := some ⟨.braced, objects scope.partitionName scope.folderPath
        (settings.describe scope.partitionIndex)⟩ } := by
  simp [modern, document, modernEntries, folderMarker, objects, object, Value.block, Scope.fillAs,
    Scope.fill, Document.renameAt?, Entries.renameAt?, Assoc.rename?_single, Assoc.put, Assoc.alter,
    bind, Except.bind, pure, Except.pure]

theorem legacy_eq (settings : Partition) (scope : Scope) :
    settings.legacy scope (document .partition .legacy) = .ok {
      key := scope.partitionName
      value := some ⟨.braced,
        object ["partition"] scope.partitionName
            [("description", .text (settings.describe scope.partitionIndex))] ++
          [("shell", .map .chained [("write", .map .chained [("partition", .text scope.partitionName)])])]⟩ } := by
  simp [legacy, document, legacyEntries, object, Value.block, Scope.fillAs, Scope.fill, Document.renameAt?,
    Entries.renameAt?, Assoc.rename?_single, Assoc.put, Assoc.alter, bind, Except.bind, pure, Except.pure]

end Partition

namespace VirtualServer

/-- The server and its address stand under one word. -/
def objects (key : String) (server : Entries) (address : String) (virtualAddress : Entries) : Entries :=
  [("ltm", .map .chained (
    object ["virtual"] key server ++ object ["virtual-address"] address virtualAddress))]

/-- The server of the template. -/
def serverTemplate : Entries := [
  ("destination", .absent), ("profiles", .block []), ("fw-rules", .block []),
  ("snat", .text "automap"), ("ip-protocol", .text "tcp"), ("pool", .absent)]

theorem fillAs_server (scope : Scope) (key : String) (f : Entries → Entries) :
    scope.fillAs (document .virtualServer .modern) ["ltm", "virtual", "$key"] key f =
      .ok { entries := objects key (f serverTemplate) "$key_va" [] } := by
  simp [document, modernEntries, objects, serverTemplate, object, Value.block, Scope.fillAs,
    Document.renameAt?, Entries.renameAt?, Assoc.rename?_single]

theorem fillAs_address (scope : Scope) (key address : String) (server : Entries) (f : Entries → Entries) :
    scope.fillAs { entries := objects key server "$key_va" [] } ["ltm", "virtual-address", "$key_va"] address f =
      .ok { entries := objects key server address (f []) } := by
  simp [objects, object, Value.block, Scope.fillAs, Document.renameAt?, Entries.renameAt?, Assoc.rename?_single]

end VirtualServer

namespace Platform

/-- The management address and its route, and the settings of the device. -/
def objects (platform : Platform) : Entries :=
  [("sys", .map .chained (
    object ["management-ip"] (platform.address.address.render ++ "/" ++ platform.address.netmask.render) [] ++
    object ["management-route"] "default" [("gateway", .text platform.gateway.render)] ++
    object ["db"] "dhclient.mgmt" [("value", .text (if platform.dhcp then "enable" else "disable"))] ++
    object [] "global-settings" [
      ("mgmt-dhcp", .text (enabled platform.dhcp)), ("gui-setup", .text (enabled platform.wizard)),
      ("hostname", .text platform.hostname)]))]

theorem modern_eq (platform : Platform) (scope : Scope) :
    platform.modern scope (document .platform .modern) =
      .ok { value := some ⟨.braced, platform.objects⟩ } := by
  cases hdhcp : platform.dhcp <;>
    simp [modern, hdhcp, document, modernEntries, objects, object, Value.block, Scope.fillAs, Scope.fill,
      Document.renameAt?, Entries.renameAt?, Assoc.rename?_single, Assoc.put, Assoc.alter,
      bind, Except.bind, pure, Except.pure]

theorem legacy_eq (platform : Platform) (scope : Scope) :
    platform.legacy scope (document .platform .legacy) = .ok { value := some ⟨.braced,
      [("mgmt", .map .chained (
        object [] platform.address.address.render [("netmask", .text platform.address.netmask.render)] ++
        object ["route", "default"] "inet" [("gateway", .text platform.gateway.render)]))] ++
      object [] "system" [
        ("hostname", .text platform.hostname), ("gui setup", .text (enable platform.wizard))]⟩ } := by
  simp [legacy, document, legacyEntries, object, Value.block, Scope.fillAs, Scope.fill, Document.renameAt?,
    Entries.renameAt?, rename?_ip, render_ne_route, Assoc.put, Assoc.alter, bind, Except.bind, pure, Except.pure]

end Platform

theorem Dns.modern_eq (dns : Dns) (scope : Scope) :
    dns.modern scope (document .dns .modern) = .ok { value := some ⟨.braced,
      object ["sys"] "dns" [("name-servers", .set dns.servers), ("search", .set dns.suffixes)]⟩ } := rfl

theorem Dns.legacy_eq (dns : Dns) (scope : Scope) :
    dns.legacy scope (document .dns .legacy) = .ok { value := some ⟨.braced,
      object [] "dns" (toggles ("nameservers" :: dns.servers ++
        if dns.suffixes.isEmpty then [] else "search" :: dns.suffixes))⟩ } := rfl

theorem Ntp.modern_eq (ntp : Ntp) (scope : Scope) :
    ntp.modern scope (document .ntp .modern) = .ok { value := some ⟨.braced,
      object ["sys"] "ntp" (putText "timezone" ntp.timezone [("servers", .set ntp.servers)])⟩ } := rfl

theorem Ntp.legacy_eq (ntp : Ntp) (scope : Scope) :
    ntp.legacy scope (document .ntp .legacy) = .ok { value := some ⟨.braced,
      object [] "ntp" (putText "timezone" ntp.timezone
        (if ntp.servers.isEmpty then [] else [("servers", .raw (" ".intercalate ntp.servers))]))⟩ } := rfl

theorem defaultsLegacy_eq (scope : Scope) :
    defaultsLegacy scope (document .defaults .legacy) = .ok { value := some ⟨.braced,
      object [] "stp" [("config name", .absent)] ++
        object ["self"] "allow" [(legacyDefaultServices, .absent)]⟩ } := rfl

end ApplianceConfig
