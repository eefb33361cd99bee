import ApplianceConfig.Proofs.Document.RoundTrip
import ApplianceConfig.Compile.Recipe
import ApplianceConfig.Template.Cache

/-!
# Templates as documents

Every template text can be read. All of them but one are written as the encoder writes their documents, so they are read back as these; the one left has a quoted word that would not need its quotes.
-/

namespace ApplianceConfig

open Grammar

/-- A mapping behind a chain of keys and its own name, with nothing beside it. -/
def object : List String → String → Entries → Entries
  | [], name, entries => [(name, .block entries)]
  | key :: keys, name, entries => [(key, .map .chained (object keys name entries))]

namespace Template

def folderMarker : Entries :=
  object ["sys", "folder"] "$key" [
    ("inherited-devicegroup", .bool true), ("inherited-traffic-group", .bool true),
    ("traffic-group", .text "/Common/traffic-group-1")]

def modernEntries : Kind → Entries
  | .partition =>
    object ["auth", "partition"] "$name" [("description", .absent)] ++ folderMarker ++
      object ["cli"] "admin-partitions" [("update-partition", .text "$name")]
  | .folder => folderMarker
  | .node => object ["ltm", "node"] "$key" []
  | .pool => object ["ltm", "pool"] "$key" [("members", .block []), ("monitor", .absent)]
  | .virtualServer => [("ltm", .map .chained (
      object ["virtual"] "$key" [
        ("destination", .absent), ("profiles", .block []), ("fw-rules", .block []),
        ("snat", .text "automap"), ("ip-protocol", .text "tcp"), ("pool", .absent)] ++
      object ["virtual-address"] "$key_va" []))]
  | .selfIp =>
    object ["net", "self"] "$key" [
      ("address", .absent), ("allow-service", .block [("default", .toggle)]),
      ("fw-rules", .block []), ("vlan", .absent)]
  | .trunk => object ["net", "trunk"] "$name" [("lacp", .text "disabled"), ("interfaces", .block [])]
  | .vlan => object ["net", "vlan"] "$name" [("partition", .text "Common"), ("interfaces", .block [])]
  | .routeDomain =>
    object ["net", "route-domain"] "$name" [
      ("description", .text "Default Route Domain"), ("id", .int 0), ("partition", .text "Common"),
      ("fw-rules", .block []), ("vlans", .block [])]
  | .provision => object ["sys", "provision"] "$name" [("level", .absent)]
  | .defaults =>
    object ["sys"] "httpd" [("auth-pam-idle-timeout", .int 21600)] ++
      object ["net"] "self-allow" [("defaults", .block (toggles defaultServices))]
  | .platform => [("sys", .map .chained (
      object ["management-ip"] "$ip/$netmask" [] ++
      object ["management-route"] "default" [("gateway", .absent)] ++
      object ["db"] "dhclient.mgmt" [("value", .text "disable")] ++
      object [] "global-settings" [
        ("mgmt-dhcp", .text "disabled"), ("gui-setup", .text "disabled"), ("hostname", .absent)]))]
  | .dns => object ["sys"] "dns" [("name-servers", .block []), ("search", .block [])]
  | .ntp => object ["sys"] "ntp" [("servers", .block []), ("timezone", .absent)]
  | .mail =>
    object ["sys", "smtp-server"] "$key" [
      ("from-address", .text "nobody@f5net.com"), ("local-host-name", .text "test.net"),
      ("smtp-server-host-name", .absent), ("smtp-server-port", .int 25)]
  | .user =>
    object ["auth", "user"] "$name" [
      ("encrypted-password", .absent), ("description", .absent), ("shell", .absent),
      ("role", .text "admin"), ("partition-access", .text "all")]
  | .addressList => object ["security", "firewall", "address-list"] "$key" [("addresses", .block [])]
  | .portList => object ["security", "firewall", "port-list"] "$key" [("ports", .block [])]
  | .ruleList => object ["security", "firewall", "rule-list"] "$key" [("rules", .block [])]
  | .firewall => object ["security", "firewall"] "$context" [("rules", .block [])]
  | .raw | .profile => []

def legacyEntries : Kind → Entries
  | .partition =>
    object ["partition"] "$name" [("description", .absent)] ++
      [("shell", .map .chained [("write", .map .chained [("partition", .text "$name")])])]
  | .node => object ["node"] "$address" [("screen", .absent)]
  | .pool => object ["pool"] "$name" [("members", .toggle)]
  | .virtualServer =>
    object ["virtual"] "$name" [
      ("destination", .absent), ("snat", .text "automap"), ("pool", .absent)]
  | .selfIp =>
    object ["self"] "$address" [("netmask", .absent), ("vlan", .absent), ("allow", .text "default")]
  | .vlan => object ["vlan"] "$name" [("interfaces", .block [])]
  | .provision => object ["provision"] "$name" [("level", .absent)]
  | .defaults => object [] "stp" [] ++ object ["self"] "allow" []
  | .platform =>
    [("mgmt", .map .chained (
      object [] "$ip" [("netmask", .absent)] ++
      object ["route", "default"] "inet" [("gateway", .absent)]))] ++
      object [] "system" [("hostname", .absent)]
  | .dns => object [] "dns" [("nameservers", .toggle), ("search", .toggle)]
  | .ntp => object [] "ntp" [("servers", .absent), ("timezone", .absent)]
  | .user => object ["user"] "$name" [("description", .text "a"), ("shell", .text "/bin/false")]
  | _ => []

/-- What the template for a kind in a dialect is read as. -/
def document (kind : Kind) (dialect : Dialect) : Document :=
  match dialect with
  | .modern => { entries := modernEntries kind }
  | .legacy => { entries := legacyEntries kind }

/-! ### Reading the texts -/

theorem source?_modern (kind : Kind) :
    source? kind .modern =
      if (modernEntries kind).isEmpty then none
      else some ((document kind .modern).encode Document.defaultIndent) := by
  cases kind <;> decide +kernel

theorem source?_legacy {kind : Kind} (hkind : kind ≠ .user) :
    source? kind .legacy =
      if (legacyEntries kind).isEmpty then none
      else some ((document kind .legacy).encode Document.defaultIndent) := by
  cases kind <;> first | exact absurd rfl hkind | decide +kernel

theorem distinct_document (kind : Kind) (dialect : Dialect) :
    (document kind dialect).distinct = true := by
  cases dialect <;> cases kind <;> decide

theorem writable_document (kind : Kind) (dialect : Dialect) :
    (document kind dialect).writable = true := by
  cases dialect <;> cases kind <;> decide +kernel

theorem reread_document (kind : Kind) (dialect : Dialect) :
    rereadEntries (document kind dialect).entries = (document kind dialect).entries := by
  cases dialect <;> cases kind <;> rfl

/-- A template that is written as its document is read as this document. -/
theorem parse_of_source? {kind : Kind} {dialect : Dialect} {entries : Entries}
    (hentries : (document kind dialect).entries = entries)
    (hsource : source? kind dialect =
      if entries.isEmpty then none else some ((document kind dialect).encode Document.defaultIndent)) :
    parse kind dialect = .ok (document kind dialect) := by
  have hdocument : { entries := entries } = document kind dialect := by
    rw [← hentries]
    cases dialect <;> rfl
  unfold parse
  rw [hsource]
  cases entries with
  | nil => rw [← hdocument]; rfl
  | cons e entries =>
    have hread := Document.parse_encode_eq (distinct_document kind dialect)
      (writable_document kind dialect) Document.defaultIndent
    rw [reread_document, hentries, hdocument] at hread
    exact hread

theorem parse_user_legacy : parse .user .legacy = .ok (document .user .legacy) := by
  let text := "user $name \x7b\n    description a\n    shell \"/bin/false\"\n\x7d\n"
  have hsource : source? .user .legacy = some text := by decide +kernel
  have hend := lexes_nil.newline.closeBrace.newline
  have hshell := (Lexes.bare_space (s := "shell") (by decide) (hend.quoted "/bin/false".toList)).spaces 4
  have ha := Lexes.bare (s := "a") (by decide) (wordEnds_cons (by decide) _) hshell.newline
  have hdescription := (Lexes.bare_space (s := "description") (by decide) ha).spaces 4
  have hname := Lexes.bare_space (s := "$name") (by decide) hdescription.newline.openBrace
  have huser := Lexes.bare_space (s := "user") (by decide) hname
  have hgroup : Grammar.Block.Derives .ordered
      [.openBrace, .newline, .word (bareWord "description"), .word (bareWord "a"), .newline,
        .word (bareWord "shell"), .word ⟨.quoted, "/bin/false"⟩, .newline, .closeBrace, .newline]
      (.block (collect [("description", .text "a"), ("shell", .text "/bin/false")])) [.newline] :=
    .group (fun _ => not_keysOnly_newline _) (.skip .done)
      (.entry (.scalar rfl) (.skip .done) (.entry (.scalar rfl) (.skip .done) .done))
  have hline := LineTail.Derives.chain (w := bareWord "$name") (fun _ => id) (.block hgroup)
  have hlines := Lines.Derives.line (w := bareWord "user") hline (.skip .done) .done
  unfold parse
  rw [hsource]
  refine Document.parse_of_lexes ((congrArg (Lexes · _) ?_).mpr huser) ⟨_, .done, hlines⟩
  decide +kernel

/-- Every template can be read. -/
theorem parse_eq (kind : Kind) (dialect : Dialect) :
    parse kind dialect = .ok (document kind dialect) := by
  cases dialect with
  | modern => exact parse_of_source? rfl (source?_modern kind)
  | legacy =>
    by_cases hkind : kind = .user
    · rw [hkind]
      exact parse_user_legacy
    · exact parse_of_source? rfl (source?_legacy hkind)

end Template

end ApplianceConfig
