import ApplianceConfig.Compile.Recipe
import ApplianceConfig.Password

/-!
# System settings and accounts

Settings of the device as a whole, of which there is one each, and the accounts of its users.
-/

namespace ApplianceConfig

def enabled (flag : Bool) : String := if flag then "enabled" else "disabled"

def enable (flag : Bool) : String := if flag then "enable" else "disable"

/-- Writes the entry for a setting, if it is given. -/
def putText (key : String) (text : Option String) (entries : Entries) : Entries :=
  match text with
  | some text => Assoc.put entries key (.text text)
  | none => entries

namespace Provision

def modern (provision : Provision) (scope : Scope) (template : Document) :
    Except CompileError Output := do
  let template ← scope.fillAs template ["sys", "provision", "$name"] provision.module
    (Assoc.put · "level" (.text provision.level))
  return { value := template }

/-- The flat dialect has resource levels from BIG-IP 10.0.0 on. -/
def legacy (provision : Provision) (scope : Scope) (template : Document) :
    Except CompileError Output := do
  if !scope.context.atLeast .bigip 10 0 0 then return {}
  let template ← scope.fillAs template ["provision", "$name"] provision.module
    (Assoc.put · "level" (.text provision.level))
  return { value := template }

end Provision

/-- The services that the flat dialect opens by default. -/
def legacyDefaultServices : String :=
  "default tcp domain udp 1026 tcp ssh tcp snmp proto ospf tcp 4353 udp domain tcp https " ++
    "udp efs udp 4353 udp snmp"

def defaultsLegacy (scope : Scope) (template : Document) : Except CompileError Output := do
  let template ← scope.fill template ["stp"] (Assoc.put · "config name" .absent)
  let template ← scope.fill template ["self", "allow"]
    (Assoc.put · legacyDefaultServices .absent)
  return { value := template }

namespace Platform

def modern (platform : Platform) (scope : Scope) (template : Document) :
    Except CompileError Output := do
  let management := platform.address.address.render ++ "/" ++ platform.address.netmask.render
  let template ← scope.fillAs template ["sys", "management-ip", "$ip/$netmask"] management id
  let template ← scope.fill template ["sys", "management-route", "default"]
    (Assoc.put · "gateway" (.text platform.gateway.render))
  let template ← if platform.dhcp then
      scope.fill template ["sys", "db", "dhclient.mgmt"] (Assoc.put · "value" (.text "enable"))
    else pure template
  let template ← scope.fill template ["sys", "global-settings"] fun entries =>
    let entries := Assoc.put entries "gui-setup" (.text (enabled platform.wizard))
    let entries := Assoc.put entries "mgmt-dhcp" (.text (enabled platform.dhcp))
    Assoc.put entries "hostname" (.text platform.hostname)
  return { value := template }

def legacy (platform : Platform) (scope : Scope) (template : Document) :
    Except CompileError Output := do
  let template ← scope.fillAs template ["mgmt", "$ip"] platform.address.address.render
    (Assoc.put · "netmask" (.text platform.address.netmask.render))
  let template ← scope.fill template ["mgmt", "route", "default", "inet"]
    (Assoc.put · "gateway" (.text platform.gateway.render))
  let template ← scope.fill template ["system"] fun entries =>
    let entries := Assoc.put entries "gui setup" (.text (enable platform.wizard))
    Assoc.put entries "hostname" (.text platform.hostname)
  return { value := template }

end Platform

namespace Dns

def modern (dns : Dns) (scope : Scope) (template : Document) : Except CompileError Output := do
  let template ← scope.fill template ["sys", "dns"] fun entries =>
    Assoc.put (Assoc.put entries "name-servers" (.set dns.servers)) "search" (.set dns.suffixes)
  return { value := template }

def legacy (dns : Dns) (scope : Scope) (template : Document) : Except CompileError Output := do
  let suffixes := if dns.suffixes.isEmpty then [] else "search" :: dns.suffixes
  let template ← scope.fill template ["dns"] fun _ =>
    toggles ("nameservers" :: dns.servers ++ suffixes)
  return { value := template }

end Dns

namespace Ntp

def modern (ntp : Ntp) (scope : Scope) (template : Document) : Except CompileError Output := do
  let template ← scope.fill template ["sys", "ntp"] fun _ =>
    putText "timezone" ntp.timezone [("servers", .set ntp.servers)]
  return { value := template }

def legacy (ntp : Ntp) (scope : Scope) (template : Document) : Except CompileError Output := do
  let servers :=
    if ntp.servers.isEmpty then [] else [("servers", Value.raw (" ".intercalate ntp.servers))]
  let template ← scope.fill template ["ntp"] fun _ => putText "timezone" ntp.timezone servers
  return { value := template }

end Ntp

/-- Mail relays exist from BIG-IP 11.3.0 and EM 3.0.0 on. -/
def Mail.modern (mail : Mail) (scope : Scope) (template : Document) :
    Except CompileError Output := do
  if !(scope.context.atLeast .bigip 11 3 0 || scope.context.atLeast .em 3 0 0) then return {}
  let key := scope.path mail.server
  let template ← scope.fillAs template ["sys", "smtp-server", "$key"] key fun entries =>
    let entries := Assoc.put entries "smtp-server-host-name" (.text mail.server)
    let entries := Assoc.put entries "smtp-server-port" (.number mail.port.toNat)
    Assoc.put entries "from-address" (.text mail.originator)
  return { key, value := template }

namespace User

/-- The salt of all password hashes. -/
def salt : String := "fakesalt"

def passwordHash (user : User) : String := Password.hash user.password salt

def description (user : User) : String := "User " ++ user.name ++ "/" ++ user.password

/-- The names of roles in the flat dialect, where they differ. -/
def legacyRole : String → String
  | "admin" => "administrator"
  | "application-editor" => "app editor"
  | "no-access" => "none"
  | "web-application-security-editor" => "policy editor"
  | "resource-admin" => "resource admin"
  | "user-manager" => "user manager"
  | other => other

def modern (user : User) (scope : Scope) (template : Document) : Except CompileError Output := do
  let template ← scope.fillAs template ["auth", "user", "$name"] user.name fun entries =>
    let entries := Assoc.put entries "encrypted-password" (.text user.passwordHash)
    let entries := Assoc.put entries "role" (.text user.role)
    Assoc.put entries "description" (.text user.description)
  return { key := scope.path user.name, value := template }

def legacy (user : User) (scope : Scope) (template : Document) : Except CompileError Output := do
  let template ← scope.fillAs template ["user", "$name"] user.name fun entries =>
    let entries := Assoc.put entries "password crypt" (.text user.passwordHash)
    let entries := Assoc.put entries "role" (.raw (legacyRole user.role ++ " in all"))
    Assoc.put entries "description" (.text user.description)
  return { key := user.name, value := template }

end User

end ApplianceConfig
