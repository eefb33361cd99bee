import ApplianceConfig.Assoc
import ApplianceConfig.Version.Basic

/-!
# Compilation contexts

What a configuration is written for: the version of the device and the features that are switched on. The version decides the dialect.
-/

namespace ApplianceConfig

/-- The two ways in which devices spell their configuration: nested objects, or the flat lines of older releases. -/
inductive Dialect
  | modern
  | legacy
  deriving DecidableEq, Repr, Inhabited

namespace Dialect

def all : List Dialect := [.modern, .legacy]

def name : Dialect → String
  | .modern => "tmsh"
  | .legacy => "bigpipe"

/-- The modern dialect starts with BIG-IP 11.0.0 and EM 2.0.0, and every BIG-IQ speaks it. -/
def ofVersion (version : Version) : Dialect :=
  if version.atLeast (.release .bigip 11 0 0) || version.atLeast (.release .em 2 0 0) ||
      version.product == .bigiq then .modern
  else .legacy

end Dialect

structure Context where
  version : Version
  features : Assoc Bool := []
  deriving Repr, Inhabited

namespace Context

def withFeature (context : Context) (name : String) (enabled : Bool) : Context :=
  { context with features := Assoc.put context.features name enabled }

/-- Whether a feature is on. One that was never mentioned is off. -/
def feature (context : Context) (name : String) : Bool :=
  (Assoc.get? context.features name).getD false

def dialect (context : Context) : Dialect := .ofVersion context.version

/-- Whether the device is of the family of a release and not below it. -/
def atLeast (context : Context) (product : Product) (major minor patch : UInt32) : Bool :=
  context.version.atLeast (.release product major minor patch)

end Context

end ApplianceConfig
