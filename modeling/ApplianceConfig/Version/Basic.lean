import ApplianceConfig.Version.Product

/-!
# Versions

A version is a product family with six numbers, three of the release and three of the build. Versions of one family are ordered by their numbers; versions of different families are not ordered at all.
-/

namespace ApplianceConfig

structure Version where
  product : Product
  major : UInt32
  minor : UInt32
  patch : UInt32
  build : UInt32 := 0
  hotfix : UInt32 := 0
  devel : UInt32 := 0
  deriving DecidableEq, Repr, Inhabited

namespace Version

/-- The first version of a release. -/
def release (product : Product) (major minor patch : UInt32) : Version :=
  { product, major, minor, patch }

/-- The order of two versions, which only versions of one family have. -/
def compare? (a b : Version) : Option Ordering :=
  if a.product = b.product then
    some <| (compare a.major b.major).then <| (compare a.minor b.minor).then <|
      (compare a.patch b.patch).then <| (compare a.build b.build).then <|
      (compare a.hotfix b.hotfix).then <| compare a.devel b.devel
  else none

/-- Holds when a version is of the family of another and not below it. -/
def atLeast (version bound : Version) : Bool :=
  match compare? version bound with
  | some order => order != .lt
  | none => false

def render (version : Version) : String :=
  let product :=
    if version.product = .unknown then "" else version.product.displayName ++ " "
  let release := ".".intercalate [toString version.major, toString version.minor,
    toString version.patch]
  let build := if version.devel = 0 then [version.build, version.hotfix]
    else [version.build, version.hotfix, version.devel]
  product ++ release ++ " " ++ ".".intercalate (build.map toString)

end Version

end ApplianceConfig
