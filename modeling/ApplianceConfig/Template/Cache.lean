import ApplianceConfig.Grammar.Reader
import ApplianceConfig.Template.Source

/-!
# The template cache

A template is read from its text when it is first asked for and kept from then on. The cache counts how often it had a template already and how often it had not.
-/

namespace ApplianceConfig.Template

/-- The template for a kind in a dialect, empty when there is no text. -/
def parse (kind : Kind) (dialect : Dialect) : Except Grammar.Error Document :=
  match source? kind dialect with
  | some text => Document.parse text
  | none => .ok {}

structure Cache where
  hits : Nat := 0
  misses : Nat := 0
  templates : List ((Kind × Dialect) × Document) := []
  deriving Inhabited

namespace Cache

def find? (cache : Cache) (kind : Kind) (dialect : Dialect) : Option Document :=
  cache.templates.lookup (kind, dialect)

/-- The template for a kind in a dialect, and the cache that has it. -/
def get (cache : Cache) (kind : Kind) (dialect : Dialect) :
    Except Grammar.Error Document × Cache :=
  match cache.find? kind dialect with
  | some template => (.ok template, { cache with hits := cache.hits + 1 })
  | none =>
    let missed := { cache with misses := cache.misses + 1 }
    match parse kind dialect with
    | .error e => (.error e, missed)
    | .ok template =>
      (.ok template, { missed with templates := ((kind, dialect), template) :: missed.templates })

/-- Asks for each of the given templates, up to the first that cannot be read. -/
def getAll (cache : Cache) : List (Kind × Dialect) → Except Grammar.Error Unit × Cache
  | [] => (.ok (), cache)
  | (kind, dialect) :: rest =>
    match cache.get kind dialect with
    | (.ok _, cache) => cache.getAll rest
    | (.error e, cache) => (.error e, cache)

/-- Reads every template that has a text. -/
def prewarm (cache : Cache) : Except Grammar.Error Unit × Cache := cache.getAll registered

/-- Hits, misses and the number of templates kept. -/
def stats (cache : Cache) : Nat × Nat × Nat :=
  (cache.hits, cache.misses, cache.templates.length)

end Cache

end ApplianceConfig.Template
