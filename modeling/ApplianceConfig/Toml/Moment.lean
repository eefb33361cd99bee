import ApplianceConfig.Text.Decimal
import ApplianceConfig.Text.Reader

/-!
# Dates and times in TOML

A date of the calendar, a time of day, or both with a `T` or a blank between them; only a date with a time may have an offset from universal time. These readers give what is behind the moment, or nothing when there is none in front.
-/

namespace ApplianceConfig.Toml

/-- A number of exactly `count` digits that lies within bounds. -/
def field? (count least most : Nat) : Text.Reader Nat := fun cs => do
  let digits := cs.take count
  let n ← Text.digits? digits
  if digits.length = count ∧ least ≤ n ∧ n ≤ most then some (n, cs.drop count) else none

def isLeapYear (year : Nat) : Bool :=
  year % 4 == 0 && (year % 100 != 0 || year % 400 == 0)

def daysIn (year month : Nat) : Nat :=
  if month = 2 then (if isLeapYear year then 29 else 28)
  else if month ∈ [4, 6, 9, 11] then 30
  else 31

def afterDate? (cs : List Char) : Option (List Char) := do
  let (year, cs) ← field? 4 0 9999 cs
  let (month, cs) ← field? 2 1 12 (← Text.expect? '-' cs)
  let (_, cs) ← field? 2 1 (daysIn year month) (← Text.expect? '-' cs)
  return cs

def afterMinutes? (cs : List Char) : Option (List Char) := do
  let (_, cs) ← field? 2 0 23 cs
  let (_, cs) ← field? 2 0 59 (← Text.expect? ':' cs)
  return cs

/-- Fractions of a second; at least one digit follows the point. -/
def afterFraction : List Char → List Char
  | '.' :: c :: rest => if c.isDigit then rest.dropWhile Char.isDigit else '.' :: c :: rest
  | cs => cs

/-- A time of day. A minute may have a leap second. -/
def afterTime? (cs : List Char) : Option (List Char) := do
  let cs ← afterMinutes? cs
  let (_, cs) ← field? 2 0 60 (← Text.expect? ':' cs)
  return afterFraction cs

def afterOffset? : List Char → Option (List Char)
  | c :: rest =>
    if c = 'Z' ∨ c = 'z' then some rest
    else if c = '+' ∨ c = '-' then afterMinutes? rest
    else none
  | [] => none

def afterDaytime? : List Char → Option (List Char)
  | c :: rest =>
    if c = 'T' ∨ c = 't' ∨ c = ' ' then
      (afterTime? rest).map fun rest => (afterOffset? rest).getD rest
    else none
  | [] => none

def afterMoment? (cs : List Char) : Option (List Char) :=
  match afterDate? cs with
  | some rest => some ((afterDaytime? rest).getD rest)
  | none => afterTime? cs

end ApplianceConfig.Toml
