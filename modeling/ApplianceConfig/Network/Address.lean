import ApplianceConfig.Radix
import ApplianceConfig.Text.Reader

/-!
# Network addresses

Addresses of both families as words of bits, with their usual texts. An IPv4 address is four decimal numbers between points. An IPv6 address is eight groups of hexadecimal digits between colons, in which a run of zero groups may be left out and the last two groups may be written as an IPv4 address.
-/

namespace ApplianceConfig

inductive Address
  | v4 (bits : BitVec 32)
  | v6 (bits : BitVec 128)
  deriving DecidableEq, Repr, Inhabited

namespace Address

def isV4 : Address → Bool
  | .v4 _ => true
  | .v6 _ => false

/-- The number of bits of an address of this family. -/
def width : Address → Nat
  | .v4 _ => 32
  | .v6 _ => 128

/-! ### Reading -/

/-- What readers of addresses differ in: whether a decimal number may start with a zero that means nothing, and how many groups a double colon has to stand for. -/
structure Rules where
  leadingZeros : Bool
  leastGap : Nat

/-- The rules for addresses on their own. -/
def strict : Rules := ⟨false, 1⟩

/-- A number at the front of a text, and what is behind it. A longer run of digits is no number, and neither is one whose value reaches `bound`. -/
def number? (base most bound : Nat) (leadingZeros : Bool) (cs : List Char) :
    Option (Nat × List Char) :=
  let digits := cs.takeWhile (Radix.isDigit base)
  let value := Radix.valueOf base digits
  if digits.isEmpty || most < digits.length || bound ≤ value then none
  else if !leadingZeros && digits.head? == some '0' && 1 < digits.length then none
  else some (value, cs.drop digits.length)

def octet? (rules : Rules) (cs : List Char) : Option (Nat × List Char) :=
  number? 10 3 256 rules.leadingZeros cs

/-- The four octets of an IPv4 address at the front of a text. -/
def octets? (rules : Rules) (cs : List Char) : Option (List Nat × List Char) := do
  let (a, cs) ← octet? rules cs
  let (b, cs) ← octet? rules (← Text.expect? '.' cs)
  let (c, cs) ← octet? rules (← Text.expect? '.' cs)
  let (d, cs) ← octet? rules (← Text.expect? '.' cs)
  return ([a, b, c, d], cs)

/-- The groups at the front of a text, at most `room` of them. The flag tells whether the last two were written as an IPv4 address, behind which no group can follow. -/
def groups (rules : Rules) (room : Nat) (first : Bool) (cs : List Char) :
    List Nat × Bool × List Char :=
  match room with
  | 0 => ([], false, cs)
  | room + 1 =>
    match if first then some cs else Text.expect? ':' cs with
    | none => ([], false, cs)
    | some start =>
      match if room = 0 then none else octets? rules start with
      | some ([a, b, c, d], rest) => ([a * 256 + b, c * 256 + d], true, rest)
      | _ =>
        match number? 16 4 65536 true start with
        | none => ([], false, cs)
        | some (group, rest) =>
          let (more, embedded, rest) := groups rules room false rest
          (group :: more, embedded, rest)

/-- The eight groups of an IPv6 address at the front of a text. -/
def allGroups? (rules : Rules) (cs : List Char) : Option (List Nat × List Char) := do
  let (head, embedded, cs) := groups rules 8 true cs
  if head.length = 8 then return (head, cs)
  if embedded then none
  let cs ← Text.expect? ':' (← Text.expect? ':' cs)
  let (tail, _, cs) := groups rules (8 - (head.length + rules.leastGap)) true cs
  return (head ++ List.replicate (8 - head.length - tail.length) 0 ++ tail, cs)

/-- The address at the front of a text. -/
def front? (rules : Rules) (cs : List Char) : Option (Address × List Char) :=
  match octets? rules cs with
  | some (octets, rest) => some (.v4 (.ofNat 32 (Radix.weigh 256 octets)), rest)
  | none => (allGroups? rules cs).map fun (gs, rest) => (.v6 (.ofNat 128 (Radix.weigh 65536 gs)), rest)

def parse? (text : String) : Option Address :=
  match front? strict text.toList with
  | some (address, []) => some address
  | _ => none

/-! ### Writing -/

def renderOctets (bits : BitVec 32) : String :=
  ".".intercalate ((Radix.lowDigits 256 4 bits.toNat).reverse.map toString)

def hexGroup (n : Nat) : String := String.ofList (Nat.toDigits 16 n)

def renderGroups (gs : List Nat) : String := ":".intercalate (gs.map hexGroup)

/-- The length of the run of zero groups in front. -/
def zeroRun (gs : List Nat) : Nat := (gs.takeWhile (· == 0)).length

/-- Where the first of the longest runs of zero groups starts, and its length. -/
def longestRun (gs : List Nat) : Nat × Nat :=
  (List.range gs.length).foldl
    (fun best i => if best.2 < zeroRun (gs.drop i) then (i, zeroRun (gs.drop i)) else best) (0, 0)

/-- The usual text of an address. Of an IPv6 address, the first of the longest runs of two or more zero groups is left out, and one that stands for an IPv4 address shows it. -/
def render : Address → String
  | .v4 bits => renderOctets bits
  | .v6 bits =>
    if bits >>> 32 = 0xffff then "::ffff:" ++ renderOctets (bits.setWidth 32)
    else
      let gs := (Radix.lowDigits 65536 8 bits.toNat).reverse
      let (start, length) := longestRun gs
      if length ≤ 1 then renderGroups gs
      else renderGroups (gs.take start) ++ "::" ++ renderGroups (gs.drop (start + length))

end Address

end ApplianceConfig
