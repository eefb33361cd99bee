import ApplianceConfig.Radix
import ApplianceConfig.Text.Decimal
import ApplianceConfig.Text.Reader
import ApplianceConfig.Text.Segments
import ApplianceConfig.Toml.Value

/-!
# Numbers in TOML

Whole numbers have 64 bits and are written in decimal, or without a sign in base sixteen, eight or two behind `0x`, `0o` or `0b`. A single underscore may stand between two digits. A decimal number with a fraction or an exponent is a float, and so are `inf` and `nan`. No decimal number starts with a zero that means nothing.
-/

namespace ApplianceConfig.Toml

/-- The digits of a run without the underscores between them. -/
def digits? (base : Nat) : Text.Reader (List Char) := fun cs =>
  let run := cs.takeWhile fun c => Radix.isDigit base c || c == '_'
  if (Text.pieces '_' run).all (!·.isEmpty) then
    some (run.filter (· ≠ '_'), cs.drop run.length)
  else none

def wholeDigits? : Text.Reader (List Char) := fun cs => do
  let (digits, rest) ← digits? 10 cs
  if digits.head? = some '0' ∧ 1 < digits.length then none else some (digits, rest)

def sign : List Char → List Char × List Char
  | '+' :: rest => (['+'], rest)
  | '-' :: rest => (['-'], rest)
  | cs => ([], cs)

/-- The base that a number's first two characters give it. -/
def base? : List Char → Option (Nat × List Char)
  | '0' :: 'x' :: rest => some (16, rest)
  | '0' :: 'o' :: rest => some (8, rest)
  | '0' :: 'b' :: rest => some (2, rest)
  | _ => none

def basedNumber? (base : Nat) : Text.Reader Value := fun cs => do
  let (digits, rest) ← digits? base cs
  let n ← Text.toInt64? (Radix.valueOf base digits)
  return (.int n, rest)

/-- The digits behind a point, none when there is no point. -/
def fraction? : Text.Reader (List Char) := fun cs =>
  match cs with
  | '.' :: rest => digits? 10 rest
  | cs => some ([], cs)

/-- A power of ten, zero when there is none. -/
def exponent? : Text.Reader Int := fun cs =>
  match cs with
  | c :: rest =>
    if c = 'e' ∨ c = 'E' then do
      let (sign, rest) := sign rest
      let (digits, rest) ← digits? 10 rest
      let n : Int := Radix.valueOf 10 digits
      some (if sign = ['-'] then -n else n, rest)
    else some (0, cs)
  | [] => some (0, [])

/-- Holds when digits times a power of ten are beyond the largest float of 64 bits and round to infinity. Far from the border the number of digits decides. -/
def roundsToInfinity (digits : List Char) (exponent : Int) : Bool :=
  let n := Radix.valueOf 10 digits
  let size := (digits.dropWhile (· = '0')).length + exponent
  if n = 0 ∨ size < 300 then false
  else if 400 < size then true
  else
    let border := Nat.pow 2 1024 - Nat.pow 2 970
    if 0 ≤ exponent then border ≤ n * Nat.pow 10 exponent.toNat
    else border * Nat.pow 10 (-exponent).toNat ≤ n

/-- What a decimal number is. A float that rounds to infinity is refused unless it is negative. -/
def decimal? (sign whole : List Char) (fraction : List Char) (exponent : Option Int)
    (literal : String) : Option Value :=
  if fraction.isEmpty && exponent.isNone then
    (Text.int64? (String.ofList (sign ++ whole))).map .int
  else if sign ≠ ['-'] && roundsToInfinity (whole ++ fraction)
      (exponent.getD 0 - fraction.length) then none
  else some (.float literal)

/-- The characters of a text in front of what is left of it. -/
def taken (cs rest : List Char) : String := String.ofList (cs.take (cs.length - rest.length))

/-- A decimal number, or one of the floats that have a name. -/
def decimalNumber? : Text.Reader Value := fun cs =>
  let (sign, unsigned) := sign cs
  match unsigned with
  | 'i' :: 'n' :: 'f' :: rest | 'n' :: 'a' :: 'n' :: rest => some (.float (taken cs rest), rest)
  | _ => do
    let (whole, afterWhole) ← wholeDigits? unsigned
    let (fraction, afterFraction) ← fraction? afterWhole
    let (power, rest) ← exponent? afterFraction
    let exponent := if rest.length = afterFraction.length then none else some power
    let v ← decimal? sign whole fraction exponent (taken cs rest)
    return (v, rest)

def number? : Text.Reader Value := fun cs =>
  match base? cs with
  | some (base, rest) => basedNumber? base rest
  | none => decimalNumber? cs

end ApplianceConfig.Toml
