import ApplianceConfig.Digest.Md5
import ApplianceConfig.Radix

/-!
# Password hashes

The hash that devices store for a password: `$1$`, a salt of at most eight characters, `$`, and a digest of password and salt in 22 letters. The digest is stirred a thousand times, so that guessing is slow. Nothing depends on how the digest works, only on its sixteen bytes.
-/

namespace ApplianceConfig.Password

/-- The letters for the numbers from 0 to 63. -/
def alphabet : List Char :=
  "./0123456789ABCDEFGHIJKLMNOPQRSTUVWXYZabcdefghijklmnopqrstuvwxyz".toList

def mark : List Char := "$1$".toList

/-- The salt that counts: without a mark in front, up to the next dollar sign, and at most eight characters of it. -/
def effectiveSalt (salt : List Char) : List Char :=
  let unmarked := if mark.isPrefixOf salt then salt.drop mark.length else salt
  (unmarked.takeWhile (· ≠ '$')).take 8

/-- The letters of a number, the lowest first. -/
def letters (count n : Nat) : List Char :=
  (Radix.lowDigits 64 count n).map fun d => alphabet.getD d '.'

/-- For each binary digit of the length, the lowest first: a zero byte for a one, the first byte for a zero. -/
def lengthMarks (first : UInt8) (length : Nat) : List UInt8 :=
  if length = 0 then []
  else (if length % 2 = 1 then 0 else first) :: lengthMarks first (length / 2)

/-- As many bytes as `count`, taken from the digest over and over. -/
def repeatTo (count : Nat) (digest : List UInt8) : List UInt8 :=
  ((List.replicate (count / 16 + 1) digest).flatten).take count

def bytes (cs : List Char) : List UInt8 := cs.flatMap String.utf8EncodeChar

section

variable (digest : List UInt8 → Vector UInt8 16)

/-- The digest that the rounds start from. -/
def firstDigest (password salt : List UInt8) : Vector UInt8 16 :=
  let alternate := digest (password ++ salt ++ password)
  digest (password ++ bytes mark ++ salt ++ repeatTo password.length alternate.toList ++
    lengthMarks (password.headD 0) password.length)

/-- One round: password and digest around each other, with the salt left out in every third round and the password once more except in every seventh. -/
def round (password salt : List UInt8) (d : Vector UInt8 16) (i : Nat) : Vector UInt8 16 :=
  digest ((if i % 2 = 1 then password else d.toList) ++
    (if i % 3 = 0 then [] else salt) ++
    (if i % 7 = 0 then [] else password) ++
    (if i % 2 = 1 then d.toList else password))

def finalDigest (password salt : List UInt8) : Vector UInt8 16 :=
  (List.range 1000).foldl (round digest password salt) (firstDigest digest password salt)

end

/-- The letters of three bytes, the first of which counts most. -/
def tripleLetters (a b c : UInt8) : List Char :=
  letters 4 (a.toNat * 65536 + b.toNat * 256 + c.toNat)

/-- The 22 letters of a digest. -/
def digestLetters (d : Vector UInt8 16) : List Char :=
  tripleLetters d[0] d[6] d[12] ++ tripleLetters d[1] d[7] d[13] ++
    tripleLetters d[2] d[8] d[14] ++ tripleLetters d[3] d[9] d[15] ++
    tripleLetters d[4] d[10] d[5] ++ letters 2 d[11].toNat

/-- The hash of a password for a salt, by any digest of sixteen bytes. -/
def hashWith (digest : List UInt8 → Vector UInt8 16) (password salt : String) : String :=
  let effective := effectiveSalt salt.toList
  let d := finalDigest digest (bytes password.toList) (bytes effective)
  String.ofList (mark ++ effective ++ '$' :: digestLetters d)

def hash (password salt : String) : String := hashWith Md5.digest password salt

end ApplianceConfig.Password
