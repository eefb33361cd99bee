import ApplianceConfig.Radix

/-!
# The message digest MD5

A message is filled up to blocks of sixteen words, and each block stirs a state of four words in sixty-four steps. The digest is the final state as sixteen bytes, the lowest byte of each word first.
-/

namespace ApplianceConfig.Md5

structure State where
  a : UInt32
  b : UInt32
  c : UInt32
  d : UInt32

def initial : State := ⟨0x67452301, 0xefcdab89, 0x98badcfe, 0x10325476⟩

/-- The whole parts of 2^32 times the absolute sines of 1 to 64. -/
def sines : Vector UInt32 64 := #v[
  0xd76aa478, 0xe8c7b756, 0x242070db, 0xc1bdceee, 0xf57c0faf, 0x4787c62a, 0xa8304613, 0xfd469501,
  0x698098d8, 0x8b44f7af, 0xffff5bb1, 0x895cd7be, 0x6b901122, 0xfd987193, 0xa679438e, 0x49b40821,
  0xf61e2562, 0xc040b340, 0x265e5a51, 0xe9b6c7aa, 0xd62f105d, 0x02441453, 0xd8a1e681, 0xe7d3fbc8,
  0x21e1cde6, 0xc33707d6, 0xf4d50d87, 0x455a14ed, 0xa9e3e905, 0xfcefa3f8, 0x676f02d9, 0x8d2a4c8a,
  0xfffa3942, 0x8771f681, 0x6d9d6122, 0xfde5380c, 0xa4beea44, 0x4bdecfa9, 0xf6bb4b60, 0xbebfbc70,
  0x289b7ec6, 0xeaa127fa, 0xd4ef3085, 0x04881d05, 0xd9d4d039, 0xe6db99e5, 0x1fa27cf8, 0xc4ac5665,
  0xf4292244, 0x432aff97, 0xab9423a7, 0xfc93a039, 0x655b59c3, 0x8f0ccc92, 0xffeff47d, 0x85845dd1,
  0x6fa87e4f, 0xfe2ce6e0, 0xa3014314, 0x4e0811a1, 0xf7537e82, 0xbd3af235, 0x2ad7d2bb, 0xeb86d391]

/-- How far the steps of each of the four rounds turn their sums. -/
def turns : Vector (Vector UInt32 4) 4 := #v[
  #v[7, 12, 17, 22], #v[5, 9, 14, 20], #v[4, 11, 16, 23], #v[6, 10, 15, 21]]

def rotate (x count : UInt32) : UInt32 := (x <<< count) ||| (x >>> (32 - count))

/-- The mixture of a step's words, and the word of the block that it takes. -/
def mix (s : State) (i : Fin 64) : UInt32 × Fin 16 :=
  if i.val < 16 then ((s.b &&& s.c) ||| (~~~s.b &&& s.d), Fin.ofNat 16 i.val)
  else if i.val < 32 then ((s.d &&& s.b) ||| (~~~s.d &&& s.c), Fin.ofNat 16 (5 * i.val + 1))
  else if i.val < 48 then (s.b ^^^ s.c ^^^ s.d, Fin.ofNat 16 (3 * i.val + 5))
  else (s.c ^^^ (s.b ||| ~~~s.d), Fin.ofNat 16 (7 * i.val))

def step (block : Vector UInt32 16) (s : State) (i : Fin 64) : State :=
  let (mixture, word) := mix s i
  let sum := mixture + s.a + sines[i] + block[word]
  let turn := turns[i.val / 16][i.val % 4]
  ⟨s.d, s.b + rotate sum turn, s.b, s.c⟩

def compress (s : State) (block : Vector UInt32 16) : State :=
  let t := (List.finRange 64).foldl (step block) s
  ⟨s.a + t.a, s.b + t.b, s.c + t.c, s.d + t.d⟩

/-- The `count` lowest bytes of a number, the lowest first. -/
def lowBytes (count n : Nat) : List UInt8 :=
  (Radix.lowDigits 256 count n).map UInt8.ofNat

/-- A message filled up: a byte with its highest bit set, zeros, and the number of bits in eight bytes. -/
def fill (message : List UInt8) : List UInt8 :=
  let zeros := (119 - message.length % 64) % 64
  message ++ 0x80 :: List.replicate zeros 0 ++ lowBytes 8 (8 * message.length)

/-- The word of four bytes, the lowest first. -/
def word (bytes : List UInt8) : UInt32 :=
  (bytes.take 4).foldr (fun byte w => w * 256 + byte.toUInt32) 0

def block (bytes : List UInt8) : Vector UInt32 16 :=
  Vector.ofFn fun i => word (bytes.drop (4 * i.val))

def stir (s : State) (bytes : List UInt8) : State :=
  if bytes.length < 64 then s else stir (compress s (block bytes)) (bytes.drop 64)
  termination_by bytes.length
  decreasing_by simp only [List.length_drop]; omega

/-- The digest of a message. -/
def digest (message : List UInt8) : Vector UInt8 16 :=
  let s := stir initial (fill message)
  let words := #v[s.a, s.b, s.c, s.d]
  Vector.ofFn fun i => (words[i.val / 4] >>> UInt32.ofNat (8 * (i.val % 4))).toUInt8

end ApplianceConfig.Md5
