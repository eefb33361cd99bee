import ApplianceConfig.Radix
import ApplianceConfig.Toml.Space

/-!
# Quoted text in TOML

Text stands between quotation marks, in which a backslash escapes, or between apostrophes, in which nothing does. Between single marks it stays on its line. Between threefold marks it may take several: an end of line behind the opening marks is dropped, every other is a line feed, and up to two marks may stand anywhere, also right before the closing ones.
-/

namespace ApplianceConfig.Toml

/-- What a character and some of those behind it stand for inside quoted text, and how many of those behind it belong to it. -/
abbrev Piece := Char → List Char → Option (List Char × Nat)

def literalPiece : Piece := fun c _ =>
  if isPlain c then some ([c], 0) else none

/-- The character of a code point that is written with `count` hexadecimal digits. -/
def codePoint? (count : Nat) (cs : List Char) : Option Char :=
  let digits := cs.take count
  let n := Radix.valueOf 16 digits
  if digits.length = count ∧ digits.all (Radix.isDigit 16) ∧ n.isValidChar then
    some (Char.ofNat n)
  else none

/-- What the characters behind a backslash stand for, and how many they are. -/
def escaped? : List Char → Option (Char × Nat)
  | '"' :: _ => some ('"', 1)
  | '\\' :: _ => some ('\\', 1)
  | 'b' :: _ => some ('\x08', 1)
  | 'f' :: _ => some ('\x0c', 1)
  | 'n' :: _ => some ('\n', 1)
  | 'r' :: _ => some ('\r', 1)
  | 't' :: _ => some ('\t', 1)
  | 'u' :: rest => (codePoint? 4 rest).map (·, 5)
  | 'U' :: rest => (codePoint? 8 rest).map (·, 9)
  | _ => none

def escapedPiece : Piece := fun c rest =>
  if c = '\\' then (escaped? rest).map fun (e, n) => ([e], n)
  else literalPiece c rest

def acrossLines (piece : Piece) : Piece := fun c rest =>
  match newline? (c :: rest) with
  | some after => some (['\n'], rest.length - after.length)
  | none => piece c rest

def skipEmptyLines (cs : List Char) : List Char :=
  match _h : newline? (skipBlanks cs) with
  | none => skipBlanks cs
  | some rest => skipEmptyLines rest
  termination_by cs.length
  decreasing_by
    exact Nat.lt_of_lt_of_le (length_newline?_lt ‹_›) (Text.length_dropWhile_le _ _)

/-- A backslash at the end of a line hides the end and all blanks and empty lines behind it. -/
def continuedPiece : Piece := fun c rest =>
  match if c = '\\' then newline? (skipBlanks rest) else none with
  | some after => some ([], rest.length - (skipEmptyLines after).length)
  | none => escapedPiece c rest

/-- Text up to a closing mark. -/
def untilMark (mark : Char) (piece : Piece) : List Char → Option (List Char × List Char)
  | [] => none
  | c :: rest =>
    if c = mark then some ([], rest)
    else
      match piece c rest with
      | none => none
      | some (text, n) =>
        (untilMark mark piece (rest.drop n)).map fun (more, rest) => (text ++ more, rest)
  termination_by cs => cs.length
  decreasing_by simp only [List.length_drop, List.length_cons]; omega

/-- Text up to three closing marks, of which the last three of a run of up to five are taken. -/
def untilMarks (mark : Char) (piece : Piece) : List Char → Option (List Char × List Char)
  | [] => none
  | c :: rest =>
    if c = mark then
      let more := (rest.takeWhile (· = mark)).length
      if more < 2 then
        (untilMarks mark piece (rest.drop more)).map fun (text, rest) =>
          (List.replicate (more + 1) mark ++ text, rest)
      else if more < 5 then some (List.replicate (more - 2) mark, rest.drop more)
      else none
    else
      match piece c rest with
      | none => none
      | some (text, n) =>
        (untilMarks mark piece (rest.drop n)).map fun (more, rest) => (text ++ more, rest)
  termination_by cs => cs.length
  decreasing_by all_goals simp only [List.length_drop, List.length_cons]; omega

def skipNewline (cs : List Char) : List Char := (newline? cs).getD cs

def apostrophe : Char := '\x27'

def lineText? : Text.Reader String := fun cs =>
  match cs with
  | [] => none
  | c :: rest =>
    let read? (piece : Piece) := (untilMark c piece rest).map fun (text, rest) =>
      (String.ofList text, rest)
    if c = '"' then read? escapedPiece
    else if c = apostrophe then read? literalPiece
    else none

def blockText? : Text.Reader String := fun cs =>
  match cs with
  | a :: b :: c :: rest =>
    let read? (piece : Piece) := (untilMarks c (acrossLines piece) (skipNewline rest)).map
      fun (text, rest) => (String.ofList text, rest)
    if a ≠ c ∨ b ≠ c then none
    else if c = '"' then read? continuedPiece
    else if c = apostrophe then read? literalPiece
    else none
  | _ => none

/-- Text between marks of any kind. Threefold marks are looked for first. -/
def text? : Text.Reader String := fun cs =>
  match cs with
  | a :: b :: c :: _ => if a = b ∧ b = c then blockText? cs else lineText? cs
  | _ => lineText? cs

end ApplianceConfig.Toml
