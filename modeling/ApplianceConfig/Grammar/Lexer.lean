import ApplianceConfig.Document.Quoted
import ApplianceConfig.Grammar.Token
import ApplianceConfig.Total

/-!
# From characters to tokens

A text is cut into pieces from the left. A piece is a token, a stretch without meaning (blanks, or a comment up to the end of its line), or something that is neither. Words are as long as possible, so a piece that ends before a word character is never a word.
-/

namespace ApplianceConfig.Grammar

/-- Blanks between words. A line feed is not one of them: it is a token. -/
def isSpace (c : Char) : Bool := c == ' ' || c == '\t' || c == '\r'

/-- The characters of bare words. -/
def isWordChar (c : Char) : Bool :=
  c.isAlphanum || "_./:%@!$&~*+,;<=>?()|[]^-".toList.contains c

/-- How many of the characters behind an opening quotation mark belong to the quoted text, and whether a closing mark is among them. A backslash covers the next character, which must not be a line feed. -/
def quotedExtent : List Char → Bool × Nat
  | [] => (false, 0)
  | '"' :: _ => (true, 1)
  | ['\\'] => (false, 0)
  | '\\' :: c :: rest =>
    if c = '\n' then (false, 0)
    else ((quotedExtent rest).1, (quotedExtent rest).2 + 2)
  | _ :: rest => ((quotedExtent rest).1, (quotedExtent rest).2 + 1)

inductive Piece
  | skipped
  | token (t : Token)
  | unknown

/-- The token that a longest run of word characters is. -/
def wordToken (text : List Char) : Token :=
  if text = "none".toList then .null
  else if text.all Char.isDigit then .word ⟨.digits, String.ofList text⟩
  else .word ⟨.plain, String.ofList text⟩

/-- The piece that starts with `c`, and how many of the characters behind `c` belong to it. -/
def firstPiece (c : Char) (rest : List Char) : Piece × Nat :=
  if isSpace c then (.skipped, (rest.takeWhile isSpace).length)
  else if c = '#' then (.skipped, (rest.takeWhile (· ≠ '\n')).length)
  else if c = '\x7b' then (.token .openBrace, 0)
  else if c = '\x7d' then (.token .closeBrace, 0)
  else if c = '\n' then (.token .newline, 0)
  else if c = '"' then
    let (closed, n) := quotedExtent rest
    if closed then
      (.token (.word ⟨.quoted, String.ofList (Quoted.decode (rest.take (n - 1)))⟩), n)
    else (.unknown, n)
  else if isWordChar c then
    let more := rest.takeWhile isWordChar
    (.token (wordToken (c :: more)), more.length)
  else (.unknown, 0)

def byteLength (cs : List Char) : Nat := total (cs.map Char.utf8Size)

/-- The tokens of characters that start at byte `start`, or the span of the first unknown piece. -/
def tokensFrom (start : Nat) : List Char → Except Span (List Lexeme)
  | [] => .ok []
  | c :: rest =>
    let (piece, n) := firstPiece c rest
    let stop := start + byteLength (c :: rest.take n)
    match piece with
    | .skipped => tokensFrom stop (rest.drop n)
    | .token t => (tokensFrom stop (rest.drop n)).map (⟨t, ⟨start, stop⟩⟩ :: ·)
    | .unknown => .error ⟨start, stop⟩
  termination_by cs => cs.length
  decreasing_by all_goals simp only [List.length_drop, List.length_cons]; omega

/-- The tokens of a text, or the span of its first piece that is no token. -/
def tokens (text : String) : Except Span (List Lexeme) := tokensFrom 0 text.toList

end ApplianceConfig.Grammar
