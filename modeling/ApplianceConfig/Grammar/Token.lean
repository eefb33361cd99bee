import ApplianceConfig.Document.Basic

/-!
# Tokens

The words and marks that a configuration text is made of, with the bytes that they cover.
-/

namespace ApplianceConfig.Grammar

/-- Bytes of a text, from `start` up to but without `stop`. -/
structure Span where
  start : Nat
  stop : Nat
  deriving DecidableEq, Repr, Inhabited

/-- How a word is written: bare, as digits only, or between quotation marks. -/
inductive Form
  | plain
  | digits
  | quoted
  deriving DecidableEq, Repr, Inhabited

structure Word where
  form : Form
  text : String
  deriving DecidableEq, Repr, Inhabited

inductive Token
  | openBrace
  | closeBrace
  | newline
  | null
  | word (w : Word)
  deriving DecidableEq, Repr, Inhabited

structure Lexeme where
  token : Token
  span : Span
  deriving DecidableEq, Repr, Inhabited

/-- What a word stands for in the place of a value. -/
def Word.value : Word → Value
  | ⟨.plain, text⟩ => .ofWord text
  | ⟨.digits, text⟩ => .ofDigits text
  | ⟨.quoted, text⟩ => .text text

/-- A token as a message names it. -/
def Token.describe : Token → String
  | .openBrace => "'\x7b'"
  | .closeBrace => "'\x7d'"
  | .newline => "end of line"
  | .null => "keyword 'none'"
  | .word ⟨.plain, text⟩ => "word '" ++ text ++ "'"
  | .word ⟨.digits, text⟩ => "number " ++ text
  | .word ⟨.quoted, text⟩ => "string \"" ++ text ++ "\""

end ApplianceConfig.Grammar
