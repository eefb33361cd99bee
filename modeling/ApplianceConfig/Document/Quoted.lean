import ApplianceConfig.Text.Blank

/-!
# Quoted text

A text that is empty or holds white space is written between quotation marks, any other text as it is. Inside the marks a backslash, a quotation mark, a carriage return, a backspace and a form feed are written with a backslash in front; all else, line feeds and tabs included, stands for itself.
-/

namespace ApplianceConfig.Quoted

/-- What a character is written as between quotation marks. -/
def escape : Char → List Char
  | '\\' => ['\\', '\\']
  | '"' => ['\\', '"']
  | '\r' => ['\\', 'r']
  | '\x08' => ['\\', 'b']
  | '\x0c' => ['\\', 'f']
  | c => [c]

/-- The character that a backslash and the given character stand for. -/
def unescape : Char → Char
  | 'n' => '\n'
  | 't' => '\t'
  | 'r' => '\r'
  | 'b' => '\x08'
  | 'f' => '\x0c'
  | c => c

/-- Reads back what stands between quotation marks. -/
def decode : List Char → List Char
  | '\\' :: c :: rest => unescape c :: decode rest
  | c :: rest => c :: decode rest
  | [] => []

def needsQuotes (s : String) : Bool := s.isEmpty || s.toList.any Text.isBlank

/-- A text as it is written in a document. -/
def encode (s : String) : String :=
  if needsQuotes s then String.ofList ('"' :: s.toList.flatMap escape ++ ['"']) else s

theorem decode_escape (c : Char) (rest : List Char) :
    decode (escape c ++ rest) = c :: decode rest := by
  unfold escape
  split <;> simp_all [decode, unescape]

theorem decode_flatMap_escape (cs : List Char) : decode (cs.flatMap escape) = cs := by
  induction cs with
  | nil => rfl
  | cons c cs ih => rw [List.flatMap_cons, decode_escape, ih]

end ApplianceConfig.Quoted
