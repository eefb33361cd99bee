import ApplianceConfig.Grammar.Token

/-!
# Errors of configuration texts
-/

namespace ApplianceConfig.Grammar

/-- What may stand at a place, in the order in which it is listed. -/
inductive Expected
  | openBrace
  | closeBrace
  | endOfInput
  | endOfLine
  | key
  | value
  deriving DecidableEq, Repr

def Expected.describe : Expected → String
  | .openBrace => "'\x7b'"
  | .closeBrace => "'\x7d'"
  | .endOfInput => "end of input"
  | .endOfLine => "end of line"
  | .key => "key"
  | .value => "value"

/-- Why a text is no document: characters that are no token, a token that cannot stand where it does, or an end that comes too early. -/
inductive Cause
  | unrecognized (text : String)
  | unexpected (token : Token)
  | unexpectedEnd
  deriving DecidableEq, Repr

structure Error where
  cause : Cause
  span : Span
  expected : List Expected
  deriving DecidableEq, Repr

def Error.message (e : Error) : String :=
  match e.cause with
  | .unrecognized text => "Unrecognized input '" ++ text ++ "'"
  | .unexpected token => "Unexpected " ++ token.describe
  | .unexpectedEnd => "Unexpected end of input"

def Error.display (e : Error) : String :=
  "template parse error at " ++ toString e.span.start ++ ".." ++ toString e.span.stop ++ ": " ++
    e.message

end ApplianceConfig.Grammar
