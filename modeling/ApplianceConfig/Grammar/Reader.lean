import ApplianceConfig.Document.Merge
import ApplianceConfig.Grammar.Error
import ApplianceConfig.Grammar.Lexer

/-!
# From tokens to documents

Tokens are read one at a time. A line of words at the top level is a chain of keys that ends with its value, with a brace block, or with a key that stands alone. A brace block that holds words only, all on the line of its brace, is a set; any other block holds entries. Until a block's first token that is no word, both readings are open, and the words are kept as they came. Trying the alternatives of the grammar one after another comes to the same (`read_iff_document`).
-/

namespace ApplianceConfig.Grammar

def chain (keys : List String) (value : Value) : Value :=
  keys.foldr (fun key inner => .map .chained [(key, inner)]) value

/-- What the words behind a line's first key stand for: the last is the value, those before it are chained keys. -/
def lineValue : List Word → Value
  | [] => .toggle
  | [w] => w.value
  | w :: rest => .map .chained [(w.text, lineValue rest)]

/-- The words of a block read as entries, and the key that is left without a value. -/
def pairUp : List Word → List (String × Value) × Option String
  | [] => ([], none)
  | [k] => ([], some k.text)
  | k :: v :: rest => ((k.text, v.value) :: (pairUp rest).1, (pairUp rest).2)

/-- How far a brace block has been read: only words so far, between entries, or behind a key. -/
inductive Block
  | fresh (words : List Word)
  | between (entries : Entries)
  | keyed (entries : Entries) (key : String)
  deriving Repr

/-- A block whose entry `key` is itself a block that is still being read. -/
structure Outer where
  entries : Entries
  key : String
  deriving Repr

/-- How far a document has been read: between lines, behind the words of a line, behind a line's `none`, or inside the brace block of a line. -/
inductive State
  | between (doc : Entries)
  | keyed (doc : Entries) (key : String) (more : List Word)
  | ended (doc : Entries)
  | inside (doc : Entries) (key : String) (more : List String) (outer : List Outer) (block : Block)
  deriving Repr

/-- What a token does to a block: it goes on, an inner block opens, or the block ends with a value. -/
inductive Move
  | stay (block : Block)
  | descend (outer : Outer)
  | finish (value : Value)

namespace Block

def settle : Block → Block
  | .fresh words =>
    match pairUp words with
    | (entries, none) => .between (mergeInto entries [])
    | (entries, some key) => .keyed (mergeInto entries []) key
  | block => block

def stepEntries : Block → Token → Option Move
  | .between es, .newline => some (.stay (.between es))
  | .between es, .word w => some (.stay (.keyed es w.text))
  | .between es, .closeBrace => some (.finish (.block es))
  | .keyed es key, .newline => some (.stay (.between (Entries.mergeEntry es key .toggle)))
  | .keyed es key, .word w => some (.stay (.between (Entries.mergeEntry es key w.value)))
  | .keyed es key, .null => some (.stay (.between (Entries.mergeEntry es key .absent)))
  | .keyed es key, .openBrace => some (.descend ⟨es, key⟩)
  | .keyed es key, .closeBrace => some (.finish (.block (Entries.mergeEntry es key .toggle)))
  | _, _ => none

def step : Block → Token → Option Move
  | .fresh words, .word w => some (.stay (.fresh (words ++ [w])))
  | .fresh (w :: words), .closeBrace => some (.finish (.set ((w :: words).map Word.text)))
  | block, t => block.settle.stepEntries t

/-- What may come next in a block. A key can follow a lone key of a fresh block because the block may still be a set. -/
def expected : Block → List Expected
  | .fresh words =>
    if words.length % 2 = 0 then [.closeBrace, .endOfLine, .key]
    else [.openBrace, .closeBrace, .endOfLine, .key, .value]
  | .between _ => [.closeBrace, .endOfLine, .key]
  | .keyed .. => [.openBrace, .closeBrace, .endOfLine, .value]

end Block

namespace State

def close (doc : Entries) (key : String) (more : List String) (value : Value) :
    List Outer → State
  | [] => .between (Entries.mergeEntry doc key (chain more value))
  | o :: outer => .inside doc key more outer (.between (Entries.mergeEntry o.entries o.key value))

def step : State → Token → Option State
  | .between doc, .newline => some (.between doc)
  | .between doc, .word w => some (.keyed doc w.text [])
  | .keyed doc key more, .newline =>
    some (.between (Entries.mergeEntry doc key (lineValue more)))
  | .keyed doc key more, .word w => some (.keyed doc key (more ++ [w]))
  | .keyed doc key more, .null =>
    some (.ended (Entries.mergeEntry doc key (chain (more.map Word.text) .absent)))
  | .keyed doc key more, .openBrace => some (.inside doc key (more.map Word.text) [] (.fresh []))
  | .ended doc, .newline => some (.between doc)
  | .inside doc key more outer block, t =>
    (block.step t).map fun
      | .stay block => .inside doc key more outer block
      | .descend o => .inside doc key more (o :: outer) (.fresh [])
      | .finish value => close doc key more value outer
  | _, _ => none

/-- The entries of the document when the text ends here. -/
def finish? : State → Option Entries
  | .between doc => some doc
  | .keyed doc key more => some (Entries.mergeEntry doc key (lineValue more))
  | .ended doc => some doc
  | .inside .. => none

def expected : State → List Expected
  | .between _ => [.endOfInput, .endOfLine, .key]
  | .keyed .. => [.openBrace, .endOfInput, .endOfLine, .key, .value]
  | .ended _ => [.endOfInput, .endOfLine]
  | .inside _ _ _ _ block => block.expected

end State

/-- Where reading stops: the lexeme that cannot follow, or none at the end, and what could. -/
structure Failure where
  lexeme : Option Lexeme
  expected : List Expected

def read (state : State) : List Lexeme → Except Failure Entries
  | [] =>
    match state.finish? with
    | some doc => .ok doc
    | none => .error ⟨none, state.expected⟩
  | l :: rest =>
    match state.step l.token with
    | some next => read next rest
    | none => .error ⟨some l, state.expected⟩

/-- The characters of a text that lie in a span of its bytes. -/
def slice (text : String) (span : Span) : String :=
  String.ofList (within 0 text.toList)
where
  within (pos : Nat) : List Char → List Char
    | [] => []
    | c :: rest =>
      let others := within (pos + c.utf8Size) rest
      if span.start ≤ pos ∧ pos < span.stop then c :: others else others

/-- The place of an end that comes too early. It starts where the text ends and stops behind the last token, so it stops before it starts if blanks or a comment follow that token. -/
def endSpan (text : String) (lexemes : List Lexeme) : Span :=
  let stop := match lexemes.getLast? with
    | some l => l.span.stop
    | none => text.utf8ByteSize
  ⟨text.utf8ByteSize, stop⟩

def Failure.toError (text : String) (lexemes : List Lexeme) (failure : Failure) : Error :=
  match failure.lexeme with
  | some l => ⟨.unexpected l.token, l.span, failure.expected⟩
  | none => ⟨.unexpectedEnd, endSpan text lexemes, failure.expected⟩

end ApplianceConfig.Grammar

namespace ApplianceConfig.Document

open Grammar

def parse (text : String) : Except Error Document :=
  match tokens text with
  | .error span => .error ⟨.unrecognized (slice text span), span, []⟩
  | .ok lexemes =>
    match read (.between []) lexemes with
    | .ok entries => .ok { entries }
    | .error failure => .error (failure.toError text lexemes)

end ApplianceConfig.Document
