import ApplianceConfig.Grammar.Reader
import ApplianceConfig.Proofs.Grammar.Productions

/-!
# The grammar as ordered choices

The grammar once more, now as a program. A production takes tokens from the front. Productions stand one behind another, and where there is a choice its alternatives are tried in order, each from the same place, until one succeeds: a set before a group, and in a line a scalar that ends it before a key that goes on.

Whatever is looked for in vain is noted with the place where it was, also when another alternative succeeds later. The notes at the furthest place are what a failure reports.
-/

namespace ApplianceConfig.Grammar

/-- A class of tokens that was looked for in vain, where `left` tokens were left. -/
structure Note where
  left : Nat
  missing : Expected
  deriving DecidableEq, Repr

/-- What comes of a production: its value and the tokens behind it, if it succeeds, and what was noted on the way. -/
structure Outcome (α : Type) where
  result : Option (α × List Token)
  notes : List Note

def Production (α : Type) : Type := List Token → Outcome α

namespace Production

variable {α β : Type}

instance : Monad Production where
  pure a := fun ts => ⟨some (a, ts), []⟩
  bind p f := fun ts =>
    match p ts with
    | ⟨none, notes⟩ => ⟨none, notes⟩
    | ⟨some (a, rest), notes⟩ => ⟨(f a rest).result, notes ++ (f a rest).notes⟩

instance : OrElse (Production α) where
  orElse p q := fun ts =>
    match p ts with
    | ⟨none, notes⟩ => ⟨(q () ts).result, notes ++ (q () ts).notes⟩
    | outcome => outcome

def fail : Production α := fun _ => ⟨none, []⟩

/-- One token, noted as `missing` if it stands for nothing here. -/
def take (missing : Expected) (value? : Token → Option α) : Production α
  | [] => ⟨none, [⟨0, missing⟩]⟩
  | t :: ts =>
    match value? t with
    | some a => ⟨some (a, ts), []⟩
    | none => ⟨none, [⟨ts.length + 1, missing⟩]⟩

def mark (missing : Expected) (t : Token) : Production Unit :=
  take missing fun u => if u = t then some () else none

/-- The end of the tokens. -/
def finished : Production Unit
  | [] => ⟨some ((), []), []⟩
  | t :: ts => ⟨none, [⟨(t :: ts).length, .endOfInput⟩]⟩

/-- What has to be there but is left where it is. -/
def ahead (p : Production α) : Production α := fun ts => ⟨(p ts).result.map fun (a, _) => (a, ts), (p ts).notes⟩

/-- A production that occurs in its own description, down to a depth. -/
def nested (describe : Production α → Production α) : Nat → Production α
  | 0 => fail
  | depth + 1 => describe (nested describe depth)

/-- A production that occurs in its own description, each time behind some token. So it is never nested deeper than there are tokens. -/
def recursive (describe : Production α → Production α) : Production α :=
  fun ts => nested describe (ts.length + 1) ts

/-- One `item` and `more` of them, or none. -/
def another (item : Production α) (more : Production (List α)) : Production (List α) :=
  (do
    let a ← item
    let as ← more
    return a :: as) <|> pure []

/-- As many of a production as there are. -/
def many (item : Production α) : Production (List α) := recursive (another item)

end Production

/-! ### The productions -/

def Token.key? : Token → Option String
  | .word w => some w.text
  | _ => none

namespace Descent

open Production

def newline : Production Unit := mark .endOfLine .newline

def newlines : Production (List Unit) := many newline

def openBrace : Production Unit := mark .openBrace .openBrace

def closeBrace : Production Unit := mark .closeBrace .closeBrace

def key : Production String := take .key Token.key?

def scalar : Production Value := take .value Token.scalar?

/-- Keys in braces. A line feed is no key, so they stand on one line. -/
def set : Production Value := do
  openBrace
  let first ← key
  let more ← many key
  closeBrace
  return .set (first :: more)

/-- A key, what stands behind it, and the line feeds behind that. -/
def entry (tail : Production Value) : Production (String × Value) := do
  let name ← key
  let v ← tail
  let _ ← newlines
  return (name, v)

/-- What stands behind a key in a group. A key alone is ended by the closing brace, too. -/
def entryTail (group : Production Value) : Production Value :=
  set <|> group <|> scalar <|> do
    ahead (newline <|> closeBrace)
    return .toggle

/-- A group whose inner groups are read by `inner`. -/
def groupOf (inner : Production Value) : Production Value := do
  openBrace
  let _ ← newlines
  let entries ← many (entry (entryTail inner))
  closeBrace
  return .block (mergeInto entries [])

def group : Production Value := recursive groupOf

def endOfLine : Production Unit := ahead (newline <|> finished)

/-- A scalar that ends its line. -/
def lastScalar : Production Value := do
  let v ← scalar
  endOfLine
  return v

/-- A key of a chain, the rest of which is read by `rest`. -/
def chained (rest : Production Value) : Production Value := do
  let name ← key
  let v ← rest
  return .map .chained [(name, v)]

/-- What stands behind a key of a line. The word of a scalar that does not end the line is the next key of a chain. -/
def lineTailOf (rest : Production Value) : Production Value :=
  set <|> group <|> lastScalar <|> chained rest <|> do
    endOfLine
    return .toggle

def lineTail : Production Value := recursive lineTailOf

def document : Production Entries := do
  let _ ← newlines
  let lines ← many (entry lineTail)
  finished
  return mergeInto lines []

end Descent

/-! ### Runs of productions -/

namespace Production

variable {α β : Type} {p q r : Production α} {f : α → Production β} {ts rest : List Token} {a : α}
  {notes : List Note}

theorem bind_of_some (h : p ts = ⟨some (a, rest), notes⟩) :
    (p >>= f) ts = ⟨(f a rest).result, notes ++ (f a rest).notes⟩ := by
  change (match p ts with | ⟨none, notes⟩ => _ | ⟨some (a, rest), notes⟩ => _) = _
  rw [h]

theorem bind_of_taken (h : p ts = ⟨some (a, rest), []⟩) : (p >>= f) ts = f a rest := bind_of_some h

theorem bind_of_none (h : p ts = ⟨none, notes⟩) : (p >>= f) ts = ⟨none, notes⟩ := by
  change (match p ts with | ⟨none, notes⟩ => _ | ⟨some (a, rest), notes⟩ => _) = _
  rw [h]

theorem orElse_of_some (h : p ts = ⟨some (a, rest), notes⟩) : (p <|> q) ts = ⟨some (a, rest), notes⟩ := by
  change (match p ts with | ⟨none, notes⟩ => _ | outcome => outcome) = _
  rw [h]

theorem orElse_of_none (h : p ts = ⟨none, notes⟩) : (p <|> q) ts = ⟨(q ts).result, notes ++ (q ts).notes⟩ := by
  change (match p ts with | ⟨none, notes⟩ => _ | outcome => outcome) = _
  rw [h]

theorem orElse_assoc : (p <|> q <|> r) ts = ((p <|> q) <|> r) ts := by
  rcases hp : p ts with ⟨_ | ⟨a, rest⟩, notes⟩
  · rcases hq : q ts with ⟨_ | ⟨a, rest⟩, more⟩
    · rw [orElse_of_none hp, orElse_of_none hq, orElse_of_none ((orElse_of_none hp).trans (by rw [hq])),
        List.append_assoc]
    · rw [orElse_of_none hp, orElse_of_some hq, orElse_of_some ((orElse_of_none hp).trans (by rw [hq]))]
  · rw [orElse_of_some hp, orElse_of_some (orElse_of_some hp)]

theorem take_of_some {c : Expected} {value? : Token → Option α} {t : Token} (h : value? t = some a) :
    take c value? (t :: ts) = ⟨some (a, ts), []⟩ := by
  rw [take, h]

theorem take_of_none {c : Expected} {value? : Token → Option α} (h : ∀ t ∈ ts.head?, value? t = none) :
    take c value? ts = ⟨none, [⟨ts.length, c⟩]⟩ := by
  cases ts with
  | nil => rfl
  | cons t ts =>
    rw [take, h t rfl]
    rfl

theorem mark_cons (c : Expected) (t : Token) (ts : List Token) : mark c t (t :: ts) = ⟨some ((), ts), []⟩ :=
  take_of_some (if_pos rfl)

theorem mark_of_ne {c : Expected} {t : Token} (h : ts.head? ≠ some t) :
    mark c t ts = ⟨none, [⟨ts.length, c⟩]⟩ := by
  refine take_of_none fun u hu => if_neg ?_
  rintro rfl
  exact h hu

theorem finished_cons (t : Token) (ts : List Token) :
    finished (t :: ts) = ⟨none, [⟨(t :: ts).length, .endOfInput⟩]⟩ := rfl

theorem many_of_none (h : p ts = ⟨none, notes⟩) : many p ts = ⟨some ([], ts), notes⟩ := by
  have hnone : another p (nested (another p) ts.length) ts = ⟨some ([], ts), notes ++ []⟩ :=
    orElse_of_none (bind_of_none h)
  rwa [List.append_nil] at hnone

theorem many_cons {t : Token} {as : List α} (h : p (t :: ts) = ⟨some (a, ts), []⟩)
    (hmore : many p ts = ⟨some (as, rest), notes⟩) : many p (t :: ts) = ⟨some (a :: as, rest), notes⟩ := by
  have hrest : nested (another p) (t :: ts).length ts = ⟨some (as, rest), notes⟩ := hmore
  refine orElse_of_some ((bind_of_some h).trans ?_)
  rw [bind_of_some hrest]
  exact congrArg _ (List.append_nil notes)

end Production

namespace Descent

open Production

variable {ts us : List Token}

theorem openBrace_cons (ts : List Token) : openBrace (.openBrace :: ts) = ⟨some ((), ts), []⟩ := rfl

theorem closeBrace_cons (ts : List Token) : closeBrace (.closeBrace :: ts) = ⟨some ((), ts), []⟩ := rfl

theorem closeBrace_of_ne (h : ts.head? ≠ some .closeBrace) :
    closeBrace ts = ⟨none, [⟨ts.length, .closeBrace⟩]⟩ := mark_of_ne h

theorem scalar_of_some {t : Token} {v : Value} (h : t.scalar? = some v) (ts : List Token) :
    scalar (t :: ts) = ⟨some (v, ts), []⟩ := take_of_some h

theorem key_cons (w : Word) (ts : List Token) : key (.word w :: ts) = ⟨some (w.text, ts), []⟩ := rfl

theorem key_of_ne (h : ∀ w, ts.head? ≠ some (.word w)) : key ts = ⟨none, [⟨ts.length, .key⟩]⟩ := by
  refine take_of_none fun t ht => ?_
  cases t with
  | word w => exact absurd ht (h w)
  | openBrace | closeBrace | newline | null => rfl

theorem many_key (words : List Word) (h : ∀ w, us.head? ≠ some (.word w)) :
    many key (words.map .word ++ us) = ⟨some (words.map Word.text, us), [⟨us.length, .key⟩]⟩ := by
  induction words with
  | nil => exact many_of_none (key_of_ne h)
  | cons w words ih => exact many_cons (key_cons w _) ih

theorem exists_newlines (ts : List Token) :
    ∃ lines us, newlines ts = ⟨some (lines, us), [⟨us.length, .endOfLine⟩]⟩ ∧ Newlines ts us ∧
      us.head? ≠ some .newline := by
  have hstop (ts : List Token) (hhead : ts.head? ≠ some .newline) :
      newlines ts = ⟨some ([], ts), [⟨ts.length, .endOfLine⟩]⟩ := many_of_none (mark_of_ne hhead)
  induction ts with
  | nil => exact ⟨[], [], hstop [] (by simp), .done, by simp⟩
  | cons t ts ih =>
    by_cases hnewline : t = .newline
    · subst hnewline
      obtain ⟨lines, us, hmore, hlines, hus⟩ := ih
      exact ⟨() :: lines, us, many_cons (mark_cons _ _ _) hmore, .skip hlines, hus⟩
    · have hhead : (t :: ts).head? ≠ some .newline := by simpa using hnewline
      exact ⟨[], _, hstop _ hhead, .done, hhead⟩

theorem set_of_ne (h : ts.head? ≠ some .openBrace) : set ts = ⟨none, [⟨ts.length, .openBrace⟩]⟩ :=
  bind_of_none (mark_of_ne h)

theorem groupOf_of_ne (inner : Production Value) (h : ts.head? ≠ some .openBrace) :
    groupOf inner ts = ⟨none, [⟨ts.length, .openBrace⟩]⟩ := bind_of_none (mark_of_ne h)

theorem set_of_keys {keys : List Word} (hkeys : keys ≠ []) (rest : List Token) :
    set (.openBrace :: (keys.map .word ++ .closeBrace :: rest)) =
      ⟨some (.set (keys.map Word.text), rest), [⟨rest.length + 1, .key⟩]⟩ := by
  obtain ⟨first, more, rfl⟩ := List.exists_cons_of_ne_nil hkeys
  have hword (w : Word) : (Token.closeBrace :: rest).head? ≠ some (.word w) := by simp
  refine (bind_of_taken (openBrace_cons _)).trans ((bind_of_taken (key_cons first _)).trans ?_)
  exact bind_of_some (many_key more hword)

/-- Words that are not closed at once are no set. -/
theorem exists_set_of_words (words : List Word) (hword : ∀ w, us.head? ≠ some (.word w))
    (hclose : us.head? = some .closeBrace → words = []) :
    ∃ notes, set (.openBrace :: (words.map .word ++ us)) = ⟨none, notes⟩ ∧ ⟨us.length, .key⟩ ∈ notes ∧
      ∀ n ∈ notes, n.left = us.length ∧ (n.missing = .key ∨ n.missing = .closeBrace) := by
  cases words with
  | nil =>
    refine ⟨[⟨us.length, .key⟩], ?_, by simp, by simp⟩
    exact (bind_of_taken (openBrace_cons _)).trans (bind_of_none (key_of_ne hword))
  | cons first more =>
    have hmark := closeBrace_of_ne fun h => absurd (hclose h) (List.cons_ne_nil first more)
    refine ⟨[⟨us.length, .key⟩, ⟨us.length, .closeBrace⟩], ?_, by simp, by simp⟩
    refine (bind_of_taken (openBrace_cons _)).trans ((bind_of_taken (key_cons first _)).trans ?_)
    refine (bind_of_some (many_key more hword)).trans ?_
    rw [bind_of_none hmark]
    rfl

end Descent

end ApplianceConfig.Grammar
