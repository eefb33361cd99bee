import ApplianceConfig.Proofs.Grammar.Lexing
import ApplianceConfig.Proofs.Grammar.Reading
import Mathlib

/-!
# Where reading stops

Nothing that has been read stands in the way of a document: from each state some tokens lead to its end, the open blocks need only be closed. So the reader goes on as long as what it has read can be completed, and the token that it stops at is the first one that no others can make good.

An end that comes too early has a place of its own. It lies behind the last token, and at the end of the text only if nothing stands between the two.
-/

namespace ApplianceConfig

namespace Grammar

namespace State

/-- The state that tokens lead to, if each of them can follow those before it. -/
def after? (s : State) (ts : List Token) : Option State := ts.foldlM step s

theorem after?_cons (s : State) (t : Token) (ts : List Token) :
    s.after? (t :: ts) = (s.step t).bind (after? · ts) := by
  rw [after?, List.foldlM_cons]
  rfl

theorem after?_append (s : State) (ts us : List Token) :
    s.after? (ts ++ us) = (s.after? ts).bind (after? · us) := by
  rw [after?, List.foldlM_append]
  rfl

theorem accept?_append (s : State) (ts us : List Token) :
    s.accept? (ts ++ us) = (s.after? ts).bind (accept? · us) := by
  induction ts generalizing s with
  | nil => rfl
  | cons t ts ih =>
    rw [List.cons_append, accept?, after?_cons]
    cases s.step t with
    | none => rfl
    | some next => exact ih next

end State

/-! ### Completing what has been read -/

/-- A closing brace ends each block. -/
theorem Block.exists_finish (block : Block) : ∃ v, block.step .closeBrace = some (.finish v) := by
  cases block with
  | fresh words => cases words <;> exact ⟨_, rfl⟩
  | between entries | keyed entries key => exact ⟨_, rfl⟩

/-- Closing braces, as many as there are open blocks. -/
def State.completion : State → List Token
  | .inside _ _ _ outer _ => .closeBrace :: outer.map fun _ => .closeBrace
  | .between _ | .keyed .. | .ended _ => []

theorem State.exists_accept?_completion (s : State) : ∃ entries, s.accept? s.completion = some entries := by
  cases s with
  | between doc | keyed doc key more | ended doc => exact ⟨_, rfl⟩
  | inside doc key more outer block =>
    induction outer generalizing block with
    | nil =>
      obtain ⟨v, hfinish⟩ := block.exists_finish
      have hstep : step (.inside doc key more [] block) .closeBrace = some (close doc key more v []) := by
        rw [step, hfinish]
        rfl
      exact ⟨_, accept?_of_step hstep []⟩
    | cons o outer ih =>
      obtain ⟨v, hfinish⟩ := block.exists_finish
      have hstep : step (.inside doc key more (o :: outer) block) .closeBrace =
          some (close doc key more v (o :: outer)) := by
        rw [step, hfinish]
        rfl
      obtain ⟨entries, hrest⟩ := ih (.between (o.entries.mergeEntry o.key v))
      exact ⟨entries, (accept?_of_step hstep _).trans hrest⟩

/-- Holds of tokens that others can be put behind so that a document is read. -/
def Viable (lexemes : List Lexeme) : Prop := ∃ more doc, read (.between []) (lexemes ++ more) = .ok doc

/-- What can be read so far can be completed, and nothing else can. -/
theorem viable_iff {lexemes : List Lexeme} :
    Viable lexemes ↔ ∃ s, State.after? (.between []) (lexemes.map Lexeme.token) = some s := by
  constructor
  · rintro ⟨more, doc, hread⟩
    rw [read_eq_ok_iff, List.map_append, State.accept?_append] at hread
    obtain ⟨s, hs, -⟩ := Option.bind_eq_some_iff.mp hread
    exact ⟨s, hs⟩
  · rintro ⟨s, hs⟩
    obtain ⟨entries, haccept⟩ := s.exists_accept?_completion
    refine ⟨s.completion.map fun t => ⟨t, ⟨0, 0⟩⟩, entries, ?_⟩
    have htokens : (s.completion.map fun t => (⟨t, ⟨0, 0⟩⟩ : Lexeme)).map Lexeme.token = s.completion := by
      rw [List.map_map]
      exact List.map_id _
    rw [read_eq_ok_iff, List.map_append, State.accept?_append, hs, htokens]
    exact haccept

/-! ### Stopping -/

/-- Holds where a state cannot take the next token, or cannot end. -/
def State.Stuck (s : State) : List Lexeme → Prop
  | [] => s.finish? = none
  | l :: _ => s.step l.token = none

/-- Reading that fails has come to a state that is stuck. -/
theorem exists_stuck_of_read_error {s : State} {lexemes : List Lexeme} {failure : Failure}
    (h : read s lexemes = .error failure) :
    ∃ front rest last, lexemes = front ++ rest ∧ s.after? (front.map Lexeme.token) = some last ∧
      last.Stuck rest ∧ failure = ⟨rest.head?, last.expected⟩ := by
  induction lexemes generalizing s with
  | nil =>
    rw [read] at h
    cases hfinish : s.finish? with
    | none =>
      rw [hfinish] at h
      cases h
      exact ⟨[], [], s, rfl, rfl, hfinish, rfl⟩
    | some doc =>
      rw [hfinish] at h
      cases h
  | cons l lexemes ih =>
    rw [read] at h
    cases hstep : s.step l.token with
    | none =>
      rw [hstep] at h
      cases h
      exact ⟨[], l :: lexemes, s, rfl, rfl, hstep, rfl⟩
    | some next =>
      rw [hstep] at h
      obtain ⟨front, rest, last, rfl, hfront, hstuck, hfailure⟩ := ih h
      refine ⟨l :: front, rest, last, rfl, ?_, hstuck, hfailure⟩
      rw [List.map_cons, State.after?_cons, hstep]
      exact hfront

theorem not_viable_of_stuck {front rest : List Lexeme} {l : Lexeme} {s : State}
    (hfront : State.after? (.between []) (front.map Lexeme.token) = some s) (hstuck : s.Stuck (l :: rest)) :
    ¬ Viable (front ++ [l]) := by
  rw [viable_iff, List.map_append, State.after?_append, hfront]
  rintro ⟨next, hnext⟩
  rw [List.map_singleton, Option.bind_some, State.after?_cons, show s.step l.token = none from hstuck] at hnext
  cases hnext

/-! ### Places -/

/-- No token reaches beyond the text that it is cut from. -/
theorem stop_le_of_mem_tokens {text : String} {lexemes : List Lexeme} (h : tokens text = .ok lexemes)
    {l : Lexeme} (hl : l ∈ lexemes) : l.span.stop ≤ text.utf8ByteSize := by
  obtain ⟨front, c, rest, n, hcs, -, hspan⟩ := cutFrom_of_mem h hl
  have htext : text.utf8ByteSize = byteLength (front ++ c :: rest.take n) + byteLength (rest.drop n) := by
    rw [← byteLength_append, List.append_assoc, List.cons_append, List.take_append_drop, ← hcs,
      ← utf8ByteSize_ofList, String.ofList_toList]
  rw [htext, hspan]
  simp

end Grammar

namespace Document

open Grammar

/-- A text of tokens that is no document has a first token that cannot be made good, or ends too early. The error names that token and its place, or it is that of an early end. Its place then reaches from the end of the text to the end of the last token: it is the empty place at the end of the text exactly when the last token ends there, and starts behind its own end otherwise. -/
theorem parse_error_viable {text : String} {lexemes : List Lexeme} {e : Error}
    (hlex : tokens text = .ok lexemes) (hparse : Document.parse text = .error e) :
    ∃ i ≤ lexemes.length, Viable (lexemes.take i) ∧
      ((∃ l, lexemes[i]? = some l ∧ e.span = l.span ∧ e.message = "Unexpected " ++ l.token.describe ∧
          ¬ Viable (lexemes.take (i + 1))) ∨
        (i = lexemes.length ∧ e.message = "Unexpected end of input" ∧
          ∃ last, lexemes.getLast? = some last ∧ last.span.stop ≤ text.utf8ByteSize ∧
            e.span = ⟨text.utf8ByteSize, last.span.stop⟩)) := by
  unfold Document.parse at hparse
  simp only [hlex] at hparse
  cases hread : read (.between []) lexemes with
  | ok entries =>
    rw [hread] at hparse
    cases hparse
  | error failure =>
    rw [hread] at hparse
    cases hparse
    obtain ⟨front, rest, s, rfl, hfront, hstuck, rfl⟩ := exists_stuck_of_read_error hread
    have hviable : Viable ((front ++ rest).take front.length) := by
      rw [List.take_left]
      exact viable_iff.mpr ⟨s, hfront⟩
    refine ⟨front.length, by simp, hviable, ?_⟩
    cases rest with
    | cons l rest =>
      refine .inl ⟨l, by simp, rfl, rfl, ?_⟩
      have htake : (front ++ l :: rest).take (front.length + 1) = front ++ [l] := by
        rw [List.append_cons, List.take_left' (by simp)]
      rw [htake]
      exact not_viable_of_stuck hfront hstuck
    | nil =>
      refine .inr ⟨by simp, rfl, ?_⟩
      cases hlast : (front ++ []).getLast? with
      | none =>
        -- without tokens the document is empty
        rw [List.append_nil, List.getLast?_eq_none_iff] at hlast
        subst hlast
        cases hfront
        cases hstuck
      | some last =>
        refine ⟨last, rfl, stop_le_of_mem_tokens hlex (List.mem_of_getLast? hlast), ?_⟩
        simp only [Failure.toError, List.head?_nil, endSpan, hlast]

/-- The second `none` is the first word that cannot stand where it does. -/
theorem parse_error_viable_secondNone :
    let text := "a \x7b b none none \x7d"
    ∃ lexemes e, tokens text = .ok lexemes ∧ Document.parse text = .error e ∧
      ∃ i ≤ lexemes.length, Viable (lexemes.take i) ∧
        ((∃ l, lexemes[i]? = some l ∧ e.span = l.span ∧ e.message = "Unexpected " ++ l.token.describe ∧
            ¬ Viable (lexemes.take (i + 1))) ∨
          (i = lexemes.length ∧ e.message = "Unexpected end of input" ∧
            ∃ last, lexemes.getLast? = some last ∧ last.span.stop ≤ text.utf8ByteSize ∧
              e.span = ⟨text.utf8ByteSize, last.span.stop⟩)) := by
  intro text
  have hlex : tokens text = .ok
      [⟨.word ⟨.plain, "a"⟩, ⟨0, 1⟩⟩, ⟨.openBrace, ⟨2, 3⟩⟩, ⟨.word ⟨.plain, "b"⟩, ⟨4, 5⟩⟩, ⟨.null, ⟨6, 10⟩⟩,
        ⟨.null, ⟨11, 15⟩⟩, ⟨.closeBrace, ⟨16, 17⟩⟩] := by cbv
  have hparse : Document.parse text =
      .error ⟨.unexpected .null, ⟨11, 15⟩, [.closeBrace, .endOfLine, .key]⟩ := by cbv
  exact ⟨_, _, hlex, hparse, parse_error_viable hlex hparse⟩

/-- With a blank behind the last token, the place of an early end is neither that of a token nor the empty one at the end of the text. -/
theorem parse_error_reversed :
    let text := "a \x7b "
    ∃ lexemes e, tokens text = .ok lexemes ∧ Document.parse text = .error e ∧
      (∀ l ∈ lexemes, e.span ≠ l.span) ∧ e.span ≠ ⟨text.utf8ByteSize, text.utf8ByteSize⟩ := by
  intro text
  have hlex : tokens text = .ok [⟨.word ⟨.plain, "a"⟩, ⟨0, 1⟩⟩, ⟨.openBrace, ⟨2, 3⟩⟩] := by cbv
  have hparse : Document.parse text =
      .error ⟨.unexpectedEnd, ⟨4, 3⟩, [.closeBrace, .endOfLine, .key]⟩ := by cbv
  exact ⟨_, _, hlex, hparse, by decide, by decide⟩

end Document

end ApplianceConfig
