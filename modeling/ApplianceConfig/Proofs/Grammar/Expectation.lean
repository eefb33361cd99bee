import ApplianceConfig.Proofs.Grammar.Stopping

/-!
# What could have come next

An error lists the classes of tokens that could stand where it is. The list belongs to the state that the reader has come to, and it is neither too long nor too short: a token belongs to one of the listed classes exactly if the state takes it. As whatever has been read can be completed, the token then leads on to a document. The end of the input is listed exactly if the document may end there.
-/

namespace ApplianceConfig

namespace Grammar

/-- Holds of the tokens of a class. The end of the input is no token. -/
def Expected.admits : Expected → Token → Bool
  | .openBrace, .openBrace | .closeBrace, .closeBrace | .endOfLine, .newline => true
  | .key, .word _ | .value, .word _ | .value, .null => true
  | _, _ => false

theorem Expected.exists_admits {c : Expected} (h : c ≠ .endOfInput) : ∃ t, c.admits t = true := by
  cases c with
  | openBrace => exact ⟨.openBrace, rfl⟩
  | closeBrace => exact ⟨.closeBrace, rfl⟩
  | endOfInput => exact absurd rfl h
  | endOfLine => exact ⟨.newline, rfl⟩
  | key | value => exact ⟨.word ⟨.plain, "a"⟩, rfl⟩

/-- Holds of tokens in one of several classes. -/
def Listed (classes : List Expected) (t : Token) : Prop := ∃ c ∈ classes, c.admits t = true

@[simp] theorem listed_nil (t : Token) : ¬ Listed [] t := by simp [Listed]

@[simp] theorem listed_cons (c : Expected) (classes : List Expected) (t : Token) :
    Listed (c :: classes) t ↔ c.admits t = true ∨ Listed classes t := by
  simp [Listed]

/-! ### Blocks -/

namespace Block

theorem pairUp_isSome_iff (words : List Word) : (pairUp words).2.isSome = true ↔ words.length % 2 = 1 := by
  fun_induction pairUp words with
  | case1 => simp
  | case2 => simp
  | case3 k v rest ih =>
    rw [ih, List.length_cons, List.length_cons]
    omega

/-- A block takes the tokens that it takes when it is no set. -/
theorem step_isSome_eq (block : Block) (t : Token) :
    (block.step t).isSome = (block.settle.stepEntries t).isSome := by
  cases block with
  | between entries | keyed entries key => rfl
  | fresh words =>
    cases t with
    | word w => rw [settle_step_word, step, Option.isSome_some, Option.isSome_some]
    | closeBrace =>
      obtain ⟨v, hfinish⟩ := exists_finish (.fresh words)
      rw [hfinish, settle]
      rcases pairUp words with ⟨entries, _ | key⟩ <;> rfl
    | openBrace | newline | null => cases words <;> rfl

/-- A fresh block lists what it lists when it is no set. The keys behind a lone one are values then. -/
theorem listed_settle (block : Block) (t : Token) : Listed block.settle.expected t ↔ Listed block.expected t := by
  cases block with
  | between entries | keyed entries key => rfl
  | fresh words =>
    have hlength := pairUp_isSome_iff words
    rw [settle]
    rcases hpairs : pairUp words with ⟨entries, _ | key⟩
    · have heven : words.length % 2 = 0 := by simpa [hpairs] using hlength
      rw [expected, expected, if_pos heven]
    · have hodd : words.length % 2 = 1 := by simpa [hpairs] using hlength
      cases t <;> simp [expected, hodd, Expected.admits]

theorem step_isSome_iff {block : Block} {t : Token} : (block.step t).isSome = true ↔ Listed block.expected t := by
  rw [step_isSome_eq, ← listed_settle]
  cases hsettled : block.settle with
  | fresh words => exact absurd hsettled (block.settle_ne_fresh words)
  | between entries | keyed entries key => cases t <;> simp [stepEntries, expected, Expected.admits]

theorem endOfInput_not_mem_expected (block : Block) : .endOfInput ∉ block.expected := by
  cases block with
  | fresh words =>
    rw [expected]
    split <;> decide
  | between entries | keyed entries key => simp [expected]

end Block

/-! ### States -/

namespace State

/-- A state takes exactly the tokens of the classes that it lists. -/
theorem step_isSome_iff {s : State} {t : Token} : (s.step t).isSome = true ↔ Listed s.expected t := by
  cases s with
  | between doc | keyed doc key more | ended doc => cases t <;> simp [step, expected, Expected.admits]
  | inside doc key more outer block => rw [step, Option.isSome_map, Block.step_isSome_iff, expected]

/-- A document can end in exactly the states that list the end of the input. -/
theorem finish?_isSome_iff {s : State} : s.finish?.isSome = true ↔ .endOfInput ∈ s.expected := by
  cases s with
  | between doc | keyed doc key more | ended doc => simp [finish?, expected]
  | inside doc key more outer block => simp [finish?, expected, block.endOfInput_not_mem_expected]

end State

theorem viable_append_iff {front : List Lexeme} {l : Lexeme} {s : State}
    (hfront : State.after? (.between []) (front.map Lexeme.token) = some s) :
    Viable (front ++ [l]) ↔ Listed s.expected l.token := by
  rw [viable_iff, List.map_append, State.after?_append, hfront, Option.bind_some, List.map_singleton,
    State.after?_cons, ← State.step_isSome_iff, Option.isSome_iff_exists]
  cases s.step l.token <;> simp [State.after?]

theorem exists_read_iff {front : List Lexeme} {s : State}
    (hfront : State.after? (.between []) (front.map Lexeme.token) = some s) :
    (∃ doc, read (.between []) front = .ok doc) ↔ .endOfInput ∈ s.expected := by
  have haccept := State.accept?_append (.between []) (front.map Lexeme.token) []
  rw [List.append_nil, hfront, Option.bind_some] at haccept
  simp only [read_eq_ok_iff, haccept, State.accept?, ← State.finish?_isSome_iff, Option.isSome_iff_exists]

/-- Holds of the number of the lexeme that an error names. An end that comes too early has the number behind all lexemes. -/
def Error.IsAt (e : Error) (lexemes : List Lexeme) (i : Nat) : Prop :=
  match lexemes[i]? with
  | some l => e.cause = .unexpected l.token ∧ e.span = l.span
  | none => i = lexemes.length ∧ e.cause = .unexpectedEnd

theorem isAt_toError (text : String) (front rest : List Lexeme) (expected : List Expected) :
    (Failure.toError text (front ++ rest) ⟨rest.head?, expected⟩).IsAt (front ++ rest) front.length := by
  cases rest with
  | nil => simp [Error.IsAt, Failure.toError]
  | cons l rest => simp [Error.IsAt, Failure.toError]

end Grammar

namespace Document

open Grammar

theorem exists_failure_of_parse_error {text : String} {lexemes : List Lexeme} {e : Error}
    (hlex : tokens text = .ok lexemes) (hparse : Document.parse text = .error e) :
    ∃ failure, read (.between []) lexemes = .error failure ∧ e = failure.toError text lexemes := by
  unfold Document.parse at hparse
  simp only [hlex] at hparse
  cases hread : read (.between []) lexemes with
  | ok entries => simp [hread] at hparse
  | error failure =>
    rw [hread] at hparse
    exact ⟨failure, rfl, (Except.error.inj hparse).symm⟩

/-- What an error lists is what could come next. Each class that is listed has a token that can stand behind the lexemes in front of the error and be completed to a document, each token that can do so is in a class that is listed, and the end of the input is listed exactly if those lexemes are a document themselves. -/
theorem parse_error_expected {text : String} {lexemes : List Lexeme} {e : Error}
    (hlex : tokens text = .ok lexemes) (hparse : Document.parse text = .error e) :
    ∃ i ≤ lexemes.length, e.IsAt lexemes i ∧
      (∀ c ∈ e.expected, c ≠ .endOfInput →
        ∃ l : Lexeme, c.admits l.token = true ∧ Viable (lexemes.take i ++ [l])) ∧
      (∀ l, Viable (lexemes.take i ++ [l]) → ∃ c ∈ e.expected, c.admits l.token = true) ∧
      (.endOfInput ∈ e.expected ↔ ∃ doc, read (.between []) (lexemes.take i) = .ok doc) := by
  obtain ⟨failure, hread, rfl⟩ := exists_failure_of_parse_error hlex hparse
  obtain ⟨front, rest, s, rfl, hfront, -, rfl⟩ := exists_stuck_of_read_error hread
  have hexpected : (Failure.toError text (front ++ rest) ⟨rest.head?, s.expected⟩).expected = s.expected := by
    cases rest <;> rfl
  refine ⟨front.length, by simp, isAt_toError text front rest s.expected, ?_⟩
  rw [List.take_left, hexpected]
  refine ⟨?_, fun l => (viable_append_iff hfront).mp, (exists_read_iff hfront).symm⟩
  intro c hc hclass
  obtain ⟨t, ht⟩ := Expected.exists_admits hclass
  exact ⟨⟨t, ⟨0, 0⟩⟩, ht, (viable_append_iff hfront).mpr ⟨c, hc, ht⟩⟩

/-- Behind `none` a line ends, and the document may end with it. -/
theorem parse_error_expected_behindNone :
    let text := "a b none c"
    ∃ lexemes e, tokens text = .ok lexemes ∧ Document.parse text = .error e ∧
      e.expected = [.endOfInput, .endOfLine] ∧
      ∃ i ≤ lexemes.length, e.IsAt lexemes i ∧
        (∀ c ∈ e.expected, c ≠ .endOfInput →
          ∃ l : Lexeme, c.admits l.token = true ∧ Viable (lexemes.take i ++ [l])) ∧
        (∀ l, Viable (lexemes.take i ++ [l]) → ∃ c ∈ e.expected, c.admits l.token = true) ∧
        (.endOfInput ∈ e.expected ↔ ∃ doc, read (.between []) (lexemes.take i) = .ok doc) := by
  intro text
  have hlex : tokens text = .ok
      [⟨.word ⟨.plain, "a"⟩, ⟨0, 1⟩⟩, ⟨.word ⟨.plain, "b"⟩, ⟨2, 3⟩⟩, ⟨.null, ⟨4, 8⟩⟩,
        ⟨.word ⟨.plain, "c"⟩, ⟨9, 10⟩⟩] := by cbv
  have hparse : Document.parse text =
      .error ⟨.unexpected (.word ⟨.plain, "c"⟩), ⟨9, 10⟩, [.endOfInput, .endOfLine]⟩ := by cbv
  exact ⟨_, _, hlex, hparse, rfl, parse_error_expected hlex hparse⟩

end Document

end ApplianceConfig
