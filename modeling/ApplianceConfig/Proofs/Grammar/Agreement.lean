import ApplianceConfig.Proofs.Grammar.Descent

/-!
# Productions that agree with the reader

A production that is tried in some state of the reader takes tokens that lead the reader on to another state, so reading comes to the same from there. What is looked for in vain at a place is something that the state at that place lists. So no note lies further ahead than reading gets, and where reading stops everything that it lists is noted in the end.

What agrees is put together as productions are: one behind another, one instead of another, and as often as it is there.
-/

namespace ApplianceConfig.Grammar

/-- What reading comes to: the entries of a document, or how many tokens are left where it stops and what could come next. -/
abbrev Verdict : Type := Except (Nat × List Expected) Entries

def State.verdict (s : State) : List Token → Verdict
  | [] =>
    match s.finish? with
    | some doc => .ok doc
    | none => .error (0, s.expected)
  | t :: ts =>
    match s.step t with
    | some next => next.verdict ts
    | none => .error (ts.length + 1, s.expected)

namespace Verdict

/-- Holds of notes behind which reading goes on, and where it stops of the notes that are listed. -/
def Allows (v : Verdict) (n : Note) : Prop :=
  ∀ left classes, v = .error (left, classes) → left ≤ n.left ∧ (n.left = left → n.missing ∈ classes)

/-- Reading stops, and everything that it lists has been noted there. -/
def Covered (v : Verdict) (notes : List Note) : Prop :=
  ∃ left classes, v = .error (left, classes) ∧ ∀ c ∈ classes, ⟨left, c⟩ ∈ notes

theorem Covered.mono {v : Verdict} {notes more : List Note} (h : v.Covered notes) (hmore : notes ⊆ more) :
    v.Covered more := by
  obtain ⟨left, classes, hv, hclasses⟩ := h
  exact ⟨left, classes, hv, fun c hc => hmore (hclasses c hc)⟩

end Verdict

namespace State

variable {s : State} {ts : List Token}

theorem verdict_of_step {t : Token} {next : State} (h : s.step t = some next) :
    s.verdict (t :: ts) = next.verdict ts := by
  rw [verdict, h]

theorem verdict_of_stuck {t : Token} (h : s.step t = none) :
    s.verdict (t :: ts) = .error ((t :: ts).length, s.expected) := by
  rw [verdict, h]
  rfl

/-- Reading ends with a document, stops at once, or goes on behind the next token. -/
theorem verdict_cases (s : State) (ts : List Token) :
    (∃ doc, s.verdict ts = .ok doc) ∨ s.verdict ts = .error (ts.length, s.expected) ∨
      ∃ t us, ∃ next : State, ts = t :: us ∧ s.verdict ts = next.verdict us := by
  cases ts with
  | nil =>
    rw [verdict]
    cases s.finish? with
    | some doc => exact .inl ⟨doc, rfl⟩
    | none => exact .inr (.inl rfl)
  | cons t us =>
    cases hstep : s.step t with
    | some next => exact .inr (.inr ⟨t, us, next, rfl, verdict_of_step hstep⟩)
    | none => exact .inr (.inl (verdict_of_stuck hstep))

theorem left_le_of_verdict {s : State} {ts : List Token} {left : Nat} {classes : List Expected}
    (h : s.verdict ts = .error (left, classes)) : left ≤ ts.length := by
  obtain ⟨doc, hok⟩ | hstop | ⟨t, us, next, rfl, hnext⟩ := s.verdict_cases ts
  · cases h.symm.trans hok
  · cases h.symm.trans hstop
    exact Nat.le_refl _
  · exact Nat.le_trans (left_le_of_verdict (hnext.symm.trans h)) (Nat.le_succ _)
  termination_by ts.length

theorem allows_of_lt {n : Note} (h : ts.length < n.left) : (s.verdict ts).Allows n := by
  intro left classes herror
  have hleft := left_le_of_verdict herror
  exact ⟨by omega, fun heq => by omega⟩

/-- What a state lists may be looked for there in vain. -/
theorem allows_expected {notes : List Note} (h : ∀ n ∈ notes, n.left = ts.length ∧ n.missing ∈ s.expected) :
    ∀ n ∈ notes, (s.verdict ts).Allows n := by
  intro n hn
  obtain ⟨hleft, hmissing⟩ := h n hn
  obtain ⟨doc, hok⟩ | hstop | ⟨t, us, next, rfl, hnext⟩ := s.verdict_cases ts
  · intro left classes herror
    cases hok.symm.trans herror
  · intro left classes herror
    cases hstop.symm.trans herror
    exact ⟨Nat.le_of_eq hleft.symm, fun _ => hmissing⟩
  · rw [hnext]
    exact allows_of_lt (hleft.symm ▸ Nat.lt_succ_self _)

end State

/-! ### Agreement -/

/-- What comes of a production agrees with what reading comes to. No note lies further ahead than reading gets. If there is a value, what is asked of it holds, and if there is none, reading stops and everything that it lists has been noted. The notes `known` are from in front of the production. -/
structure Agrees (v : Verdict) (known : List Note) {α : Type} (outcome : Outcome α)
    (post : α → List Token → List Note → Prop) : Prop where
  allowed : ∀ n ∈ outcome.notes, v.Allows n
  succeeds : ∀ a rest, outcome.result = some (a, rest) → post a rest (known ++ outcome.notes)
  covered : outcome.result = none → v.Covered (known ++ outcome.notes)

namespace Agrees

open Production

variable {α β : Type} {v : Verdict} {known : List Note} {p q : Production α} {ts : List Token}
  {post : α → List Token → List Note → Prop}

theorem hit {a : α} {rest : List Token} {notes : List Note} (hnotes : ∀ n ∈ notes, v.Allows n)
    (h : post a rest (known ++ notes)) : Agrees v known ⟨some (a, rest), notes⟩ post where
  allowed := hnotes
  succeeds := by
    rintro a rest ⟨⟩
    exact h
  covered := by rintro ⟨⟩

theorem miss {notes : List Note} (hnotes : ∀ n ∈ notes, v.Allows n) (h : v.Covered (known ++ notes)) :
    Agrees v known ⟨none, notes⟩ post where
  allowed := hnotes
  succeeds := by rintro _ _ ⟨⟩
  covered _ := h

theorem pure {a : α} (h : post a ts known) : Agrees v known ((Pure.pure a : Production α) ts) post :=
  .hit (List.forall_mem_nil _) ((List.append_nil known).symm ▸ h)

/-- Notes from in front, put to those of an outcome. -/
theorem append {notes : List Note} {outcome : Outcome α} (hnotes : ∀ n ∈ notes, v.Allows n)
    (h : Agrees v (known ++ notes) outcome post) :
    Agrees v known ⟨outcome.result, notes ++ outcome.notes⟩ post where
  allowed := List.forall_mem_append.mpr ⟨hnotes, h.allowed⟩
  succeeds := by
    rw [← List.append_assoc]
    exact h.succeeds
  covered := by
    rw [← List.append_assoc]
    exact h.covered

theorem bind {f : α → Production β} {after : β → List Token → List Note → Prop}
    (hp : Agrees v known (p ts) post) (hf : ∀ a rest log, post a rest log → Agrees v log (f a rest) after) :
    Agrees v known ((p >>= f) ts) after := by
  rcases hpart : p ts with ⟨_ | ⟨a, rest⟩, notes⟩ <;> rw [hpart] at hp
  · rw [bind_of_none hpart]
    exact .miss hp.allowed (hp.covered rfl)
  · rw [bind_of_some hpart]
    exact .append hp.allowed (hf a rest _ (hp.succeeds a rest rfl))

theorem orElse (hp : Agrees v known (p ts) post)
    (hq : ∀ log, v.Covered log → Agrees v log (q ts) post) : Agrees v known ((p <|> q) ts) post := by
  rcases hpart : p ts with ⟨_ | ⟨a, rest⟩, notes⟩ <;> rw [hpart] at hp
  · rw [Production.orElse_of_none hpart]
    exact .append hp.allowed (hq _ (hp.covered rfl))
  · rw [orElse_of_some hpart]
    exact hp

/-- A choice whose first alternative is not there. -/
theorem orElse_of_none {notes : List Note} (hnone : p ts = ⟨none, notes⟩) (hnotes : ∀ n ∈ notes, v.Allows n)
    (hq : Agrees v (known ++ notes) (q ts) post) : Agrees v known ((p <|> q) ts) post := by
  rw [Production.orElse_of_none hnone]
  exact .append hnotes hq

/-- A choice whose second alternative is not there. -/
theorem orElse_none (hp : Agrees v known (p ts) post) (notes : List Note) (hnone : q ts = ⟨none, notes⟩)
    (hnotes : ∀ n ∈ notes, v.Allows n) : Agrees v known ((p <|> q) ts) post := by
  refine hp.orElse fun log hcovered => ?_
  rw [hnone]
  exact .miss hnotes (hcovered.mono (List.subset_append_left log notes))

theorem mono {outcome : Outcome α} {weaker : α → List Token → List Note → Prop}
    (h : Agrees v known outcome post) (hpost : ∀ a rest log, post a rest log → weaker a rest log) :
    Agrees v known outcome weaker :=
  ⟨h.allowed, fun a rest hresult => hpost a rest _ (h.succeeds a rest hresult), h.covered⟩

end Agrees

/-- Behind what a production takes the reader is in the state `next`, and reading comes to what it comes to anyway. -/
def Follows {α : Type} (v : Verdict) (ts : List Token) (next : α → State) (a : α) (us : List Token)
    (_ : List Note) : Prop := us <:+ ts ∧ (next a).verdict us = v

/-! ### Lines and entries -/

/-- The states of the reader between and behind the keys of entries. -/
structure Sequence (opened : Entries → State) (keyed : Entries → String → State) : Prop where
  word : ∀ entries w, (opened entries).step (.word w) = some (keyed entries w.text)
  newline : ∀ entries, (opened entries).step .newline = some (opened entries)
  key_mem : ∀ entries, .key ∈ (opened entries).expected
  endOfLine_mem : ∀ entries, .endOfLine ∈ (opened entries).expected

theorem sequence_lines : Sequence .between fun doc key => .keyed doc key [] where
  word _ _ := rfl
  newline _ := rfl
  key_mem _ := by simp [State.expected]
  endOfLine_mem _ := by simp [State.expected]

theorem sequence_entries (doc : Entries) (key : String) (more : List String) (outer : List Outer) :
    Sequence (fun entries => .inside doc key more outer (.between entries))
      fun entries name => .inside doc key more outer (.keyed entries name) where
  word _ _ := rfl
  newline _ := rfl
  key_mem _ := by simp [State.expected, Block.expected]
  endOfLine_mem _ := by simp [State.expected, Block.expected]

/-- A place where neither a line feed nor a key was found. -/
structure AtEnd (ts : List Token) (log : List Note) : Prop where
  newline : ts.head? ≠ some .newline
  word : ∀ w, ts.head? ≠ some (.word w)
  endOfLine_mem : ⟨ts.length, .endOfLine⟩ ∈ log
  key_mem : ⟨ts.length, .key⟩ ∈ log

theorem Newlines.suffix {ts us : List Token} (h : Newlines ts us) : us <:+ ts := by
  induction h with
  | done => exact List.suffix_rfl
  | skip _ ih => exact ih.trans (List.suffix_cons _ _)

namespace Sequence

open Production Descent

variable {opened : Entries → State} {keyed : Entries → String → State} {entries : Entries}
  {ts : List Token} {v : Verdict} {known : List Note} {tail : Production Value}

theorem verdict_newlines (hseq : Sequence opened keyed) {us : List Token} (h : Newlines ts us) :
    (opened entries).verdict ts = (opened entries).verdict us := by
  induction h with
  | done => rfl
  | skip _ ih => rw [State.verdict_of_step (hseq.newline entries), ih]

theorem agrees_newlines (hseq : Sequence opened keyed) (hv : (opened entries).verdict ts = v) :
    Agrees v known (newlines ts) fun _ us log => us <:+ ts ∧ (opened entries).verdict us = v ∧
      us.head? ≠ some .newline ∧ ⟨us.length, .endOfLine⟩ ∈ log := by
  obtain ⟨lines, us, hrun, hlines, hus⟩ := exists_newlines ts
  have hverdict : (opened entries).verdict us = v := (hseq.verdict_newlines hlines).symm.trans hv
  rw [hrun]
  refine ⟨?_, ?_, by rintro ⟨⟩⟩
  · rw [← hverdict]
    exact State.allows_expected (List.forall_mem_singleton.mpr ⟨rfl, hseq.endOfLine_mem entries⟩)
  · rintro _ _ ⟨⟩
    exact ⟨hlines.suffix, hverdict, hus, List.mem_append_right _ (List.mem_singleton_self _)⟩

/-- One entry, with the line feeds behind it. -/
theorem agrees_entry (hseq : Sequence opened keyed) {w : Word}
    (htail : ∀ known, Agrees v known (tail ts) (Follows v ts fun u => opened (entries.mergeEntry w.text u))) :
    Agrees v known (entry tail (.word w :: ts)) fun e us log => us <:+ ts ∧
      (opened (entries.mergeEntry e.1 e.2)).verdict us = v ∧ us.head? ≠ some .newline ∧
        ⟨us.length, .endOfLine⟩ ∈ log := by
  rw [entry, bind_of_taken (key_cons w ts)]
  refine (htail known).bind ?_
  rintro u us log ⟨hus, hverdict⟩
  refine (hseq.agrees_newlines hverdict).bind ?_
  rintro _ rest log ⟨hrest, hline⟩
  exact .pure ⟨hrest.trans hus, hline⟩

/-- Entries one after another. Whatever ends them, it is noted. -/
theorem agrees_nested (hseq : Sequence opened keyed) {bound : Nat}
    (htail : ∀ entries name ts known v, ts.length < bound → (keyed entries name).verdict ts = v →
      Agrees v known (tail ts) (Follows v ts fun u => opened (entries.mergeEntry name u)))
    {depth : Nat} (hdepth : ts.length < depth) (hbound : ts.length ≤ bound)
    (hv : (opened entries).verdict ts = v) (hnewline : ts.head? ≠ some .newline)
    (hnote : ⟨ts.length, .endOfLine⟩ ∈ known) :
    Agrees v known (nested (another (entry tail)) depth ts) fun more us log => us <:+ ts ∧
      (opened (mergeInto more entries)).verdict us = v ∧ (v.Covered log ∨ AtEnd us log) := by
  induction depth generalizing entries ts known with
  | zero => exact absurd hdepth (Nat.not_lt_zero _)
  | succ depth ih =>
    by_cases hword : ∃ w, ts.head? = some (.word w)
    · obtain ⟨w, hw⟩ := hword
      obtain ⟨us, rfl⟩ := List.head?_eq_some_iff.mp hw
      rw [List.length_cons] at hdepth hbound
      rw [State.verdict_of_step (hseq.word entries w)] at hv
      refine .orElse (.bind (hseq.agrees_entry fun known => htail entries w.text us known v hbound hv) ?_) ?_
      · rintro e rest log ⟨hrest, hverdict, hnewline, hnote⟩
        have hlength := hrest.length_le
        refine (ih (by omega) (by omega) hverdict hnewline hnote).bind ?_
        rintro more last log ⟨hlast, hverdict, hend⟩
        refine .pure ⟨(hlast.trans hrest).trans (List.suffix_cons _ _), ?_, hend⟩
        rw [← hverdict, Entries.mergeEntry, ← mergeInto_append]
        rfl
      · intro log hcovered
        exact .pure ⟨List.suffix_rfl, (State.verdict_of_step (hseq.word entries w)).trans hv, .inl hcovered⟩
    · have hword : ∀ w, ts.head? ≠ some (.word w) := by simpa using hword
      refine .orElse_of_none (bind_of_none (bind_of_none (key_of_ne hword))) ?_ (.pure ⟨List.suffix_rfl, hv, .inr ?_⟩)
      · rw [← hv]
        exact State.allows_expected (List.forall_mem_singleton.mpr ⟨rfl, hseq.key_mem entries⟩)
      · exact ⟨hnewline, hword, List.mem_append_left _ hnote, List.mem_append_right _ (List.mem_singleton_self _)⟩

end Sequence

end ApplianceConfig.Grammar
