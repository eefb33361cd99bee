import ApplianceConfig.Proofs.Grammar.Agreement
import ApplianceConfig.Proofs.Grammar.Expectation

/-!
# The reader makes the choices

The reader takes each token once and never goes back, where the productions try one alternative after another. Both come to the same, production by production. The one place where they go different ways is a block whose words may still be those of a set. The reader keeps both readings open, and the productions give up the set before they start on the group; there the set has left its notes.
-/

namespace ApplianceConfig.Grammar

/-! ### Blocks -/

open Production Descent

/-- What blocks are read by: it is there behind an opening brace only, and is tried behind a set. -/
structure ReadsBlocks (p : Production Value) (bound : Nat) : Prop where
  missing : ∀ ts, ts.head? ≠ some .openBrace →
    ∃ notes, p ts = ⟨none, notes⟩ ∧ ∀ n ∈ notes, n = ⟨ts.length, .openBrace⟩
  reads : ∀ doc key more outer ts known v, ts.length < bound →
    State.verdict (.inside doc key more outer (.fresh [])) ts = v →
      Agrees v known ((set <|> p) (.openBrace :: ts)) (Follows v ts fun w => State.close doc key more w outer)

section Blocks

variable {doc : Entries} {key : String} {more : List String} {outer : List Outer} {ts : List Token}
  {v : Verdict} {known : List Note} {p : Production Value} {bound : Nat}

theorem ReadsBlocks.agrees_entryTail (h : ReadsBlocks p bound) {entries : Entries} {name : String}
    (hbound : ts.length ≤ bound) (hv : State.verdict (.inside doc key more outer (.keyed entries name)) ts = v) :
    Agrees v known (entryTail p ts)
      (Follows v ts fun w => .inside doc key more outer (.between (entries.mergeEntry name w))) := by
  have hlisted (notes : List Note) (hnotes : ∀ n ∈ notes, n.left = ts.length ∧
      n.missing ∈ [Expected.openBrace, .closeBrace, .endOfLine, .value]) : ∀ n ∈ notes, v.Allows n :=
    hv ▸ State.allows_expected hnotes
  by_cases hopen : ts.head? = some .openBrace
  · obtain ⟨us, rfl⟩ := List.head?_eq_some_iff.mp hopen
    have hreads := h.reads doc key more (⟨entries, name⟩ :: outer) us known v hbound hv
    rw [entryTail, orElse_assoc]
    refine (hreads.mono fun w rest _ hw => ⟨hw.1.trans (List.suffix_cons _ _), hw.2⟩).orElse_none
      [⟨us.length + 1, .value⟩, ⟨us.length + 1, .endOfLine⟩, ⟨us.length + 1, .closeBrace⟩] rfl ?_
    exact hlisted _ (by simp)
  · obtain ⟨notes, hnone, hnotes⟩ := h.missing ts hopen
    refine .orElse_of_none (set_of_ne hopen) (hlisted _ (by simp)) ?_
    refine .orElse_of_none hnone (hlisted _ fun n hn => by simp [hnotes n hn]) ?_
    -- where no brace is opened, the next token decides between a scalar and a key alone
    cases ts with
    | nil =>
      change Agrees _ _ ⟨none, [⟨0, .value⟩, ⟨0, .endOfLine⟩, ⟨0, .closeBrace⟩]⟩ _
      exact .miss (hlisted _ (by simp)) ⟨0, _, hv.symm, by simp [State.expected, Block.expected]⟩
    | cons t us =>
      cases t with
      | openBrace => exact absurd rfl hopen
      | closeBrace =>
        change Agrees _ _ ⟨some (Value.toggle, .closeBrace :: us),
          [⟨us.length + 1, .value⟩, ⟨us.length + 1, .endOfLine⟩]⟩ _
        exact .hit (hlisted _ (by simp)) ⟨List.suffix_rfl, hv⟩
      | newline =>
        change Agrees _ _ ⟨some (Value.toggle, .newline :: us), [⟨us.length + 1, .value⟩]⟩ _
        exact .hit (hlisted _ (by simp)) ⟨List.suffix_rfl, hv⟩
      | null =>
        change Agrees _ _ ⟨some (Value.absent, us), []⟩ _
        exact .hit (List.forall_mem_nil _) ⟨List.suffix_cons _ _, hv⟩
      | word w =>
        change Agrees _ _ ⟨some (w.value, us), []⟩ _
        exact .hit (List.forall_mem_nil _) ⟨List.suffix_cons _ _, hv⟩

theorem ReadsBlocks.agrees_groupOf (h : ReadsBlocks p bound) (hbound : ts.length ≤ bound)
    (hv : State.verdict (.inside doc key more outer (.between [])) ts = v) :
    Agrees v known (groupOf p (.openBrace :: ts)) fun w us _ =>
      .closeBrace :: us <:+ ts ∧ (State.close doc key more w outer).verdict us = v := by
  have hseq := sequence_entries doc key more outer
  rw [groupOf, bind_of_taken (openBrace_cons ts)]
  refine (hseq.agrees_newlines hv).bind ?_
  rintro _ us log ⟨hus, hverdict, hnewline, hnote⟩
  refine (hseq.agrees_nested (fun entries name ts known v hts => h.agrees_entryTail (hts.le.trans hbound))
    (Nat.lt_succ_self _) hus.length_le hverdict hnewline hnote).bind ?_
  rintro entries rest log ⟨hrest, hverdict, hstop⟩
  by_cases hclose : rest.head? = some .closeBrace
  · obtain ⟨us, rfl⟩ := List.head?_eq_some_iff.mp hclose
    rw [bind_of_taken (closeBrace_cons us)]
    exact .pure ⟨hrest.trans hus, hverdict⟩
  · rw [bind_of_none (closeBrace_of_ne hclose)]
    refine .miss ?_ ?_
    · rw [← hverdict]
      exact State.allows_expected (by simp [State.expected, Block.expected])
    · obtain hcovered | hend := hstop
      · exact hcovered.mono (List.subset_append_left _ _)
      · have hstuck : State.verdict (.inside doc key more outer (.between (mergeInto entries []))) rest =
            .error (rest.length, [.closeBrace, .endOfLine, .key]) := by
          cases rest with
          | nil => rfl
          | cons t rest =>
            cases t with
            | openBrace | null => rfl
            | closeBrace => exact absurd rfl hclose
            | newline => exact absurd rfl hend.newline
            | word w => exact absurd rfl (hend.word w)
        refine ⟨_, _, hverdict.symm.trans hstuck, ?_⟩
        simp [hend.endOfLine_mem, hend.key_mem]

/-! ### Blocks that may be sets -/

theorem exists_words (ts : List Token) :
    ∃ (words : List Word) (us : List Token), ts = words.map .word ++ us ∧ ∀ w, us.head? ≠ some (.word w) := by
  induction ts with
  | nil => exact ⟨[], [], rfl, by simp⟩
  | cons t ts ih =>
    by_cases hword : ∃ w, t = .word w
    · obtain ⟨w, rfl⟩ := hword
      obtain ⟨words, us, rfl, hus⟩ := ih
      exact ⟨w :: words, us, rfl, hus⟩
    · exact ⟨[], t :: ts, rfl, by simpa using hword⟩

theorem verdict_words (front words : List Word) :
    State.verdict (.inside doc key more outer (.fresh front)) (words.map .word ++ ts) =
      State.verdict (.inside doc key more outer (.fresh (front ++ words))) ts := by
  induction words generalizing front with
  | nil => rw [List.append_nil, List.map_nil, List.nil_append]
  | cons w words ih => exact (ih (front ++ [w])).trans (by rw [List.append_assoc, List.singleton_append])

/-- The words of a block that is read as a group. -/
theorem verdict_settled_words (front words : List Word) :
    State.verdict (.inside doc key more outer (Block.settle (.fresh front))) (words.map .word ++ ts) =
      State.verdict (.inside doc key more outer (Block.settle (.fresh (front ++ words)))) ts := by
  induction words generalizing front with
  | nil => rw [List.append_nil, List.map_nil, List.nil_append]
  | cons w words ih =>
    have hstep : State.step (.inside doc key more outer (Block.settle (.fresh front))) (.word w) =
        some (.inside doc key more outer (Block.settle (.fresh (front ++ [w])))) := by
      rw [State.step, Block.step_of_settled (Block.settle_settle _), Block.settle_step_word]
      rfl
    rw [List.map_cons, List.cons_append, State.verdict_of_step hstep, ih, List.append_assoc,
      List.singleton_append]

/-- Behind its words a block that is no set is read as a group, except that reading may stop there. -/
theorem verdict_settle (words : List Word) (hword : ∀ w, ts.head? ≠ some (.word w))
    (hclose : ts.head? = some .closeBrace → words = []) :
    let fresh : State := .inside doc key more outer (.fresh words)
    let settled : State := .inside doc key more outer (Block.settle (.fresh words))
    settled.verdict ts = fresh.verdict ts ∨
      settled.verdict ts = .error (ts.length, settled.expected) ∧
        fresh.verdict ts = .error (ts.length, fresh.expected) := by
  intro fresh settled
  cases ts with
  | nil => exact .inr ⟨rfl, rfl⟩
  | cons t ts =>
    have hstep : settled.step t = fresh.step t := by
      change ((Block.settle (.fresh words)).step t).map _ = (Block.step (.fresh words) t).map _
      rw [Block.step_of_settled (Block.settle_settle _)]
      cases t with
      | word w => exact absurd rfl (hword w)
      | closeBrace =>
        cases hclose rfl
        rfl
      | openBrace | newline | null => rfl
    cases hnext : fresh.step t with
    | some next =>
      rw [hnext] at hstep
      exact .inl ((State.verdict_of_step hstep).trans (State.verdict_of_step hnext).symm)
    | none =>
      rw [hnext] at hstep
      exact .inr ⟨State.verdict_of_stuck hstep, State.verdict_of_stuck hnext⟩

/-- A block that may be a set lists what it lists as a group, and a key. -/
theorem Block.mem_expected_fresh (words : List Word) (c : Expected) :
    c ∈ (Block.fresh words).expected ↔ c = .key ∨ c ∈ (Block.settle (.fresh words)).expected := by
  have hlength := Block.pairUp_isSome_iff words
  rw [settle, expected]
  rcases hpairs : pairUp words with ⟨entries, _ | name⟩
  · have heven : words.length % 2 = 0 := by simpa [hpairs] using hlength
    rw [if_pos heven]
    cases c <;> simp [expected]
  · have hodd : words.length % 2 = 1 := by simpa [hpairs] using hlength
    cases c <;> simp [expected, hodd]

/-- A brace that ends what lies behind some words is none of these words. -/
theorem length_lt_of_closeBrace_suffix {words : List Word} {us rest : List Token}
    (h : .closeBrace :: rest <:+ words.map .word ++ us) : rest.length < us.length := by
  induction words with
  | nil => exact h.length_le
  | cons w words ih =>
    obtain h | h := List.suffix_cons_iff.mp h
    · cases h
    · exact ih h

/-- A block is tried as a set first. If that fails, it is a group whose words the reader has kept. -/
theorem ReadsBlocks.agrees_block (h : ReadsBlocks p bound) (hbound : ts.length ≤ bound)
    (hv : State.verdict (.inside doc key more outer (.fresh [])) ts = v) :
    Agrees v known ((set <|> groupOf p) (.openBrace :: ts))
      (Follows v ts fun w => State.close doc key more w outer) := by
  obtain ⟨words, us, rfl, hword⟩ := exists_words ts
  have hfresh : State.verdict (.inside doc key more outer (.fresh words)) us = v :=
    (verdict_words [] words).symm.trans hv
  have hallowed (notes : List Note)
      (hnotes : ∀ n ∈ notes, n.left = us.length ∧ (n.missing = .key ∨ n.missing = .closeBrace)) :
      ∀ n ∈ notes, v.Allows n := by
    rw [← hfresh]
    refine State.allows_expected fun n hn => ⟨(hnotes n hn).1, ?_⟩
    rw [State.expected, Block.expected]
    obtain hmissing | hmissing := (hnotes n hn).2 <;> rw [hmissing] <;> split <;> simp
  by_cases hset : us.head? = some .closeBrace ∧ words ≠ []
  · obtain ⟨rest, rfl⟩ := List.head?_eq_some_iff.mp hset.1
    rw [orElse_of_some (set_of_keys hset.2 rest)]
    refine .hit (hallowed _ (by simp)) ⟨?_, ?_⟩
    · exact (List.suffix_cons _ _).trans (List.suffix_append _ _)
    · obtain ⟨w, words, rfl⟩ := List.exists_cons_of_ne_nil hset.2
      exact hfresh
  · have hclose : us.head? = some .closeBrace → words = [] := by simpa using hset
    obtain ⟨notes, hnone, hkey, hnotes⟩ := exists_set_of_words words hword hclose
    refine .orElse_of_none hnone (hallowed notes hnotes) ?_
    let settled : State := .inside doc key more outer (Block.settle (.fresh words))
    have hgroup : Agrees (settled.verdict us) (known ++ notes) (groupOf p (.openBrace :: (words.map .word ++ us)))
        fun w rest _ => .closeBrace :: rest <:+ words.map .word ++ us ∧
          (State.close doc key more w outer).verdict rest = settled.verdict us :=
      h.agrees_groupOf hbound (verdict_settled_words [] words)
    obtain heq | ⟨hsettled, hstop⟩ : settled.verdict us = _ ∨ _ := verdict_settle words hword hclose
    · rw [heq, hfresh] at hgroup
      exact hgroup.mono fun w rest _ hw => ⟨(List.suffix_cons _ _).trans hw.1, hw.2⟩
    · -- the group fails here as well, and only the set is noted to lack a key
      rw [hfresh] at hstop
      rw [hsettled] at hgroup
      refine ⟨fun n hn => ?_, fun w rest hresult => ?_, fun hresult => ?_⟩
      · obtain ⟨hleft, hmissing⟩ := hgroup.allowed n hn _ _ rfl
        rintro left classes herror
        rw [hstop] at herror
        cases herror
        exact ⟨hleft, fun heq => (Block.mem_expected_fresh words _).mpr (.inr (hmissing heq))⟩
      · obtain ⟨hsuffix, hverdict⟩ := hgroup.succeeds w rest hresult
        have hlt := length_lt_of_closeBrace_suffix hsuffix
        have hle := State.left_le_of_verdict hverdict
        omega
      · obtain ⟨left, classes, heq, hclasses⟩ := hgroup.covered hresult
        cases heq
        refine ⟨_, _, hstop, fun c hc => ?_⟩
        obtain rfl | hc := (Block.mem_expected_fresh words c).mp hc
        · exact List.mem_append_left _ (List.mem_append_right _ hkey)
        · exact hclasses c hc

end Blocks

theorem readsBlocks_nested (depth : Nat) : ReadsBlocks (nested groupOf depth) depth := by
  induction depth with
  | zero =>
    refine ⟨fun ts _ => ⟨[], rfl, List.forall_mem_nil _⟩, ?_⟩
    exact fun _ _ _ _ _ _ _ hdepth => absurd hdepth (Nat.not_lt_zero _)
  | succ depth ih =>
    refine ⟨fun ts hopen => ⟨_, groupOf_of_ne _ hopen, by simp⟩, ?_⟩
    intro doc key more outer ts known v hdepth hv
    exact ih.agrees_block (Nat.le_of_lt_succ hdepth) hv

/-- Groups may be nested as deep as there are tokens. -/
theorem readsBlocks_group (bound : Nat) : ReadsBlocks group bound where
  missing ts hopen := ⟨_, groupOf_of_ne _ hopen, by simp⟩
  reads doc key more outer ts known v _ hv := by
    have hlength : ts.length < (Token.openBrace :: ts).length + 1 := by simp
    exact (readsBlocks_nested _).reads doc key more outer ts known v hlength hv

/-! ### Lines -/

theorem endOfLine_of_lineEnds {ts : List Token} (h : LineEnds ts) :
    ∃ notes, Descent.endOfLine ts = ⟨some ((), ts), notes⟩ ∧ ∀ n ∈ notes, n = ⟨ts.length, .endOfLine⟩ := by
  match ts, h with
  | [], _ => exact ⟨[⟨0, .endOfLine⟩], rfl, by simp⟩
  | .newline :: ts, _ => exact ⟨[], rfl, by simp⟩

theorem endOfLine_of_not {ts : List Token} (h : ¬ LineEnds ts) :
    Descent.endOfLine ts = ⟨none, [⟨ts.length, .endOfLine⟩, ⟨ts.length, .endOfInput⟩]⟩ := by
  match ts with
  | [] | .newline :: _ => exact absurd trivial h
  | .openBrace :: _ | .closeBrace :: _ | .null :: _ | .word _ :: _ => rfl

/-- Where a line ends it makes no difference how it was expected to go on. -/
theorem verdict_of_lineEnds {s : State} {doc : Entries} {ts : List Token} (h : LineEnds ts)
    (hfinish : s.finish? = some doc) (hnewline : s.step .newline = some (.between doc)) :
    (State.between doc).verdict ts = s.verdict ts := by
  match ts, h with
  | [], _ =>
    rw [State.verdict, State.verdict, hfinish]
    rfl
  | .newline :: ts, _ =>
    rw [State.verdict_of_step hnewline]
    rfl

theorem verdict_ended_of_not {doc : Entries} {ts : List Token} (h : ¬ LineEnds ts) :
    (State.ended doc).verdict ts = .error (ts.length, [.endOfInput, .endOfLine]) := by
  cases ts with
  | nil => exact absurd trivial h
  | cons t ts =>
    cases t with
    | newline => exact absurd trivial h
    | openBrace | closeBrace | null | word w => rfl

/-- A scalar counts where its line ends. Otherwise the other alternatives are tried. -/
theorem agrees_lastScalar {s : State} {doc : Entries} {t : Token} {w : Value} {us : List Token} {v : Verdict}
    {known : List Note} {q : Production Value} {post : Value → List Token → List Note → Prop}
    (hscalar : t.scalar? = some w) (hv : s.verdict us = v)
    (hlisted : .endOfLine ∈ s.expected ∧ .endOfInput ∈ s.expected) (hfinish : s.finish? = some doc)
    (hnewline : s.step .newline = some (.between doc))
    (hpost : ∀ log, (State.between doc).verdict us = v → post w us log)
    (hq : ∀ log, ¬ LineEnds us → ⟨us.length, .endOfLine⟩ ∈ log → ⟨us.length, .endOfInput⟩ ∈ log →
      Agrees v log (q (t :: us)) post) :
    Agrees v known ((lastScalar <|> q) (t :: us)) post := by
  have hrun : lastScalar (t :: us) = (Descent.endOfLine >>= fun _ => pure w) us :=
    bind_of_taken (scalar_of_some hscalar us)
  have hallowed (notes : List Note)
      (hnotes : ∀ n ∈ notes, n = ⟨us.length, .endOfLine⟩ ∨ n = ⟨us.length, .endOfInput⟩) :
      ∀ n ∈ notes, v.Allows n := by
    rw [← hv]
    refine State.allows_expected fun n hn => ?_
    obtain rfl | rfl := hnotes n hn
    · exact ⟨rfl, hlisted.1⟩
    · exact ⟨rfl, hlisted.2⟩
  by_cases hend : LineEnds us
  · obtain ⟨notes, heol, hnotes⟩ := endOfLine_of_lineEnds hend
    have hfound : lastScalar (t :: us) = ⟨some (w, us), notes ++ []⟩ := hrun.trans (bind_of_some heol)
    rw [orElse_of_some hfound, List.append_nil]
    exact .hit (hallowed _ fun n hn => .inl (hnotes n hn))
      (hpost _ ((verdict_of_lineEnds hend hfinish hnewline).trans hv))
  · rw [bind_of_none (endOfLine_of_not hend)] at hrun
    exact .orElse_of_none hrun (hallowed _ (by simp)) (hq _ hend (by simp) (by simp))

/-- A line is read to its end behind any words of it that have been taken already. A line with such words goes on. -/
theorem agrees_lineTail {doc : Entries} {key : String} {words : List Word} {ts : List Token} {v : Verdict}
    {known : List Note} {depth : Nat} (hdepth : ts.length < depth) (hwords : LineEnds ts → words = [])
    (hv : (State.keyed doc key words).verdict ts = v) :
    Agrees v known (nested lineTailOf depth ts)
      (Follows v ts fun w => .between (doc.mergeEntry key (chain (words.map Word.text) w))) := by
  induction depth generalizing words ts known with
  | zero => exact absurd hdepth (Nat.not_lt_zero _)
  | succ depth ih =>
    have hlisted (notes : List Note) (hnotes : ∀ n ∈ notes, n.left = ts.length ∧
        n.missing ∈ [Expected.openBrace, .endOfInput, .endOfLine, .key, .value]) : ∀ n ∈ notes, v.Allows n :=
      hv ▸ State.allows_expected hnotes
    by_cases hopen : ts.head? = some .openBrace
    · obtain ⟨us, rfl⟩ := List.head?_eq_some_iff.mp hopen
      have hreads :=
        (readsBlocks_group _).reads doc key (words.map Word.text) [] us known v (Nat.lt_succ_self _) hv
      rw [nested, lineTailOf, orElse_assoc]
      refine (hreads.mono fun w rest _ hw => ⟨hw.1.trans (List.suffix_cons _ _), hw.2⟩).orElse_none
        [⟨us.length + 1, .value⟩, ⟨us.length + 1, .key⟩, ⟨us.length + 1, .endOfLine⟩,
          ⟨us.length + 1, .endOfInput⟩] rfl ?_
      exact hlisted _ (by simp)
    · refine .orElse_of_none (set_of_ne hopen) (hlisted _ (by simp)) ?_
      refine .orElse_of_none (groupOf_of_ne _ hopen) (hlisted _ (by simp)) ?_
      cases ts with
      | nil =>
        cases hwords trivial
        change Agrees _ _ ⟨some (Value.toggle, []), [⟨0, .value⟩, ⟨0, .key⟩, ⟨0, .endOfLine⟩]⟩ _
        exact .hit (hlisted _ (by simp)) ⟨List.suffix_rfl, hv⟩
      | cons t us =>
        cases t with
        | newline =>
          cases hwords trivial
          change Agrees _ _ ⟨some (Value.toggle, .newline :: us),
            [⟨us.length + 1, .value⟩, ⟨us.length + 1, .key⟩]⟩ _
          exact .hit (hlisted _ (by simp)) ⟨List.suffix_rfl, hv⟩
        | openBrace => exact absurd rfl hopen
        | closeBrace =>
          change Agrees _ _ ⟨none, [⟨us.length + 1, .value⟩, ⟨us.length + 1, .key⟩,
            ⟨us.length + 1, .endOfLine⟩, ⟨us.length + 1, .endOfInput⟩]⟩ _
          exact .miss (hlisted _ (by simp)) ⟨_, _, hv.symm, by simp [State.expected]⟩
        | null =>
          refine agrees_lastScalar rfl hv (by simp [State.expected]) rfl rfl
            (fun _ h => ⟨List.suffix_cons _ _, h⟩) fun log hend hline hinput => ?_
          change Agrees _ _ ⟨none,
            [⟨us.length + 1, .key⟩, ⟨us.length + 1, .endOfLine⟩, ⟨us.length + 1, .endOfInput⟩]⟩ _
          have hstuck := hv.symm.trans (verdict_ended_of_not hend)
          exact .miss (hlisted _ (by simp)) ⟨_, _, hstuck, by simp [hline, hinput]⟩
        | word w =>
          refine agrees_lastScalar rfl hv (by simp [State.expected]) rfl rfl
            (fun _ h => ⟨List.suffix_cons _ _, ?_⟩) fun log hend _ _ => ?_
          · rw [← h, lineValue_append]
          · have hmore : Agrees v log (nested lineTailOf depth us) (Follows v us fun u =>
                .between (doc.mergeEntry key (chain ((words ++ [w]).map Word.text) u))) :=
              ih (Nat.lt_of_succ_lt_succ hdepth) (fun h => absurd h hend) hv
            refine .orElse_none ?_ [⟨us.length + 1, .endOfLine⟩, ⟨us.length + 1, .endOfInput⟩] rfl
              (hlisted _ (by simp))
            rw [chained, bind_of_taken (key_cons w us)]
            refine hmore.bind fun u rest log hu => .pure ⟨hu.1.trans (List.suffix_cons _ _), ?_⟩
            have hverdict : State.verdict (.between _) rest = v := hu.2
            rwa [List.map_append, List.map_singleton, chain_append] at hverdict

/-! ### Documents -/

theorem agrees_document {ts : List Token} {v : Verdict} (hv : (State.between []).verdict ts = v) :
    Agrees v [] (document ts) fun doc rest _ => rest = [] ∧ v = .ok doc := by
  refine (sequence_lines.agrees_newlines hv).bind ?_
  rintro _ us log ⟨-, hverdict, hnewline, hnote⟩
  refine (sequence_lines.agrees_nested (fun doc key ts known v _ => agrees_lineTail (Nat.lt_succ_self _) fun _ => rfl)
    (Nat.lt_succ_self _) le_rfl hverdict hnewline hnote).bind ?_
  rintro lines rest log ⟨-, hverdict, hstop⟩
  cases rest with
  | nil => exact .pure ⟨rfl, hverdict.symm⟩
  | cons t rest =>
    rw [bind_of_none (finished_cons t rest)]
    refine .miss ?_ ?_
    · rw [← hverdict]
      exact State.allows_expected (by simp [State.expected])
    · obtain hcovered | hend := hstop
      · exact hcovered.mono (List.subset_append_left _ _)
      · have hstuck : State.step (.between (mergeInto lines [])) t = none := by
          cases t with
          | newline => exact absurd rfl hend.newline
          | word w => exact absurd rfl (hend.word w)
          | openBrace | closeBrace | null => rfl
        refine ⟨_, _, hverdict.symm.trans (State.verdict_of_stuck hstuck), ?_⟩
        have hendOfLine := hend.endOfLine_mem
        have hkey := hend.key_mem
        simp_all [State.expected]

namespace State

theorem verdict_eq_ok_iff {s : State} {ts : List Token} {doc : Entries} :
    s.verdict ts = .ok doc ↔ s.accept? ts = some doc := by
  induction ts generalizing s with
  | nil =>
    rw [verdict, accept?]
    cases s.finish? <;> simp
  | cons t ts ih =>
    cases hstep : s.step t with
    | none => simp [verdict_of_stuck hstep, accept?, hstep]
    | some next => rw [verdict_of_step hstep, accept?_of_step hstep, ih]

theorem verdict_of_after? {s last : State} {ts us : List Token} (h : s.after? ts = some last) :
    s.verdict (ts ++ us) = last.verdict us := by
  induction ts generalizing s with
  | nil =>
    cases h
    rfl
  | cons t ts ih =>
    rw [after?_cons] at h
    obtain ⟨next, hstep, hnext⟩ := Option.bind_eq_some_iff.mp h
    rw [List.cons_append, verdict_of_step hstep, ih hnext]

theorem Stuck.verdict_eq {s : State} {lexemes : List Lexeme} (h : s.Stuck lexemes) :
    s.verdict (lexemes.map Lexeme.token) = .error (lexemes.length, s.expected) := by
  cases lexemes with
  | nil =>
    rw [List.map_nil, verdict, show s.finish? = none from h]
    rfl
  | cons l lexemes =>
    rw [List.map_cons, verdict_of_stuck h, List.length_cons, List.length_map, List.length_cons]

end State

theorem result_document_iff {ts : List Token} {doc : Entries} :
    (document ts).result = some (doc, []) ↔ (State.between []).verdict ts = .ok doc := by
  have hagrees : Agrees ((State.between []).verdict ts) [] (document ts) _ := agrees_document rfl
  constructor
  · intro hresult
    exact (hagrees.succeeds doc [] hresult).2
  · intro hverdict
    cases hresult : (document ts).result with
    | none =>
      obtain ⟨left, classes, herror, -⟩ := hagrees.covered hresult
      cases hverdict.symm.trans herror
    | some hit =>
      obtain ⟨found, rest⟩ := hit
      obtain ⟨rfl, hfound⟩ := hagrees.succeeds found rest hresult
      cases hverdict.symm.trans hfound
      rfl

theorem mem_notes_document_iff {ts : List Token} {left : Nat} {classes : List Expected}
    (h : (State.between []).verdict ts = .error (left, classes)) (c : Expected) :
    ⟨left, c⟩ ∈ (document ts).notes ↔ c ∈ classes := by
  have hagrees := agrees_document h
  constructor
  · exact fun hn => (hagrees.allowed _ hn left classes rfl).2 rfl
  · intro hc
    cases hresult : (document ts).result with
    | none =>
      obtain ⟨left, classes, herror, hclasses⟩ := hagrees.covered hresult
      cases herror
      exact hclasses c hc
    | some hit => cases (hagrees.succeeds hit.1 hit.2 hresult).2

/-- The reader and the productions come to the same. They give the same documents. Where there is none, the reader stops at the furthest place where anything was looked for in vain, and lists exactly what was looked for there. -/
theorem read_iff_document (lexemes : List Lexeme) :
    let outcome := document (lexemes.map Lexeme.token)
    (∀ doc, read (.between []) lexemes = .ok doc ↔ outcome.result = some (doc, [])) ∧
      ∀ failure, read (.between []) lexemes = .error failure →
        ∃ front rest, lexemes = front ++ rest ∧ failure.lexeme = rest.head? ∧
          (∀ n ∈ outcome.notes, rest.length ≤ n.left) ∧
          ∀ c, c ∈ failure.expected ↔ ⟨rest.length, c⟩ ∈ outcome.notes := by
  intro outcome
  refine ⟨fun doc => ?_, fun failure hread => ?_⟩
  · rw [read_eq_ok_iff, ← State.verdict_eq_ok_iff, result_document_iff]
  · obtain ⟨front, rest, last, rfl, hlast, hstuck, rfl⟩ := exists_stuck_of_read_error hread
    have hverdict : (State.between []).verdict ((front ++ rest).map Lexeme.token) =
        .error (rest.length, last.expected) := by
      rw [List.map_append, State.verdict_of_after? hlast, hstuck.verdict_eq]
    refine ⟨front, rest, rfl, rfl, fun n hn => ?_, fun c => (mem_notes_document_iff hverdict c).symm⟩
    exact ((agrees_document hverdict).allowed n hn _ _ rfl).1

end ApplianceConfig.Grammar

namespace ApplianceConfig.Document

open Grammar

theorem expected_toError (text : String) (lexemes : List Lexeme) (failure : Failure) :
    (failure.toError text lexemes).expected = failure.expected := by
  rw [Failure.toError]
  cases failure.lexeme <;> rfl

/-- What a text is read as, by the productions. An error is at the furthest lexeme at which anything was looked for in vain, and lists what was looked for there. -/
theorem parse_iff_document {text : String} {lexemes : List Lexeme} (hlex : tokens text = .ok lexemes) :
    let outcome := Descent.document (lexemes.map Lexeme.token)
    (∀ doc, parse text = .ok doc ↔ ∃ entries, outcome.result = some (entries, []) ∧ doc = { entries }) ∧
      ∀ e, parse text = .error e → ∃ i ≤ lexemes.length, e.IsAt lexemes i ∧
        (∀ n ∈ outcome.notes, lexemes.length ≤ n.left + i) ∧
        ∀ c, c ∈ e.expected ↔ ⟨lexemes.length - i, c⟩ ∈ outcome.notes := by
  intro outcome
  obtain ⟨hresult, hfailure⟩ := read_iff_document lexemes
  refine ⟨fun doc => ?_, fun e hparse => ?_⟩
  · simp only [outcome, ← hresult]
    unfold parse
    cases hread : read (.between []) lexemes with
    | ok entries => simp [hlex, hread, eq_comm]
    | error failure => simp [hlex, hread]
  · obtain ⟨failure, hread, rfl⟩ := exists_failure_of_parse_error hlex hparse
    obtain ⟨front, rest, rfl, hlexeme, hfurthest, hexpected⟩ := hfailure failure hread
    refine ⟨front.length, by simp, ?_, fun n hn => ?_, fun c => ?_⟩
    · have hfailed : failure = ⟨rest.head?, failure.expected⟩ := by rw [← hlexeme]
      rw [hfailed]
      exact isAt_toError text front rest failure.expected
    · have hleft := hfurthest n hn
      rw [List.length_append]
      omega
    · rw [expected_toError, hexpected, List.length_append, Nat.add_sub_cancel_left]

end ApplianceConfig.Document
