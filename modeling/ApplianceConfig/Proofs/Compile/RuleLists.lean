import ApplianceConfig.Proofs.Compile.Runs

/-!
# Attached rules

Rules are attached as a mapping, in which an inline rule stands under its own name and a list under the bare name of the list, whatever folder the list is in. So a list gets lost when a later rule has its name, be it a list of another folder or an inline rule. Where names differ, all lists are there.
-/

namespace ApplianceConfig

/-- Holds of the blocks of rules that have an entry for the list with a key. -/
def Entries.RefersTo (entries : Entries) (key : String) : Prop :=
  ∃ name body, (name, .block body) ∈ entries ∧ Assoc.get? body "rule-list" = some (.text key)

/-! ### Single rules -/

namespace Rule

variable {rank : Nat} {answers : Kind → String → Prop}

theorem side_refersNot {name : String} (hname : name ≠ "rule-list") (side : RuleMatch) (low : 0 < rank) :
    (Rule.side name side low).Ensures answers fun entries => Assoc.get? entries "rule-list" = none := by
  refine .skipIf rfl (.bind (.trivial _) fun entries _ => ?_)
  exact if_neg hname

/-- A rule that is written out refers to no list. -/
theorem body_refersNot (rule : Rule) (low : 0 < rank) :
    (rule.body low).Ensures answers fun value =>
      ∀ body, value = .block body → Assoc.get? body "rule-list" = none := by
  refine .bind (side_refersNot (by decide) rule.destination low) fun destination hdestination => ?_
  refine .bind (side_refersNot (by decide) rule.source low) fun source hsource => ?_
  rintro body ⟨⟩
  have hprotocol :
      Assoc.get? (rule.ipProtocol.toList.map fun p => ("ip-protocol", Value.text p)) "rule-list" = none := by
    cases rule.ipProtocol <;> rfl
  rw [Assoc.get?_append, Assoc.get?_append, Assoc.get?_append, hprotocol, hdestination, hsource]
  rfl

end Rule

namespace Tree

/-- The name that an attached rule stands under. -/
def ruleName? (tree : Tree) : AttachedRule → Option String
  | .inline rule => some rule.name
  | .list id =>
    match tree.stamp? id with
    | some (.ruleList list) => some list.name
    | _ => none

/-- The entry that an attached rule is written as: a list by the key that it is referred to by, and a rule of its own as anything that refers to no list. -/
inductive RuleEntry (tree : Tree) (history : tree.History) : AttachedRule → String × Value → Prop
  | inline {rule : Rule} {value : Value}
      (hvalue : ∀ body, value = .block body → Assoc.get? body "rule-list" = none) :
      RuleEntry tree history (.inline rule) (rule.name, value)
  | list {id : StampId} {list : RuleList} {key : String} (hstamp : tree.stamp? id = some (.ruleList list))
      (hkey : (tree.reference id history.ledger).1 = .ok (some key)) :
      RuleEntry tree history (.list id) (list.name, .block [("rule-list", .text key)])

/-- What the rules that are attached to a stamp of a kind in a folder come to. -/
def rulesBlock (tree : Tree) (folder : FolderId) (kind : Kind) (rules : List AttachedRule) :
    Except CompileError Value :=
  (AttachedRule.block rules (tree.scope folder kind) Nat.one_lt_two).run .error fun id asked _ =>
    tree.answer kind id asked

variable {tree : Tree} (history : tree.History) {folder : FolderId} {kind : Kind} {rule : AttachedRule}
  {rules : List AttachedRule}

theorem ruleName?_of_entry {history : tree.History} {e : String × Value} (h : tree.RuleEntry history rule e) :
    tree.ruleName? rule = some e.1 := by
  cases h with
  | inline => rfl
  | list hstamp => simp only [ruleName?, hstamp]

theorem ruleNames_of_entries {history : tree.History} {entries : Entries}
    (h : List.Forall₂ (tree.RuleEntry history) rules entries) :
    rules.map tree.ruleName? = (Assoc.keys entries).map some := by
  induction h with
  | nil => rfl
  | cons hentry _ ih =>
    rw [List.map_cons, ih, ruleName?_of_entry hentry]
    rfl

theorem RuleEntry.of_run {e : String × Value}
    (h : ((rule.entry (tree.scope folder kind) Nat.one_lt_two).run .error fun id asked _ => tree.answer kind id asked) =
      .ok e) : tree.RuleEntry history rule e := by
  unfold AttachedRule.entry at h
  cases rule with
  | inline rule =>
    rw [Recipe.run_bind] at h
    obtain ⟨value, hvalue, h⟩ := bind_eq_ok h
    cases h
    exact .inline ((rule.body_refersNot _).run (fun _ _ _ => .trivial _) value hvalue)
  | list id =>
    rw [Recipe.run_bind, Recipe.run_lift] at h
    obtain ⟨stamp, hstamp, h⟩ := bind_eq_ok h
    cases stamp with
    | ruleList list =>
      rw [Recipe.run_bind] at h
      obtain ⟨key, hkey, h⟩ := bind_eq_ok h
      cases h
      have hanswer := (Recipe.run_key _ id .ruleList Nat.one_lt_two).symm.trans hkey
      exact .list (Scope.stamp?_of_stamp hstamp) (reference_of_answer history hanswer)
    | _ => cases h

theorem exists_entries_of_rulesBlock {value : Value} (h : tree.rulesBlock folder kind rules = .ok value) :
    ∃ entries, List.Forall₂ (tree.RuleEntry history) rules entries ∧ value = .block (Assoc.putAll [] entries) := by
  unfold rulesBlock AttachedRule.block at h
  rw [Recipe.run_bind, Recipe.run_mapM] at h
  obtain ⟨entries, hentries, h⟩ := bind_eq_ok h
  cases h
  exact ⟨entries, (Found.forall₂ hentries).imp fun _ _ => .of_run history, rfl⟩

/-! ### Lists that are kept -/

/-- What a block of attached rules holds of the lists among them: the ones that no later rule has the name of. -/
structure KeepsLists (tree : Tree) (ledger : Ledger) (rules : List AttachedRule) (entries : Entries) : Prop where
  nodup : (Assoc.keys entries).Nodup
  mem_keys_iff : ∀ name, name ∈ Assoc.keys entries ↔ some name ∈ rules.map tree.ruleName?
  keyed : ∀ id, .list id ∈ rules → ∃ key, (tree.reference id ledger).1 = .ok (some key)
  refersTo_iff : ∀ key, entries.RefersTo key ↔ ∃ before id after, rules = before ++ .list id :: after ∧
    (tree.reference id ledger).1 = .ok (some key) ∧ tree.ruleName? (.list id) ∉ after.map tree.ruleName?
  all_of_nodup : (rules.map tree.ruleName?).Nodup → ∀ id key, .list id ∈ rules →
    (tree.reference id ledger).1 = .ok (some key) → entries.RefersTo key

theorem refersTo_iff_of_entries {history : tree.History} {entries : Entries}
    (h : List.Forall₂ (tree.RuleEntry history) rules entries) (key : String) :
    Entries.RefersTo (Assoc.putAll [] entries) key ↔ ∃ before id after, rules = before ++ .list id :: after ∧
      (tree.reference id history.ledger).1 = .ok (some key) ∧ tree.ruleName? (.list id) ∉ after.map tree.ruleName? := by
  constructor
  · rintro ⟨name, body, hmem, hbody⟩
    obtain ⟨before, after, rfl, hlast⟩ := Assoc.mem_putAll_iff.mp hmem
    obtain ⟨front, rule, back, rfl, hentry, hback⟩ := exists_split_of_forall₂ h
    have hname := ruleName?_of_entry hentry
    have hlater : some name ∉ back.map tree.ruleName? := by
      rw [ruleNames_of_entries hback]
      simpa using hlast
    cases hentry with
    | inline hvalue => exact absurd (hbody.symm.trans (hvalue body rfl)) (Option.some_ne_none _)
    | @list id list found hstamp hkey =>
      cases hbody
      exact ⟨front, id, back, rfl, hkey, hname ▸ hlater⟩
  · rintro ⟨before, id, after, rfl, hkey, hlater⟩
    obtain ⟨front, e, back, rfl, hentry, hback⟩ := exists_split_of_forall₂ h.flip
    have hname := ruleName?_of_entry hentry
    rw [hname, ruleNames_of_entries hback.flip] at hlater
    cases hentry with
    | @list _ list found hstamp hfound =>
      cases hfound.symm.trans hkey
      have hlast : list.name ∉ Assoc.keys back := by simpa using hlater
      exact ⟨list.name, _, Assoc.mem_putAll_iff.mpr ⟨front, back, rfl, hlast⟩, rfl⟩

theorem keepsLists_of_entries {history : tree.History} {entries : Entries}
    (h : List.Forall₂ (tree.RuleEntry history) rules entries) :
    tree.KeepsLists history.ledger rules (Assoc.putAll [] entries) where
  nodup := Assoc.nodup_keys_putAll entries
  mem_keys_iff := by
    intro name
    rw [Assoc.mem_keys_putAll, ruleNames_of_entries h]
    simp [Assoc.keys]
  keyed := by
    intro id hid
    obtain ⟨e, -, hentry⟩ := exists_left_of_forall₂ h.flip hid
    cases hentry with
    | list hstamp hkey => exact ⟨_, hkey⟩
  refersTo_iff := refersTo_iff_of_entries h
  all_of_nodup := by
    intro hnames id key hid hkey
    obtain ⟨before, after, rfl⟩ := List.append_of_mem hid
    rw [List.map_append, List.map_cons, List.nodup_append, List.nodup_cons] at hnames
    exact (refersTo_iff_of_entries h key).mpr ⟨before, id, after, rfl, hkey, hnames.2.1.1⟩

/-- Whatever rules are attached, and wherever: once they go through, the block has the lists that no later rule has the name of. -/
theorem rulesBlock_keepsLists {value : Value} (h : tree.rulesBlock folder kind rules = .ok value) :
    ∃ entries, value = .block entries ∧ tree.KeepsLists history.ledger rules entries := by
  obtain ⟨entries, hentries, rfl⟩ := exists_entries_of_rulesBlock history h
  exact ⟨_, rfl, keepsLists_of_entries hentries⟩

/-- Lists of one name from two folders, and a rule set of the device that has both of them. -/
def twoLists : List Operation := [
  .hookStamp 1 (.ruleList { name := "web", rules := [{ name := "allow" }] }),
  .hookStamp 2 (.ruleList { name := "web", rules := [{ name := "deny", action := "drop" }] }),
  .hookStamp 1 (.firewall { rules := [.list 2, .list 3] })]

theorem rulesBlock_keepsLists_twoLists :
    let context : Context := { version := .release .bigip 11 5 0 }
    let tree := (Session.runFrom context (some 1) twoLists).tree
    let history := History.ofSession context (some 1) twoLists
    ∃ value entries, tree.rulesBlock 1 .firewall [.list 2, .list 3] = .ok value ∧ value = .block entries ∧
      tree.KeepsLists history.ledger [.list 2, .list 3] entries := by
  intro context tree history
  have hblock : (tree.rulesBlock 1 .firewall [.list 2, .list 3]).toOption.map Value.isEmpty = some false := by
    decide +kernel
  obtain ⟨value, hvalue, -⟩ := exists_eq_ok_of_toOption hblock
  obtain ⟨entries, hentries, hkept⟩ := rulesBlock_keepsLists history hvalue
  exact ⟨value, entries, hvalue, hentries, hkept⟩

/-- The first of the two lists is dropped: no traffic is checked against it. -/
theorem lists_dropped :
    let context : Context := { version := .release .bigip 11 5 0 }
    let tree := (Session.runFrom context (some 1) twoLists).tree
    let history := History.ofSession context (some 1) twoLists
    (tree.reference 2 history.ledger).1.toOption = some (some "/Common/web") ∧
      ((tree.compile 4 history.ledger).1.toOption.bind Compiled.value).map (Document.encode · 4) =
        some "security firewall global-rules \x7b\n    rules \x7b\n        web \x7b\n            rule-list /Partition1/web\n        \x7d\n    \x7d\n\x7d\n" := by
  decide +kernel

end Tree

end ApplianceConfig
