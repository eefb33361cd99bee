import ApplianceConfig.Proofs.Compile.Answers

/-!
# The questions of stamps

What a modern stamp takes from other stamps is laid down by its settings and by what it is written for: the nodes of a pool's members, the pool of a virtual server, the lists that rules are attached by and those that rules match, and VLANs.
-/

namespace ApplianceConfig

def RuleMatch.questions (side : RuleMatch) : List (StampId × Kind) :=
  side.addressLists.map (·, .addressList) ++ side.portLists.map (·, .portList) ++ side.vlans.map (·, .vlan)

def Rule.questions (rule : Rule) : List (StampId × Kind) :=
  rule.destination.questions ++ rule.source.questions

def AttachedRule.questions : AttachedRule → List (StampId × Kind)
  | .inline rule => rule.questions
  | .list id => [(id, .ruleList)]

/-- The stamps that a modern stamp takes the keys of, and what it takes them for. -/
def Stamp.questions (context : Context) : Stamp → List (StampId × Kind)
  | .pool s => if context.version.product != .bigip then [] else s.members.map fun m => (m.node, .node)
  | .virtualServer s =>
    if context.version.product != .bigip then []
    else
      (if context.feature "afm" then s.rules.flatMap AttachedRule.questions else []) ++
        s.pool.toList.map (·, .pool)
  | .selfIp s =>
    if context.atLeast .bigiq 4 2 0 then [] else (s.vlan, .vlan) :: s.rules.flatMap AttachedRule.questions
  | .routeDomain s =>
    s.vlans.map (·, .vlan) ++
      if context.feature "afm" then s.rules.flatMap AttachedRule.questions else []
  | .ruleList s => if !context.atLeast .bigip 11 3 0 then [] else s.rules.flatMap Rule.questions
  | .firewall s => if !context.atLeast .bigip 11 3 0 then [] else s.rules.flatMap AttachedRule.questions
  | _ => []

/-! ### Parts of recipes -/

section Rules

variable {rank : Nat}

theorem keys_poses (ids : List StampId) (kind : Kind) (lower : kind.rank < rank) :
    (ids.mapM fun id => Recipe.key id kind lower).Poses (ids.map (·, kind)) := by
  rw [List.map_eq_flatMap]
  exact .mapM (fun id => .key id kind lower) ids

theorem keySet_poses (ids : List StampId) (kind : Kind) (lower : kind.rank < rank) :
    (keySet ids kind lower).Poses (ids.map (·, kind)) := (keys_poses ids kind lower).map _

namespace RuleMatch

theorem part_poses {α : Type} (name : String) {items : List α} {value : Recipe rank Value}
    {questions : List (StampId × Kind)} (h : value.Poses questions) (hnil : items = [] → questions = []) :
    (part name items value).Poses questions := by
  unfold part
  cases items with
  | nil =>
    rw [hnil rfl]
    exact .done _
  | cons item items => exact h.map _

theorem entries_poses (side : RuleMatch) (low : 0 < rank) : (side.entries low).Poses side.questions := by
  have hkeys (name : String) (ids : List StampId) (kind : Kind) (lower : kind.rank < rank) :
      (part name ids (keySet ids kind lower)).Poses (ids.map (·, kind)) :=
    part_poses name (keySet_poses ids kind lower) fun hids => by rw [hids]; rfl
  have hplain (name : String) (items : List String) (value : Value) :
      (part name items (pure value) : Recipe rank Entries).Poses [] :=
    part_poses name (.done value) fun _ => rfl
  unfold questions
  rw [List.append_assoc]
  refine (hkeys "address-lists" _ _ _).bind fun addressLists => ?_
  refine (hplain "addresses" _ _).bind fun addresses => ?_
  refine (hkeys "port-lists" _ _ _).bind fun portLists => ?_
  refine (hplain "ports" _ _).bind fun ports => ?_
  exact (hkeys "vlans" _ _ _).map _

theorem questions_of_isEmpty {side : RuleMatch} (h : side.isEmpty = true) : side.questions = [] := by
  simp_all [isEmpty, questions]

end RuleMatch

namespace Rule

theorem side_poses (name : String) (side : RuleMatch) (low : 0 < rank) :
    (Rule.side name side low).Poses side.questions := by
  unfold Rule.side
  by_cases hempty : side.isEmpty = true
  · rw [if_pos hempty, RuleMatch.questions_of_isEmpty hempty]
    exact .done []
  · rw [if_neg hempty]
    exact (side.entries_poses low).map _

theorem body_poses (rule : Rule) (low : 0 < rank) : (rule.body low).Poses rule.questions :=
  (side_poses "destination" rule.destination low).bind fun _ => (side_poses "source" rule.source low).map _

end Rule

namespace AttachedRule

theorem entry_poses (rule : AttachedRule) (scope : Scope) (low : 1 < rank) :
    (rule.entry scope low).Poses rule.questions := by
  cases rule with
  | inline rule => exact (rule.body_poses _).map _
  | list id =>
    refine (Recipe.Poses.lift (scope.stamp id)).bind fun stamp => ?_
    cases stamp with
    | ruleList rules => exact (Recipe.Poses.key id .ruleList low).map _
    | _ => exact True.intro

theorem block_poses (rules : List AttachedRule) (scope : Scope) (low : 1 < rank) :
    (AttachedRule.block rules scope low).Poses (rules.flatMap AttachedRule.questions) :=
  (Recipe.Poses.mapM (fun rule => rule.entry_poses scope low) rules).map _

end AttachedRule

theorem attachedRules_poses (attach : Bool) (rules : List AttachedRule) (scope : Scope) (low : 1 < rank) :
    (attachedRules attach rules scope low).Poses
      (if attach then rules.flatMap AttachedRule.questions else []) := by
  unfold attachedRules
  cases attach with
  | false => exact .done none
  | true =>
    cases rules with
    | nil => exact .done none
    | cons rule rules => exact (AttachedRule.block_poses (rule :: rules) scope low).map some

end Rules

/-! ### Recipes of each kind -/

namespace Stamp

/-- The recipe of a modern stamp poses the stamp's questions, whatever the template is. -/
theorem modernRecipe_poses (stamp : Stamp) (scope : Scope) (template : Document) :
    (stamp.modernRecipe scope template).Poses (stamp.questions scope.context) := by
  cases stamp with
  | pool pool =>
    have hmember (member : Member) : (member.modernEntry scope).Poses [(member.node, .node)] :=
      (Recipe.Poses.lift (member.target scope)).bind fun node =>
        (Recipe.Poses.key member.node .node Nat.one_pos).bind fun key =>
          (Recipe.Poses.lift (Member.separator node key)).map _
    have hmembers := Recipe.Poses.mapM hmember pool.members
    rw [← List.map_eq_flatMap] at hmembers
    exact .skipIf (hmembers.last fun members => (Recipe.Poses.lift _).map _)
  | virtualServer server =>
    have hpool : server.poolKey.Poses (server.pool.toList.map (·, .pool)) := by
      unfold VirtualServer.poolKey
      cases server.pool with
      | none => exact .done none
      | some id => exact (Recipe.Poses.key id .pool Nat.one_lt_two).map some
    have hrules := attachedRules_poses (scope.context.feature "afm") server.rules scope Nat.one_lt_two
    refine .skipIf ((Recipe.Poses.lift _).bind fun suffix => (Recipe.Poses.lift _).bind fun profiles => ?_)
    refine hrules.bind fun rules => hpool.last fun pool => ?_
    exact (Recipe.Poses.lift _).bind fun destination => (Recipe.Poses.lift _).bind fun first =>
      (Recipe.Poses.lift _).map _
  | selfIp selfIp =>
    have hrules := attachedRules_poses true selfIp.rules scope Nat.one_lt_two
    refine .skipIf ((Recipe.Poses.lift _).bind fun suffix => ?_)
    refine (Recipe.Poses.key selfIp.vlan .vlan Nat.two_pos).bind fun vlan => ?_
    exact hrules.last fun rules => (Recipe.Poses.lift _).map _
  | routeDomain domain =>
    have hrules := attachedRules_poses (scope.context.feature "afm") domain.rules scope Nat.one_lt_two
    refine (keys_poses domain.vlans .vlan Nat.two_pos).bind fun vlans => ?_
    exact hrules.last fun rules => (Recipe.Poses.lift _).map _
  | ruleList list =>
    have hrules := Recipe.Poses.mapM (fun rule : Rule => (rule.body_poses Nat.one_pos).map (rule.name, ·)) list.rules
    exact .skipIf (hrules.last fun rules => (Recipe.Poses.lift _).map _)
  | firewall firewall =>
    have hrules := AttachedRule.block_poses firewall.rules scope Nat.one_lt_two
    exact .skipIf (hrules.last fun rules => (Recipe.Poses.lift _).map _)
  | raw | profile | defaults => exact .done _
  | _ => exact .ofExcept _

end Stamp

/-! ### Questions and references -/

theorem fst_mem_of_mem_map {ids : List StampId} {kind wanted : Kind} {id : StampId}
    (h : (id, wanted) ∈ ids.map (·, kind)) : id ∈ ids := by
  obtain ⟨other, hother, heq⟩ := List.mem_map.mp h
  cases heq
  exact hother

theorem mem_of_mem_unless {skip : Bool} {questions : List (StampId × Kind)} {question : StampId × Kind}
    (h : question ∈ if skip then [] else questions) : question ∈ questions := by
  cases skip
  · exact h
  · cases h

theorem mem_of_mem_when {keep : Bool} {questions : List (StampId × Kind)} {question : StampId × Kind}
    (h : question ∈ if keep then questions else []) : question ∈ questions := by
  cases keep
  · cases h
  · exact h

section References

variable {id : StampId} {kind : Kind}

theorem RuleMatch.mem_references_of_question {side : RuleMatch} (h : (id, kind) ∈ side.questions) :
    id ∈ side.references := by
  simp only [questions, references, List.mem_append] at h ⊢
  exact h.imp (Or.imp fst_mem_of_mem_map fst_mem_of_mem_map) fst_mem_of_mem_map

theorem Rule.mem_references_of_question {rule : Rule} (h : (id, kind) ∈ rule.questions) :
    id ∈ rule.references := by
  rcases List.mem_append.mp h with hdestination | hsource
  · exact List.mem_append_right _ (RuleMatch.mem_references_of_question hdestination)
  · exact List.mem_append_left _ (RuleMatch.mem_references_of_question hsource)

theorem AttachedRule.mem_references_of_question {rules : List AttachedRule}
    (h : (id, kind) ∈ rules.flatMap questions) : id ∈ rules.flatMap references := by
  obtain ⟨rule, hrule, hasked⟩ := List.mem_flatMap.mp h
  refine List.mem_flatMap.mpr ⟨rule, hrule, ?_⟩
  cases rule with
  | inline rule => exact Rule.mem_references_of_question hasked
  | list target =>
    cases List.mem_singleton.mp hasked
    exact List.mem_cons_self

/-- A stamp has questions only for stamps that it refers to. -/
theorem Stamp.mem_references_of_question {stamp : Stamp} {context : Context}
    (h : (id, kind) ∈ stamp.questions context) : id ∈ stamp.references := by
  cases stamp with
  | pool pool =>
    obtain ⟨member, hmember, heq⟩ := List.mem_map.mp (mem_of_mem_unless h)
    cases heq
    exact List.mem_flatMap.mpr ⟨member, hmember, List.mem_cons_self⟩
  | virtualServer server =>
    rcases List.mem_append.mp (mem_of_mem_unless h) with hrules | hpool
    · have hid := AttachedRule.mem_references_of_question (mem_of_mem_when hrules)
      exact List.mem_append_left _ (List.mem_append_left _ (List.mem_append_right _ hid))
    · exact List.mem_append_left _ (List.mem_append_right _ (fst_mem_of_mem_map hpool))
  | selfIp selfIp =>
    rcases List.mem_cons.mp (mem_of_mem_unless h) with heq | hrules
    · cases heq
      exact List.mem_append_left _ List.mem_cons_self
    · have hid := AttachedRule.mem_references_of_question hrules
      exact List.mem_append_left _ (List.mem_cons_of_mem _ hid)
  | routeDomain domain =>
    rcases List.mem_append.mp h with hvlans | hrules
    · exact List.mem_append_left _ (fst_mem_of_mem_map hvlans)
    · exact List.mem_append_right _ (AttachedRule.mem_references_of_question (mem_of_mem_when hrules))
  | ruleList list =>
    obtain ⟨rule, hrule, hasked⟩ := List.mem_flatMap.mp (mem_of_mem_unless h)
    exact List.mem_flatMap.mpr ⟨rule, hrule, Rule.mem_references_of_question hasked⟩
  | firewall firewall => exact AttachedRule.mem_references_of_question (mem_of_mem_unless h)
  | _ => cases h

end References

end ApplianceConfig
