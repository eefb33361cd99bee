import ApplianceConfig.Stamp.Basic

/-!
# References

The references that settings hold, in the order in which they are looked up. Looking settings up looks up each of these, and settings that have been looked up hold what was found, reference by reference.
-/

namespace ApplianceConfig

variable {ref α β ε : Type}

/-! ### Collecting references -/

def RuleMatch.references (side : RuleMatch ref) : List ref :=
  side.addressLists ++ side.portLists ++ side.vlans

def Rule.references (rule : Rule ref) : List ref :=
  rule.source.references ++ rule.destination.references

def AttachedRule.references : AttachedRule ref → List ref
  | .inline rule => rule.references
  | .list id => [id]

def Node.references (node : Node ref) : List ref := node.routeDomain.toList

def Member.references (member : Member ref) : List ref := [member.node]

def Pool.references (pool : Pool ref) : List ref := pool.members.flatMap Member.references

def VirtualServer.references (server : VirtualServer ref) : List ref :=
  server.profiles ++ server.rules.flatMap AttachedRule.references ++ server.pool.toList ++
    server.routeDomain.toList

def SelfIp.references (selfIp : SelfIp) : List StampId :=
  selfIp.vlan :: selfIp.rules.flatMap AttachedRule.references ++ selfIp.routeDomain.toList

def RouteDomain.references (domain : RouteDomain) : List StampId :=
  domain.vlans ++ domain.rules.flatMap AttachedRule.references

def RuleList.references (list : RuleList ref) : List ref := list.rules.flatMap Rule.references

def Firewall.references (firewall : Firewall ref) : List ref :=
  firewall.rules.flatMap AttachedRule.references

def Stamp.references : Stamp → List StampId
  | .node s => s.references
  | .pool s => s.references
  | .virtualServer s => s.references
  | .selfIp s => s.references
  | .routeDomain s => s.references
  | .ruleList s => s.references
  | .firewall s => s.references
  | .partition _ | .folder | .raw _ | .profile _ | .trunk _ | .vlan _ | .provision _ | .defaults
  | .platform _ | .dns _ | .ntp _ | .mail _ | .user _ | .addressList _ | .portList _ => []

/-! ### Looking references up -/

theorem bind_eq_ok {x : Except ε α} {next : α → Except ε β} {b : β}
    (h : (x >>= next) = .ok b) : ∃ a, x = .ok a ∧ next a = .ok b := by
  cases x with
  | error e => cases h
  | ok a => exact ⟨a, rfl, h⟩

/-- The second list is what is found for the first, item by item. -/
def Found (find : α → Except ε β) (names : List α) (found : List β) : Prop :=
  names.mapM find = .ok found

namespace Found

variable {find : α → Except ε β}

theorem nil : Found find [] [] := rfl

theorem single {a : α} {b : β} (h : find a = .ok b) : Found find [a] [b] := by
  rw [Found, List.mapM_cons, h]
  rfl

theorem of_cons {a : α} {names : List α} {found : List β} (h : Found find (a :: names) found) :
    ∃ b rest, find a = .ok b ∧ Found find names rest ∧ found = b :: rest := by
  rw [Found, List.mapM_cons] at h
  obtain ⟨b, hb, h⟩ := bind_eq_ok h
  obtain ⟨rest, hrest, h⟩ := bind_eq_ok h
  cases h
  exact ⟨b, rest, hb, hrest, rfl⟩

theorem append {xs ys : List α} {us vs : List β} (hxs : Found find xs us)
    (hys : Found find ys vs) : Found find (xs ++ ys) (us ++ vs) := by
  rw [Found, List.mapM_append, hxs, hys]
  rfl

theorem toList {a : Option α} {b : Option β} (h : resolve? find a = .ok b) :
    Found find a.toList b.toList := by
  cases a with
  | none =>
    cases h
    exact nil
  | some a =>
    rw [resolve?] at h
    cases hfound : find a with
    | error e => simp [hfound, Except.map] at h
    | ok found =>
      rw [hfound] at h
      cases h
      exact single hfound

/-- Lists of settings that are looked up one by one. -/
theorem flatMap {σ τ : Type} {resolve : σ → Except ε τ} {names : σ → List α}
    {found : τ → List β} (hresolve : ∀ {s t}, resolve s = .ok t → Found find (names s) (found t))
    {ss : List σ} {ts : List τ} (h : ss.mapM resolve = .ok ts) :
    Found find (ss.flatMap names) (ts.flatMap found) := by
  induction ss generalizing ts with
  | nil =>
    cases h
    exact nil
  | cons s ss ih =>
    obtain ⟨t, rest, ht, hrest, rfl⟩ := of_cons h
    exact (hresolve ht).append (ih hrest)

end Found

variable {find : α → Except ε β}

theorem RuleMatch.references_resolve {side : RuleMatch α} {resolved : RuleMatch β}
    (h : side.resolve find = .ok resolved) : Found find side.references resolved.references := by
  obtain ⟨addressLists, haddress, h⟩ := bind_eq_ok h
  obtain ⟨portLists, hport, h⟩ := bind_eq_ok h
  obtain ⟨vlans, hvlan, h⟩ := bind_eq_ok h
  cases h
  exact (Found.append haddress hport).append hvlan

theorem Rule.references_resolve {rule : Rule α} {resolved : Rule β}
    (h : rule.resolve find = .ok resolved) : Found find rule.references resolved.references := by
  obtain ⟨source, hsource, h⟩ := bind_eq_ok h
  obtain ⟨destination, hdestination, h⟩ := bind_eq_ok h
  cases h
  exact (RuleMatch.references_resolve hsource).append (RuleMatch.references_resolve hdestination)

theorem AttachedRule.references_resolve {rule : AttachedRule α} {resolved : AttachedRule β}
    (h : rule.resolve find = .ok resolved) : Found find rule.references resolved.references := by
  cases rule with
  | inline rule =>
    obtain ⟨inner, hinner, h⟩ := bind_eq_ok h
    cases h
    exact Rule.references_resolve hinner
  | list id =>
    obtain ⟨found, hfound, h⟩ := bind_eq_ok h
    cases h
    exact .single hfound

theorem Node.references_resolve {node : Node α} {resolved : Node β}
    (h : node.resolve find = .ok resolved) : Found find node.references resolved.references := by
  obtain ⟨routeDomain, hdomain, h⟩ := bind_eq_ok h
  cases h
  exact .toList hdomain

theorem Member.references_resolve {member : Member α} {resolved : Member β}
    (h : member.resolve find = .ok resolved) :
    Found find member.references resolved.references := by
  obtain ⟨node, hnode, h⟩ := bind_eq_ok h
  cases h
  exact .single hnode

theorem Pool.references_resolve {pool : Pool α} {resolved : Pool β}
    (h : pool.resolve find = .ok resolved) : Found find pool.references resolved.references := by
  obtain ⟨members, hmembers, h⟩ := bind_eq_ok h
  cases h
  exact Found.flatMap Member.references_resolve hmembers

theorem VirtualServer.references_resolve {server : VirtualServer α} {resolved : VirtualServer β}
    (h : server.resolve find = .ok resolved) :
    Found find server.references resolved.references := by
  obtain ⟨profiles, hprofiles, h⟩ := bind_eq_ok h
  obtain ⟨rules, hrules, h⟩ := bind_eq_ok h
  obtain ⟨pool, hpool, h⟩ := bind_eq_ok h
  obtain ⟨routeDomain, hdomain, h⟩ := bind_eq_ok h
  cases h
  have hrules := Found.flatMap AttachedRule.references_resolve hrules
  exact ((Found.append hprofiles hrules).append (.toList hpool)).append (.toList hdomain)

theorem RuleList.references_resolve {list : RuleList α} {resolved : RuleList β}
    (h : list.resolve find = .ok resolved) : Found find list.references resolved.references := by
  obtain ⟨rules, hrules, h⟩ := bind_eq_ok h
  cases h
  exact Found.flatMap Rule.references_resolve hrules

theorem Firewall.references_resolve {firewall : Firewall α} {resolved : Firewall β}
    (h : firewall.resolve find = .ok resolved) :
    Found find firewall.references resolved.references := by
  obtain ⟨rules, hrules, h⟩ := bind_eq_ok h
  cases h
  exact Found.flatMap AttachedRule.references_resolve hrules

end ApplianceConfig
