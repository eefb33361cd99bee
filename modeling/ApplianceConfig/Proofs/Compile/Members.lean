import ApplianceConfig.Proofs.Compile.Runs
import ApplianceConfig.Proofs.Render.Progress

/-!
# Members of pools

The key of a member is put together from what the member's node is known by, a separator and the port. A port is written in digits and a separator is none, so the key says where it was put together. Members on different nodes or ports have different keys then, and each of them is written, in order.

Monitors of members are written under one key in the flat dialect, which has no blocks for members. So only one of these entries is left: it stands behind the first member that has monitors, and has the monitors of the last one.
-/

namespace ApplianceConfig

/-! ### Keys of members -/

/-- The last character that is no digit tells where a text is cut. -/
theorem eq_of_append_digits {before other digits more : List Char} {mark otherMark : Char}
    (hdigits : ∀ c ∈ digits, c.isDigit = true) (hmore : ∀ c ∈ more, c.isDigit = true)
    (hmark : mark.isDigit = false) (hother : otherMark.isDigit = false)
    (h : before ++ mark :: digits = other ++ otherMark :: more) :
    before = other ∧ mark = otherMark ∧ digits = more := by
  have hstop {c : Char} {cs : List Char} (hcs : ∀ c ∈ cs, c.isDigit = true) (hc : c.isDigit = false) : c ∉ cs := by
    intro hmem
    rw [hcs c hmem] at hc
    cases hc
  rcases List.append_eq_append_iff.mp h with ⟨rest, rfl, heq⟩ | ⟨rest, rfl, heq⟩
  all_goals
    rw [List.cons_eq_append_iff] at heq
    obtain ⟨rfl, hcons⟩ | ⟨rest, rfl, rfl⟩ := heq
  · cases hcons
    exact ⟨(List.append_nil _).symm, rfl, rfl⟩
  · exact absurd (List.mem_append_right rest List.mem_cons_self) (hstop hdigits hother)
  · cases hcons
    exact ⟨List.append_nil _, rfl, rfl⟩
  · exact absurd (List.mem_append_right rest List.mem_cons_self) (hstop hmore hmark)

/-- What stands between the identity of a member and its port. -/
def IsSeparator (separator : String) : Prop := separator = ":" ∨ separator = "."

theorem isSeparator_of_portSeparator {address separator : String} (h : portSeparator address = .ok separator) :
    IsSeparator separator := by
  unfold portSeparator at h
  cases hparse : Address.parse? address with
  | none =>
    rw [hparse] at h
    cases h
  | some ip =>
    rw [hparse] at h
    cases h
    cases hv4 : ip.isV4 <;> simp [IsSeparator]

theorem Member.isSeparator_of_separator {node : Node} {key separator : String}
    (h : Member.separator node key = .ok separator) : IsSeparator separator := by
  unfold Member.separator at h
  split at h
  · exact isSeparator_of_portSeparator h
  · cases h
    exact .inl rfl

section Key

variable {identity other separator otherSeparator : String} {port otherPort : UInt16}

theorem toList_port (port : UInt16) : (toString port).toList = Nat.toDigits 10 port.toNat :=
  Text.toList_toString port.toNat

theorem isDigit_of_mem_port {c : Char} (h : c ∈ (toString port).toList) : c.isDigit = true :=
  Text.isDigit_of_mem_toString (n := port.toNat) h

theorem port_injective (h : (toString port).toList = (toString otherPort).toList) : port = otherPort := by
  rw [toList_port, toList_port] at h
  exact UInt16.toNat_inj.mp (Text.toDigits_injective h)

theorem memberKey_injective (hseparator : IsSeparator separator) (hother : IsSeparator otherSeparator)
    (h : identity ++ separator ++ toString port = other ++ otherSeparator ++ toString otherPort) :
    identity = other ∧ port = otherPort := by
  have hcut {text : String} (htext : IsSeparator text) : ∃ mark : Char, mark.isDigit = false ∧ text.toList = [mark] := by
    rcases htext with rfl | rfl
    · exact ⟨':', by decide, rfl⟩
    · exact ⟨'.', by decide, rfl⟩
  obtain ⟨mark, hmark, hlist⟩ := hcut hseparator
  obtain ⟨otherMark, hotherMark, hotherList⟩ := hcut hother
  have hchars := congrArg String.toList h
  simp only [String.toList_append, hlist, hotherList, List.append_assoc, List.singleton_append] at hchars
  obtain ⟨hidentity, -, hport⟩ := eq_of_append_digits (fun _ hc => isDigit_of_mem_port hc)
    (fun _ hc => isDigit_of_mem_port hc) hmark hotherMark hchars
  exact ⟨String.toList_inj.mp hidentity, port_injective hport⟩

/-- The key of a member ends in a digit, so it is none of the words that stand beside members. -/
theorem memberKey_ne {word : String} (hword : word.toList.all (! ·.isDigit) = true) :
    identity ++ separator ++ toString port ≠ word := by
  rintro rfl
  cases hport : (toString port).toList with
  | nil =>
    rw [toList_port] at hport
    exact absurd hport Nat.toDigits_ne_nil
  | cons c cs =>
    have hmem : c ∈ (toString port).toList := by
      rw [hport]
      exact List.mem_cons_self
    have hdigit := isDigit_of_mem_port hmem
    rw [String.toList_append, List.all_append, hport, List.all_cons, hdigit] at hword
    simp at hword

end Key

/-! ### Entries of members -/

namespace Tree

/-- What members are known by, besides their ports: the key that the node is referred to by in the modern dialect, and the address of the node in the legacy one. -/
def identity? (tree : Tree) (history : tree.History) (dialect : Dialect) (member : Member) : Option String :=
  match dialect with
  | .modern => (tree.reference member.node history.ledger).1.toOption.join
  | .legacy =>
    match tree.stamp? member.node with
    | some (.node node) => some node.address
    | _ => none

/-- How a member is written: under the key of its node, with the node's address and the member's monitors, or in a line of its own. -/
inductive MemberEntry (tree : Tree) (history : tree.History) : Dialect → Member → String × Value → Prop
  | block {member : Member} {node : Node} {key separator : String} (hnode : tree.stamp? member.node = some (.node node))
    (hkey : (tree.reference member.node history.ledger).1 = .ok (some key))
    (hseparator : Member.separator node key = .ok separator) :
    MemberEntry tree history .modern member
      (key ++ separator ++ toString member.port,
        .block (("address", .text node.address) :: putMonitors member.monitors []))
  | line {member : Member} {node : Node} {separator : String} (hnode : tree.stamp? member.node = some (.node node))
    (hseparator : portSeparator node.address = .ok separator) :
    MemberEntry tree history .legacy member (node.address ++ separator ++ toString member.port, .toggle)

namespace MemberEntry

variable {tree : Tree} {history : tree.History} {dialect : Dialect} {member other : Member} {e f : String × Value}

theorem exists_key (h : tree.MemberEntry history dialect member e) :
    ∃ identity separator, tree.identity? history dialect member = some identity ∧ IsSeparator separator ∧
      e.1 = identity ++ separator ++ toString member.port := by
  cases h with
  | @block _ node key separator hnode hkey hseparator =>
    refine ⟨key, separator, ?_, Member.isSeparator_of_separator hseparator, rfl⟩
    rw [identity?, hkey]
    rfl
  | @line _ node separator hnode hseparator =>
    refine ⟨node.address, separator, ?_, isSeparator_of_portSeparator hseparator, rfl⟩
    simp only [identity?, hnode]

/-- The key of an entry tells the member. -/
theorem eq_of_key_eq (h : tree.MemberEntry history dialect member e) (hother : tree.MemberEntry history dialect other f)
    (hkey : e.1 = f.1) :
    tree.identity? history dialect member = tree.identity? history dialect other ∧ member.port = other.port := by
  obtain ⟨identity, separator, hidentity, hseparator, he⟩ := h.exists_key
  obtain ⟨otherIdentity, otherSeparator, hotherIdentity, hotherSeparator, hf⟩ := hother.exists_key
  rw [he, hf] at hkey
  obtain ⟨rfl, hport⟩ := memberKey_injective hseparator hotherSeparator hkey
  exact ⟨hidentity.trans hotherIdentity.symm, hport⟩

theorem key_ne (h : tree.MemberEntry history dialect member e) {word : String}
    (hword : word.toList.all (! ·.isDigit) = true) : e.1 ≠ word := by
  obtain ⟨identity, separator, -, -, he⟩ := h.exists_key
  rw [he]
  exact memberKey_ne hword

/-- Members that differ in their nodes or their ports have entries under different keys. -/
theorem nodup_keys {members : List Member} {entries : Entries}
    (h : List.Forall₂ (tree.MemberEntry history dialect) members entries)
    (hdistinct : (members.map fun member => (tree.identity? history dialect member, member.port)).Nodup) :
    (Assoc.keys entries).Nodup := by
  induction h with
  | nil => exact .nil
  | @cons member e members entries hentry hrest ih =>
    obtain ⟨hnew, hdistinct⟩ := List.nodup_cons.mp hdistinct
    refine List.nodup_cons.mpr ⟨fun hmem => hnew ?_, ih hdistinct⟩
    obtain ⟨f, hf, hkey⟩ := List.mem_map.mp hmem
    obtain ⟨other, hother, hentry'⟩ := exists_left_of_forall₂ hrest hf
    obtain ⟨hidentity, hport⟩ := hentry'.eq_of_key_eq hentry hkey
    exact List.mem_map.mpr ⟨other, hother, Prod.ext hidentity hport⟩

end MemberEntry

end Tree

/-! ### Recipes of pools -/

section Recipe

variable {scope : Scope} {answer : (id : StampId) → (kind : Kind) → kind.rank < 1 → Except CompileError String}

theorem Member.exists_of_modernEntry {member : Member} {e : String × Value}
    (h : (member.modernEntry scope).run .error answer = .ok e) :
    ∃ node key separator, member.target scope = .ok node ∧ answer member.node .node Nat.one_pos = .ok key ∧
      Member.separator node key = .ok separator ∧
      e = (key ++ separator ++ toString member.port,
        .block (("address", .text node.address) :: putMonitors member.monitors [])) := by
  unfold modernEntry at h
  rw [Recipe.run_bind, Recipe.run_lift] at h
  obtain ⟨node, hnode, h⟩ := bind_eq_ok h
  rw [Recipe.run_bind] at h
  obtain ⟨key, hkey, h⟩ := bind_eq_ok h
  rw [Recipe.run_bind, Recipe.run_lift] at h
  obtain ⟨separator, hseparator, h⟩ := bind_eq_ok h
  cases h
  refine ⟨node, key, separator, hnode, (Recipe.run_key answer _ .node _).symm.trans hkey, hseparator, ?_⟩
  unfold putMonitors
  split <;> rfl

theorem Member.stamp?_of_target {member : Member} {node : Node} (h : member.target scope = .ok node) :
    scope.stamp? member.node = some (.node node) := by
  obtain ⟨stamp, hstamp, h⟩ := bind_eq_ok h
  rw [Scope.stamp?_of_stamp hstamp]
  cases stamp <;> cases h
  rfl

theorem Member.exists_of_legacyEntries {member : Member} {lines : Entries}
    (h : member.legacyEntries scope = .ok lines) :
    ∃ node separator, member.target scope = .ok node ∧ portSeparator node.address = .ok separator ∧
      lines = (node.address ++ separator ++ toString member.port, .toggle) :: putMonitors member.monitors [] := by
  obtain ⟨node, hnode, h⟩ := bind_eq_ok h
  obtain ⟨separator, hseparator, h⟩ := bind_eq_ok h
  cases h
  exact ⟨node, separator, hnode, hseparator, rfl⟩

theorem Pool.exists_members_of_modern {pool : Pool} (hbigip : scope.isBigip = true) {output : Output}
    (h : (pool.modern scope (Template.document .pool .modern)).run .error answer = .ok output) :
    ∃ members others,
      List.Forall₂ (fun member e => (member.modernEntry scope).run .error answer = .ok e) pool.members members ∧
      output = ⟨scope.path pool.name, some ⟨.braced, object ["ltm", "pool"] (scope.path pool.name)
        (Assoc.put others "members" (.block (Assoc.putAll [] members)))⟩⟩ := by
  unfold modern at h
  rw [hbigip, Bool.not_true, if_neg Bool.false_ne_true, Recipe.run_bind, Recipe.run_mapM] at h
  obtain ⟨members, hmembers, h⟩ := bind_eq_ok h
  rw [Recipe.run_bind, Recipe.run_lift] at h
  obtain ⟨template, hfill, h⟩ := bind_eq_ok h
  cases (Scope.fillAs_object scope ["ltm", "pool"] "$key" _ _ _).symm.trans hfill
  cases h
  exact ⟨members, _, Found.forall₂ hmembers, rfl⟩

/-- The line for monitors of a pool as a whole, if there are any. -/
def Pool.allMonitors (pool : Pool) : Entries :=
  if pool.monitors.isEmpty then [] else [("monitor all", monitorRule pool.monitors)]

/-- What stands in front of the lines of members. -/
def Pool.front (pool : Pool) : Entries := Assoc.put pool.allMonitors "members" .toggle

theorem Pool.front_eq (pool : Pool) : pool.front = pool.allMonitors ++ [("members", .toggle)] := by
  unfold front allMonitors
  split <;> rfl

theorem Pool.nodup_keys_front (pool : Pool) : (Assoc.keys pool.front).Nodup := by
  unfold front allMonitors
  split <;> simp [Assoc.keys, Assoc.put, Assoc.alter]

theorem Pool.keys_front {pool : Pool} {key : String} (h : key ∈ Assoc.keys pool.front) :
    key = "monitor all" ∨ key = "members" := by
  unfold front allMonitors at h
  split at h
  · exact .inr (List.mem_singleton.mp h)
  · simpa [Assoc.keys, Assoc.put, Assoc.alter] using h

theorem Pool.exists_members_of_legacy {pool : Pool} (hbigip : scope.isBigip = true) {output : Output}
    (h : pool.legacy scope (Template.document .pool .legacy) = .ok output) :
    ∃ groups, List.Forall₂ (fun member lines => member.legacyEntries scope = .ok lines) pool.members groups ∧
      output = ⟨pool.name, some ⟨.braced, object ["pool"] pool.name
        (Assoc.putAll pool.front groups.flatten)⟩⟩ := by
  unfold legacy at h
  rw [hbigip, Bool.not_true, if_neg Bool.false_ne_true] at h
  obtain ⟨groups, hgroups, h⟩ := bind_eq_ok h
  obtain ⟨template, hfill, h⟩ := bind_eq_ok h
  cases (Scope.fillAs_object scope ["pool"] "$name" _ _ _).symm.trans hfill
  cases h
  exact ⟨groups, Found.forall₂ hgroups, rfl⟩

end Recipe

/-! ### Monitors of members -/

def Member.isMonitored (member : Member) : Bool := !member.monitors.isEmpty

/-- Lines of members, each with an entry for the member's own monitors behind it. -/
def attributed (members : List Member) (lines : Entries) : Entries :=
  (members.zip lines).flatMap fun written => written.2 :: putMonitors written.1.monitors []

/-- Lines of members with one entry for monitors, behind the first member that has any. It has those of the last one. -/
def overwritten (members : List Member) (lines : Entries) : Entries :=
  match (members.filter Member.isMonitored).getLast? with
  | none => lines
  | some last =>
    let place := members.findIdx Member.isMonitored + 1
    lines.take place ++ ("monitor", monitorRule last.monitors) :: lines.drop place

section Lines

variable {member : Member} {line : String × Value} {members : List Member} {lines : Entries}

theorem putMonitors_nil (monitors : List String) :
    putMonitors monitors [] = if monitors.isEmpty then [] else [("monitor", monitorRule monitors)] := rfl

theorem attributed_cons (member : Member) (line : String × Value) (members : List Member) (lines : Entries) :
    attributed (member :: members) (line :: lines) =
      line :: (if member.isMonitored then [("monitor", monitorRule member.monitors)] else []) ++
        attributed members lines := by
  rw [attributed, List.zip_cons_cons, List.flatMap_cons, putMonitors_nil, Member.isMonitored]
  cases member.monitors.isEmpty <;> rfl

theorem overwritten_cons_of_monitored (h : member.isMonitored = true) :
    overwritten (member :: members) (line :: lines) =
      line :: ("monitor", monitorRule ((members.filter Member.isMonitored).getLast?.getD member).monitors) :: lines := by
  rw [overwritten, List.filter_cons_of_pos h, List.getLast?_cons, List.findIdx_cons, h]
  rfl

theorem overwritten_cons (h : member.isMonitored = false) :
    overwritten (member :: members) (line :: lines) = line :: overwritten members lines := by
  rw [overwritten, overwritten, List.filter_cons_of_neg (by simp [h]), List.findIdx_cons, h]
  cases (members.filter Member.isMonitored).getLast? <;> rfl

theorem filter_attributed (hlength : members.length = lines.length) (hkeys : "monitor" ∉ Assoc.keys lines) :
    (attributed members lines).filter (·.1 ≠ "monitor") = lines := by
  induction members generalizing lines with
  | nil => rw [List.eq_nil_of_length_eq_zero hlength.symm]; rfl
  | cons member members ih =>
    cases lines with
    | nil => cases hlength
    | cons line lines =>
      have hline : line.1 ≠ "monitor" := fun heq => hkeys (heq ▸ List.mem_cons_self)
      have hrest := ih (Nat.succ.inj hlength) fun hmem => hkeys (List.mem_cons_of_mem _ hmem)
      rw [attributed_cons, List.cons_append, List.filter_cons_of_pos (by simpa using hline), List.filter_append, hrest]
      cases member.isMonitored <;> simp

theorem get?_reverse_attributed (hlength : members.length = lines.length) (hkeys : "monitor" ∉ Assoc.keys lines) :
    Assoc.get? (attributed members lines).reverse "monitor" =
      (members.filter Member.isMonitored).getLast?.map fun last => monitorRule last.monitors := by
  induction members generalizing lines with
  | nil => rw [List.eq_nil_of_length_eq_zero hlength.symm]; rfl
  | cons member members ih =>
    cases lines with
    | nil => cases hlength
    | cons line lines =>
      have hline : line.1 ≠ "monitor" := fun heq => hkeys (heq ▸ List.mem_cons_self)
      have hrest := ih (Nat.succ.inj hlength) fun hmem => hkeys (List.mem_cons_of_mem _ hmem)
      rw [attributed_cons, List.reverse_append, Assoc.get?_append, hrest]
      cases hmonitored : member.isMonitored with
      | false =>
        rw [List.filter_cons_of_neg (by simp [hmonitored])]
        simp [Assoc.get?, hline]
      | true =>
        rw [List.filter_cons_of_pos hmonitored, List.getLast?_cons]
        cases (members.filter Member.isMonitored).getLast? <;> simp [Assoc.get?]

/-- All monitors of members are written under one key, so they meet in the place of the first. -/
theorem putAll_attributed {entries : Entries} (hlength : members.length = lines.length)
    (hkeys : "monitor" ∉ Assoc.keys (entries ++ lines)) (hnodup : (Assoc.keys (entries ++ lines)).Nodup) :
    Assoc.putAll entries (attributed members lines) = entries ++ overwritten members lines := by
  induction members generalizing lines entries with
  | nil =>
    rw [List.eq_nil_of_length_eq_zero hlength.symm]
    exact (List.append_nil entries).symm
  | cons member members ih =>
    cases lines with
    | nil => cases hlength
    | cons line lines =>
      have hlength := Nat.succ.inj hlength
      have hsplit : entries ++ line :: lines = (entries ++ [line]) ++ lines := by simp
      have hnew := Assoc.not_mem_keys_of_nodup hnodup
      rw [hsplit] at hkeys hnodup
      rw [attributed_cons, List.cons_append, Assoc.putAll_cons, Assoc.put_of_not_mem hnew]
      cases hmonitored : member.isMonitored with
      | false =>
        rw [overwritten_cons hmonitored]
        exact (ih hlength hkeys hnodup).trans (List.append_assoc ..)
      | true =>
        obtain ⟨hfront, hback⟩ : "monitor" ∉ Assoc.keys (entries ++ [line]) ∧ "monitor" ∉ Assoc.keys lines := by
          rwa [Assoc.keys_append, List.mem_append, not_or] at hkeys
        have hfilter := filter_attributed hlength hback
        rw [if_pos rfl, List.singleton_append, Assoc.putAll_cons, Assoc.put_of_not_mem hfront,
          Assoc.putAll_of_mem hfront _ [] (by rw [hfilter, List.append_nil]; exact hnodup), hfilter,
          get?_reverse_attributed hlength hback, overwritten_cons_of_monitored hmonitored]
        cases (members.filter Member.isMonitored).getLast? <;> simp

theorem length_attributed (hlength : members.length = lines.length) :
    (attributed members lines).length = lines.length + (members.filter Member.isMonitored).length := by
  induction members generalizing lines with
  | nil => rw [List.eq_nil_of_length_eq_zero hlength.symm]; rfl
  | cons member members ih =>
    cases lines with
    | nil => cases hlength
    | cons line lines =>
      rw [attributed_cons, List.length_append, ih (Nat.succ.inj hlength), List.filter_cons]
      cases member.isMonitored <;> simp <;> omega

theorem length_overwritten_le (members : List Member) (lines : Entries) :
    (overwritten members lines).length ≤ lines.length + 1 := by
  unfold overwritten
  split
  · exact Nat.le_succ _
  · simp only [List.length_append, List.length_take, List.length_cons, List.length_drop]
    omega

theorem overwritten_of_unmonitored (h : (members.filter Member.isMonitored).length = 0) :
    overwritten members lines = lines := by
  rw [overwritten, List.eq_nil_of_length_eq_zero h]
  rfl

/-- The members have their own monitors exactly if one of them has any at most. -/
theorem overwritten_eq_attributed_iff (hlength : members.length = lines.length) :
    overwritten members lines = attributed members lines ↔ (members.filter Member.isMonitored).length ≤ 1 := by
  constructor
  · intro heq
    have hbound := length_overwritten_le members lines
    rw [heq, length_attributed hlength] at hbound
    omega
  · intro hone
    induction members generalizing lines with
    | nil => rw [List.eq_nil_of_length_eq_zero hlength.symm]; rfl
    | cons member members ih =>
      cases lines with
      | nil => cases hlength
      | cons line lines =>
        have hlength := Nat.succ.inj hlength
        rw [attributed_cons]
        cases hmonitored : member.isMonitored with
        | false =>
          rw [List.filter_cons_of_neg (by simp [hmonitored])] at hone
          rw [overwritten_cons hmonitored, ih hlength hone]
          rfl
        | true =>
          rw [List.filter_cons_of_pos hmonitored, List.length_cons] at hone
          have hnone := Nat.le_zero.mp (Nat.le_of_succ_le_succ hone)
          rw [overwritten_cons_of_monitored hmonitored, List.eq_nil_of_length_eq_zero hnone,
            ← ih hlength (Nat.le_of_succ_le hone), overwritten_of_unmonitored hnone]
          rfl

end Lines

/-! ### Compiled pools -/

/-- The entries of members in the object of a pool: those of a block of their own, or the lines behind the word for members, but for monitors. -/
def Document.memberEntries? (doc : Document) (key : String) : Dialect → Option Entries
  | .modern => doc.block? ["ltm", "pool", key, "members"]
  | .legacy => (doc.block? ["pool", key]).map fun entries =>
    (entries.dropWhile (·.1 ≠ "members")).tail.filter (·.1 ≠ "monitor")

namespace Tree

section Pool

variable {tree : Tree} (history : tree.History) {folder : FolderId}

theorem MemberEntry.of_modern {member : Member} {e : String × Value}
    (h : ((member.modernEntry (tree.scope folder .pool)).run .error fun id kind _ => tree.answer .pool id kind) = .ok e) :
    tree.MemberEntry history .modern member e := by
  obtain ⟨node, key, separator, hnode, hkey, hseparator, rfl⟩ := Member.exists_of_modernEntry h
  exact .block (Member.stamp?_of_target hnode) (reference_of_answer history hkey) hseparator

theorem exists_lines_of_groups {members : List Member} {groups : List Entries}
    (h : List.Forall₂ (fun member group => member.legacyEntries (tree.scope folder .pool) = .ok group) members groups) :
    ∃ lines, List.Forall₂ (tree.MemberEntry history .legacy) members lines ∧
      groups.flatten = attributed members lines := by
  induction h with
  | nil => exact ⟨[], .nil, rfl⟩
  | cons hgroup _ ih =>
    obtain ⟨node, separator, hnode, hseparator, rfl⟩ := Member.exists_of_legacyEntries hgroup
    obtain ⟨lines, hlines, hflatten⟩ := ih
    exact ⟨_ :: lines, .cons (.line (Member.stamp?_of_target hnode) hseparator) hlines,
      congrArg (_ :: putMonitors _ [] ++ ·) hflatten⟩

variable (hproduct : tree.context.version.product = .bigip) {id : StampId} {pool : Pool}
  (hpool : tree.stamp? id = some (.pool pool)) {compiled : Compiled}
  (hcompile : (tree.compile id history.ledger).1 = .ok compiled)

include hproduct hpool hcompile

theorem exists_members_of_modern (hdialect : compiled.dialect = .modern) :
    ∃ key doc members, compiled.key = some key ∧ compiled.value = some doc ∧
      doc.block? ["ltm", "pool", key, "members"] = some (Assoc.putAll [] members) ∧
      List.Forall₂ (tree.MemberEntry history .modern) pool.members members := by
  obtain ⟨folder, output, -, hrun, rfl⟩ := exists_run_of_compile history hpool hcompile
  have hbigip : (tree.scope folder .pool).isBigip = true := beq_iff_eq.mpr hproduct
  simp only at hdialect
  rw [hdialect] at hrun
  obtain ⟨members, others, hmembers, rfl⟩ := Pool.exists_members_of_modern hbigip hrun
  exact ⟨_, _, members, rfl, rfl,
    (Entries.block?_object_append ["ltm", "pool"] _ _ ["members"]).trans (Entries.block?_put ..),
    hmembers.imp fun _ _ => MemberEntry.of_modern history⟩

theorem exists_lines_of_legacy (hdialect : compiled.dialect = .legacy)
    (hdistinct : (pool.members.map fun member => (tree.identity? history .legacy member, member.port)).Nodup) :
    ∃ doc lines, compiled.key = some pool.name ∧ compiled.value = some doc ∧
      List.Forall₂ (tree.MemberEntry history .legacy) pool.members lines ∧
      doc.block? ["pool", pool.name] =
        some (pool.allMonitors ++ ("members", .toggle) :: overwritten pool.members lines) := by
  obtain ⟨folder, output, -, hrun, rfl⟩ := exists_run_of_compile history hpool hcompile
  have hbigip : (tree.scope folder .pool).isBigip = true := beq_iff_eq.mpr hproduct
  simp only at hdialect
  rw [hdialect] at hrun
  obtain ⟨groups, hgroups, rfl⟩ := Pool.exists_members_of_legacy hbigip ((Recipe.run_lift _ _).symm.trans hrun)
  obtain ⟨lines, hlines, hflatten⟩ := exists_lines_of_groups history hgroups
  refine ⟨_, lines, rfl, rfl, hlines, (Entries.block?_object_append ["pool"] _ _ []).trans ?_⟩
  have hkeys {e : String × Value} (he : e ∈ lines) {word : String} (hword : word.toList.all (! ·.isDigit) = true) :
      e.1 ≠ word := by
    obtain ⟨member, -, hentry⟩ := exists_left_of_forall₂ hlines he
    exact hentry.key_ne hword
  rw [Entries.block?, hflatten, putAll_attributed hlines.length_eq, Pool.front_eq, List.append_assoc]
  · rfl
  · rw [Assoc.keys_append, List.mem_append, not_or]
    refine ⟨fun hmem => absurd (Pool.keys_front hmem) (by decide), fun hmem => ?_⟩
    obtain ⟨e, he, hkey⟩ := List.mem_map.mp hmem
    exact hkeys he (by decide) hkey
  · rw [Assoc.keys_append, List.nodup_append]
    refine ⟨pool.nodup_keys_front, MemberEntry.nodup_keys hlines hdistinct, fun key hfront word hmem heq => ?_⟩
    obtain ⟨e, he, rfl⟩ := List.mem_map.mp hmem
    rcases Pool.keys_front hfront with rfl | rfl <;> exact hkeys he (by decide) heq.symm

omit hproduct hpool hcompile in
theorem filter_overwritten {members : List Member} {lines : Entries}
    (hlines : List.Forall₂ (tree.MemberEntry history .legacy) members lines) :
    (overwritten members lines).filter (·.1 ≠ "monitor") = lines := by
  have hkeep (part : Entries) (hpart : ∀ e ∈ part, e ∈ lines) : part.filter (·.1 ≠ "monitor") = part := by
    refine List.filter_eq_self.mpr fun e he => ?_
    obtain ⟨member, -, hentry⟩ := exists_left_of_forall₂ hlines (hpart e he)
    exact decide_eq_true (hentry.key_ne (by decide))
  unfold overwritten
  split
  · exact hkeep lines fun _ => id
  · rw [List.filter_append, List.filter_cons_of_neg (by simp), hkeep _ fun _ => List.mem_of_mem_take,
      hkeep _ fun _ => List.mem_of_mem_drop, List.take_append_drop]

/-- A pool that is compiled has an entry for each of its members, in order and nothing else among them, if no two members have both their node and their port in common. The key of an entry tells the member. -/
theorem members_written (hdistinct : (pool.members.map fun member =>
      (tree.identity? history compiled.dialect member, member.port)).Nodup) :
    (∃ key doc entries, compiled.key = some key ∧ compiled.value = some doc ∧
      doc.memberEntries? key compiled.dialect = some entries ∧
      List.Forall₂ (tree.MemberEntry history compiled.dialect) pool.members entries) ∧
    ∀ dialect member other e f, tree.MemberEntry history dialect member e → tree.MemberEntry history dialect other f →
      e.1 = f.1 → tree.identity? history dialect member = tree.identity? history dialect other ∧
        member.port = other.port := by
  refine ⟨?_, fun dialect member other e f he hf => he.eq_of_key_eq hf⟩
  cases hdialect : compiled.dialect with
  | modern =>
    rw [hdialect] at hdistinct
    obtain ⟨key, doc, members, hkey, hdoc, hblock, hmembers⟩ :=
      exists_members_of_modern history hproduct hpool hcompile hdialect
    refine ⟨key, doc, members, hkey, hdoc, hblock.trans ?_, hmembers⟩
    rw [Assoc.putAll_of_nodup (MemberEntry.nodup_keys hmembers hdistinct)]
    rfl
  | legacy =>
    rw [hdialect] at hdistinct
    obtain ⟨doc, lines, hkey, hdoc, hlines, hblock⟩ :=
      exists_lines_of_legacy history hproduct hpool hcompile hdialect hdistinct
    refine ⟨pool.name, doc, lines, hkey, hdoc, ?_, hlines⟩
    have hfront : pool.allMonitors.dropWhile (·.1 ≠ "members") = [] := by
      unfold Pool.allMonitors
      split <;> rfl
    rw [Document.memberEntries?, hblock, Option.map_some, List.dropWhile_append, hfront]
    exact congrArg some (filter_overwritten history hlines)

/-- In the lines of a pool for a release before 11.0.0 one entry for monitors is left at most, so members have their own monitors exactly if no two of them have any. -/
theorem monitors_overwritten (hversion : tree.context.atLeast .bigip 11 0 0 = false)
    (hdistinct : (pool.members.map fun member => (tree.identity? history .legacy member, member.port)).Nodup) :
    ∃ doc lines, compiled.value = some doc ∧
      doc.block? ["pool", pool.name] =
        some (pool.allMonitors ++ ("members", .toggle) :: overwritten pool.members lines) ∧
      List.Forall₂ (tree.MemberEntry history .legacy) pool.members lines ∧
      (overwritten pool.members lines = attributed pool.members lines ↔
        (pool.members.filter Member.isMonitored).length ≤ 1) := by
  have hdialect : compiled.dialect = .legacy := by
    obtain ⟨folder, output, -, -, rfl⟩ := exists_run_of_compile history hpool hcompile
    have hbefore : tree.context.version.atLeast (.release .bigip 11 0 0) = false := hversion
    exact (Dialect.ofVersion_of_bigip hproduct).trans (if_neg (by rw [hbefore]; exact Bool.false_ne_true))
  obtain ⟨doc, lines, -, hdoc, hlines, hblock⟩ :=
    exists_lines_of_legacy history hproduct hpool hcompile hdialect hdistinct
  exact ⟨doc, lines, hdoc, hblock, hlines, overwritten_eq_attributed_iff hlines.length_eq⟩

end Pool

/-- A pool of three members on two nodes of different families. -/
def dualStack : List Operation := [
  .hookStamp 0 (.node { address := "10.0.0.1" }), .hookStamp 0 (.node { address := "2001:db8::1" }),
  .hookStamp 0 (.pool { name := "web", members := [
    { node := 0, port := 80, monitors := ["http"] }, { node := 1, port := 80 }, { node := 0, port := 443 }] })]

theorem members_written_dualStack :
    let context : Context := { version := .release .bigip 11 5 0 }
    let tree := (Session.runFrom context none dualStack).tree
    let history := History.ofSession context none dualStack
    ∃ compiled pool, (tree.compile 2 history.ledger).1 = .ok compiled ∧ tree.stamp? 2 = some (.pool pool) ∧
      ∃ key doc entries, compiled.key = some key ∧ compiled.value = some doc ∧
        doc.memberEntries? key compiled.dialect = some entries ∧
        List.Forall₂ (tree.MemberEntry history compiled.dialect) pool.members entries := by
  intro context tree history
  have hdialect : (tree.compile 2 history.ledger).1.toOption.map Compiled.dialect = some .modern := by decide +kernel
  cases hcompile : (tree.compile 2 history.ledger).1 with
  | error e =>
    rw [hcompile] at hdialect
    cases hdialect
  | ok compiled =>
    rw [hcompile] at hdialect
    have hmodern : compiled.dialect = .modern := Option.some.inj hdialect
    have hpool : tree.stamp? 2 = some (.pool _) := rfl
    obtain ⟨hwritten, -⟩ := members_written history rfl hpool hcompile (by rw [hmodern]; decide +kernel)
    exact ⟨compiled, _, rfl, rfl, hwritten⟩

/-- Two members with monitors of their own. -/
def monitoredTwice : List Operation := [
  .hookStamp 0 (.node { address := "10.0.0.1" }), .hookStamp 0 (.node { address := "10.0.0.2" }),
  .hookStamp 0 (.pool { name := "web", members := [
    { node := 0, port := 80, monitors := ["http"] }, { node := 1, port := 80, monitors := ["tcp"] }] })]

theorem monitors_overwritten_monitoredTwice :
    let context : Context := { version := .release .bigip 10 2 0 }
    let tree := (Session.runFrom context none monitoredTwice).tree
    let history := History.ofSession context none monitoredTwice
    ∃ compiled pool doc lines, (tree.compile 2 history.ledger).1 = .ok compiled ∧
      tree.stamp? 2 = some (.pool pool) ∧ compiled.value = some doc ∧
      doc.block? ["pool", pool.name] =
        some (pool.allMonitors ++ ("members", .toggle) :: overwritten pool.members lines) ∧
      overwritten pool.members lines ≠ attributed pool.members lines := by
  intro context tree history
  have hok : (tree.compile 2 history.ledger).1.isOk = true := by decide +kernel
  cases hcompile : (tree.compile 2 history.ledger).1 with
  | error e =>
    rw [hcompile] at hok
    cases hok
  | ok compiled =>
    have hpool : tree.stamp? 2 = some (.pool _) := rfl
    obtain ⟨doc, lines, hdoc, hblock, -, hown⟩ :=
      monitors_overwritten history rfl hpool hcompile (by decide) (by decide +kernel)
    exact ⟨compiled, _, doc, lines, rfl, rfl, hdoc, hblock, fun heq => absurd (hown.mp heq) (by decide)⟩

/-- The monitor of the first member is lost, and that of the second one stands behind the first. -/
theorem monitors_lost :
    let context : Context := { version := .release .bigip 10 2 0 }
    let tree := (Session.runFrom context none monitoredTwice).tree
    let history := History.ofSession context none monitoredTwice
    ((tree.compile 2 history.ledger).1.toOption.bind Compiled.value).map (Document.encode · 4) =
      some "pool web \x7b\n    members\n    10.0.0.1:80\n    monitor tcp\n    10.0.0.2:80\n\x7d\n" := by
  decide +kernel

end Tree

end ApplianceConfig
