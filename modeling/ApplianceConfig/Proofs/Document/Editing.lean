import ApplianceConfig.Proofs.Document.Absorption
import ApplianceConfig.Proofs.Document.Renaming

/-!
# Runs of edits

Documents are built by edits: writing, taking out, renaming and merging entries, at the top or below. However many of them are made one after another, keys that are distinct on every level stay so, as long as the values that come in have distinct keys themselves.

A single edit keeps the order of keys as well. New keys come last, and a key that is there keeps its place among the others, unless the whole mapping is replaced with a value around it. Mappings are told apart by the paths that lead to them, and only a rename moves a mapping to another path.
-/

namespace ApplianceConfig

/-- A change of a document. -/
inductive Edit
  | insert (key : String) (value : Value)
  | insertAll (entries : Entries)
  | erase (key : String)
  | clear
  | rename (old new : String)
  | renameAt (path : List String) (new : String)
  | insertAt (path : List String) (key : String) (value : Value)
  | replaceAt (path : List String) (value : Value)
  | mergeEntry (key : String) (value : Value)
  | merge (more : Document)

namespace Edit

/-- The document after an edit. An edit that cannot be made leaves it as it is. -/
def apply (doc : Document) : Edit → Document
  | insert key value => doc.insert key value
  | insertAll entries => doc.insertAll entries
  | erase key => doc.erase key
  | clear => doc.clear
  | rename old new => (doc.rename? old new).getD doc
  | renameAt path new => (doc.renameAt? path new).getD doc
  | insertAt path key value => (doc.insertAt? path key value).getD doc
  | replaceAt path value => (doc.replaceAt? path value).getD doc
  | mergeEntry key value => doc.mergeEntry key value
  | merge more => doc.merge more

def run (doc : Document) (edits : List Edit) : Document := edits.foldl apply doc

/-- Holds when the values that an edit brings in have distinct keys on every level. -/
def distinct : Edit → Bool
  | insert _ value | insertAt _ _ value | replaceAt _ value | mergeEntry _ value => value.distinct
  | insertAll entries => entries.all (·.2.distinct)
  | merge more => more.distinct
  | erase _ | clear | rename .. | renameAt .. => true

end Edit

/-- Holds when a merge writes a value at a place. Where two chains meet their entries are merged, and anything else is written as a whole. -/
inductive Overwrites : Entries → Entries → List String → Value → Prop
  | whole {incoming present : Entries} {key : String} {value : Value} (hvalue : Assoc.get? incoming key = some value)
    (hchains : ¬ ∃ entries more, Assoc.get? present key = some (.map .chained entries) ∧ value = .map .chained more) :
    Overwrites incoming present [key] value
  | within {incoming present more entries : Entries} {key : String} {rest : List String} {value : Value}
    (hmore : Assoc.get? incoming key = some (.map .chained more))
    (hentries : Assoc.get? present key = some (.map .chained entries)) (hrest : Overwrites more entries rest value) :
    Overwrites incoming present (key :: rest) value

/-- Where a path leads after the last key on the way to a place has been renamed. -/
def redirect (place : List String) (new : String) (path : List String) : List String :=
  if place <+: path then place.dropLast ++ new :: path.drop place.length else path

theorem redirect_cons (old new : String) (rest : List String) : redirect [old] new (old :: rest) = new :: rest :=
  if_pos (singleton_prefix_cons_iff.mpr rfl)

theorem redirect_append_cons (parents : List String) (old new : String) (rest : List String) :
    redirect (parents ++ [old]) new (parents ++ old :: rest) = parents ++ new :: rest := by
  have hpath : parents ++ old :: rest = (parents ++ [old]) ++ rest := by simp
  rw [redirect, hpath, if_pos (List.prefix_append _ _), List.dropLast_concat, List.drop_left]

theorem redirect_of_not {place path : List String} (h : ¬ place <+: path) (new : String) : redirect place new path = path :=
  if_neg h

theorem redirect_append (parents : List String) (old new : String) (rest : List String) :
    redirect (parents ++ [old]) new (parents ++ rest) = parents ++ redirect [old] new rest := by
  by_cases hold : [old] <+: rest
  · obtain ⟨rest, rfl⟩ := hold
    rw [List.singleton_append, redirect_append_cons, redirect_cons]
  · rw [redirect_of_not hold, redirect_of_not (by rwa [List.prefix_append_right_inj])]

namespace Edit

/-- Holds when an edit writes a whole value at a place, over whatever stands there. -/
def Writes (doc : Document) (place : List String) (value : Value) : Edit → Prop
  | insert key written => place = [key] ∧ value = written
  | insertAll entries => ∃ key, place = [key] ∧ Assoc.get? entries.reverse key = some value
  | insertAt path key written =>
    (doc.insertAt? path key written).isSome = true ∧ place = path ++ [key] ∧ value = written
  | replaceAt path written => (doc.replaceAt? path written).isSome = true ∧ place = path ∧ value = written
  | mergeEntry key written => Overwrites [(key, written)] doc.entries place value
  | merge more => Overwrites more.entries doc.entries place value
  | erase _ | clear | rename .. | renameAt .. => False

/-- Where a path leads after an edit, if what it leads to is still there. -/
def follow (doc : Document) (path : List String) : Edit → List String
  | rename old new => if (doc.rename? old new).isSome then redirect [old] new path else path
  | renameAt place new => if (doc.renameAt? place new).isSome then redirect place new path else path
  | _ => path

end Edit

/-- Holds when keys that are there before and after stand in the same order. -/
def SameOrder (before after : List String) : Prop :=
  ∀ first ∈ after, ∀ second ∈ after, [first, second].Sublist before → [first, second].Sublist after

theorem SameOrder.refl (keys : List String) : SameOrder keys keys := fun _ _ _ _ h => h

/-- Keys that keep their places among each other are a part of both lists. -/
theorem SameOrder.of_common {before after common : List String} (hnodup : before.Nodup)
    (hbefore : common.Sublist before) (hafter : common.Sublist after)
    (hcommon : ∀ key ∈ before, key ∈ after → key ∈ common) : SameOrder before after := by
  -- `before` has each of the common keys once, so what it has of them is `common` itself
  have heq : before.filter (· ∈ common) = common := by
    have hkept : (common.filter (· ∈ common)).Sublist (before.filter (· ∈ common)) := hbefore.filter _
    rw [List.filter_eq_self.mpr (by simp)] at hkept
    refine (hkept.eq_of_length_le ?_).symm
    exact (hnodup.filter _).length_le_of_subset fun key hkey => by simpa using (List.mem_filter.mp hkey).2
  intro first hfirst second hsecond hpair
  have hmem : ∀ key ∈ [first, second], key ∈ common := by
    intro key hkey
    refine hcommon key (hpair.subset hkey) ?_
    rcases List.mem_pair.mp hkey with rfl | rfl
    · exact hfirst
    · exact hsecond
  have hfilter := hpair.filter (· ∈ common)
  rw [heq, List.filter_eq_self.mpr (by simpa using hmem)] at hfilter
  exact hfilter.trans hafter

/-! ### Edits of one mapping -/

namespace Entries

/-- Holds when mappings keep the order of their keys from one state of entries to the next, all but those below a place that is written. -/
def KeepsOrder (before after : Entries) (follow : List String → List String) (written : List String → Prop) : Prop :=
  ∀ path inner changed, block? before path = some inner → block? after (follow path) = some changed →
    (∀ place, written place → ¬ place <+: path) → SameOrder (Assoc.keys inner) (Assoc.keys changed)

variable {before after inner : Entries} {follow : List String → List String} {written : List String → Prop}

/-- A mapping that is the same as before, at its old path or at another one, has its keys in the same order. -/
theorem sameOrder_of_block?_eq {path target : List String} {changed : Entries} (h : block? after target = block? before path)
    (hinner : block? before path = some inner) (hchanged : block? after target = some changed) :
    SameOrder (Assoc.keys inner) (Assoc.keys changed) := by
  rw [h, hinner] at hchanged
  cases hchanged
  exact .refl _

/-- Keys that are written one after another keep their places, and new ones come behind them. -/
theorem sublist_keys_putAll (present more : Entries) :
    (Assoc.keys present).Sublist (Assoc.keys (Assoc.putAll present more)) := by
  induction more generalizing present with
  | nil => exact .refl _
  | cons e more ih =>
    rw [Assoc.putAll_cons]
    refine List.Sublist.trans ?_ (ih _)
    rw [Assoc.put, Assoc.keys_alter]
    split
    · exact .refl _
    · exact List.sublist_append_left _ _

theorem keepsOrder_putAll {present : Entries} (hnodup : (Assoc.keys present).Nodup) (more : Entries) :
    KeepsOrder present (Assoc.putAll present more) id
      (fun place => ∃ value key, place = [key] ∧ Assoc.get? more.reverse key = some value) := by
  intro path inner changed hinner hchanged hkept
  cases path with
  | nil =>
    cases hinner
    cases hchanged
    exact .of_common hnodup (.refl _) (sublist_keys_putAll ..) fun key hkey _ => hkey
  | cons key rest =>
    have hget : Assoc.get? (Assoc.putAll present more) key = Assoc.get? present key := by
      rw [Assoc.get?_putAll]
      cases hmore : Assoc.get? more.reverse key with
      | none => exact Option.none_or
      | some value => exact absurd (singleton_prefix_cons_iff.mpr rfl) (hkept [key] ⟨value, key, rfl, hmore⟩)
    exact sameOrder_of_block?_eq (block?_congr hget rest) hinner hchanged

theorem keys_erase (entries : Entries) (key : String) :
    Assoc.keys (Assoc.erase entries key) = (Assoc.keys entries).erase key := by
  induction entries with
  | nil => rfl
  | cons e entries ih =>
    obtain ⟨k, v⟩ := e
    rw [Assoc.erase]
    by_cases hk : k = key
    · subst hk
      simp [Assoc.keys]
    · rw [if_neg hk]
      show k :: Assoc.keys _ = (k :: Assoc.keys entries).erase key
      rw [ih, List.erase_cons_tail (by simpa using hk)]

theorem get?_erase_of_ne {key other : String} (hne : other ≠ key) (entries : Entries) :
    Assoc.get? (Assoc.erase entries key) other = Assoc.get? entries other := by
  induction entries with
  | nil => rfl
  | cons e entries ih =>
    obtain ⟨k, v⟩ := e
    rw [Assoc.erase]
    by_cases hk : k = key
    · rw [if_pos hk, Assoc.get?, if_neg (hk ▸ hne.symm)]
    · rw [if_neg hk, Assoc.get?, Assoc.get?, ih]

theorem keepsOrder_erase {entries : Entries} (hnodup : (Assoc.keys entries).Nodup) (key : String)
    (written : List String → Prop) : KeepsOrder entries (Assoc.erase entries key) id written := by
  intro path inner changed hinner hchanged _
  cases path with
  | nil =>
    cases hinner
    cases hchanged
    have hsub : (Assoc.keys (Assoc.erase entries key)).Sublist (Assoc.keys entries) := by
      rw [keys_erase]
      exact List.erase_sublist
    exact .of_common hnodup hsub (.refl _) fun _ _ hkey => hkey
  | cons other rest =>
    by_cases hother : other = key
    · subst hother
      have hgone : Assoc.get? (Assoc.erase entries other) other = none := by
        rw [Assoc.get?_eq_none_iff, keys_erase]
        exact hnodup.not_mem_erase
      rw [id, block?_of_get?_eq_none hgone] at hchanged
      cases hchanged
    · exact sameOrder_of_block?_eq (block?_congr (get?_erase_of_ne hother entries) rest) hinner hchanged

/-- A new name comes in the place of the old one, and the mappings behind it come along. -/
theorem keepsOrder_rename {front back : Entries} {old new : String} {value : Value}
    (hnodup : (Assoc.keys (front ++ (old, value) :: back)).Nodup) (hfront : new ∉ Assoc.keys front)
    (hnew : new = old ∨ new ∉ Assoc.keys (front ++ (old, value) :: back)) (written : List String → Prop) :
    KeepsOrder (front ++ (old, value) :: back) (front ++ (new, value) :: back) (redirect [old] new) written := by
  have hold : old ∉ Assoc.keys front := by
    rw [Assoc.keys_split] at hnodup
    exact fun hmem => (List.nodup_append.mp hnodup).2.2 old hmem old List.mem_cons_self rfl
  intro path inner changed hinner hchanged _
  cases path with
  | nil =>
    cases hinner
    cases hchanged
    rw [Assoc.keys_split] at hnodup hnew ⊢
    rw [Assoc.keys_split]
    rcases hnew with rfl | hnew
    · exact .refl _
    have hothers (key : String) : (Assoc.keys front ++ Assoc.keys back).Sublist (Assoc.keys front ++ key :: Assoc.keys back) :=
      (List.sublist_cons_self ..).append_left _
    refine .of_common hnodup (hothers old) (hothers new) fun key hkey hkey' => ?_
    have hne : key ≠ new := fun heq => hnew (heq ▸ hkey)
    simpa [hne] using hkey'
  | cons key rest =>
    by_cases hkey : key = old
    · subst hkey
      have hget := (Assoc.get?_split hfront value back).trans (Assoc.get?_split hold value back).symm
      rw [redirect_cons] at hchanged
      exact sameOrder_of_block?_eq (block?_congr hget rest) hinner hchanged
    · have hapart : ¬ [old] <+: key :: rest := fun h => hkey (singleton_prefix_cons_iff.mp h).symm
      rw [redirect_of_not hapart] at hchanged
      by_cases hkey' : key = new
      · subst hkey'
        rw [block?_of_get?_eq_none (Assoc.get?_eq_none_iff.mpr (hnew.resolve_left hkey))] at hinner
        cases hinner
      · have hget := (Assoc.get?_split_of_ne hkey' front value back).trans (Assoc.get?_split_of_ne hkey front value back).symm
        exact sameOrder_of_block?_eq (block?_congr hget rest) hinner hchanged

/-- What keeps the order in a mapping keeps it in the surroundings. -/
theorem KeepsOrder.fill (h : KeepsOrder inner after follow written) (around : Surroundings)
    {follow' : List String → List String} {written' : List String → Prop}
    (hfollow : ∀ rest, follow' (around.path ++ rest) = around.path ++ follow rest)
    (hapart : ∀ path, ¬ around.path <+: path → follow' path = path)
    (hwritten : ∀ place, written place → written' (around.path ++ place)) :
    KeepsOrder (around.fill inner) (around.fill after) follow' written' := by
  intro path block changed hblock hchanged hkept
  by_cases hthrough : around.path <+: path
  · obtain ⟨rest, rfl⟩ := hthrough
    rw [block?_fill_append] at hblock
    rw [hfollow, block?_fill_append] at hchanged
    refine h rest block changed hblock hchanged fun place hplace hrest => ?_
    exact hkept _ (hwritten place hplace) ((List.prefix_append_right_inj _).mpr hrest)
  · rw [hapart path hthrough] at hchanged
    have hkeys := keys_block?_fill hthrough inner after
    rw [hblock, hchanged, Option.map_some, Option.map_some, Option.some.injEq] at hkeys
    rw [hkeys]
    exact .refl _

theorem get?_mergeInto_chains {incoming present entries more : Entries} (hincoming : distinctEntries incoming = true)
    {key : String} (hmore : Assoc.get? incoming key = some (.map .chained more))
    (hentries : Assoc.get? present key = some (.map .chained entries)) :
    Assoc.get? (mergeInto incoming present) key = some (.map .chained (mergeInto more entries)) := by
  rw [get?_mergeInto (distinctEntries_iff.mp hincoming).1, hmore, hentries]
  show some (Value.over (.map .chained more) (.map .chained entries)) = _
  rw [Value.over]

/-- In a merge chains keep the order of their keys, on every level down to what is overwritten. -/
theorem keepsOrder_mergeInto {incoming present : Entries} (hincoming : distinctEntries incoming = true)
    (hpresent : distinctEntries present = true) :
    KeepsOrder present (mergeInto incoming present) id (fun place => ∃ value, Overwrites incoming present place value) := by
  intro path
  induction path generalizing incoming present with
  | nil =>
    intro inner changed hinner hchanged _
    cases hinner
    cases hchanged
    have hkeys := keys_mergeInto (distinctEntries_iff.mp hincoming).1 present
    exact .of_common (distinctEntries_iff.mp hpresent).1 (.refl _) (hkeys ▸ List.sublist_append_left _ _) fun key hkey _ => hkey
  | cons key rest ih =>
    intro inner changed hinner hchanged hkept
    have hget := get?_mergeInto (distinctEntries_iff.mp hincoming).1 present key
    cases hvalue : Assoc.get? incoming key with
    | none =>
      rw [hvalue] at hget
      exact sameOrder_of_block?_eq (block?_congr hget rest) hinner hchanged
    | some value =>
      -- a merge goes further down only where two chains meet, and everywhere else it writes at this key
      by_cases hchains : ∃ entries more, Assoc.get? present key = some (.map .chained entries) ∧ value = .map .chained more
      · obtain ⟨entries, more, hentries, rfl⟩ := hchains
        have hmerged := get?_mergeInto_chains hincoming hvalue hentries
        obtain ⟨style, block, hblock, hinner⟩ := block?_cons_eq_some_iff.mp hinner
        obtain ⟨style', block', hblock', hchanged⟩ := block?_cons_eq_some_iff.mp hchanged
        cases hentries.symm.trans hblock
        cases hmerged.symm.trans hblock'
        have hmore := (distinctEntries_iff.mp hincoming).2 _ (Assoc.mem_of_get? hvalue)
        have hdistinct := (distinctEntries_iff.mp hpresent).2 _ (Assoc.mem_of_get? hentries)
        refine ih hmore hdistinct inner changed hinner hchanged ?_
        rintro place ⟨written, hwritten⟩ hrest
        exact hkept (key :: place) ⟨written, .within hvalue hentries hwritten⟩ (List.cons_prefix_cons.mpr ⟨rfl, hrest⟩)
      · exact absurd (singleton_prefix_cons_iff.mpr rfl) (hkept [key] ⟨value, .whole hvalue hchains⟩)

end Entries

/-! ### Distinct keys -/

theorem distinctEntries_putAll {present more : Entries} (hpresent : distinctEntries present = true)
    (hmore : ∀ e ∈ more, e.2.distinct = true) : distinctEntries (Assoc.putAll present more) = true := by
  induction more generalizing present with
  | nil => exact hpresent
  | cons e more ih =>
    obtain ⟨hvalue, hmore⟩ := List.forall_mem_cons.mp hmore
    exact ih (distinctEntries_alter hpresent e.1 hvalue fun _ _ => hvalue) hmore

theorem distinctEntries_erase {entries : Entries} (h : distinctEntries entries = true) (key : String) :
    distinctEntries (Assoc.erase entries key) = true := by
  rw [distinctEntries_iff] at h ⊢
  rw [Entries.keys_erase]
  exact ⟨h.1.erase key, fun e he => h.2 e (Assoc.mem_of_mem_erase he)⟩

theorem Overwrites.ne_nil {incoming present : Entries} {place : List String} {value : Value}
    (h : Overwrites incoming present place value) : place ≠ [] := by
  cases h <;> exact List.cons_ne_nil _ _

/-- A place of which a merge says that it is overwritten holds the value that is written there. -/
theorem Overwrites.at?_eq {incoming present : Entries} {place : List String} {value : Value}
    (h : Overwrites incoming present place value) (hincoming : distinctEntries incoming = true) :
    Entries.at? (mergeInto incoming present) place = some value := by
  induction h with
  | @whole incoming present key value hvalue hchains =>
    refine (Entries.at?_concat _ [] key).trans ?_
    show Assoc.get? (mergeInto incoming present) key = some value
    rw [get?_mergeInto (distinctEntries_iff.mp hincoming).1, hvalue]
    cases hpresent : Assoc.get? present key with
    | none => rfl
    | some earlier =>
      have hover : value.over earlier = value := by
        apply Value.over_of_not_chains
        rintro ⟨entries, more, rfl, rfl⟩
        exact hchains ⟨entries, more, hpresent, rfl⟩
      exact congrArg some hover
  | @within incoming present more entries key rest value hmore hentries hrest ih =>
    have hmerged := Entries.get?_mergeInto_chains hincoming hmore hentries
    rw [Entries.at?_cons hmerged hrest.ne_nil]
    exact ih ((distinctEntries_iff.mp hincoming).2 _ (Assoc.mem_of_get? hmore))

/-! ### Single edits -/

namespace Edit

/-- What an edit keeps of a document with distinct keys. The keys stay distinct on every level. Those that are in a mapping before and after come in the same order, unless the mapping is below a place that a value is written to, and then this value is what stands there. -/
structure Keeps (doc : Document) (edit : Edit) : Prop where
  distinct : (edit.apply doc).distinct = true
  order : ∀ path inner changed, doc.entries.block? path = some inner →
    (edit.apply doc).entries.block? (edit.follow doc path) = some changed →
    (∀ place, (∃ value, edit.Writes doc place value) → ¬ place <+: path) →
    SameOrder (Assoc.keys inner) (Assoc.keys changed)
  written : ∀ place value, edit.Writes doc place value → (edit.apply doc).at? place = some value

variable {doc : Document} {edit : Edit}

theorem Keeps.of_unchanged (hdoc : doc.distinct = true) (happly : edit.apply doc = doc)
    (hfollow : ∀ path, edit.follow doc path = path) (hwrites : ∀ place value, ¬ edit.Writes doc place value) :
    edit.Keeps doc where
  distinct := by rwa [happly]
  order path inner changed hinner hchanged _ := by
    rw [happly, hfollow] at hchanged
    exact Entries.sameOrder_of_block?_eq rfl hinner hchanged
  written place value hwritten := absurd hwritten (hwrites place value)

/-- An edit in a mapping keeps of the document what it keeps of the mapping. -/
theorem Keeps.of_fill {around : Surroundings} {inner after : Entries} {follow : List String → List String}
    {written : List String → Prop} (hdoc : doc.distinct = true) (hbefore : doc.entries = around.fill inner)
    (happly : edit.apply doc = { doc with entries := around.fill after })
    (hdistinct : distinctEntries inner = true → distinctEntries after = true)
    (horder : Entries.KeepsOrder inner after follow written)
    (hfollow : ∀ rest, edit.follow doc (around.path ++ rest) = around.path ++ follow rest)
    (hapart : ∀ path, ¬ around.path <+: path → edit.follow doc path = path)
    (hplaces : ∀ place, written place → ∃ value, edit.Writes doc (around.path ++ place) value)
    (hwritten : ∀ place value, edit.Writes doc place value → (around.fill after).at? place = some value) :
    edit.Keeps doc where
  distinct := by
    rw [Document.distinct, hbefore] at hdoc
    obtain ⟨hinner, haround⟩ := Surroundings.distinctEntries_fill hdoc
    rw [happly]
    exact haround after (hdistinct hinner)
  order := by
    rw [hbefore, happly]
    exact horder.fill around hfollow hapart hplaces
  written := by
    rw [happly]
    exact hwritten

section Distinct

variable (hdoc : doc.distinct = true)

include hdoc

/-- Writing one entry, at the top or below. -/
theorem Keeps.of_put {around : Surroundings} {inner : Entries} {key : String} {value : Value}
    (hbefore : doc.entries = around.fill inner)
    (happly : edit.apply doc = { doc with entries := around.fill (Assoc.put inner key value) })
    (hfollow : ∀ path, edit.follow doc path = path)
    (hwrites : ∀ place written, edit.Writes doc place written ↔ place = around.path ++ [key] ∧ written = value)
    (hvalue : value.distinct = true) : edit.Keeps doc := by
  have hnodup : (Assoc.keys inner).Nodup := by
    rw [Document.distinct, hbefore] at hdoc
    exact (distinctEntries_iff.mp (Surroundings.distinctEntries_fill hdoc).1).1
  refine .of_fill hdoc hbefore happly ?distinct (Entries.keepsOrder_putAll hnodup [(key, value)]) (fun _ => hfollow _)
    (fun path _ => hfollow path) ?places ?written
  case distinct => exact fun hinner => distinctEntries_alter hinner key hvalue fun _ _ => hvalue
  case places =>
    rintro _ ⟨written, other, rfl, hget⟩
    obtain ⟨rfl, rfl⟩ : key = other ∧ value = written := by simpa [Assoc.get?] using hget
    exact ⟨value, (hwrites _ _).mpr ⟨rfl, rfl⟩⟩
  case written =>
    intro place written h
    obtain ⟨rfl, rfl⟩ := (hwrites place written).mp h
    show Entries.at? (around.fill (Assoc.put inner key written)) _ = _
    rw [Entries.at?_concat, Entries.block?_fill, Option.bind_some, Assoc.get?_put, if_pos rfl]

theorem keeps_insert (key : String) {value : Value} (hvalue : value.distinct = true) : (insert key value).Keeps doc :=
  .of_put hdoc (show doc.entries = Surroundings.fill [] doc.entries from rfl) rfl (fun _ => rfl) (fun _ _ => Iff.rfl) hvalue

theorem keeps_insertAt (path : List String) (key : String) {value : Value} (hvalue : value.distinct = true) :
    (insertAt path key value).Keeps doc := by
  cases hinsert : doc.insertAt? path key value with
  | none => exact .of_unchanged hdoc (by rw [apply, hinsert]; rfl) (fun _ => rfl) (by simp [Writes, hinsert])
  | some after =>
    obtain ⟨entries, hentries, rfl⟩ := Option.map_eq_some_iff.mp hinsert
    obtain ⟨-, around, inner, rfl, hbefore, rfl⟩ := Entries.insertAt?_eq_some_iff.mp hentries
    exact .of_put hdoc hbefore (by rw [apply, hinsert]; rfl) (fun _ => rfl) (by simp [Writes, hinsert]) hvalue

theorem keeps_replaceAt (path : List String) {value : Value} (hvalue : value.distinct = true) :
    (replaceAt path value).Keeps doc := by
  cases hreplace : doc.replaceAt? path value with
  | none => exact .of_unchanged hdoc (by rw [apply, hreplace]; rfl) (fun _ => rfl) (by simp [Writes, hreplace])
  | some after =>
    obtain ⟨entries, hentries, rfl⟩ := Option.map_eq_some_iff.mp hreplace
    obtain ⟨around, front, key, present, back, rfl, hfirst, hbefore, rfl⟩ := Entries.replaceAt?_eq_some_iff.mp hentries
    -- overwriting a value that is there is an insertion in its mapping
    rw [← Assoc.put_split hfirst present value back] at hreplace
    exact .of_put hdoc hbefore (by rw [apply, hreplace]; rfl) (fun _ => rfl) (by simp [Writes, hreplace]) hvalue

theorem keeps_insertAll {entries : Entries} (hentries : ∀ e ∈ entries, e.2.distinct = true) :
    (insertAll entries).Keeps doc where
  distinct := distinctEntries_putAll hdoc hentries
  order := Entries.keepsOrder_putAll (distinctEntries_iff.mp hdoc).1 entries
  written := by
    rintro _ value ⟨key, rfl, hvalue⟩
    refine (Entries.at?_concat _ [] key).trans ?_
    show Assoc.get? (Assoc.putAll doc.entries entries) key = some value
    rw [Assoc.get?_putAll, hvalue, Option.some_or]

theorem keeps_erase (key : String) : (erase key).Keeps doc where
  distinct := distinctEntries_erase hdoc key
  order := Entries.keepsOrder_erase (distinctEntries_iff.mp hdoc).1 key _
  written := nofun

theorem keeps_merge {more : Document} (hmore : more.distinct = true) : (merge more).Keeps doc where
  distinct := distinctEntries_mergeInto (distinctEntries_iff.mp hmore).2 hdoc
  order := Entries.keepsOrder_mergeInto hmore hdoc
  written _ _ hwrites := Overwrites.at?_eq hwrites hmore

theorem keeps_renameAt (place : List String) (new : String) : (renameAt place new).Keeps doc := by
  cases hrename : doc.renameAt? place new with
  | none =>
    exact .of_unchanged hdoc (by rw [apply, hrename]; rfl) (fun path => by rw [follow, hrename]; rfl) (fun _ _ => id)
  | some renamed =>
    obtain ⟨parents, old, -, rfl, -⟩ := Document.renameAt?_isSome_iff.mp (Option.isSome_of_mem hrename)
    obtain ⟨around, front, value, back, rfl, hbefore, hfirst, hnew, rfl⟩ := Document.renameAt?_concat_eq_some_iff.mp hrename
    have hinner : distinctEntries (front ++ (old, value) :: back) = true := by
      rw [Document.distinct, hbefore] at hdoc
      exact (Surroundings.distinctEntries_fill hdoc).1
    have hfollow (path : List String) :
        (renameAt (around.path ++ [old]) new).follow doc path = redirect (around.path ++ [old]) new path := by
      rw [follow, hrename]
      rfl
    refine .of_fill hdoc hbefore (by rw [apply, hrename]; rfl) (fun _ => ?distinct)
      (Entries.keepsOrder_rename (distinctEntries_iff.mp hinner).1 (Assoc.not_mem_front hfirst hnew) hnew fun _ => False)
      (fun rest => ?follow) (fun path hpath => ?apart) (fun _ => False.elim) (fun _ _ => False.elim)
    case distinct =>
      obtain ⟨hold, hothers, hvalue⟩ := distinctEntries_split.mp hinner
      refine distinctEntries_split.mpr ⟨?_, hothers, hvalue⟩
      rcases hnew with rfl | hnew
      · exact hold
      · rw [Assoc.keys_split] at hnew
        rw [Assoc.keys_append]
        exact fun hmem => hnew (((List.sublist_cons_self ..).append_left _).subset hmem)
    case follow => rw [hfollow, redirect_append]
    case apart =>
      rw [hfollow]
      exact redirect_of_not (fun h => hpath ((List.prefix_append _ _).trans h)) new

theorem keeps_of_distinct (hedit : edit.distinct = true) : edit.Keeps doc := by
  cases edit with
  | insert key value => exact keeps_insert hdoc key hedit
  | insertAll entries => exact keeps_insertAll hdoc (List.all_eq_true.mp hedit)
  | erase key => exact keeps_erase hdoc key
  | clear =>
    refine ⟨rfl, ?_, nofun⟩
    rintro (_ | ⟨key, rest⟩) inner changed hinner ⟨⟩ -
    exact fun _ hfirst => absurd hfirst List.not_mem_nil
  | rename old new =>
    obtain ⟨hdistinct, horder, hwritten⟩ := keeps_renameAt hdoc [old] new
    exact ⟨hdistinct, horder, hwritten⟩
  | renameAt path new => exact keeps_renameAt hdoc path new
  | insertAt path key value => exact keeps_insertAt hdoc path key hedit
  | replaceAt path value => exact keeps_replaceAt hdoc path hedit
  | mergeEntry key value =>
    have hvalue : value.distinct = true := hedit
    have hmore : Document.distinct { entries := [(key, value)] } = true := by
      simp [Document.distinct, distinctEntries, Assoc.contains, hvalue]
    obtain ⟨hdistinct, horder, hwritten⟩ := keeps_merge hdoc hmore
    exact ⟨hdistinct, horder, hwritten⟩
  | merge more => exact keeps_merge hdoc hedit

end Distinct

/-! ### Runs -/

theorem distinct_run (hdoc : doc.distinct = true) {edits : List Edit} (hedits : ∀ edit ∈ edits, edit.distinct = true) :
    (run doc edits).distinct = true := by
  induction edits generalizing doc with
  | nil => exact hdoc
  | cons edit edits ih =>
    obtain ⟨hedit, hedits⟩ := List.forall_mem_cons.mp hedits
    exact ih (keeps_of_distinct hdoc hedit).distinct hedits

/-- However many edits are made, the keys stay distinct on every level, and each edit on the way keeps the keys of each mapping in order. -/
theorem run_keepsOrder (hdoc : doc.distinct = true) {edits : List Edit} (hedits : ∀ edit ∈ edits, edit.distinct = true) :
    (run doc edits).distinct = true ∧
      ∀ earlier edit later, edits = earlier ++ edit :: later → edit.Keeps (run doc earlier) := by
  refine ⟨distinct_run hdoc hedits, ?_⟩
  rintro earlier edit later rfl
  obtain ⟨hearlier, hedit⟩ := List.forall_mem_append.mp hedits
  exact keeps_of_distinct (distinct_run hdoc hearlier) (hedit edit List.mem_cons_self)

/-- Renaming a chain moves its mapping, and merging a chain over it then overwrites one of its three entries and adds another. -/
theorem run_keepsOrder_renamedChain :
    let doc : Document := { entries := [("$key", .map .chained [("node", .block []), ("pool", .absent), ("rule", .toggle)])] }
    let more : Document := { entries := [("ltm", .map .chained [("vlan", .toggle), ("pool", .block [("web", .toggle)])])] }
    let edits := [insert "sys" .absent, rename "$key" "ltm", merge more, replaceAt ["ltm", "rule"] (.int 1),
      renameAt ["ltm", "pool", "web"] "mail", insertAt ["ltm", "pool"] "dns" .absent,
      insertAll [("sys", .toggle), ("sys", .int 2)], mergeEntry "cli" .toggle, erase "cli"]
    let pool : Entries := [("mail", .toggle), ("dns", .absent)]
    (∀ edit ∈ edits, edit.distinct = true) ∧
      run doc edits = { entries := [("ltm", .map .chained [("node", .block []), ("pool", .block pool), ("rule", .int 1),
        ("vlan", .toggle)]), ("sys", .int 2)] } ∧
      (run doc edits).distinct = true ∧ (rename "$key" "ltm").Keeps (run doc [insert "sys" .absent]) ∧
      (merge more).Keeps (run doc [insert "sys" .absent, rename "$key" "ltm"]) := by
  intro doc more edits pool
  have hedits : ∀ edit ∈ edits, edit.distinct = true := by decide
  obtain ⟨hdistinct, hkeeps⟩ := run_keepsOrder (show doc.distinct = true by decide) hedits
  exact ⟨hedits, rfl, hdistinct, hkeeps [_] _ _ rfl, hkeeps [_, _] _ _ rfl⟩

end Edit

end ApplianceConfig
