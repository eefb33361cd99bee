import ApplianceConfig.Proofs.Tree.Traversal
import Mathlib.Data.List.Induction

/-!
# Paths name folders

A path is cut into the names that it was put together from, as long as no name is empty or has a slash in it. The names of a folder lead back to it from the root, and a folder holds those whose names start with its own. So a name behind a folder's path is the name of no other thing, neither in this folder nor in another.
-/

namespace ApplianceConfig

/-! ### Cutting paths -/

namespace Text

/-- Holds of the names that a path can be put together from. -/
def isName (name : String) : Bool := !name.isEmpty && !name.toList.contains '/'

/-- Names behind slashes, one after another. -/
def absolute (names : List String) : String := String.join (names.map ("/" ++ ·))

theorem absolute_of_ne_nil {names : List String} (h : names ≠ []) : absolute names = "/" ++ "/".intercalate names := by
  induction names with
  | nil => exact absurd rfl h
  | cons name names ih =>
    have hfirst : absolute (name :: names) = "/" ++ name ++ absolute names := by
      simp only [absolute, List.map_cons, String.join_cons]
    by_cases hnames : names = []
    · simp [hnames, absolute, String.join_cons]
    · rw [hfirst, ih hnames, String.intercalate_cons_of_ne_nil hnames]
      simp only [String.append_assoc]

theorem pieces_absolute {names : List String} (h : ∀ name ∈ names, isName name = true) :
    pieces '/' (absolute names).toList = [] :: names.map String.toList := by
  induction names with
  | nil => rfl
  | cons name names ih =>
    obtain ⟨hname, hnames⟩ := List.forall_mem_cons.mp h
    have hslash : '/' ∉ name.toList := by
      intro hmem
      simp [isName, hmem] at hname
    have hcut := pieces_append hslash (ih hnames)
    have htext : (absolute (name :: names)).toList = '/' :: (name.toList ++ (absolute names).toList) := by
      simp [absolute, String.join_cons]
    rw [htext, pieces, if_pos rfl, hcut, List.append_nil, List.map_cons]

theorem segments_absolute {names : List String} (h : ∀ name ∈ names, isName name = true) :
    segments (absolute names) = names := by
  have hnonempty : (names.map String.toList).filter (!·.isEmpty) = names.map String.toList := by
    refine List.filter_eq_self.mpr fun cs hcs => ?_
    obtain ⟨name, hname, rfl⟩ := List.mem_map.mp hcs
    have hname := h name hname
    cases hempty : name.toList with
    | nil =>
      rw [String.toList_eq_nil_iff.mp hempty] at hname
      cases hname
    | cons c cs => rfl
  rw [segments, pieces_absolute h, List.filter_cons_of_neg (by simp), hnonempty, List.map_map]
  exact List.map_id'' (fun name => String.ofList_toList) names

theorem pieces_append_separator (separator : Char) (cs rest : List Char) :
    pieces separator (cs ++ separator :: rest) = pieces separator cs ++ pieces separator rest := by
  induction cs with
  | nil =>
    rw [List.nil_append, pieces, pieces, if_pos rfl]
    rfl
  | cons c cs ih =>
    rw [List.cons_append, pieces, pieces, ih]
    by_cases hc : c = separator
    · rw [if_pos hc, if_pos hc, List.cons_append]
    · rw [if_neg hc, if_neg hc]
      obtain ⟨first, others, hpieces⟩ := List.exists_cons_of_ne_nil (pieces_ne_nil separator cs)
      simp only [hpieces, List.cons_append]

theorem not_mem_of_mem_pieces {separator : Char} {cs piece : List Char} (h : piece ∈ pieces separator cs) :
    separator ∉ piece := by
  induction cs generalizing piece with
  | nil =>
    rw [List.mem_singleton.mp h]
    exact List.not_mem_nil
  | cons c cs ih =>
    obtain ⟨first, others, hpieces⟩ := List.exists_cons_of_ne_nil (pieces_ne_nil separator cs)
    rw [pieces] at h
    rw [hpieces] at h ih
    by_cases hc : c = separator
    · rw [if_pos hc] at h
      rcases List.mem_cons.mp h with rfl | hlater
      · exact List.not_mem_nil
      · exact ih hlater
    · rw [if_neg hc] at h
      rcases List.mem_cons.mp h with rfl | hlater
      · exact List.not_mem_cons_of_ne_of_not_mem (Ne.symm hc) (ih List.mem_cons_self)
      · exact ih (List.mem_cons_of_mem _ hlater)

/-- Paths with a slash between them are cut into the names of both. -/
theorem segments_append (path rest : String) : segments (path ++ "/" ++ rest) = segments path ++ segments rest := by
  have htext : (path ++ "/" ++ rest).toList = path.toList ++ '/' :: rest.toList := by simp
  rw [segments, htext, pieces_append_separator, List.filter_append, List.map_append]
  rfl

theorem isName_of_mem_segments {path name : String} (h : name ∈ segments path) : isName name = true := by
  obtain ⟨piece, hpiece, rfl⟩ := List.mem_map.mp h
  obtain ⟨hpiece, hnonempty⟩ := List.mem_filter.mp hpiece
  have hslash := not_mem_of_mem_pieces hpiece
  cases piece with
  | nil => cases hnonempty
  | cons => simpa [isName] using hslash

theorem segments_intercalate {names : List String} (h : ∀ name ∈ names, isName name = true) :
    segments ("/".intercalate names) = names := by
  by_cases hnames : names = []
  · rw [hnames]
    rfl
  · have hcut := segments_absolute h
    rwa [absolute_of_ne_nil hnames, ← String.empty_append (s := "/"), segments_append] at hcut

end Text

/-! ### Folders by their names -/

namespace Tree

theorem names_of_parent {tree : Tree} {id parent : FolderId} (h : (tree.folder id).parent = some parent) :
    tree.names id = tree.names parent ++ [(tree.folder id).name] := by
  rw [names_eq, h]

theorem path_eq_absolute (tree : Tree) (id : FolderId) : tree.path id = Text.absolute (tree.names id) := by
  rw [path, key, names_eq, Folder.isRoot]
  cases (tree.folder id).parent with
  | none => rfl
  | some parent => exact (Text.absolute_of_ne_nil (List.append_ne_nil_of_right_ne_nil _ (List.cons_ne_nil _ _))).symm

/-- A name behind the path of a folder is one more name behind those of the folder. -/
theorem path_append_name (tree : Tree) (id : FolderId) (name : String) :
    tree.path id ++ "/" ++ name = Text.absolute (tree.names id ++ [name]) := by
  rw [path_eq_absolute]
  simp [Text.absolute, String.join_append, String.join_cons, String.append_assoc]

theorem path_of_parent {tree : Tree} {id parent : FolderId} (h : (tree.folder id).parent = some parent) :
    tree.path id = tree.path parent ++ "/" ++ (tree.folder id).name := by
  rw [path_append_name, path_eq_absolute, names_of_parent h]

/-- What holds of the empty path, and goes on from a path to the ones right below it, holds of the paths of all folders. -/
theorem path_induction (tree : Tree) (P : String → Prop) (hroot : P "")
    (hstep : ∀ id parent, (tree.folder id).parent = some parent → P (tree.path parent) →
      P (tree.path parent ++ "/" ++ (tree.folder id).name)) (id : FolderId) : P (tree.path id) := by
  induction id using Nat.strongRecOn with
  | ind id ih =>
    cases hparent : (tree.folder id).parent with
    | none =>
      have hisRoot : (tree.folder id).isRoot = true := Option.isNone_iff_eq_none.mpr hparent
      rw [path, if_pos hisRoot]
      exact hroot
    | some parent =>
      rw [path_of_parent hparent]
      exact hstep id parent hparent (ih parent (tree.parent_lt_of_folder hparent))

theorem descend?_append (tree : Tree) (start : FolderId) (names more : List String) :
    tree.descend? start (names ++ more) = (tree.descend? start names).bind (tree.descend? · more) := by
  induction names generalizing start with
  | nil => rfl
  | cons name names ih =>
    rw [List.cons_append, descend?, descend?]
    cases tree.child? start name with
    | none => rfl
    | some next => exact ih next

/-- A lookup goes from folder to folder, one name at a time. -/
theorem descend?_induction {tree : Tree} {start id : FolderId} {names : List String}
    {motive : FolderId → List String → Prop} (h : tree.descend? start names = some id) (here : motive start [])
    (child : ∀ {id names name next}, motive id names → tree.child? id name = some next → motive next (names ++ [name])) :
    motive id names := by
  induction names using List.reverseRecOn generalizing id with
  | nil =>
    cases h
    exact here
  | append_singleton names name ih =>
    rw [descend?_append, Option.bind_eq_some_iff] at h
    obtain ⟨last, hlast, hname⟩ := h
    rw [descend?] at hname
    cases hchild : tree.child? last name with
    | none =>
      rw [hchild] at hname
      cases hname
    | some next =>
      rw [hchild] at hname
      cases hname
      exact child (ih hlast) hchild

section Linked

variable {tree : Tree} (h : tree.Linked)

include h

theorem Linked.child?_of_parent {id parent : FolderId} (hparent : (tree.folder id).parent = some parent) :
    tree.child? parent (tree.folder id).name = some id :=
  Assoc.get?_of_mem (h.names_nodup parent) (List.mem_of_getElem? (h.listed hparent).2)

theorem Linked.of_child? {parent child : FolderId} {name : String} (hchild : tree.child? parent name = some child) :
    (tree.folder child).parent = some parent ∧ (tree.folder child).name = name := by
  have hmem := Assoc.mem_of_get? hchild
  have hparent := h.parent_of_child (List.mem_map.mpr ⟨_, hmem, rfl⟩)
  have hlisted := List.mem_of_getElem? (h.listed hparent).2
  have hentry := List.inj_on_of_nodup_map (h.childIds_nodup parent) hlisted hmem rfl
  exact ⟨hparent, congrArg Prod.fst hentry⟩

/-- The names of a folder lead to it from the root. -/
theorem Linked.descend?_names {id : FolderId} (hid : id < tree.size) : tree.descend? root (tree.names id) = some id := by
  induction id using Nat.strongRecOn with
  | ind id ih =>
    rw [names_eq]
    cases hparent : (tree.folder id).parent with
    | none => exact congrArg some ((h.parent_eq_none_iff id hid).mp hparent).symm
    | some parent =>
      have hlt := tree.parent_lt_of_folder hparent
      rw [descend?_append, ih parent hlt (Nat.lt_trans hlt hid), Option.bind_some, descend?,
        h.child?_of_parent hparent]
      rfl

/-- A lookup from a folder ends in a folder that it holds, and whose names go on with those that were looked up. -/
theorem Linked.of_descend? {start id : FolderId} {names : List String} (hid : tree.descend? start names = some id) :
    tree.Holds start id ∧ tree.names id = tree.names start ++ names := by
  refine descend?_induction (motive := fun id names => tree.Holds start id ∧ tree.names id = tree.names start ++ names)
    hid ⟨.refl, (List.append_nil _).symm⟩ ?_
  rintro id names name next ⟨hholds, hnames⟩ hchild
  obtain ⟨hparent, rfl⟩ := h.of_child? hchild
  rw [names_of_parent hparent, hnames, List.append_assoc]
  exact ⟨hholds.tail hparent, rfl⟩

/-- A folder holds those whose names start with its own. -/
theorem Linked.holds_iff {start id : FolderId} (hstart : start < tree.size) (hid : id < tree.size) :
    tree.Holds start id ↔ tree.names start <+: tree.names id := by
  constructor
  · intro hholds
    clear hid
    induction hholds with
    | refl => exact List.prefix_refl _
    | tail _ hparent ih =>
      rw [names_of_parent hparent]
      exact ih.trans (List.prefix_append _ _)
  · rintro ⟨more, hmore⟩
    have hfound := h.descend?_names hid
    rw [← hmore, descend?_append, h.descend?_names hstart, Option.bind_some] at hfound
    exact (h.of_descend? hfound).1

theorem Linked.names_root : tree.names root = [] := by
  rw [names_eq, (h.parent_eq_none_iff root h.root_lt_size).mpr rfl]

theorem Linked.find?_eq_some_iff {id : FolderId} (hid : id < tree.size) {key : String} :
    tree.find? key = some id ↔ Text.segments key = tree.names id := by
  constructor
  · intro hfound
    rw [(h.of_descend? hfound).2, h.names_root, List.nil_append]
  · intro hnames
    rw [find?, hnames, h.descend?_names hid]

theorem Linked.find?_lt_size {key : String} {id : FolderId} (hid : tree.find? key = some id) : id < tree.size :=
  (h.of_descend? hid).1.lt_size h.root_lt_size

end Linked

/-- All folders but the root have names that a path can be put together from. -/
def Named (tree : Tree) : Prop := ∀ id < tree.size, id ≠ root → Text.isName (tree.folder id).name = true

instance (tree : Tree) : Decidable tree.Named :=
  inferInstanceAs (Decidable (∀ id < tree.size, id ≠ root → _))

theorem Named.isName_of_mem {tree : Tree} (hnamed : tree.Named) {id : FolderId} :
    ∀ name ∈ tree.names id, Text.isName name = true := by
  induction id using Nat.strongRecOn with
  | ind id ih =>
    intro name hname
    rw [names_eq] at hname
    cases hparent : (tree.folder id).parent with
    | none =>
      rw [hparent] at hname
      cases hname
    | some parent =>
      have hlt := tree.parent_lt_of_folder hparent
      rw [hparent] at hname
      rcases List.mem_append.mp hname with hbefore | hlast
      · exact ih parent hlt name hbefore
      · rw [List.mem_singleton.mp hlast]
        exact hnamed id (lt_size_of_parent hparent) (Nat.ne_of_gt (Nat.lt_of_le_of_lt (Nat.zero_le _) hlt))

/-- A name behind the path of a folder names one thing in one folder. -/
theorem Linked.path_name_inj {tree : Tree} (h : tree.Linked) (hnamed : tree.Named) {first second : FolderId}
    (hfirst : first < tree.size) (hsecond : second < tree.size) {a b : String}
    (ha : Text.isName a = true) (hb : Text.isName b = true)
    (heq : tree.path first ++ "/" ++ a = tree.path second ++ "/" ++ b) : first = second ∧ a = b := by
  have hcut {id : FolderId} {name : String} (hname : Text.isName name = true) :
      Text.segments (tree.path id ++ "/" ++ name) = tree.names id ++ [name] := by
    rw [path_append_name]
    refine Text.segments_absolute fun other hother => ?_
    rcases List.mem_append.mp hother with hfolder | hlast
    · exact hnamed.isName_of_mem other hfolder
    · rw [List.mem_singleton.mp hlast]
      exact hname
  have hnames : tree.names first ++ [a] = tree.names second ++ [b] := by
    rw [← hcut ha, ← hcut hb, heq]
  obtain ⟨hnames, hlast⟩ := List.append_inj' hnames rfl
  have hfound := h.descend?_names hfirst
  rw [hnames, h.descend?_names hsecond] at hfound
  exact ⟨(Option.some.inj hfound).symm, List.singleton_inj.mp hlast⟩

end Tree

end ApplianceConfig
