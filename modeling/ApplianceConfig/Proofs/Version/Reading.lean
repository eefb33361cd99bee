import ApplianceConfig.Version.Reader
import Mathlib.Data.List.Find

/-!
# Reading versions

Each of the six numbers of a version is read from its own run of digits, whatever stands in front of the first, between the third and the fourth, and behind the last. So a version that is written out is read back. Only its product may be lost: it is the one that the text mentions, and the name that SAM prints for itself is not among its marks.
-/

namespace ApplianceConfig

/-! ### Products in text -/

namespace Product

theorem occursIn_iff {mark text : List Char} : occursIn mark text = true ↔ mark <:+: text := by
  induction text with
  | nil => rw [occursIn, List.isEmpty_iff, List.infix_nil]
  | cons c text ih =>
    rw [occursIn, Bool.or_eq_true, ih, List.isPrefixOf_iff_prefix, List.infix_cons_iff]

/-- A mark does not reach into characters that its last one is not among. -/
theorem occursIn_append {mark text tail : List Char} {last : Char} (hlast : mark.getLast? = some last)
    (htail : last ∉ tail) : occursIn mark (text ++ tail) = occursIn mark text := by
  rw [Bool.eq_iff_iff, occursIn_iff, occursIn_iff]
  constructor
  · rintro ⟨before, after, h⟩
    rcases List.append_eq_append_iff.mp h with ⟨inside, rfl, -⟩ | ⟨excess, hexcess, rfl⟩
    · exact ⟨before, inside, rfl⟩
    · cases hend : excess.getLast? with
      | none =>
        rw [List.getLast?_eq_none_iff.mp hend, List.append_nil] at hexcess
        exact ⟨before, [], by rw [List.append_nil, hexcess]⟩
      | some c =>
        have hsame := congrArg List.getLast? hexcess
        rw [List.getLast?_append, List.getLast?_append, hlast, hend] at hsame
        cases hsame
        exact absurd (List.mem_append_left after (List.mem_of_getLast? hend)) htail
  · intro h
    exact h.trans (List.prefix_append text tail).isInfix

/-- Only letters have a case. -/
theorem foldCase_of_lt {c : Char} (h : c.toNat < 65) : foldCase c = c := by
  have hne : c ≠ 'ſ' := by
    rintro rfl
    exact absurd h (by decide)
  have hupper : ¬ (65 ≤ c.toNat ∧ c.toNat ≤ 90) := by omega
  rw [foldCase, if_neg hne]
  exact dif_neg hupper

/-- All marks end in a letter. -/
theorem exists_last_of_mark : ∀ entry ∈ marks, ∀ mark ∈ entry.2,
    ∃ last, mark.toList.getLast? = some last ∧ 65 ≤ last.toNat := by
  have hall : marks.all (·.2.all (·.toList.getLast?.any (65 ≤ ·.toNat))) = true := by decide
  simpa only [List.all_eq_true, Option.any_eq_true, decide_eq_true_eq] using hall

/-- Digits, points and blanks behind a text bring in no product. -/
theorem detect_append (text : String) {tail : String} (htail : ∀ c ∈ tail.toList, c.toNat < 65) :
    detect (text ++ tail) = detect text := by
  have hfold : tail.toList.map foldCase = tail.toList :=
    (List.map_congr_left fun c hc => foldCase_of_lt (htail c hc)).trans (List.map_id _)
  have hmarks : ∀ entry ∈ marks, (entry.2.any fun mark => occursIn mark.toList ((text ++ tail).toList.map foldCase)) =
      entry.2.any fun mark => occursIn mark.toList (text.toList.map foldCase) := by
    intro entry hentry
    rw [Bool.eq_iff_iff, List.any_eq_true, List.any_eq_true]
    refine exists_congr fun mark => and_congr_right fun hmark => ?_
    obtain ⟨last, hlast, hletter⟩ := exists_last_of_mark entry hentry mark hmark
    have hbehind : last ∉ tail.toList := by
      intro hmem
      have hlow := htail last hmem
      omega
    rw [String.toList_append, List.map_append, hfold, occursIn_append hlast hbehind]
  simp only [detect, List.find?_congr hmarks]

end Product

namespace Version

/-! ### Numerals -/

theorem isDigit_of_mem_numeral {n : UInt32} {c : Char} (h : c ∈ (toString n).toList) : c.isDigit = true :=
  Text.isDigit_of_mem_toString (n := n.toNat) h

theorem exists_numeral_eq_cons (n : UInt32) : ∃ c cs, (toString n).toList = c :: cs :=
  List.exists_cons_of_ne_nil (Text.toList_toString_ne_nil n.toNat)

theorem runNumber_numeral (n : UInt32) : runNumber (toString n).toList = some n := by
  have hne : ¬ (toString n).toList.isEmpty = true :=
    mt List.isEmpty_iff.mp (Text.toList_toString_ne_nil n.toNat)
  rw [runNumber, if_neg hne, String.ofList_toList, Text.uint32?_toString]

/-! ### Runs of digits -/

/-- Holds of texts in front of which a run of digits ends. -/
def EndsRun (cs : List Char) : Prop := ∀ c ∈ cs.head?, Text.isDecimalDigit c = false

/-- Holds of texts that start with a digit. -/
def StartsRun (cs : List Char) : Prop := ∃ c rest, cs = c :: rest ∧ Text.isDecimalDigit c = true

theorem startsRun_numeral (n : UInt32) (cs : List Char) : StartsRun ((toString n).toList ++ cs) := by
  obtain ⟨c, rest, hcons⟩ := exists_numeral_eq_cons n
  have hc : c.isDigit = true := isDigit_of_mem_numeral (n := n) (by rw [hcons]; exact List.mem_cons_self)
  exact ⟨c, rest ++ cs, by rw [hcons, List.cons_append], Text.isDecimalDigit_of_isDigit hc⟩

theorem endsRun_point (cs : List Char) : EndsRun ('.' :: cs) := by
  intro c hc
  cases hc
  decide

theorem digitRun_append {digits rest : List Char} (hdigits : ∀ c ∈ digits, Text.isDecimalDigit c = true)
    (hrest : EndsRun rest) : digitRun (digits ++ rest) = (digits, rest) := by
  rw [digitRun, List.takeWhile_append_of_pos hdigits, List.dropWhile_append_of_pos hdigits]
  cases rest with
  | nil => rw [List.takeWhile_nil, List.dropWhile_nil, List.append_nil]
  | cons c rest =>
    have hc : ¬ Text.isDecimalDigit c = true := by rw [hrest c rfl]; decide
    rw [List.takeWhile_cons_of_neg hc, List.dropWhile_cons_of_neg hc, List.append_nil]

theorem digitRun_numeral (n : UInt32) {rest : List Char} (hrest : EndsRun rest) :
    digitRun ((toString n).toList ++ rest) = ((toString n).toList, rest) :=
  digitRun_append (fun _ hc => Text.isDecimalDigit_of_isDigit (isDigit_of_mem_numeral hc)) hrest

/-- The runs of digits of a build that starts here. -/
def buildRuns (cs : List Char) : List (List Char) :=
  let (build, rest) := digitRun cs
  let (hotfix, rest) := digitRun (skipPoint rest)
  let (devel, _) := digitRun (skipPoint rest)
  [build, hotfix, devel]

theorem buildRuns_two (d e : UInt32) :
    buildRuns ((toString d).toList ++ '.' :: (toString e).toList) = [(toString d).toList, (toString e).toList, []] := by
  have hend : EndsRun [] := nofun
  have hhotfix := digitRun_numeral e hend
  rw [List.append_nil] at hhotfix
  simp only [buildRuns, digitRun_numeral d (endsRun_point _), skipPoint, hhotfix]
  rfl

theorem buildRuns_three (d e f : UInt32) {rest : List Char} (hrest : EndsRun rest) :
    buildRuns ((toString d).toList ++ '.' :: ((toString e).toList ++ '.' :: ((toString f).toList ++ rest))) =
      [(toString d).toList, (toString e).toList, (toString f).toList] := by
  simp only [buildRuns, digitRun_numeral d (endsRun_point _), skipPoint, digitRun_numeral e (endsRun_point _),
    digitRun_numeral f hrest]

/-- Holds of texts without digits. -/
def IsPlain (cs : List Char) : Prop := ∀ c ∈ cs, Text.isDecimalDigit c = false

theorem isPlain_of_all {cs : List Char} (h : cs.all (!Text.isDecimalDigit ·) = true) : IsPlain cs := by
  simpa [IsPlain] using h

/-- The runs of a release, and behind a text without digits those of its build. -/
theorem runsHere_release (a b c : UInt32) {gap rest : List Char} (hne : gap ≠ []) (hgap : IsPlain gap)
    (hrest : StartsRun rest) :
    runsHere ((toString a).toList ++ '.' :: ((toString b).toList ++ '.' :: ((toString c).toList ++ (gap ++ rest)))) =
      some ((toString a).toList :: (toString b).toList :: (toString c).toList :: buildRuns rest) := by
  obtain ⟨x, xs, hx⟩ := exists_numeral_eq_cons a
  obtain ⟨y, ys, hy⟩ := exists_numeral_eq_cons b
  have hend : EndsRun (gap ++ rest) := by
    obtain ⟨g, gs, rfl⟩ := List.exists_cons_of_ne_nil hne
    intro d hd
    cases hd
    exact hgap g List.mem_cons_self
  have hskip : (gap ++ rest).dropWhile (!Text.isDecimalDigit ·) = rest := by
    obtain ⟨d, ds, rfl, hd⟩ := hrest
    have hpass : ∀ c ∈ gap, (!Text.isDecimalDigit c) = true := fun c hc => by rw [hgap c hc]; rfl
    rw [List.dropWhile_append_of_pos hpass, List.dropWhile_cons_of_neg (by rw [hd]; decide)]
  have hmajor := digitRun_numeral a (endsRun_point ((toString b).toList ++ '.' :: ((toString c).toList ++ (gap ++ rest))))
  have hminor := digitRun_numeral b (endsRun_point ((toString c).toList ++ (gap ++ rest)))
  -- the runs must be seen not to be empty
  rw [hx, hy] at hmajor ⊢
  rw [hy] at hminor
  simp only [runsHere, hmajor, hminor, skipPoint, digitRun_numeral c hend, hskip, buildRuns]

theorem runs_of_runsHere {cs : List Char} {found : List (List Char)} (h : runsHere cs = some found) :
    runs cs = some found := by
  cases cs with
  | nil => cases h
  | cons c cs => rw [runs, h]

/-- No version starts in a text without digits. -/
theorem runs_append_of_plain {front : List Char} (hfront : IsPlain front) (cs : List Char) :
    runs (front ++ cs) = runs cs := by
  induction front with
  | nil => rfl
  | cons c front ih =>
    obtain ⟨hc, hrest⟩ := List.forall_mem_cons.mp hfront
    have hends : EndsRun (c :: (front ++ cs)) := by
      intro d hd
      cases hd
      exact hc
    have hrun : digitRun ([] ++ c :: (front ++ cs)) = ([], c :: (front ++ cs)) := digitRun_append nofun hends
    have hnone : runsHere (c :: (front ++ cs)) = none := by
      rw [List.nil_append] at hrun
      rw [runsHere, hrun]
    rw [List.cons_append, runs, hnone]
    exact ih hrest

/-- A text is read as a version if it has the three numbers of a release behind a text without digits, and then, behind another one, those of a build. -/
theorem parse?_of_toList {text : String} (a b c : UInt32) {d e f : UInt32} {front gap rest : List Char}
    (htext : text.toList = front ++ ((toString a).toList ++ '.' :: ((toString b).toList ++ '.' ::
      ((toString c).toList ++ (gap ++ rest)))))
    (hfront : IsPlain front) (hne : gap ≠ []) (hgap : IsPlain gap)
    (hrest : StartsRun rest) (hbuild : (buildRuns rest).mapM runNumber = some [d, e, f]) :
    parse? text =
      some { product := .detect text, major := a, minor := b, patch := c, build := d, hotfix := e, devel := f } := by
  have hruns : runs text.toList =
      some ((toString a).toList :: (toString b).toList :: (toString c).toList :: buildRuns rest) := by
    rw [htext, runs_append_of_plain hfront]
    exact runs_of_runsHere (runsHere_release a b c hne hgap hrest)
  have hnumbers : ((toString a).toList :: (toString b).toList :: (toString c).toList :: buildRuns rest).mapM runNumber =
      some [a, b, c, d, e, f] := by
    simp only [List.mapM_cons, runNumber_numeral, hbuild]
    rfl
  simp only [parse?, hruns, Option.bind_eq_bind, Option.bind_some, hnumbers]

/-! ### Versions written out -/

/-- What is written of the build of a version. -/
def buildText (v : Version) : List Char :=
  (toString v.build).toList ++ '.' :: ((toString v.hotfix).toList ++
    if v.devel = 0 then [] else '.' :: (toString v.devel).toList)

theorem buildRuns_buildText (v : Version) :
    (buildRuns v.buildText).mapM runNumber = some [v.build, v.hotfix, v.devel] := by
  by_cases hdevel : v.devel = 0
  · rw [buildText, if_pos hdevel, List.append_nil, buildRuns_two]
    simp only [List.mapM_cons, runNumber_numeral, hdevel]
    rfl
  · have hend : EndsRun [] := nofun
    have hruns := buildRuns_three v.build v.hotfix v.devel hend
    rw [List.append_nil] at hruns
    rw [buildText, if_neg hdevel, hruns]
    simp only [List.mapM_cons, runNumber_numeral]
    rfl

/-- What is written of the product of a version. -/
def productText (v : Version) : String := if v.product = .unknown then "" else v.product.displayName ++ " "

/-- What is written of the numbers of a version. -/
def numbersText (v : Version) : List Char :=
  (toString v.major).toList ++ '.' :: ((toString v.minor).toList ++ '.' ::
    ((toString v.patch).toList ++ ([' '] ++ v.buildText)))

theorem render_eq (v : Version) : v.render = v.productText ++ String.ofList v.numbersText := by
  apply String.toList_injective
  have hrelease : ".".intercalate [toString v.major, toString v.minor, toString v.patch] =
      toString v.major ++ "." ++ toString v.minor ++ "." ++ toString v.patch := rfl
  by_cases hdevel : v.devel = 0
  · simp [render, productText, numbersText, buildText, hdevel, hrelease]
  · simp [render, productText, numbersText, buildText, hdevel, hrelease]

theorem lt_of_mem_numbersText {v : Version} : ∀ c ∈ v.numbersText, c.toNat < 65 := by
  have hnumeral (n : UInt32) : ∀ c ∈ (toString n).toList, c.toNat < 65 := by
    intro c hc
    have hdigit := isDigit_of_mem_numeral hc
    simp only [Char.isDigit, Bool.and_eq_true, decide_eq_true_eq] at hdigit
    have hnine : c.toNat ≤ 57 := hdigit.2
    omega
  have hpoint : '.'.toNat < 65 := by decide
  have hblank : ∀ c ∈ [' '], c.toNat < 65 := List.forall_mem_singleton.mpr (by decide)
  unfold numbersText buildText
  simp only [List.forall_mem_append, List.forall_mem_cons (a := '.')]
  refine ⟨hnumeral _, hpoint, hnumeral _, hpoint, hnumeral _, hblank, hnumeral _, hpoint, hnumeral _, ?_⟩
  split
  · exact List.forall_mem_nil _
  · exact List.forall_mem_cons.mpr ⟨hpoint, hnumeral _⟩

theorem detect_render (v : Version) :
    Product.detect v.render = if v.product = .sam then .unknown else v.product := by
  rw [render_eq, Product.detect_append _ (by rw [String.toList_ofList]; exact lt_of_mem_numbersText), productText]
  cases v.product <;> decide

/-- Numbers are read from where they stand, whatever text without digits is in front of them and between the release and its build, and whatever follows. A version that is written out is read back, but the product SAM is not found again. -/
theorem parse?_written {front gap back : String} (hfront : ∀ x ∈ front.toList, Text.isDecimalDigit x = false)
    (hne : gap ≠ "") (hgap : ∀ x ∈ gap.toList, Text.isDecimalDigit x = false)
    (hback : ∀ x ∈ back.toList.head?, Text.isDecimalDigit x = false) (a b c d e f : UInt32) (v : Version) :
    let text := front ++ (toString a ++ "." ++ toString b ++ "." ++ toString c) ++ gap ++
      (toString d ++ "." ++ toString e ++ "." ++ toString f) ++ back
    parse? text =
        some { product := .detect text, major := a, minor := b, patch := c, build := d, hotfix := e, devel := f } ∧
      parse? v.render = some { v with product := if v.product = .sam then .unknown else v.product } := by
  intro text
  constructor
  · let rest := (toString d).toList ++ '.' :: ((toString e).toList ++ '.' :: ((toString f).toList ++ back.toList))
    have htext : text.toList = front.toList ++ ((toString a).toList ++ '.' :: ((toString b).toList ++ '.' ::
        ((toString c).toList ++ (gap.toList ++ rest)))) := by
      simp [text, rest]
    have hnonempty : gap.toList ≠ [] := fun hempty => hne (String.toList_eq_nil_iff.mp hempty)
    have hbuild : (buildRuns rest).mapM runNumber = some [d, e, f] := by
      rw [buildRuns_three d e f hback]
      simp only [List.mapM_cons, runNumber_numeral]
      rfl
    exact parse?_of_toList a b c htext hfront hnonempty hgap (startsRun_numeral d _) hbuild
  · have htext : v.render.toList = v.productText.toList ++ v.numbersText := by
      rw [render_eq, String.toList_append, String.toList_ofList]
    have hproduct : IsPlain v.productText.toList := by
      refine isPlain_of_all ?_
      rw [productText]
      cases v.product <;> decide
    have hblank : IsPlain [' '] := isPlain_of_all (by decide)
    rw [parse?_of_toList v.major v.minor v.patch htext hproduct (by decide) hblank (startsRun_numeral v.build _)
      v.buildRuns_buildText, detect_render]

/-- A build behind a word, and a version of SAM. -/
theorem parse?_written_engineeringBuild :
    (∀ x ∈ "BIG-IP_v".toList, Text.isDecimalDigit x = false) ∧ " build" ≠ "" ∧
      (∀ x ∈ " build".toList, Text.isDecimalDigit x = false) ∧
      (∀ x ∈ "-eng2".toList.head?, Text.isDecimalDigit x = false) ∧
      parse? "BIG-IP_v11.0.1 build6901.45.4-eng2" = some {
        product := .bigip, major := 11, minor := 0, patch := 1, build := 6901, hotfix := 45, devel := 4 } ∧
      parse? "SAM 11.5.1 0.0" = some (.release .unknown 11 5 1) := by
  have hfront : IsPlain "BIG-IP_v".toList := isPlain_of_all (by decide)
  have hne : " build" ≠ "" := by decide
  have hgap : IsPlain " build".toList := isPlain_of_all (by decide)
  have hback : EndsRun "-eng2".toList := by
    intro x hx
    cases hx
    decide
  obtain ⟨hnumbers, hrender⟩ :=
    parse?_written hfront hne hgap hback 11 0 1 6901 45 4 (.release .sam 11 5 1)
  have hproduct : Product.detect "BIG-IP_v11.0.1 build6901.45.4-eng2" = .bigip := by decide
  refine ⟨hfront, hne, hgap, hback, ?_, hrender⟩
  rw [← hproduct]
  exact hnumbers

end Version

end ApplianceConfig
