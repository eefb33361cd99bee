import ApplianceConfig.Proofs.Compile.Objects

/-!
# Trees in the modern dialect

Where objects are modern, markers are. So all stamps of a tree for a modern version are compiled by their modern recipes.
-/

namespace ApplianceConfig

theorem Version.product_eq_of_atLeast {version bound : Version} (h : version.atLeast bound = true) :
    version.product = bound.product := by
  unfold atLeast compare? at h
  by_cases hproduct : version.product = bound.product
  · exact hproduct
  · rw [if_neg hproduct] at h
    cases h

theorem Dialect.modern_of_atLeast {version : Version} (h : version.atLeast (.release .bigip 11 0 0) = true) :
    Dialect.ofVersion version = .modern := by
  rw [Dialect.ofVersion, h]
  rfl

/-- Markers are modern on all versions of EM, and other objects on fewer. -/
theorem Stamp.dialect_of_modern {version : Version} (h : Dialect.ofVersion version = .modern) (stamp : Stamp) :
    stamp.dialect version = .modern := by
  have hmarker : markerDialect version = .modern := by
    unfold Dialect.ofVersion at h
    split at h
    · rename_i hmodern
      rw [Bool.or_eq_true, Bool.or_eq_true] at hmodern
      unfold markerDialect
      rcases hmodern with (hbigip | hem) | hbigiq
      · rw [hbigip]
        rfl
      · have hproduct : version.product = .em := Version.product_eq_of_atLeast hem
        simp [hproduct]
      · simp [hbigiq]
    · cases h
  cases stamp <;> assumption

namespace Tree

variable {tree : Tree} (hmodern : Dialect.ofVersion tree.context.version = .modern)

include hmodern

theorem recipeOf_of_modern (slot : Slot) (folder : FolderId) :
    tree.recipeOf slot folder = slot.stamp.modernRecipe (tree.scope folder slot.stamp.kind)
      (Template.document slot.stamp.kind .modern) := by
  have hdialect := slot.stamp.dialect_of_modern hmodern
  simp only [recipeOf, hdialect]
  rfl

/-- What a stamp is compiled to, when it is, is the object that its key names. -/
theorem titled_of_result {slot : Slot} (hraw : slot.stamp.kind ≠ .raw) {compiled : Compiled}
    (h : tree.result slot = .ok compiled) :
    ∃ folder, slot.folder = some folder ∧ Output.Titled slot.stamp (tree.scope folder slot.stamp.kind)
      { key := compiled.key, value := compiled.value } := by
  obtain ⟨folder, output, hfolder, hrun, rfl⟩ := exists_output_of_result h
  rw [recipeOf_of_modern hmodern] at hrun
  have htitled := slot.stamp.modernRecipe_titled hraw (tree.scope folder slot.stamp.kind)
  exact ⟨folder, hfolder, htitled.run (fun _ _ _ => .trivial _) output hrun⟩

end Tree

end ApplianceConfig
