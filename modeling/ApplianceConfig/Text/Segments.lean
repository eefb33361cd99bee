/-!
# Paths of names

A path is cut at its slashes, and the empty pieces are dropped: `/a//b/` names the same as `a/b`.
-/

namespace ApplianceConfig.Text

/-- The stretches of a text between the places where a character stands. -/
def pieces (separator : Char) : List Char → List (List Char)
  | [] => [[]]
  | c :: rest =>
    if c = separator then [] :: pieces separator rest
    else
      match pieces separator rest with
      | [] => [[c]]
      | first :: others => (c :: first) :: others

theorem pieces_ne_nil (separator : Char) (cs : List Char) : pieces separator cs ≠ [] := by
  cases cs with
  | nil => exact List.cons_ne_nil _ _
  | cons c cs =>
    unfold pieces
    split
    · exact List.cons_ne_nil _ _
    · split <;> exact List.cons_ne_nil _ _

theorem pieces_append {separator : Char} {name rest first : List Char} {others : List (List Char)}
    (hname : separator ∉ name) (hrest : pieces separator rest = first :: others) :
    pieces separator (name ++ rest) = (name ++ first) :: others := by
  induction name with
  | nil => exact hrest
  | cons c name ih =>
    have hc : c ≠ separator := fun heq => hname (heq ▸ List.mem_cons_self)
    have hlater : separator ∉ name := fun hmem => hname (List.mem_cons_of_mem c hmem)
    rw [List.cons_append, pieces, if_neg hc, ih hlater]
    rfl

/-- The nonempty names between the slashes of a path. -/
def segments (path : String) : List String :=
  ((pieces '/' path.toList).filter (!·.isEmpty)).map String.ofList

end ApplianceConfig.Text
