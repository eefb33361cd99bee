import ApplianceConfig.Text.Reader

/-!
# Space in TOML texts

Blanks separate what stands on one line, and a comment reaches to the end of its line. A line ends with a line feed, which a carriage return may precede; a carriage return alone is an error.
-/

namespace ApplianceConfig.Toml

def isBlank (c : Char) : Bool := c == ' ' || c == '\t'

/-- The characters that stand for themselves in comments and quoted text: all but control characters, and tabs. -/
def isPlain (c : Char) : Bool := c == '\t' || (0x20 ≤ c.toNat && c.toNat != 0x7F)

def skipBlanks (cs : List Char) : List Char := cs.dropWhile isBlank

def skipComment : List Char → List Char
  | '#' :: rest => rest.dropWhile isPlain
  | cs => cs

/-- What is behind the end of a line. -/
def newline? : List Char → Option (List Char)
  | '\n' :: rest => some rest
  | '\r' :: '\n' :: rest => some rest
  | _ => none

/-- What is behind the end of a line or of the text, before which a comment may stand. -/
def lineEnd? (cs : List Char) : Option (List Char) :=
  match skipComment (skipBlanks cs) with
  | [] => some []
  | rest => newline? rest

theorem length_skipComment_le (cs : List Char) : (skipComment cs).length ≤ cs.length := by
  unfold skipComment
  split
  · exact Nat.le_succ_of_le (Text.length_dropWhile_le _ _)
  · exact Nat.le_refl _

theorem length_newline?_lt {cs rest : List Char} (h : newline? cs = some rest) :
    rest.length < cs.length := by
  unfold newline? at h
  split at h <;> cases h <;> simp only [List.length_cons] <;> omega

def skipLines (cs : List Char) : List Char :=
  match _h : newline? (skipComment (skipBlanks cs)) with
  | none => skipBlanks cs
  | some rest => skipLines rest
  termination_by cs.length
  decreasing_by
    exact Nat.lt_of_lt_of_le (length_newline?_lt ‹_›)
      (Nat.le_trans (length_skipComment_le _) (Text.length_dropWhile_le _ _))

end ApplianceConfig.Toml
