import ApplianceConfig.Assoc

/-!
# TOML values
-/

namespace ApplianceConfig.Toml

/-- A value of a TOML document. Of a number with a fraction, and of a date or a time, only the text is kept. -/
inductive Value
  | text (s : String)
  | int (n : Int64)
  | float (literal : String)
  | bool (b : Bool)
  | moment (literal : String)
  | array (items : List Value)
  | table (entries : List (String × Value))
  deriving Repr, Inhabited

abbrev Table := Assoc Value

end ApplianceConfig.Toml
