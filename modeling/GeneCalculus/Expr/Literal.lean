import GeneCalculus.Text.Quoted

/-!
Constants of the expression language.
-/

namespace GeneCalculus

/-- A constant: an integer of 64 bits, a truth value, a text, or the empty value. -/
inductive Literal
  | int (value : Int64)
  | bool (value : Bool)
  | str (value : String)
  | nil
  deriving DecidableEq, Hashable, Inhabited

/-- The printed form, which the reader accepts. -/
def Literal.text : Literal → String
  | .int n => toString n.toInt
  | .bool true => "true"
  | .bool false => "false"
  | .str s => Text.Quoted.quote s
  | .nil => "nil"

end GeneCalculus
