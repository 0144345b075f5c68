import GeneCalculus.Expr.Literal

/-!
Binary operators on constants. An operation whose result does not exist (a wrong kind of operand, a
division by zero, a value outside 64 bits) is undefined, and the expression stays as it is.
-/

namespace GeneCalculus

inductive Operator
  | add | sub | mul | div | mod | eq | lt | gt | and | or
  deriving DecidableEq, Hashable, Inhabited

namespace Operator

/-- The operators in the order of their tags. -/
def all : List Operator := [add, sub, mul, div, mod, eq, lt, gt, and, or]

def name : Operator → String
  | add => "add"
  | sub => "sub"
  | mul => "mul"
  | div => "div"
  | mod => "mod"
  | eq => "eq"
  | lt => "lt"
  | gt => "gt"
  | and => "and"
  | or => "or"

def ofName? (name : String) : Option Operator := all.find? fun op => op.name == name

/-- The byte that stands for the operator in encodings. -/
def tag : Operator → UInt8
  | add => 0
  | sub => 1
  | mul => 2
  | div => 3
  | mod => 4
  | eq => 5
  | lt => 6
  | gt => 7
  | and => 8
  | or => 9

def ofTag? (tag : UInt8) : Option Operator := all[tag.toNat]?

theorem ofName?_name (op : Operator) : ofName? op.name = some op := by cases op <;> decide

theorem ofTag?_tag (op : Operator) : ofTag? op.tag = some op := by cases op <;> rfl

theorem tag_of_ofTag? {tag : UInt8} {op : Operator} (h : ofTag? tag = some op) : op.tag = tag := by
  obtain ⟨bound, rfl⟩ := List.getElem?_eq_some_iff.1 h
  have tags : ∀ i : Fin 10, (all[i]).tag = UInt8.ofNat i := by decide
  exact (tags ⟨tag.toNat, bound⟩).trans UInt8.ofNat_toNat

/-- The integer as a constant, if 64 bits hold it. -/
def fit? (n : Int) : Option Literal :=
  if Int64.minValue.toInt ≤ n ∧ n ≤ Int64.maxValue.toInt then some (.int (Int64.ofInt n)) else none

/-- Arithmetic on integers, order on integers, equality on everything, connectives on truth values.
Quotient and remainder round toward zero, and both are undefined where the quotient is. -/
def eval : Operator → Literal → Literal → Option Literal
  | add, .int a, .int b => fit? (a.toInt + b.toInt)
  | sub, .int a, .int b => fit? (a.toInt - b.toInt)
  | mul, .int a, .int b => fit? (a.toInt * b.toInt)
  | div, .int a, .int b => if b = 0 then none else fit? (a.toInt.tdiv b.toInt)
  | mod, .int a, .int b =>
    if b = 0 then none
    else (fit? (a.toInt.tdiv b.toInt)).bind fun _ => fit? (a.toInt.tmod b.toInt)
  | lt, .int a, .int b => some (.bool (decide (a.toInt < b.toInt)))
  | gt, .int a, .int b => some (.bool (decide (b.toInt < a.toInt)))
  | eq, a, b => some (.bool (decide (a = b)))
  | and, .bool a, .bool b => some (.bool (a && b))
  | or, .bool a, .bool b => some (.bool (a || b))
  | _, _, _ => none

end Operator

end GeneCalculus
