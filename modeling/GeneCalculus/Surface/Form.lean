import GeneCalculus.Arena.Basic

/-!
The written names of forms. A form with a fixed number of parts is a name followed by them; the
words that begin other forms are reserved as well.
-/

namespace GeneCalculus.Surface

/-- A form with a fixed number of parts. -/
inductive Form
  | neg
  | binary (form : Binary)
  | ternary (form : Ternary)
  | focus
  deriving DecidableEq

namespace Form

def name : Form → String
  | neg => "not"
  | binary .app => "app"
  | binary .map => "map"
  | binary .filter => "filter"
  | binary .compose => "compose"
  | binary (.arith op) => op.name
  | ternary .reduce => "reduce"
  | ternary .choose => "if"
  | focus => "focus"

/-- The forms that their name alone begins. An application takes more parts than two. -/
def all : List Form :=
  [neg, binary .map, binary .filter, binary .compose, ternary .reduce, ternary .choose, focus] ++
    Operator.all.map fun op => binary (.arith op)

def ofName? (name : String) : Option Form := all.find? fun form => form.name == name

def arity : Form → Nat
  | neg => 1
  | binary _ => 2
  | ternary _ => 3
  | focus => 4

/-- The node of a form and its parts, if their number is right. -/
def node? {α : Type} : Form → List α → Option (Node α)
  | neg, [a] => some (.neg a)
  | binary form, [a, b] => some (.binary form a b)
  | ternary form, [a, b, c] => some (.ternary form a b c)
  | focus, [a, b, c, d] => some (.focus a b c d)
  | _, _ => none

end Form

/-- Words that bind names in the expression after them. -/
def lambdaWords : List String := ["lam", "fn", "λ"]

/-- Words that begin a form, and so cannot begin an application by themselves. -/
def isReserved (word : String) : Bool :=
  lambdaWords.contains word || word == "app" || word == "let" || (Form.ofName? word).isSome

end GeneCalculus.Surface
