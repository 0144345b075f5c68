/-!
Objectives: what makes one implementation of a meaning better than another.
-/

namespace GeneCalculus

/-- Whether an objective rewards high or low values. -/
inductive Direction
  | maximize | minimize
  deriving DecidableEq

namespace Direction

def name : Direction → String
  | maximize => "maximize"
  | minimize => "minimize"

def ofName? : String → Option Direction
  | "maximize" => some maximize
  | "minimize" => some minimize
  | _ => none

theorem ofName?_name (d : Direction) : ofName? d.name = some d := by cases d <;> rfl

end Direction

/-- One weighted term of a score: the metric that it reads, and which of its values are good. -/
structure Objective where
  metric : String
  weight : Float
  direction : Direction

/-- Speed, memory and size should be low, and purity high; speed counts double. -/
def Objective.standard : List Objective := [
  ⟨"latency", 0.4, .minimize⟩,
  ⟨"memory", 0.2, .minimize⟩,
  ⟨"size", 0.2, .minimize⟩,
  ⟨"purity", 0.2, .maximize⟩]

end GeneCalculus
