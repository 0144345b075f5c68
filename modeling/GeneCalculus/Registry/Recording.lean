import GeneCalculus.Registry.Champions

/-!
Recording of what was observed: that two souls behave alike, and measurements. Rows are numbered
from one and stay.
-/

namespace GeneCalculus

namespace Registry

/-- The two souls of a new edge, the smaller first, if there may be one. -/
def checkEdge (R : Registry) (a b : SoulId) (confidence : Float) :
    Except Error (SoulId × SoulId) :=
  if 0.0 < confidence ∧ confidence ≤ 1.0 then
    if a = b then .error (.selfLoop a)
    else
      let (low, high) := if a < b then (a, b) else (b, a)
      (R.requireSouls [low, high]).map fun _ => (low, high)
  else .error (.confidence confidence)

/-- Records that two known souls behave alike. -/
def recordEquivalence (R : Registry) (a b : SoulId) (confidence : Float) : Outcome Edge :=
  match R.checkEdge a b confidence with
  | .error e => (.error e, R)
  | .ok (low, high) =>
    let edge : Edge := ⟨R.edges.length + 1, low, high, confidence⟩
    { R with edges := R.edges ++ [edge] }.settle low edge

/-- Records a measurement of a known soul. -/
def recordMetric (R : Registry) (soul : SoulId) (metric : String) (value : Float) :
    Outcome Metric :=
  if value.isFinite then
    match R.requireSouls [soul] with
    | .error e => (.error e, R)
    | .ok _ =>
      let row : Metric := ⟨R.metrics.length + 1, soul, metric, value⟩
      { R with metrics := R.metrics ++ [{ row with value := value + 0.0 }] }.settle soul row
  else (.error (.infiniteMetric metric value), R)

end Registry

end GeneCalculus
