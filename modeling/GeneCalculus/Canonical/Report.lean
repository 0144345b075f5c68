import GeneCalculus.Canonical.Form
import GeneCalculus.Decimal.Rounded

/-!
Reports on an optimization, as lines for a reader.
-/

namespace GeneCalculus

structure Report where
  soul : SoulId
  initialCost : Nat
  finalCost : Nat
  passes : Nat
  applied : Tally

namespace Report

def speedup (r : Report) : Float := GeneCalculus.speedup r.initialCost r.finalCost

/-- The applications of each rule, in the order of their names. -/
def rulesText (applied : Tally) : String :=
  if applied.entries.isEmpty then "none"
  else ", ".intercalate (applied.entries.map fun (name, count) => s!"{name} ({count})")

def lines (r : Report) : List String := [
  "Semantic hash: " ++ r.soul.text,
  s!"Initial cost: {r.initialCost}",
  s!"Final cost: {r.finalCost}",
  "Speedup: " ++ Decimal.fixed 2 r.speedup ++ "x",
  s!"Iterations: {r.passes}",
  "Rules applied: " ++ rulesText r.applied]

/-- The lines, each with its end. -/
def text (r : Report) : String := String.join (r.lines.map (· ++ "\n"))

end Report

/-- How much cheaper a canonical form is. -/
def Canonical.report (c : Canonical) : Report :=
  ⟨c.soul.id, c.initialCost, c.finalCost, c.passes, c.applied⟩

/-- How much cheaper the outcome of an optimization is. -/
def Optimized.report (o : Optimized) (soul : SoulId) : Report :=
  ⟨soul, o.initialCost, o.finalCost, o.passes, o.applied⟩

end GeneCalculus
