import GeneCalculus.Canonical.Report
import GeneCalculus.Json.Value
import GeneCalculus.Settings.Engine
import GeneCalculus.Surface.Parse
import GeneCalculus.Surface.Print

/-!
Surgery: an expression is made cheaper without a change of its soul, and the outcome says whether
that came true.
-/

namespace GeneCalculus

structure Surgery where
  /-- The optimized expression as it is printed. -/
  optimized : String
  report : Report
  /-- A limit stopped the search for the soul, before or after. -/
  provisional : Bool
  /-- The soul is what it was. -/
  preserved : Bool

namespace Surgery

def success (s : Surgery) : Bool := s.preserved && !s.provisional

/-- An expression as it is printed, or its size if that is above the limit. -/
def termText (A : Arena) (limits : Limits) (root : NodeId) : String :=
  let size := A.treeSize root
  if limits.maxTreeSize < size then s!"<{size} nodes>" else A.print root

/-- Optimizes the expression that a text holds. -/
def operate (source : String) (limits : Limits) : Except Surface.SyntaxError Surgery :=
  match Surface.parse source .empty with
  | (.error e, _) => .error e
  | (.ok root, A) =>
    let (before, A) := A.canonicalize limits root
    let (optimized, A) := A.optimize limits root
    let (after, A) := A.canonicalize limits optimized.result
    .ok {
      optimized := termText A limits optimized.result
      report := optimized.report after.soul.id
      provisional := before.soul.provisional || after.soul.provisional
      preserved := after.soul.id = before.soul.id }

/-- What is shown of an outcome. -/
def text (s : Surgery) : String := "Optimized: " ++ s.optimized ++ "\n" ++ s.report.text

def json (s : Surgery) : Json :=
  .record [
    ("optimized", .str s.optimized),
    ("initial_cost", .nat s.report.initialCost),
    ("final_cost", .nat s.report.finalCost),
    ("speedup", .float s.report.speedup),
    ("passes", .nat s.report.passes),
    ("rules_applied", .record (s.report.applied.entries.map fun (name, n) => (name, .nat n))),
    ("semantic_hash", .str s.report.soul.text),
    ("provisional", .bool s.provisional),
    ("preserved", .bool s.preserved)]

end Surgery

end GeneCalculus
