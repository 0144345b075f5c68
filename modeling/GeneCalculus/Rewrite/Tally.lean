import GeneCalculus.Order.Keyed

/-!
Counts of rule applications by the names of the rules.
-/

namespace GeneCalculus

abbrev Tally := Keyed Nat

namespace Tally

def empty : Tally := Keyed.empty

/-- The count of a name; a name that is not there counts zero. -/
def count (t : Tally) (name : String) : Nat := (t.get? name).getD 0

/-- Raises the count of a name by `n`. -/
def add (t : Tally) (name : String) (n : Nat) : Tally := t.put name (t.count name + n)

theorem count_add (t : Tally) (name other : String) (n : Nat) :
    (t.add name n).count other = t.count other + if other = name then n else 0 := by
  simp only [count, add, Keyed.get?_put]
  by_cases eq : other = name <;> simp [eq]

/-- All the counts of both. -/
def merge (t u : Tally) : Tally := u.entries.foldl (fun t e => t.add e.1 e.2) t

end Tally

end GeneCalculus
