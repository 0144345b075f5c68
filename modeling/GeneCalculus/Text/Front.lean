/-!
Reading from the front of a list. What a reader gives has the rest with it and a proof that the rest
is no longer than the list, so a reader that calls another on the rest ends.
-/

namespace GeneCalculus.Text

/-- What was read from the front of `l`, and the rest. -/
abbrev Front (α : Type) {β : Type} (l : List β) := α × { rest : List β // rest.length ≤ l.length }

/-- What was read from the front of `l`, and the rest, which is shorter than `l`. -/
abbrev Taken (α : Type) {β : Type} (l : List β) := α × { rest : List β // rest.length < l.length }

namespace Front

variable {α β γ : Type} {l : List β}

/-- A value for which nothing was read. -/
def whole (a : α) (l : List β) : Front α l := (a, ⟨l, Nat.le_refl _⟩)

/-- The same front with another value. -/
def map (f : α → γ) (x : Front α l) : Front γ l := (f x.1, x.2)

/-- Reads on behind a front. -/
def andThen {ε : Type} (x : Front α l) (next : α → (rest : List β) → Except ε (Front γ rest)) :
    Except ε (Front γ l) :=
  match x with
  | (a, ⟨rest, h⟩) =>
    match next a rest with
    | .ok (b, ⟨rest', h'⟩) => .ok (b, ⟨rest', Nat.le_trans h' h⟩)
    | .error e => .error e

end Front

namespace Taken

variable {α β : Type} {l : List β}

/-- A value for which one element was read. -/
def one (a : α) (b : β) (l : List β) : Taken α (b :: l) := (a, ⟨l, Nat.lt_succ_self _⟩)

/-- The same value, read with one more element before it. -/
def behind (b : β) (x : Taken α l) : Taken α (b :: l) := (x.1, ⟨x.2.1, Nat.lt_succ_of_lt x.2.2⟩)

end Taken

end GeneCalculus.Text
