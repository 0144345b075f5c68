import GeneCalculus.Text.Front

/-!
What readers of a front read. A reader undoes a writer on the values that are valid if it reads just
these, each off what the writer writes for it, whatever follows; then nothing but what is written is
read, and one after the other two readers undo two writers.
-/

namespace GeneCalculus.Text

variable {ε α β γ : Type} {l rest : List β}

/-- The outcome is the value `a` with `rest` left. -/
def Reads (out : Except ε (Front α l)) (a : α) (rest : List β) : Prop :=
  ∃ h, out = .ok (a, ⟨rest, h⟩)

/-- A reader reads one value. -/
theorem Reads.unique {out : Except ε (Front α l)} {a b : α} {rest' : List β}
    (h : Reads out a rest) (k : Reads out b rest') : a = b ∧ rest = rest' := by
  obtain ⟨_, rfl⟩ := h
  obtain ⟨_, same⟩ := k
  cases same
  exact ⟨rfl, rfl⟩

theorem reads_ok {x : Front α l} {a : α} :
    Reads (Except.ok x : Except ε (Front α l)) a rest ↔ x.1 = a ∧ x.2.1 = rest := by
  obtain ⟨b, rest', short⟩ := x
  constructor
  · rintro ⟨_, same⟩
    cases same
    exact ⟨rfl, rfl⟩
  · rintro ⟨rfl, rfl⟩
    exact ⟨short, rfl⟩

theorem reads_whole {a b : α} :
    Reads (Except.ok (Front.whole a l) : Except ε (Front α l)) b rest ↔ a = b ∧ l = rest :=
  reads_ok

theorem not_reads_error {e : ε} {a : α} :
    ¬Reads (Except.error e : Except ε (Front α l)) a rest := by
  rintro ⟨_, same⟩
  cases same

theorem reads_map {out : Except ε (Front α l)} {f : α → γ} {c : γ} :
    Reads (out.map (·.map f)) c rest ↔ ∃ a, Reads out a rest ∧ f a = c := by
  cases out with
  | error e => exact ⟨fun reads => absurd reads not_reads_error,
      fun ⟨_, reads, _⟩ => absurd reads not_reads_error⟩
  | ok x =>
    change Reads (Except.ok (x.map f)) c rest ↔ _
    simp only [reads_ok, Front.map]
    exact ⟨fun ⟨value, left⟩ => ⟨x.1, ⟨rfl, left⟩, value⟩,
      fun ⟨_, ⟨rfl, left⟩, value⟩ => ⟨value, left⟩⟩

theorem reads_andThen {out : Except ε (Front α l)}
    {next : α → (mid : List β) → Except ε (Front γ mid)} {c : γ} :
    Reads (out >>= fun x => x.andThen next) c rest ↔
      ∃ a mid, Reads out a mid ∧ Reads (next a mid) c rest := by
  cases out with
  | error e => exact ⟨fun reads => absurd reads not_reads_error,
      fun ⟨_, _, reads, _⟩ => absurd reads not_reads_error⟩
  | ok x =>
    obtain ⟨a, mid, short⟩ := x
    change Reads (Front.andThen (a, ⟨mid, short⟩) next) c rest ↔ _
    simp only [reads_ok, Front.andThen]
    constructor
    · intro reads
      refine ⟨a, mid, ⟨rfl, rfl⟩, ?_⟩
      cases behind : next a mid with
      | error e =>
        rw [behind] at reads
        exact absurd reads not_reads_error
      | ok y =>
        rw [behind] at reads
        have told := reads_ok.1 reads
        exact reads_ok.2 told
    · rintro ⟨_, _, ⟨rfl, rfl⟩, _, behind⟩
      rw [behind]
      exact reads_ok.2 ⟨rfl, rfl⟩

end GeneCalculus.Text
