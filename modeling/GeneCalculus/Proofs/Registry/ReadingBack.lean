import GeneCalculus.Proofs.Registry.Arrival
import GeneCalculus.Proofs.Registry.Legibility

/-!
Whether the champion of a group can be answered. A row that was chosen from the candidates has
finite shares, and those are read back. A row that is written from outside keeps its shares as they
are, and if one of them is not finite, the row can be written but not read. Nor can one be read whose
souls are not well-formed.
-/

namespace GeneCalculus.Registry

open Champion

variable {R S : Registry} {soul : SoulId} {c given : Champion} {op : Operation}
  {outside more rows later : List Champion}

/-- The row from outside that an operation writes, if it does. -/
def acceptedBy (R : Registry) (op : Operation) : List Champion :=
  match op, (R.perform op).1 with
  | .insertChampion c, .ok _ => [c]
  | _, _ => []

/-- The rows from outside that a history writes. -/
def accepted (R : Registry) : List Operation → List Champion
  | [] => []
  | op :: history => R.acceptedBy op ++ (R.perform op).2.accepted history

/-- A row as it is stored: with its score as tables keep it. -/
def StoredAs (given c : Champion) : Prop :=
  ∃ score, tabled? given.score = some score ∧ c = { given with score }

/-- Where a row comes from: it was chosen, and then its souls are well-formed and its shares finite,
or it was given. -/
inductive Origin (outside : List Champion) (c : Champion) : Prop
  | chosen (formed : c.canonical.WellFormed ∧ c.soul.WellFormed) (legible : Legible c.objectives)
  | given (given : Champion) (outside : given ∈ outside) (stored : StoredAs given c)

theorem Origin.mono (h : Origin outside c) (sub : outside ⊆ more) : Origin more c := by
  cases h with
  | chosen formed legible => exact .chosen formed legible
  | given given mem stored => exact .given given (sub mem) stored

/-- What an operation does to the rows: nothing, or it writes one, and others may go. -/
inductive Turn (outside rows : List Champion) : List Champion → Prop
  | same : Turn outside rows rows
  | write (others : List Champion) (left : others.Sublist rows) (c : Champion)
      (origin : Origin outside c) : Turn outside rows (upsert (·.canonical) c others)

theorem recompute_turn : Turn outside R.champions (R.recompute soul).2.champions := by
  have run := R.recompute_recomputed soul
  generalize R.recompute soul = o at run
  cases run with
  | unknown | unread | notNumber => exact .same
  | crowned _ reads found number =>
    have key := (reads.member keyOf_mem).formed
    have best := (reads.member (knows_of_champion? found).1).formed
    exact .write _ List.filter_sublist _ (.chosen ⟨key, best⟩ (Scored.legible found number))

theorem Entry.champions (h : Entry R soul S) : S.champions = R.champions := by cases h <;> rfl

theorem Enters.turn {α : Type} {o : Outcome α} (h : R.Enters o) :
    Turn outside R.champions o.2.champions := by
  cases h with
  | unchanged => exact .same
  | @settles soul S answer entry =>
    rw [← entry.champions]
    exact recompute_turn
  | unread entry =>
    rw [entry.champions]
    exact .same

theorem Quiet.champions (h : R.Quiet S) : S.champions = R.champions := by cases h; rfl

theorem Quiet.turn (h : R.Quiet S) : Turn outside R.champions S.champions := by
  rw [h.champions]
  exact .same

theorem register_turn (A : Arena) (root : NodeId) (source : String) (purity : Option Float) :
    Turn outside R.champions (R.register A root source purity).2.champions := by
  have run := R.register_registered A root source purity
  generalize R.register A root source purity = o at run
  cases run with
  | malformed | provisional => exact .same
  | submitted =>
    -- objects are put first, and those are no rows
    rw [← (R.withObjects_quiet A root source).champions]
    exact (insertGene_enters _).turn

theorem insertChampion_turn (given : Champion) :
    Turn (R.acceptedBy (.insertChampion given)) R.champions
      (R.insertChampion given).2.champions := by
  have run := R.insertChampion_instated given
  generalize written : R.insertChampion given = o at run
  cases run with
  | unknown | notNumber => exact .same
  | stored known number =>
    have accepted : given ∈ R.acceptedBy (.insertChampion given) := by
      have performed : R.perform (.insertChampion given) = _ := written
      unfold acceptedBy
      rw [performed]
      exact List.mem_cons_self
    exact .write _ (.refl _) _ (.given given accepted ⟨_, number, rfl⟩)

theorem perform_turn (op : Operation) :
    Turn (R.acceptedBy op) R.champions (R.perform op).2.champions := by
  cases op with
  | put => exact (put_quiet ..).turn
  | register => exact register_turn ..
  | insertGene => exact (insertGene_enters _).turn
  | recordEquivalence => exact (recordEquivalence_enters ..).turn
  | recordMetric => exact (recordMetric_enters ..).turn
  | insertChampion given => exact insertChampion_turn given
  | recompute => exact recompute_turn
  | forge => exact (forge_quiet ..).turn
  | insertAttestation => exact (insertAttestation_quiet ..).turn
  | attest => exact (attest_quiet ..).turn

/-- Rows have keys of their own, and each is one that was chosen or given. -/
structure Traced (outside rows : List Champion) : Prop where
  unique : (rows.map (·.canonical)).Nodup
  origin : ∀ c ∈ rows, Origin outside c

theorem Traced.turn (h : Traced outside rows) (turn : Turn more rows later) :
    Traced (outside ++ more) later := by
  have old : ∀ c ∈ rows, Origin (outside ++ more) c := fun c hc =>
    (h.origin c hc).mono (List.subset_append_left ..)
  cases turn with
  | same => exact ⟨h.unique, old⟩
  | write others left row origin =>
    refine ⟨nodup_upsert ((left.map _).nodup h.unique), fun c hc => ?_⟩
    rcases mem_of_mem_upsert hc with rfl | hc
    · exact origin.mono (List.subset_append_right ..)
    · exact old c (left.subset hc)

/-- A history leaves rows that were there, rows that were chosen, and rows that it was given. -/
theorem Traced.after (h : Traced outside R.champions) (history : List Operation) :
    Traced (outside ++ R.accepted history) (R.after history).champions := by
  induction history generalizing R outside with
  | nil =>
    rw [accepted, List.append_nil]
    exact h
  | cons op history ih =>
    rw [accepted, ← List.append_assoc]
    exact ih (h.turn (perform_turn op))

/-- `c` is the row of the group of `soul`. -/
structure StandsFor (R : Registry) (soul : SoulId) (c : Champion) : Prop where
  kept : c ∈ R.champions
  key : R.groupKey soul = .ok c.canonical
  only : ∀ d ∈ R.champions, R.groupKey soul = .ok d.canonical → d = c

/-- What is answered when the champion of a soul's group is asked for. -/
inductive Answers (R : Registry) (outside : List Champion) (soul : SoulId) : Prop
  /-- No row is kept for the group. -/
  | nothing (clear : R.Clear) (absent : ∀ c ∈ R.champions, R.groupKey soul ≠ .ok c.canonical)
      (answer : R.championFor soul = .ok none)
  /-- The row of the group, with the shares that are read from their text. -/
  | row (c : Champion) (stands : R.StandsFor soul c)
      (formed : c.canonical.WellFormed ∧ c.soul.WellFormed) (legible : Legible c.objectives)
      (objectives : Keyed Float)
      (read : (Json.parse (sharesText c.objectives)).bind readShares = some objectives)
      (names : objectives.entries.map Prod.fst = c.objectives.entries.map Prod.fst)
      (answer : R.championFor soul = .ok (some { c with objectives }))
  /-- The row of the group was given from outside, with a share that is not finite. -/
  | fault (c : Champion) (stands : R.StandsFor soul c)
      (formed : c.canonical.WellFormed ∧ c.soul.WellFormed) (illegible : ¬Legible c.objectives)
      (unread : (Json.parse (sharesText c.objectives)).bind readShares = none)
      (given : Champion) (outside : given ∈ outside) (stored : StoredAs given c)
      (answer : R.championFor soul = .error .json)
  /-- The row of the group was given from outside, and one of its souls is not well-formed. -/
  | illFormed (c : Champion) (stands : R.StandsFor soul c)
      (ill : ¬(c.canonical.WellFormed ∧ c.soul.WellFormed))
      (given : Champion) (outside : given ∈ outside) (stored : StoredAs given c)
      (answer : Unread (R.championFor soul))
  /-- The edges that join groups cannot be read. -/
  | dim (dim : ¬R.Clear) (answer : Unread (R.championFor soul))

theorem championFor_of_find? (known : R.knows soul) (clear : R.Clear)
    (found : R.champions.find? (·.canonical = R.keyOf soul) = some c) :
    R.championFor soul = c.read.map some := by
  unfold championFor
  rw [groupKey_of_clear known clear]
  simp only [bind, Except.bind, found]
  cases c.read <;> rfl

theorem championFor_of_illegible (known : R.knows soul) (clear : R.Clear)
    (found : R.champions.find? (·.canonical = R.keyOf soul) = some c)
    (formed : c.canonical.WellFormed ∧ c.soul.WellFormed) (illegible : ¬Legible c.objectives) :
    R.championFor soul = .error .json := by
  rw [championFor_of_find? known clear found, Champion.read_of_wellFormed formed, sharesBack_eq,
    read_of_not_legible illegible]
  rfl

theorem standsFor_of_find? (unique : (R.champions.map (·.canonical)).Nodup) (known : R.knows soul)
    (clear : R.Clear) (found : R.champions.find? (·.canonical = R.keyOf soul) = some c) :
    R.StandsFor soul c := by
  have same : c.canonical = R.keyOf soul := by simpa using List.find?_some found
  have key := groupKey_of_clear known clear
  refine ⟨List.mem_of_find?_eq_some found, same ▸ key, fun d hd also => ?_⟩
  rw [key, Except.ok.injEq] at also
  have again := find?_key unique hd
  rw [← also, found] at again
  exact (Option.some.inj again).symm

theorem championFor_of_none (known : R.knows soul) (clear : R.Clear)
    (found : R.champions.find? (·.canonical = R.keyOf soul) = none) :
    (∀ c ∈ R.champions, R.groupKey soul ≠ .ok c.canonical) ∧ R.championFor soul = .ok none := by
  have key := groupKey_of_clear known clear
  constructor
  · intro c hc same
    rw [key] at same
    exact List.find?_eq_none.1 found c hc (decide_eq_true (Except.ok.inj same).symm)
  · unfold championFor
    rw [key]
    simp only [bind, Except.bind, found]
    rfl

/-- Where the rows are traced, one of the answers is given. -/
theorem Traced.answers (h : Traced outside R.champions) (known : R.knows soul) :
    R.Answers outside soul := by
  by_cases clear : R.Clear
  · cases found : R.champions.find? (·.canonical = R.keyOf soul) with
    | none =>
      have ⟨absent, answer⟩ := championFor_of_none known clear found
      exact .nothing clear absent answer
    | some c =>
      have stands := standsFor_of_find? h.unique known clear found
      have answer := championFor_of_find? known clear found
      by_cases formed : c.canonical.WellFormed ∧ c.soul.WellFormed
      · by_cases legible : Legible c.objectives
        · obtain ⟨objectives, read, names⟩ := legible.exists_read
          refine .row c stands formed legible objectives read names ?_
          rw [answer, Champion.read_of_wellFormed formed, sharesBack_eq, read]
          rfl
        · have answer := championFor_of_illegible known clear found formed legible
          cases h.origin c stands.kept with
          | chosen _ always => exact absurd always legible
          | given given mem stored =>
            have unread := read_of_not_legible legible
            exact .fault c stands formed legible unread given mem stored answer
      · cases h.origin c stands.kept with
        | chosen always => exact absurd always formed
        | given given mem stored =>
          refine .illFormed c stands formed given mem stored ?_
          rw [answer]
          exact (Champion.read_of_not_wellFormed formed).map _
  · refine .dim clear ?_
    exact (groupKey_of_not_clear known clear).bind _

theorem Unread.ne_json {α : Type} {x : Except Error α} (h : Unread x) : x ≠ .error .json := by
  obtain ⟨cause, rfl⟩ := h
  exact nofun

/-- Where all rows from outside have finite shares, no text of shares is at fault. -/
theorem Answers.ne_json (answers : R.Answers outside soul)
    (legible : ∀ given ∈ outside, Legible given.objectives) :
    R.championFor soul ≠ .error .json := by
  cases answers with
  | nothing _ _ answer => exact answer ▸ nofun
  | row _ _ _ _ _ _ _ answer => exact answer ▸ nofun
  | fault c _ _ illegible _ given mem stored =>
    obtain ⟨score, -, rfl⟩ := stored
    exact absurd (legible given mem) illegible
  | illFormed _ _ _ _ _ _ answer | dim _ answer => exact Unread.ne_json answer

/-- Where all souls are well-formed besides, there is an answer. -/
theorem Answers.exists_ok (answers : R.Answers outside soul) (sound : R.Sound) (formed : R.Formed)
    (legible : ∀ given ∈ outside, Legible given.objectives) :
    ∃ answer, R.championFor soul = .ok answer := by
  cases answers with
  | nothing _ _ answer => exact ⟨_, answer⟩
  | row _ _ _ _ _ _ _ answer => exact ⟨_, answer⟩
  | fault c _ _ illegible _ given mem stored =>
    obtain ⟨score, -, rfl⟩ := stored
    exact absurd (legible given mem) illegible
  | illFormed c stands ill =>
    have ⟨canonical, soul⟩ := sound.champions c stands.kept
    exact absurd ⟨formed.knows canonical, formed.knows soul⟩ ill
  | dim dim => exact absurd (formed.clearAt sound _) dim

/-- After any history, the champion of a known soul's group is answered, unless its row is one from
outside with a share that is not finite, or a soul that has to be read is not well-formed. So if all
rows from outside have finite shares, no text of shares is at fault, and there is an answer if the
inserted genes have well-formed souls. -/
theorem championFor_after (policy : Policy) (history : List Operation) (soul : SoulId)
    (known : ((empty policy).after history).knows soul) :
    ((empty policy).after history).Answers ((empty policy).accepted history) soul ∧
      ((∀ given ∈ (empty policy).accepted history, Legible given.objectives) →
        ((empty policy).after history).championFor soul ≠ .error .json ∧
          (FormedGenes history →
            ∃ answer, ((empty policy).after history).championFor soul = .ok answer)) := by
  have empty_ : Traced [] (empty policy).champions := ⟨.nil, nofun⟩
  have answers := (empty_.after history).answers known
  refine ⟨answers, fun legible => ⟨answers.ne_json legible, fun given => ?_⟩⟩
  exact answers.exists_ok (sound_after policy history) (formed_after given).1 legible

deriving instance DecidableEq for Champion

/-- A gene, and a row from outside with one share. -/
def inserting (share : Float) : List Operation := [
  .put [] .ir none,
  .insertGene ⟨⟨"λ0000000a"⟩, "first", .ofBytes [], "", 1.0, 1.0, 0⟩,
  .insertChampion ⟨⟨"λ0000000a"⟩, ⟨"λ0000000a"⟩, "first", 1.0, .ofList [("latency", share)]⟩]

theorem formedGenes_inserting (share : Float) : FormedGenes (inserting share) :=
  of_decide_eq_true rfl

theorem championFor_after_outside :
    let R := empty ⟨0.5, Objective.standard, .standard⟩
    let a : SoulId := ⟨"λ0000000a"⟩
    (R.after (inserting 0.5)).knows a ∧
      (∃ answer, (R.after (inserting 0.5)).championFor a = .ok answer) ∧
      (R.after (inserting (1.0 / 0.0))).knows a ∧
      (R.after (inserting (1.0 / 0.0))).Answers (R.accepted (inserting (1.0 / 0.0))) a := by
  intro R a
  have facts : (R.after (inserting 0.5)).knows a ∧ (R.after (inserting (1.0 / 0.0))).knows a ∧
      ∀ given ∈ R.accepted (inserting 0.5), Legible given.objectives := by
    decide +kernel
  obtain ⟨known, known', legible⟩ := facts
  have finite := championFor_after R.policy (inserting 0.5) a known
  have infinite := championFor_after R.policy (inserting (1.0 / 0.0)) a known'
  exact ⟨known, (finite.2 legible).2 (formedGenes_inserting _), known', infinite.1⟩

/-- A row from outside with an infinite share is accepted, and then its group has no answer. -/
theorem not_forall_championFor : ¬∀ (policy : Policy) (history : List Operation) (soul : SoulId),
    ((empty policy).after history).knows soul →
      ((empty policy).after history).championFor soul ≠ .error .json := by
  intro always
  let a : SoulId := ⟨"λ0000000a"⟩
  let R := (empty ⟨0.5, Objective.standard, .standard⟩).after (inserting (1.0 / 0.0))
  let row : Champion := ⟨a, a, "first", 1.0, .ofList [("latency", 1.0 / 0.0)]⟩
  have facts : R.knows a ∧ R.champions.find? (·.canonical = R.keyOf a) = some row ∧
      a.WellFormed ∧ ¬Legible row.objectives := by
    decide +kernel
  obtain ⟨known, found, formed, illegible⟩ := facts
  have clear : R.Clear := (formed_after (formedGenes_inserting _)).2 _
  have answer : R.championFor a = .error .json :=
    championFor_of_illegible known clear found ⟨formed, formed⟩ illegible
  exact always _ _ _ known answer

end GeneCalculus.Registry
