import GeneCalculus.Proofs.Registry.Component

/-!
Breadth-first search. A search sees the start, and then visits what it has seen, oldest first, and
sees the neighbours along confident edges. It comes to an end because what waits to be visited, and
what may still be seen, become fewer with each visit; and what it has seen by then is the class of
the start.
-/

namespace GeneCalculus.Equivalence

variable {edges : List (SoulId × SoulId × Float)} {minConfidence confidence : Float}
  {start soul x y z : SoulId}

/-- The other ends of the edges at a soul, with their confidences, in the order of the edges. -/
def neighbours (edges : List (SoulId × SoulId × Float)) (soul : SoulId) : List (SoulId × Float) :=
  edges.flatMap fun (a, b, confidence) =>
    (if a = soul then [(b, confidence)] else []) ++ if b = soul then [(a, confidence)] else []

/-- What was seen, and what of it waits to be visited. -/
structure Search where
  seen : List SoulId
  queue : List SoulId

/-- A neighbour along a confident edge is seen, and waits behind all others if it is new. -/
def Search.meet (minConfidence : Float) (s : Search) (neighbour : SoulId × Float) : Search :=
  if minConfidence ≤ neighbour.2 ∧ neighbour.1 ∉ s.seen then
    ⟨Ascending.insert neighbour.1 s.seen, s.queue ++ [neighbour.1]⟩
  else s

/-- Meets all neighbours of a soul. -/
def Search.visit (edges : List (SoulId × SoulId × Float)) (minConfidence : Float) (soul : SoulId)
    (s : Search) : Search :=
  (neighbours edges soul).foldl (meet minConfidence) s

theorem mem_neighbours :
    (y, confidence) ∈ neighbours edges x ↔
      (x, y, confidence) ∈ edges ∨ (y, x, confidence) ∈ edges := by
  unfold neighbours
  rw [List.mem_flatMap]
  constructor
  · rintro ⟨⟨a, b, c⟩, mem, h⟩
    rcases List.mem_append.1 h with h | h
    · split at h
      · rename_i same
        cases List.mem_singleton.1 h
        exact .inl (same ▸ mem)
      · cases h
    · split at h
      · rename_i same
        cases List.mem_singleton.1 h
        exact .inr (same ▸ mem)
      · cases h
  · rintro (mem | mem)
    · exact ⟨_, mem, List.mem_append_left _ (by simp)⟩
    · exact ⟨_, mem, List.mem_append_right _ (by simp)⟩

/-- The ends of edges that were not seen, each as often as it is one. -/
def unseen (edges : List (SoulId × SoulId × Float)) (seen : List SoulId) : List SoulId :=
  (edges.flatMap fun (a, b, _) => [a, b]).filter (· ∉ seen)

/-- What bounds the number of visits to come. -/
def Search.size (edges : List (SoulId × SoulId × Float)) (s : Search) : Nat :=
  (unseen edges s.seen).length + s.queue.length

theorem length_unseen_insert {seen : List SoulId} (new : x ∈ unseen edges seen) :
    (unseen edges (Ascending.insert x seen)).length < (unseen edges seen).length := by
  have fewer : unseen edges (Ascending.insert x seen) = (unseen edges seen).filter (· ≠ x) := by
    rw [unseen, unseen, List.filter_filter]
    apply List.filter_congr
    intro z _
    simp only [Ascending.mem_insert, not_or, Bool.decide_and]
  rw [fewer]
  apply List.length_filter_lt_length_iff_exists.2
  exact ⟨x, new, by simp⟩

theorem Search.size_meet {s : Search} {n : SoulId × Float}
    (known : n.1 ∈ edges.flatMap fun (a, b, _) => [a, b]) :
    (s.meet minConfidence n).size edges ≤ s.size edges := by
  unfold meet
  split
  · rename_i new
    have fewer := length_unseen_insert (List.mem_filter.2 ⟨known, decide_eq_true new.2⟩)
    simp only [size, List.length_append, List.length_singleton]
    omega
  · exact Nat.le_refl _

theorem Search.size_visit (s : Search) :
    (s.visit edges minConfidence soul).size edges ≤ s.size edges := by
  have known : ∀ n ∈ neighbours edges soul, n.1 ∈ edges.flatMap fun (a, b, _) => [a, b] := by
    intro n hn
    rcases mem_neighbours.1 hn with mem | mem
    · exact List.mem_flatMap.2 ⟨_, mem, by simp⟩
    · exact List.mem_flatMap.2 ⟨_, mem, by simp⟩
  unfold visit
  generalize neighbours edges soul = ns at known
  induction ns generalizing s with
  | nil => exact Nat.le_refl _
  | cons n ns ih =>
    have first : (s.meet minConfidence n).size edges ≤ s.size edges :=
      size_meet (known n List.mem_cons_self)
    exact Nat.le_trans (ih _ fun d hd => known d (List.mem_cons_of_mem _ hd)) first

/-- The search after one visit, if anything waits. -/
def Search.next? (edges : List (SoulId × SoulId × Float)) (minConfidence : Float) :
    Search → Option Search
  | ⟨_, []⟩ => none
  | ⟨seen, soul :: queue⟩ => some (visit edges minConfidence soul ⟨seen, queue⟩)

theorem Search.size_next {s t : Search} (h : s.next? edges minConfidence = some t) :
    t.size edges < s.size edges := by
  obtain ⟨seen, queue⟩ := s
  cases queue with
  | nil => cases h
  | cons soul queue =>
    cases h
    exact Nat.lt_of_le_of_lt (size_visit _) (Nat.lt_succ_self _)

/-- No search goes on forever. -/
theorem Search.next_wellFounded (edges : List (SoulId × SoulId × Float)) (minConfidence : Float) :
    WellFounded fun t s : Search => s.next? edges minConfidence = some t :=
  Subrelation.wf size_next (InvImage.wf (size edges) Nat.lt_wfRel.wf)

/-- Visits until nothing waits. -/
def Search.run (edges : List (SoulId × SoulId × Float)) (minConfidence : Float) (s : Search) :
    List SoulId :=
  match _h : s.next? edges minConfidence with
  | none => s.seen
  | some t => run edges minConfidence t
termination_by s.size edges
decreasing_by exact size_next ‹_›

/-- What a search from `start` has seen at its end. -/
def search (edges : List (SoulId × SoulId × Float)) (start : SoulId) (minConfidence : Float) :
    List SoulId :=
  Search.run edges minConfidence ⟨[start], [start]⟩

/-- An edge that is confident enough joins two souls, whichever stands first. -/
def Near (edges : List (SoulId × SoulId × Float)) (minConfidence : Float) (a b : SoulId) : Prop :=
  ∃ confidence, minConfidence ≤ confidence ∧
    ((a, b, confidence) ∈ edges ∨ (b, a, confidence) ∈ edges)

/-- A path of confident edges. -/
abbrev Path (edges : List (SoulId × SoulId × Float)) (minConfidence : Float) :
    SoulId → SoulId → Prop :=
  Relation.ReflTransGen (Near edges minConfidence)

namespace Search

variable {s : Search} {ns : List (SoulId × Float)} {n : SoulId × Float}

theorem mem_seen_meet :
    z ∈ (s.meet minConfidence n).seen ↔ z ∈ s.seen ∨ z = n.1 ∧ minConfidence ≤ n.2 := by
  unfold meet
  split
  · rename_i new
    rw [Ascending.mem_insert, and_iff_left new.1, or_comm]
  · rename_i old
    refine ⟨.inl, fun h => h.elim id ?_⟩
    rintro ⟨rfl, enough⟩
    by_contra unseen
    exact old ⟨enough, unseen⟩

theorem mem_queue_meet :
    z ∈ (s.meet minConfidence n).queue ↔
      z ∈ s.queue ∨ z ∉ s.seen ∧ z = n.1 ∧ minConfidence ≤ n.2 := by
  unfold meet
  split
  · rename_i new
    rw [List.mem_append, List.mem_singleton]
    refine or_congr_right ⟨?_, fun h => h.2.1⟩
    rintro rfl
    exact ⟨new.2, rfl, new.1⟩
  · rename_i old
    refine ⟨.inl, fun h => h.elim id ?_⟩
    rintro ⟨unseen, rfl, enough⟩
    exact absurd ⟨enough, unseen⟩ old

/-- Some neighbour is this soul, along an edge that is confident enough. -/
def Offers (minConfidence : Float) (ns : List (SoulId × Float)) (z : SoulId) : Prop :=
  ∃ n ∈ ns, z = n.1 ∧ minConfidence ≤ n.2

theorem offers_nil : ¬Offers minConfidence [] z := fun ⟨_, mem, _⟩ => List.not_mem_nil mem

theorem offers_cons : Offers minConfidence (n :: ns) z ↔
    (z = n.1 ∧ minConfidence ≤ n.2) ∨ Offers minConfidence ns z := by
  simp only [Offers, List.mem_cons, exists_eq_or_imp]

theorem offers_neighbours :
    Offers minConfidence (neighbours edges soul) z ↔ Near edges minConfidence soul z := by
  constructor
  · rintro ⟨⟨z, confidence⟩, mem, rfl, enough⟩
    exact ⟨confidence, enough, mem_neighbours.1 mem⟩
  · rintro ⟨confidence, enough, mem⟩
    exact ⟨_, mem_neighbours.2 mem, rfl, enough⟩

theorem mem_seen_foldl :
    z ∈ (ns.foldl (meet minConfidence) s).seen ↔ z ∈ s.seen ∨ Offers minConfidence ns z := by
  induction ns generalizing s with
  | nil => simp only [List.foldl_nil, offers_nil, or_false]
  | cons n ns ih => rw [List.foldl_cons, ih, mem_seen_meet, offers_cons, or_assoc]

theorem mem_queue_foldl :
    z ∈ (ns.foldl (meet minConfidence) s).queue ↔
      z ∈ s.queue ∨ z ∉ s.seen ∧ Offers minConfidence ns z := by
  induction ns generalizing s with
  | nil => simp only [List.foldl_nil, offers_nil, and_false, or_false]
  | cons n ns ih =>
    rw [List.foldl_cons, ih, mem_queue_meet, mem_seen_meet, offers_cons]
    tauto

theorem meet_ascending (h : Ascending.Strict s.seen) :
    Ascending.Strict (s.meet minConfidence n).seen := by
  unfold meet
  split
  · exact h.insert
  · exact h

/-- What was seen was found along paths, and the neighbours of what does not wait were seen. -/
structure Advances (edges : List (SoulId × SoulId × Float)) (minConfidence : Float)
    (start : SoulId) (s : Search) : Prop where
  ascending : Ascending.Strict s.seen
  started : start ∈ s.seen
  found : ∀ z ∈ s.seen, Path edges minConfidence start z
  waiting : ∀ z ∈ s.queue, z ∈ s.seen
  visited : ∀ z ∈ s.seen, z ∈ s.queue ∨ ∀ y, Near edges minConfidence z y → y ∈ s.seen

theorem Advances.visit {seen queue : List SoulId}
    (h : Advances edges minConfidence start ⟨seen, soul :: queue⟩) :
    Advances edges minConfidence start (visit edges minConfidence soul ⟨seen, queue⟩) := by
  have mem_seen : ∀ {z}, z ∈ (Search.visit edges minConfidence soul ⟨seen, queue⟩).seen ↔
      z ∈ seen ∨ Near edges minConfidence soul z := by
    intro z
    rw [Search.visit, mem_seen_foldl, offers_neighbours]
  have mem_queue : ∀ {z}, z ∈ (Search.visit edges minConfidence soul ⟨seen, queue⟩).queue ↔
      z ∈ queue ∨ z ∉ seen ∧ Near edges minConfidence soul z := by
    intro z
    rw [Search.visit, mem_queue_foldl, offers_neighbours]
  have here : soul ∈ seen := h.waiting soul List.mem_cons_self
  refine ⟨?_, mem_seen.2 (.inl h.started), fun z hz => ?_, fun z hz => ?_, fun z hz => ?_⟩
  · exact List.foldlRecOn (motive := fun s : Search => Ascending.Strict s.seen) _ _ h.ascending
      fun _ ascending _ _ => meet_ascending ascending
  · rcases mem_seen.1 hz with old | near
    · exact h.found z old
    · exact (h.found soul here).tail near
  · rcases mem_queue.1 hz with old | ⟨-, near⟩
    · exact mem_seen.2 (.inl (h.waiting z (List.mem_cons_of_mem _ old)))
    · exact mem_seen.2 (.inr near)
  · -- of what was seen before, only `soul` waits no longer
    rw [mem_queue]
    by_cases old : z ∈ seen
    · rcases h.visited z old with waits | all
      · rcases List.mem_cons.1 waits with rfl | waits
        · exact .inr fun y near => mem_seen.2 (.inr near)
        · exact .inl (.inl waits)
      · exact .inr fun y near => mem_seen.2 (.inl (all y near))
    · exact .inl (.inr ⟨old, (mem_seen.1 hz).resolve_left old⟩)

theorem Advances.next {t : Search} (h : Advances edges minConfidence start s)
    (step : s.next? edges minConfidence = some t) : Advances edges minConfidence start t := by
  obtain ⟨seen, queue⟩ := s
  cases queue with
  | nil => cases step
  | cons soul queue =>
    cases step
    exact h.visit

/-- At the end of a search all was seen that paths lead to. -/
theorem Advances.run (h : Advances edges minConfidence start s) :
    Ascending.Strict (run edges minConfidence s) ∧
      ∀ z, z ∈ run edges minConfidence s ↔ Path edges minConfidence start z := by
  fun_induction Search.run edges minConfidence s with
  | case1 s done =>
    obtain ⟨seen, queue⟩ := s
    cases queue with
    | cons => cases done
    | nil =>
      refine ⟨h.ascending, fun z => ⟨h.found z, fun path => ?_⟩⟩
      induction path with
      | refl => exact h.started
      | tail _ last ih => exact (h.visited _ ih).resolve_left List.not_mem_nil _ last
  | case2 s t step ih => exact ih (h.next step)

end Search

theorem search_spec : Ascending.Strict (search edges start minConfidence) ∧
    ∀ z, z ∈ search edges start minConfidence ↔ Path edges minConfidence start z := by
  apply Search.Advances.run
  refine ⟨List.pairwise_singleton .., List.mem_cons_self, fun z hz => ?_, fun z hz => hz,
    fun z hz => .inl hz⟩
  rw [List.mem_singleton.1 hz]

theorem adjacent_iff_near :
    Adjacent ((edges.filter fun (_, _, confidence) => minConfidence ≤ confidence).map
      fun (a, b, _) => (a, b)) x y ↔ Near edges minConfidence x y := by
  simp only [Adjacent, Near, List.mem_map, List.mem_filter, decide_eq_true_eq, Prod.mk.injEq]
  constructor
  · rintro (⟨⟨a, b, c⟩, ⟨mem, enough⟩, rfl, rfl⟩ | ⟨⟨a, b, c⟩, ⟨mem, enough⟩, rfl, rfl⟩)
    · exact ⟨c, enough, .inl mem⟩
    · exact ⟨c, enough, .inr mem⟩
  · rintro ⟨c, enough, mem | mem⟩
    · exact .inl ⟨_, ⟨mem, enough⟩, rfl, rfl⟩
    · exact .inr ⟨_, ⟨mem, enough⟩, rfl, rfl⟩

/-- A class is what paths of confident edges connect. -/
theorem mem_classOf :
    z ∈ classOf edges start minConfidence ↔ Path edges minConfidence start z := by
  rw [classOf, mem_component]
  exact ⟨fun h => h.lift id fun _ _ => adjacent_iff_near.1,
    fun h => h.lift id fun _ _ => adjacent_iff_near.2⟩

/-- A search finds the class of its start. -/
theorem search_eq : search edges start minConfidence = classOf edges start minConfidence := by
  apply search_spec.1.ext component_ascending
  intro z
  rw [search_spec.2]
  exact mem_classOf.symm

end GeneCalculus.Equivalence
