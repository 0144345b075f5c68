import GeneCalculus.Proofs.Registry.Meaning
import Mathlib.Data.Finset.Card
import Mathlib.Data.List.Find

/-!
The content store over whole histories. The object table is what the deposits of a history leave,
each under the identifier of its bytes and as it came first, whatever the operations that make them
do otherwise. A fetch checks the bytes it finds, so rows that were overwritten past all checks are
never handed out as what they were.
-/

namespace GeneCalculus

/-- Bytes that are put in the store, and what is said about them. -/
structure Deposit where
  bytes : List UInt8
  kind : ObjectKind
  source : Option String

namespace Deposit

def cid (d : Deposit) : Cid := .ofBytes d.bytes

/-- The row of bytes that come first under their identifier. -/
def row (d : Deposit) : StoredObject :=
  ⟨d.cid, d.kind.name, d.source, d.bytes.length, d.bytes⟩

theorem row_cid (d : Deposit) : d.row.cid = d.cid := rfl

/-- The object table after a deposit. -/
def enter (rows : List StoredObject) (d : Deposit) : List StoredObject :=
  if (rows.find? (·.cid = d.cid)).isSome then rows else rows ++ [d.row]

variable {rows : List StoredObject} {d : Deposit} {ds : List Deposit} {cid : Cid}

theorem find?_enter (rows : List StoredObject) (d : Deposit) (cid : Cid) :
    (enter rows d).find? (·.cid = cid) =
      (rows.find? (·.cid = cid)).or (if d.cid = cid then some d.row else none) := by
  unfold enter
  split
  · rename_i stored
    by_cases same : d.cid = cid
    · subst same
      obtain ⟨o, found⟩ := Option.isSome_iff_exists.1 stored
      rw [found]
      rfl
    · rw [if_neg same, Option.or_none]
  · rw [List.find?_append, List.find?_singleton]
    by_cases same : d.cid = cid <;> simp [row_cid, same]

/-- Under each identifier stands the row that was there before all deposits or, if there was none,
that of the first deposit with the identifier. -/
theorem find?_foldl_enter (rows : List StoredObject) (ds : List Deposit) (cid : Cid) :
    (ds.foldl enter rows).find? (·.cid = cid) =
      (rows.find? (·.cid = cid)).or ((ds.find? (·.cid = cid)).map row) := by
  induction ds generalizing rows with
  | nil => exact Option.or_none.symm
  | cons d ds ih =>
    rw [List.foldl_cons, ih, find?_enter, Option.or_assoc, List.find?_cons]
    by_cases same : d.cid = cid
    · simp [same]
    · simp [same]

theorem nodup_enter (unique : (rows.map (·.cid)).Nodup) (d : Deposit) :
    ((enter rows d).map (·.cid)).Nodup := by
  unfold enter
  split
  · exact unique
  · rename_i fresh
    rw [List.map_append]
    refine unique.append (List.nodup_singleton _) fun cid old new => fresh ?_
    obtain ⟨o, ho, rfl⟩ := List.mem_map.1 old
    have same : o.cid = d.cid := List.mem_singleton.1 new
    exact List.find?_isSome.2 ⟨o, ho, decide_eq_true same⟩

/-- Identifiers do not repeat. -/
theorem nodup_foldl_enter (unique : (rows.map (·.cid)).Nodup) (ds : List Deposit) :
    ((ds.foldl enter rows).map (·.cid)).Nodup := by
  induction ds generalizing rows with
  | nil => exact unique
  | cons d ds ih => exact ih (nodup_enter unique d)

/-- The identifiers in the table are those of the deposits. -/
theorem mem_cids_foldl_enter :
    cid ∈ (ds.foldl enter []).map (·.cid) ↔ cid ∈ ds.map Deposit.cid := by
  have found := congrArg Option.isSome (find?_foldl_enter [] ds cid)
  rw [List.find?_nil, Option.none_or, Option.isSome_map, Bool.eq_iff_iff, List.find?_isSome,
    List.find?_isSome] at found
  simpa only [decide_eq_true_eq, List.mem_map] using found

/-- Where identifiers do not collide, there is one row for each byte string. -/
theorem length_foldl_enter (apart : Set.InjOn Cid.ofBytes {b | b ∈ ds.map bytes}) :
    (ds.foldl enter []).length = (ds.map bytes).toFinset.card := by
  have unique : ((ds.foldl enter []).map (·.cid)).Nodup := nodup_foldl_enter (by simp) ds
  have cids : ((ds.foldl enter []).map (·.cid)).toFinset =
      (ds.map bytes).toFinset.image Cid.ofBytes := by
    ext cid
    rw [List.mem_toFinset, mem_cids_foldl_enter]
    simp only [List.mem_map, Finset.mem_image, List.mem_toFinset, exists_exists_and_eq_and]
    rfl
  have injective : Set.InjOn Cid.ofBytes ((ds.map bytes).toFinset : Set (List UInt8)) := by
    rw [List.coe_toFinset]
    exact apart
  rw [← List.length_map (·.cid), ← List.toFinset_card_of_nodup unique, cids,
    Finset.card_image_of_injOn injective]

end Deposit

namespace Registry

variable {R S : Registry} {cid : Cid} {policy : Policy} {history : List Operation}
  {bytes : List UInt8}

/-- What an operation puts in the store. -/
def Operation.deposits (R : Registry) : Operation → List Deposit
  | .put bytes kind source => [⟨bytes, kind, source⟩]
  | .register A root source _ =>
    match A.validateClosed root with
    | .error _ => []
    | .ok _ =>
      let c := (A.canonicalize R.policy.limits root).1
      if c.soul.provisional then []
      else [⟨A.snapshot root, .source, some source⟩, ⟨c.bytes, .ir, some source⟩]
  | .forge name souls targets =>
    match R.manifest name souls targets with
    | .error _ => []
    | .ok m => [⟨m.bytes, .organism, some name⟩]
  | .attest name _ now =>
    match R.organism? name with
    | none => []
    | some o => [⟨Text.Utf8.encode (o.statement now).compact, .proof, some name⟩]
  | .insertGene _ | .recordEquivalence .. | .recordMetric .. | .insertChampion _ | .recompute _
  | .insertAttestation .. => []

/-- What a history puts in the store. -/
def deposits (R : Registry) : List Operation → List Deposit
  | [] => []
  | op :: history => op.deposits R ++ (R.perform op).2.deposits history

theorem Operation.map_bytes_deposits (R : Registry) (op : Operation) :
    (op.deposits R).map Deposit.bytes = op.puts R := by
  cases op with
  | register A root source purity =>
    simp only [deposits, puts]
    cases A.validateClosed root with
    | error cause => rfl
    | ok done => exact apply_ite ..
  | forge name souls targets =>
    simp only [deposits, puts]
    cases R.manifest name souls targets <;> simp only [List.map_cons, List.map_nil]
  | attest name signature now =>
    simp only [deposits, puts]
    cases R.organism? name <;> simp only [List.map_cons, List.map_nil]
  | _ => rfl

theorem map_bytes_deposits (R : Registry) (history : List Operation) :
    (R.deposits history).map Deposit.bytes = R.puts history := by
  induction history generalizing R with
  | nil => rfl
  | cons op history ih =>
    rw [deposits, puts, List.map_append, ih, Operation.map_bytes_deposits]

theorem deposits_append (before later : List Operation) :
    R.deposits (before ++ later) = R.deposits before ++ (R.after before).deposits later := by
  induction before generalizing R with
  | nil => rfl
  | cons op before ih =>
    simp only [List.cons_append, deposits, ih, List.append_assoc]
    rfl

theorem put_objects (R : Registry) (bytes : List UInt8) (kind : ObjectKind)
    (source : Option String) :
    (R.put bytes kind source).2.objects = Deposit.enter R.objects ⟨bytes, kind, source⟩ := by
  unfold put Deposit.enter
  dsimp only
  split
  · rename_i found
    exact (if_pos (Option.isSome_iff_exists.2 ⟨_, found⟩)).symm
  · rename_i absent
    exact (if_neg (Bool.eq_false_iff.1 (congrArg Option.isSome absent))).symm

theorem recompute_objects (R : Registry) (soul : SoulId) :
    (R.recompute soul).2.objects = R.objects := by
  obtain ⟨champions, same⟩ := R.exists_recompute soul
  rw [same]

theorem settle_objects {α : Type} (R : Registry) (soul : SoulId) (answer : α) :
    (R.settle soul answer).2.objects = R.objects := by
  show (R.recompute soul).2.objects = R.objects
  rw [recompute_objects]

theorem Enters.objects {α : Type} {o : Outcome α} (h : R.Enters o) : o.2.objects = R.objects := by
  cases h with
  | unchanged => rfl
  | @settles soul S answer entry =>
    rw [settle_objects]
    cases entry <;> rfl
  | unread entry => cases entry <;> rfl

theorem insertChampion_objects (c : Champion) : (R.insertChampion c).2.objects = R.objects := by
  have run := R.insertChampion_instated c
  generalize R.insertChampion c = o at run
  cases run <;> rfl

theorem insertAttestation_objects (organism : String) (cid : Cid) (signature : String) :
    (R.insertAttestation organism cid signature).2.objects = R.objects := by
  unfold insertAttestation
  split <;> rfl

theorem register_objects (A : Arena) (root : NodeId) (source : String) (purity : Option Float) :
    (R.register A root source purity).2.objects =
      ((Operation.register A root source purity).deposits R).foldl Deposit.enter R.objects := by
  have run := R.register_registered A root source purity
  generalize R.register A root source purity = o at run
  cases run with
  | malformed invalid => simp only [Operation.deposits, invalid, List.foldl_nil]
  | provisional valid provisional =>
    simp only [Operation.deposits, valid, if_pos provisional, List.foldl_nil]
  | submitted valid final =>
    simp only [Operation.deposits, valid, if_neg final, List.foldl_cons, List.foldl_nil,
      ← put_objects]
    exact (insertGene_enters _).objects

theorem forge_objects (name : String) (souls : List SoulId) (targets : List String) :
    (R.forge name souls targets).2.objects =
      ((Operation.forge name souls targets).deposits R).foldl Deposit.enter R.objects := by
  have run := R.forge_forged name souls targets
  generalize R.forge name souls targets = o at run
  cases run with
  | refused refused => simp only [Operation.deposits, refused, List.foldl_nil]
  | bundled listed =>
    obtain ⟨rfl, -⟩ := manifest_ok listed
    simp only [Operation.deposits, listed, List.foldl_cons, List.foldl_nil, ← put_objects, bundle]

theorem attest_objects (name signature : String) (now : Instant) :
    (R.attest name signature now).2.objects =
      ((Operation.attest name signature now).deposits R).foldl Deposit.enter R.objects := by
  unfold attest
  split
  · rename_i unknown
    simp only [Operation.deposits, unknown, List.foldl_nil]
  · rename_i o found
    simp only [Operation.deposits, found, List.foldl_cons, List.foldl_nil, ← put_objects]
    exact insertAttestation_objects ..

/-- An operation enters its deposits and touches no other object. -/
theorem perform_objects (R : Registry) (op : Operation) :
    (R.perform op).2.objects = (op.deposits R).foldl Deposit.enter R.objects := by
  cases op with
  | put bytes kind source => exact R.put_objects bytes kind source
  | register => exact register_objects ..
  | insertGene g => exact (insertGene_enters g).objects
  | recordEquivalence a b confidence => exact (recordEquivalence_enters a b confidence).objects
  | recordMetric soul metric value => exact (recordMetric_enters soul metric value).objects
  | insertChampion c => exact insertChampion_objects c
  | recompute soul => exact R.recompute_objects soul
  | forge => exact forge_objects ..
  | insertAttestation => exact insertAttestation_objects ..
  | attest => exact attest_objects ..

/-- The object table is what the deposits of the history leave. -/
theorem after_objects (R : Registry) (history : List Operation) :
    (R.after history).objects = (R.deposits history).foldl Deposit.enter R.objects := by
  induction history generalizing R with
  | nil => rfl
  | cons op history ih =>
    rw [deposits, List.foldl_append, ← perform_objects]
    exact ih _

/-- What may happen to a registry: an operation, or rows of the object table are overwritten past
all checks. -/
inductive Event
  | operation (op : Operation)
  | overwriting (cid : String) (change : StoredObject → StoredObject)

/-- The registry after an event. A row that is overwritten stays under its identifier. -/
def undergo (R : Registry) : Event → Registry
  | .operation op => (R.perform op).2
  | .overwriting cid change => (R.overwrite cid fun o => { change o with cid := o.cid }).2

/-- The registry after some events. -/
def afterEvents (R : Registry) (events : List Event) : Registry := events.foldl undergo R

theorem undergo_cids (unique : (R.objects.map (·.cid)).Nodup) (event : Event) :
    ((R.undergo event).objects.map (·.cid)).Nodup := by
  cases event with
  | operation op =>
    show ((R.perform op).2.objects.map _).Nodup
    rw [perform_objects]
    exact Deposit.nodup_foldl_enter unique _
  | overwriting cid change =>
    show ((R.objects.map _).map _).Nodup
    rw [List.map_map]
    convert unique using 2
    funext o
    simp only [Function.comp_apply]
    split <;> rfl

/-- Whatever happens, an identifier stands for one row at most. -/
theorem afterEvents_cids (unique : (R.objects.map (·.cid)).Nodup) (events : List Event) :
    ((R.afterEvents events).objects.map (·.cid)).Nodup := by
  induction events generalizing R with
  | nil => exact unique
  | cons event events ih => exact ih (undergo_cids unique event)

theorem fetch_of_none (absent : R.object? cid = none) :
    R.fetch cid = .error (.missingObject cid) := by
  unfold fetch
  rw [absent]

/-- Of an object that is there the bytes are fetched if they are the ones that the identifier
names. -/
theorem fetch_of_some {o : StoredObject} (found : R.object? cid = some o) :
    R.fetch cid =
      if Cid.ofBytes o.data = cid then .ok o.data
      else .error (.corruptObject cid (.ofBytes o.data)) := by
  unfold fetch Cid.verify
  rw [found]
  dsimp only
  split <;> rfl

theorem object?_eq_none_iff : R.object? cid = none ↔ ∀ o ∈ R.objects, o.cid ≠ cid := by
  simp only [object?, List.find?_eq_none, decide_eq_true_eq, ne_eq]

theorem object?_of_mem (unique : (R.objects.map (·.cid)).Nodup) {o : StoredObject}
    (mem : o ∈ R.objects) : R.object? o.cid = some o := find?_key unique mem

/-- The bytes, the kind, the source and the size under an identifier are those of the first deposit
with it. -/
theorem object?_after (policy : Policy) (history : List Operation) (cid : Cid) :
    ((empty policy).after history).object? cid =
      (((empty policy).deposits history).find? (·.cid = cid)).map Deposit.row := by
  unfold object?
  rw [after_objects, Deposit.find?_foldl_enter]
  rfl

/-- Where identifiers do not collide, bytes that were put stand under their identifier, with what
was said of them first. -/
theorem exists_first (apart : Set.InjOn Cid.ofBytes {b | b ∈ (empty policy).puts history})
    (put : bytes ∈ (empty policy).puts history) :
    ∃ d, ((empty policy).deposits history).find? (·.bytes = bytes) = some d ∧ d.bytes = bytes ∧
      ((empty policy).after history).object? (.ofBytes bytes) = some d.row := by
  rw [← map_bytes_deposits] at apart put
  obtain ⟨d, first⟩ := Option.isSome_iff_exists.1 (List.find?_isSome.2 <| by
    obtain ⟨d, mem, same⟩ := List.mem_map.1 put
    exact ⟨d, mem, decide_eq_true same⟩)
  refine ⟨d, first, by simpa using List.find?_some first, ?_⟩
  have byCid : ((empty policy).deposits history).find? (·.cid = .ofBytes bytes) = some d := by
    rw [← first]
    refine List.find?_congr fun d mem => decide_eq_decide.2 ⟨fun same => ?_, fun same => ?_⟩
    · exact apart (List.mem_map_of_mem mem) put same
    · exact congrArg Cid.ofBytes same
  rw [object?_after, byCid, Option.map_some]

theorem objectInfo_of_row {d : Deposit} (found : R.object? cid = some d.row) :
    R.objectInfo cid = .ok (some ⟨d.cid, d.kind, d.source, d.bytes.length⟩) := by
  unfold objectInfo
  simp only [found, Deposit.row, ObjectKind.ofName?_name]

theorem fetch_eq_ok_iff (unique : (R.objects.map (·.cid)).Nodup) : R.fetch cid = .ok bytes ↔
    Cid.ofBytes bytes = cid ∧ ∃ o ∈ R.objects, o.cid = cid ∧ o.data = bytes := by
  constructor
  · intro fetched
    cases found : R.object? cid with
    | none =>
      rw [fetch_of_none found] at fetched
      cases fetched
    | some o =>
      rw [fetch_of_some found] at fetched
      split at fetched
      · rename_i intact
        cases fetched
        exact ⟨intact, o, List.mem_of_find?_eq_some found, by simpa using List.find?_some found, rfl⟩
      · cases fetched
  · rintro ⟨intact, o, mem, rfl, rfl⟩
    rw [fetch_of_some (object?_of_mem unique mem), if_pos intact]

theorem fetch_notFound_iff :
    (∃ e, R.fetch cid = .error e ∧ e.category = .notFound) ↔ ∀ o ∈ R.objects, o.cid ≠ cid := by
  rw [← object?_eq_none_iff]
  constructor
  · rintro ⟨e, failed, missing⟩
    cases found : R.object? cid with
    | none => rfl
    | some o =>
      rw [fetch_of_some found] at failed
      split at failed
      · cases failed
      · cases failed
        cases missing
  · exact fun absent => ⟨_, fetch_of_none absent, rfl⟩

/-- A fetch fails for an object that is there only if it has other bytes than its identifier
names. -/
theorem fetch_corrupt {e : Error} (failed : R.fetch cid = .error e) (there : e.category ≠ .notFound) :
    e.fatal ∧ ∃ o ∈ R.objects, o.cid = cid ∧ Cid.ofBytes o.data ≠ cid ∧
      e = .corruptObject cid (.ofBytes o.data) := by
  cases found : R.object? cid with
  | none =>
    rw [fetch_of_none found] at failed
    cases failed
    exact absurd rfl there
  | some o =>
    rw [fetch_of_some found] at failed
    split at failed
    · cases failed
    · rename_i differ
      cases failed
      exact ⟨rfl, o, List.mem_of_find?_eq_some found, by simpa using List.find?_some found, differ,
        rfl⟩

/-- Whatever happens, even if rows are overwritten past all checks, an identifier stands for one
object at most; its bytes are fetched if they are the ones that it names, and otherwise the fetch
fails, because there is no object or, fatally, because there is one with other bytes. In a history
in which nothing is overwritten and no two byte strings that are put in the store share an
identifier, bytes that were put are fetched from then on, what was said of them when they were put
first is what is told of them, and there is one object for each byte string. -/
theorem store_keeps (policy : Policy) :
    (∀ events : List Event,
      let R := (empty policy).afterEvents events
      (R.objects.map (·.cid)).Nodup ∧
      ∀ cid : Cid,
        (∀ bytes, R.fetch cid = .ok bytes ↔
          Cid.ofBytes bytes = cid ∧ ∃ o ∈ R.objects, o.cid = cid ∧ o.data = bytes) ∧
        ((∃ e, R.fetch cid = .error e ∧ e.category = .notFound) ↔ ∀ o ∈ R.objects, o.cid ≠ cid) ∧
        ∀ e, R.fetch cid = .error e → e.category ≠ .notFound →
          e.fatal ∧ ∃ o ∈ R.objects, o.cid = cid ∧ Cid.ofBytes o.data ≠ cid ∧
            e = .corruptObject cid (.ofBytes o.data)) ∧
    ∀ history : List Operation, Set.InjOn Cid.ofBytes {b | b ∈ (empty policy).puts history} →
      let R := (empty policy).after history
      (∀ before bytes kind source later, history = before ++ .put bytes kind source :: later →
        R.fetch (((empty policy).after before).put bytes kind source).1 = .ok bytes) ∧
      (∀ before later bytes d, history = before ++ later →
        ((empty policy).deposits before).find? (·.bytes = bytes) = some d →
        R.objectInfo (.ofBytes bytes) =
          .ok (some ⟨.ofBytes bytes, d.kind, d.source, bytes.length⟩)) ∧
      R.objects.length = ((empty policy).puts history).toFinset.card := by
  refine ⟨fun events => ?_, fun history apart => ⟨?_, ?_, ?_⟩⟩
  · have unique := afterEvents_cids (R := empty policy) (by simp [empty]) events
    exact ⟨unique, fun cid => ⟨fun bytes => fetch_eq_ok_iff unique, fetch_notFound_iff,
      fun e => fetch_corrupt⟩⟩
  · rintro before bytes kind source later rfl
    have put : bytes ∈ (empty policy).puts (before ++ .put bytes kind source :: later) := by
      rw [puts_append]
      exact List.mem_append_right _ List.mem_cons_self
    obtain ⟨d, -, rfl, found⟩ := exists_first apart put
    rw [put_cid, fetch_of_some found]
    exact if_pos rfl
  · rintro before later bytes d rfl first
    have put : bytes ∈ (empty policy).puts (before ++ later) := by
      have same : d.bytes = bytes := by simpa using List.find?_some first
      rw [puts_append, ← map_bytes_deposits, ← same]
      exact List.mem_append_left _ (List.mem_map_of_mem (List.mem_of_find?_eq_some first))
    obtain ⟨e, first', rfl, found⟩ := exists_first apart put
    rw [deposits_append, List.find?_append, first] at first'
    cases first'
    exact objectInfo_of_row found
  · have deposited := map_bytes_deposits (empty policy) history
    rw [after_objects, ← deposited]
    exact Deposit.length_foldl_enter (deposited ▸ apart)

/-- Bytes are put twice, of another kind and from another source the second time, and others once. -/
def repeated : List Operation :=
  [.put [0] .ir none, .put [0] .proof (some "a"), .put [1] .source none]

/-- The second time nothing is stored; if later the row is given other bytes, the fetch fails. -/
theorem store_keeps_repeated :
    let R := empty ⟨0.5, Objective.standard, .standard⟩
    let cid := Cid.ofBytes [0]
    let S := R.afterEvents (repeated.map .operation ++
      [.overwriting cid.text fun o => { o with data := [1] }])
    (Set.InjOn Cid.ofBytes {b | b ∈ R.puts repeated} ∧
      (R.after repeated).fetch cid = .ok [0] ∧
      (R.after repeated).objectInfo cid = .ok (some ⟨cid, .ir, none, 1⟩) ∧
      (R.after repeated).objects.length = 2) ∧
    ∃ e, (S.fetch cid = .error e ∧ e.category ≠ .notFound) ∧ e.fatal := by
  intro R cid S
  have facts : (∀ a ∈ R.puts repeated, ∀ b ∈ R.puts repeated, Cid.ofBytes a = Cid.ofBytes b → a = b) ∧
      (R.puts repeated).toFinset.card = 2 ∧
      S.object? cid = some ⟨cid, "ir", none, 1, [1]⟩ ∧ Cid.ofBytes [1] ≠ cid := by
    decide +kernel
  obtain ⟨apart, card, found, differ⟩ := facts
  have main := store_keeps R.policy
  have kept := main.2 repeated fun a ha b hb => apart a ha b hb
  have failed : S.fetch cid = .error (.corruptObject cid (.ofBytes [1])) := by
    rw [fetch_of_some found, if_neg differ]
  refine ⟨⟨fun a ha b hb => apart a ha b hb, ?_, ?_, kept.2.2.trans card⟩, _, ⟨failed, nofun⟩, ?_⟩
  · have fetched := kept.1 [] [0] .ir none _ rfl
    rwa [put_cid] at fetched
  · exact kept.2.1 repeated [] [0] ⟨[0], .ir, none⟩ rfl rfl
  · exact (((main.1 _).2 cid).2.2 _ failed nofun).1

end Registry

end GeneCalculus
