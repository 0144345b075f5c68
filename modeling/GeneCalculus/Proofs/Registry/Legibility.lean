import GeneCalculus.Proofs.Fitness.Shares
import GeneCalculus.Proofs.Json.Members
import GeneCalculus.Proofs.Registry.Crown
import GeneCalculus.Settings.Text

/-!
Shares as a table keeps them: the text of a JSON object. What is read from it has a double for each
share, or nothing is read, and that is so exactly if some share is not finite. A row with well-formed
souls is read as its shares are.
-/

namespace GeneCalculus

namespace Keyed

variable {α : Type}

theorem putInto_last {name : String} {value : α} {entries : List (String × α)}
    (above : ∀ e ∈ entries, e.1 < name) :
    putInto name value entries = entries ++ [(name, value)] := by
  induction entries with
  | nil => rfl
  | cons e rest ih =>
    have ⟨less, others⟩ := List.forall_mem_cons.1 above
    have differ : name ≠ e.1 := by
      rintro rfl
      exact String.lt_irrefl _ less
    rw [putInto, if_neg differ, if_neg (asymm less), ih others]
    rfl

theorem foldl_put (t : Keyed α) (entries : List (String × α))
    (ascending : (t.entries ++ entries).Pairwise fun a b => a.1 < b.1) :
    (entries.foldl (fun t e => t.put e.1 e.2) t).entries = t.entries ++ entries := by
  induction entries generalizing t with
  | nil => rw [List.foldl_nil, List.append_nil]
  | cons e entries ih =>
    have last : (t.put e.1 e.2).entries = t.entries ++ [e] :=
      putInto_last fun d hd => (List.pairwise_append.1 ascending).2.2 d hd e List.mem_cons_self
    rw [List.foldl_cons, ih _ (by rwa [last, List.append_assoc]), last, List.append_assoc]
    rfl

/-- A list in ascending order is what is kept of it. -/
theorem entries_ofList {entries : List (String × α)}
    (ascending : entries.Pairwise fun a b => a.1 < b.1) : (ofList entries).entries = entries :=
  foldl_put empty entries ascending

end Keyed

namespace Champion

variable {shares : Keyed Float} {x : Float}

/-- The text that a table keeps of shares. -/
def sharesText (shares : Keyed Float) : String :=
  (Json.record (shares.entries.map fun e => (e.1, Json.float e.2))).compact

def readShare (member : Option String × Json) : Option (String × Float) := do
  return (← member.1, ← Json.readFloat member.2)

/-- Reads shares: an object with numbers under its names. -/
def readShares : Json.Reader (Keyed Float)
  | .object members => (members.mapM readShare).map .ofList
  | _ => none

/-- All shares are finite. -/
def Legible (shares : Keyed Float) : Prop := ∀ e ∈ shares.entries, e.2.isFinite

instance (shares : Keyed Float) : Decidable (Legible shares) :=
  inferInstanceAs (Decidable (∀ e ∈ shares.entries, _))

theorem exists_readBack? (finite : x.isFinite) : ∃ y, readBack? x = some y := by
  obtain ⟨y, spells⟩ := Json.exists_spells_realText finite
  refine ⟨y, ?_⟩
  unfold readBack?
  rw [spells.parse]

theorem readBack?_of_not_isFinite (infinite : ¬x.isFinite) : readBack? x = none := by
  unfold readBack?
  rw [Json.realText_of_not_isFinite infinite, Json.spells_null.parse]

/-- A share in its place is read as it would be alone. -/
theorem readShare_again (name : String) (x : Float) :
    readShare (some name, Json.again x) = (readBack? x).map fun y => (name, y) := by
  unfold Json.again readBack?
  by_cases finite : x.isFinite
  · obtain ⟨y, spells⟩ := Json.exists_spells_realText finite
    rw [spells.parse]
    rfl
  · rw [Json.realText_of_not_isFinite finite, Json.spells_null.parse]
    rfl

/-- The entries that are read back, if all are. -/
def entriesBack? (entries : List (String × Float)) : Option (List (String × Float)) :=
  entries.mapM fun (name, x) => (readBack? x).map fun y => (name, y)

theorem entriesBack?_cons (e : String × Float) (entries : List (String × Float)) :
    entriesBack? (e :: entries) = (readBack? e.2).bind fun y =>
      (entriesBack? entries).map fun back => (e.1, y) :: back := by
  obtain ⟨name, x⟩ := e
  unfold entriesBack?
  rw [List.mapM_cons]
  dsimp only
  cases readBack? x with
  | none => rfl
  | some y => exact Option.map_eq_bind.symm

theorem readShares_text (shares : Keyed Float) :
    (Json.parse (sharesText shares)).bind readShares =
      (entriesBack? shares.entries).map Keyed.ofList := by
  unfold sharesText
  rw [Json.parse_floats, Option.bind_some]
  unfold readShares
  apply congrArg (Option.map Keyed.ofList)
  induction shares.entries with
  | nil => rfl
  | cons e entries ih =>
    rw [List.map_cons, List.mapM_cons, ih, readShare_again, entriesBack?_cons]
    cases readBack? e.2 <;> cases entriesBack? entries <;> rfl

/-- Shares are read back as their text is read. -/
theorem sharesBack_eq (shares : Keyed Float) : sharesBack shares =
    ((Json.parse (sharesText shares)).bind readShares).elim (.error .json) .ok := by
  rw [readShares_text]
  unfold sharesBack entriesBack?
  split
  · rename_i entries all
    rw [all]
    rfl
  · rename_i none
    rw [none]
    rfl

/-- Finite shares are all read back, in the order of their names. -/
theorem exists_entriesBack? {entries : List (String × Float)}
    (finite : ∀ e ∈ entries, e.2.isFinite) :
    ∃ back, entriesBack? entries = some back ∧ back.map Prod.fst = entries.map Prod.fst := by
  induction entries with
  | nil => exact ⟨[], rfl, rfl⟩
  | cons e entries ih =>
    obtain ⟨y, read⟩ := exists_readBack? (finite e List.mem_cons_self)
    obtain ⟨back, all, names⟩ := ih fun d hd => finite d (List.mem_cons_of_mem _ hd)
    refine ⟨(e.1, y) :: back, ?_, congrArg (e.1 :: ·) names⟩
    rw [entriesBack?_cons, read, all]
    rfl

theorem entriesBack?_eq_none {entries : List (String × Float)} {e : String × Float}
    (he : e ∈ entries) (infinite : ¬e.2.isFinite) : entriesBack? entries = none := by
  induction entries with
  | nil => cases he
  | cons d entries ih =>
    rw [entriesBack?_cons]
    rcases List.mem_cons.1 he with rfl | he
    · rw [readBack?_of_not_isFinite infinite]
      rfl
    · rw [ih he]
      cases readBack? d.2 <;> rfl

/-- Finite shares can be read, and each has its name again. -/
theorem Legible.exists_read (h : Legible shares) :
    ∃ objectives, (Json.parse (sharesText shares)).bind readShares = some objectives ∧
      objectives.entries.map Prod.fst = shares.entries.map Prod.fst := by
  obtain ⟨back, all, names⟩ := exists_entriesBack? h
  have ascending : back.Pairwise fun a b => a.1 < b.1 := by
    have sorted : (back.map Prod.fst).Pairwise (· < ·) := by
      rw [names]
      exact List.pairwise_map.2 shares.ascending
    exact List.pairwise_map.1 sorted
  refine ⟨.ofList back, ?_, ?_⟩
  · rw [readShares_text, all, Option.map_some]
  · rw [Keyed.entries_ofList ascending, names]

/-- Shares of which one is not finite cannot be read. -/
theorem read_of_not_legible (h : ¬Legible shares) :
    (Json.parse (sharesText shares)).bind readShares = none := by
  unfold Legible at h
  push Not at h
  obtain ⟨e, he, infinite⟩ := h
  rw [readShares_text, entriesBack?_eq_none he infinite, Option.map_none]

theorem Legible.exists_sharesBack (h : Legible shares) :
    ∃ objectives, sharesBack shares = .ok objectives := by
  obtain ⟨objectives, read, -⟩ := h.exists_read
  exact ⟨objectives, by rw [sharesBack_eq, read, Option.elim_some]⟩

variable {c : Champion}

theorem read_of_wellFormed (formed : c.canonical.WellFormed ∧ c.soul.WellFormed) :
    c.read = (sharesBack c.objectives).map fun objectives => { c with objectives } := by
  unfold read
  rw [SoulId.rereads.good _ formed.1, SoulId.rereads.good _ formed.2]
  cases sharesBack c.objectives <;> rfl

/-- The souls of a row are looked at before its shares. -/
theorem read_of_not_wellFormed (ill : ¬(c.canonical.WellFormed ∧ c.soul.WellFormed)) :
    Unread c.read := by
  unfold read
  by_cases canonical : c.canonical.WellFormed
  · rw [SoulId.rereads.good _ canonical]
    exact (SoulId.rereads.bad _ fun soul => ill ⟨canonical, soul⟩).bind _
  · exact (SoulId.rereads.bad _ canonical).bind _

end Champion

/-- The shares of a champion whose score is a number can be read back. -/
theorem Scored.legible {objectives : List Objective} {candidates : List Candidate} {best : Scored}
    {score : Float} (found : champion? objectives candidates = some best)
    (number : tabled? best.score = some score) : Champion.Legible best.shares := by
  have bounded := bounded_of_mem (mem_of_champion? found)
  unfold tabled? at number
  split at number
  · cases number
  · rename_i isNumber
    have small := bounded.small.resolve_left isNumber
    exact fun e he => (small e he).isFinite

end GeneCalculus
