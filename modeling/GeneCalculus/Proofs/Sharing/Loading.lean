import GeneCalculus.Proofs.Canonical.Decoding

/-!
Expressions that come from outside as bytes. Decoding keeps what is in the arena also where it
fails.
-/

namespace GeneCalculus

open Canonical Text

variable {A B : Arena} {i : NodeId} {bs : List UInt8}

theorem Canonical.le_decodeTrees (count : Nat) (bs : List UInt8)
    (single : ∀ bs', bs'.length ≤ bs.length → ∀ A : Arena, A ≤ (decodeTree bs' A).2) (A : Arena) :
    A ≤ (decodeTrees count bs A).2 := by
  induction count generalizing bs A with
  | zero =>
    rw [decodeTrees]
    exact A.le_refl
  | succ count ih =>
    have keep := single bs (Nat.le_refl _) A
    rw [decodeTrees]
    split
    · rename_i first
      rwa [first] at keep
    · rename_i i rest short B first
      rw [first] at keep
      have shorter : ∀ bs', bs'.length ≤ rest.length → ∀ A : Arena, A ≤ (decodeTree bs' A).2 :=
        fun bs' le => single bs' (Nat.le_trans le short)
      have keep' := ih rest shorter B
      split <;> rename_i later <;> rw [later] at keep' <;> exact Arena.le_trans keep keep'

theorem Canonical.le_decodeTree (bs : List UInt8) (A : Arena) : A ≤ (decodeTree bs A).2 := by
  induction h : bs.length using Nat.strongRecOn generalizing bs A with
  | ind _ ih =>
    subst h
    cases bs with
    | nil =>
      rw [decodeTree]
      exact A.le_refl
    | cons tag body =>
      rw [decodeTree]
      split
      · exact A.le_refl
      · rename_i s rest short _
        have keep := le_decodeTrees s.children.length rest (fun bs' le A =>
          ih bs'.length (Nat.lt_succ_of_le (Nat.le_trans le short)) bs' A rfl) A
        split
        · rename_i parts
          rwa [parts] at keep
        · rename_i parts
          rw [parts] at keep
          exact Arena.le_trans keep (Arena.le_intern _ _)

/-- What is in the arena stays, whether the bytes are an encoding or not. -/
theorem Canonical.le_decode (bs : List UInt8) (A : Arena) : A ≤ (decode bs A).2 := by
  have keep := le_decodeTree bs A
  rw [decode]
  split <;> rename_i tree <;> rw [tree] at keep <;> exact keep

theorem Canonical.known_of_decode (done : decode bs A = (.ok i, B)) : i < B.size := by
  obtain ⟨t, writable, -, planted⟩ := decode_iff.1 done
  have held := A.plant_holds writable.1
  rw [planted] at held
  exact held.1

end GeneCalculus
