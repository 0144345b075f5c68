import GeneCalculus.Proofs.Decimal.Shortest
import GeneCalculus.Proofs.Json.Number
import GeneCalculus.Proofs.Json.Scaling

/-!
The written form of a finite double is read back as a double. Reading may miss the double that was
written, but not the range of doubles: a decimal that is no more than what rounds to the second
largest double is scaled to no infinity, and the decimal of the largest one is read too.
-/

namespace GeneCalculus.Json

open Decimal Double

variable {x : Float} {d : Scaled} {n : Nat} {ws ps ds : List Char}

theorem isDigit_of_mem {c : Char} (h : c ∈ digitsOf n) : isDigit c :=
  Nat.isDigit_of_mem_toDigits (by decide) (by decide) h

theorem isDigit_of_mem_zeros {c : Char} (h : c ∈ List.replicate n '0') : isDigit c := by
  rw [List.eq_of_mem_replicate h]
  rfl

theorem isDigit_of_mem_zero {c : Char} (h : c ∈ ['0']) : isDigit c := by
  cases List.mem_singleton.1 h
  rfl

/-- A positive natural begins with no zero. -/
theorem head_values_digitsOf (pos : 0 < n) : (values (digitsOf n)).head? ≠ some 0 := by
  unfold digitsOf values
  induction n using Nat.base_induction 10 (by decide) with
  | single m small =>
    rw [Nat.toDigits_of_lt_base small]
    show some (m.digitChar.toNat - 48) ≠ some 0
    rw [Nat.toNat_digitChar_sub_48_of_lt_ten small]
    intro zero
    cases zero
    exact absurd pos (by decide)
  | digit m k hk hm ih =>
    rw [← Nat.toDigits_append_toDigits (by decide) hm hk, List.map_append, List.head?_append]
    cases front : (List.map (fun c => c.toNat - 48) (Nat.toDigits 10 m)).head? with
    | none =>
      rw [List.head?_eq_none_iff, List.map_eq_nil_iff] at front
      exact absurd front Nat.toDigits_ne_nil
    | some v =>
      rw [front] at ih
      exact ih hm

/-- A number without an exponent, with few digits before its point and some behind it. -/
structure Plain (ws ps : List Char) : Prop where
  formed : Formed ws ps none
  few : ws.length < 19
  behind : ps ≠ []

/-- Such a number is read as a double. -/
theorem Plain.exists_spells (h : Plain ws ps) (negative : Bool) :
    ∃ y, Spells ((if negative then ['-'] else []) ++ written ws ps none)
      (.number (some (.real y))) := by
  have few : (values ws).length < 19 := by
    rw [values, List.length_map]
    exact h.few
  obtain ⟨y, real⟩ := Number.exists_ofDigits_part negative (values_lt h.formed.whole)
    (values_lt h.formed.part) few fun none => h.behind (List.map_eq_nil_iff.1 none)
  have spells := h.formed.spells negative
  rw [power, Option.map_none, real] at spells
  exact ⟨y, spells⟩

theorem plain_zero : Plain ['0'] ['0'] :=
  ⟨formed_of_digits (fun _ => isDigit_of_mem_zero) (fun _ => isDigit_of_mem_zero)
    (List.cons_ne_nil _ _) (fun _ => rfl), by decide, List.cons_ne_nil _ _⟩

theorem plain_whole (nonempty : ds ≠ []) (digits : ∀ c ∈ ds, isDigit c)
    (head : (values ds).head? ≠ some 0) (few : ds.length + n < 19) :
    Plain (ds ++ List.replicate n '0') ['0'] := by
  have first : (values (ds ++ List.replicate n '0')).head? ≠ some 0 := by
    cases ds with
    | nil => exact absurd rfl nonempty
    | cons c cs => exact head
  refine ⟨formed_of_digits (fun c hc => ?_) (fun _ => isDigit_of_mem_zero)
    (List.append_ne_nil_of_left_ne_nil nonempty _) (fun zero => absurd zero first), ?_,
    List.cons_ne_nil _ _⟩
  · rcases List.mem_append.1 hc with hc | hc
    · exact digits c hc
    · exact isDigit_of_mem_zeros hc
  · rw [List.length_append, List.length_replicate]
    exact few

theorem plain_split {k : Nat} (digits : ∀ c ∈ ds, isDigit c) (head : (values ds).head? ≠ some 0)
    (front : 0 < k) (few : k < 19) (behind : k < ds.length) :
    Plain (ds.take k) (ds.drop k) := by
  have first : (values (ds.take k)).head? ≠ some 0 := by
    rwa [values, List.map_take, List.head?_take, if_neg front.ne']
  have size : (ds.take k).length = k := List.length_take_of_le behind.le
  have rest : 0 < (ds.drop k).length := by
    rw [List.length_drop]
    exact Nat.sub_pos_of_lt behind
  refine ⟨formed_of_digits (fun c hc => digits c (List.mem_of_mem_take hc))
    (fun c hc => digits c (List.mem_of_mem_drop hc)) (List.ne_nil_of_length_pos ?_)
    (fun zero => absurd zero first), ?_, List.ne_nil_of_length_pos rest⟩
  · rw [size]
    exact front
  · rw [size]
    exact few

theorem plain_fraction (nonempty : ds ≠ []) (digits : ∀ c ∈ ds, isDigit c) (n : Nat) :
    Plain ['0'] (List.replicate n '0' ++ ds) := by
  refine ⟨formed_of_digits (fun _ => isDigit_of_mem_zero) (fun c hc => ?_) (List.cons_ne_nil _ _)
    (fun _ => rfl), by decide, List.append_ne_nil_of_right_ne_nil _ nonempty⟩
  rcases List.mem_append.1 hc with hc | hc
  · exact isDigit_of_mem_zeros hc
  · exact digits c hc

/-- The exponent that the first digit of a decimal has. -/
def exponentOf (d : Scaled) : Int := d.exponent + ((digitsOf d.digits).length - 1 : Nat)

/-- The positional layout of a decimal with few digits before the point. -/
theorem positional_plain (pos : 0 < d.digits) (lead : exponentOf d < 16) :
    ∃ ws ps, Plain ws ps ∧ positional d ".0" = String.ofList (written ws ps none) := by
  have head := head_values_digitsOf pos
  have nonempty : digitsOf d.digits ≠ [] := Nat.toDigits_ne_nil
  have digits : ∀ c ∈ digitsOf d.digits, isDigit c := fun c => isDigit_of_mem
  have size := List.length_pos_iff.2 nonempty
  unfold exponentOf at lead
  unfold positional
  dsimp only
  generalize digitsOf d.digits = ds at head nonempty digits lead size
  by_cases whole : 0 ≤ d.exponent
  · have plain := plain_whole nonempty digits head (show ds.length + d.exponent.toNat < 19 by omega)
    rw [if_pos whole]
    exact ⟨_, _, plain, (String.ofList_append ..).symm⟩
  · rw [if_neg whole]
    generalize places : (-d.exponent).toNat = k
    by_cases inside : k < ds.length
    · have plain := plain_split digits head (show 0 < ds.length - k by omega) (by omega)
        (by omega)
      rw [if_pos inside]
      refine ⟨_, _, plain, ?_⟩
      rw [written, if_neg plain.behind]
      simp [marked]
    · have plain := plain_fraction nonempty digits (k - ds.length)
      rw [if_neg inside]
      refine ⟨_, _, plain, ?_⟩
      rw [written, if_neg plain.behind]
      simp [marked]

/-- The layout with an exponent. -/
theorem scientific_formed (d : Scaled) :
    ∃ c cs, digitsOf d.digits = c :: cs ∧ exponentOf d = d.exponent + cs.length ∧
      let es := some (decide (exponentOf d < 0), Nat.toDigits 10 (exponentOf d).natAbs)
      Formed [c] cs es ∧ scientific d = String.ofList (written [c] cs es) := by
  have nonempty : 0 < (digitsOf d.digits).length := Nat.length_toDigits_pos
  have digits : ∀ c ∈ digitsOf d.digits, isDigit c := fun c => isDigit_of_mem
  unfold exponentOf scientific
  dsimp only
  generalize digitsOf d.digits = ds at nonempty digits
  cases ds with
  | nil => exact absurd nonempty (Nat.lt_irrefl 0)
  | cons c cs =>
    have size : d.exponent + ((c :: cs).length - 1 : Nat) = d.exponent + cs.length := rfl
    refine ⟨c, cs, rfl, rfl, ?_⟩
    rw [size]
    generalize d.exponent + (cs.length : Int) = e
    refine ⟨⟨?_, ?_, ?_, List.cons_ne_nil _ _, fun _ => rfl⟩, ?_⟩
    · intro a ha
      cases List.mem_singleton.1 ha
      exact digits c List.mem_cons_self
    · exact fun a ha => digits a (List.mem_cons_of_mem _ ha)
    · rintro _ ⟨⟩
      exact ⟨Nat.toDigits_ne_nil, fun a => isDigit_of_mem⟩
    · apply String.toList_inj.1
      by_cases down : e < 0 <;> cases cs <;> simp [written, marked, down]

theorem followed_values {c : Char} (digits : digitsOf n = c :: cs) :
    Number.followed (c.toNat - 48) (values cs) = n := by
  have all := foldl_values (digitsOf n)
  rw [digits] at all
  calc
    Number.followed (c.toNat - 48) (values cs) =
        (values (c :: cs)).foldl (fun v d => v * 10 + d) 0 := by
      show _ = (values cs).foldl (fun v d => v * 10 + d) (0 * 10 + (c.toNat - 48))
      rw [Nat.zero_mul, Nat.zero_add]
      rfl
    _ = n := by rw [all, ← digits, digitsOf, Nat.ofDigitChars_ten_toDigits]

theorem pow_le_of_room {n m k e : Nat} (wide : 10 ^ k ≤ n)
    (room : (n * 10 ^ ((e : Int) - k) : ℚ) ≤ m) : 10 ^ e ≤ m := by
  have wide : (10 ^ k : ℚ) ≤ n := by exact_mod_cast wide
  have all : (10 ^ e : ℚ) ≤ m := by
    calc
      (10 ^ e : ℚ) = 10 ^ k * 10 ^ ((e : Int) - k) := by
        rw [← zpow_natCast, ← zpow_natCast, ← zpow_add₀ (by norm_num)]
        congr 1
        omega
      _ ≤ n * 10 ^ ((e : Int) - k) := mul_le_mul_of_nonneg_right wide (by positivity)
      _ ≤ m := room
  exact_mod_cast all

theorem exponent_le {e : Nat} (le : 10 ^ e ≤ Number.largest) : e ≤ 308 := by
  obtain ⟨f, beyond, size⟩ : ∃ f, Number.largest < 10 ^ f ∧ f = 309 := ⟨_, by decide +kernel, rfl⟩
  have less := (Nat.pow_lt_pow_iff_right (by decide : 1 < 10)).1 (Nat.lt_of_le_of_lt le beyond)
  omega

/-- A decimal that is not too large is read if it is written with its exponent. -/
theorem exists_spells_scientific (pos : 0 < d.digits) (room : d.value ≤ Number.largest)
    (negative : Bool) :
    ∃ y, Spells ((if negative then ['-'] else []) ++ (scientific d).toList)
      (.number (some (.real y))) := by
  obtain ⟨c, cs, digits, exponent, formed, text⟩ := scientific_formed d
  have spells := formed.spells negative
  rw [power, Option.map_some] at spells
  dsimp only at spells
  rw [Nat.ofDigitChars_ten_toDigits] at spells
  rw [text, String.toList_ofList]
  have front := values_lt formed.whole
  by_cases down : exponentOf d < 0
  · obtain ⟨y, real⟩ := Number.exists_ofDigits_down negative (values cs) front (by decide : 1 < 19)
      (Int.natAbs_pos.2 down.ne)
    rw [decide_eq_true down] at spells ⊢
    exact ⟨y, real ▸ spells⟩
  · obtain ⟨e, whole⟩ := Int.eq_ofNat_of_zero_le (Int.not_lt.1 down)
    have head := head_values_digitsOf pos
    rw [digits] at head
    have first : 0 < c.toNat - 48 := Nat.pos_of_ne_zero fun zero => head (congrArg some zero)
    have le := Number.le_followed (c.toNat - 48) (values cs)
    rw [followed_values digits, values, List.length_map] at le
    have value : (d.digits * 10 ^ ((e : Int) - cs.length) : ℚ) = d.value := by
      rw [Scaled.value, show (e : Int) - cs.length = d.exponent by omega]
    have small : e ≤ 308 :=
      exponent_le (pow_le_of_room (Nat.le_trans (Nat.le_mul_of_pos_left _ first) le) (value ▸ room))
    have room' : (Number.followed (c.toNat - 48) (values cs) *
        10 ^ ((e : Int) - (values cs).length) : ℚ) ≤ Number.largest := by
      rw [followed_values digits, values, List.length_map, value]
      exact room
    obtain ⟨y, real⟩ := Number.exists_ofDigits_up negative (front _ List.mem_cons_self) small room'
    rw [decide_eq_false down, whole] at spells ⊢
    exact ⟨y, real ▸ spells⟩

theorem top_le {b : Binary} (bits : b.m < 2 ^ 53) (scale : b.q ≤ n + 3)
    (other : ¬(b.m = 2 ^ 53 - 1 ∧ b.q = n + 3)) :
    b.top ≤ ((2 ^ 55 - 6) * (2 * 2 ^ n) : Nat) := by
  have pos : (0 : ℚ) < 2 ^ n := by positivity
  unfold Binary.top
  push_cast
  by_cases high : b.q = n + 3
  · have power : (2 : ℚ) ^ (b.q - 2) = 2 * 2 ^ n := by
      rw [show b.q - 2 = (n + 1 : Nat) by omega, zpow_natCast, pow_succ, mul_comm]
    have less : (4 * b.m + 2 : ℚ) ≤ 36028797018963962 := by
      exact_mod_cast (by omega : 4 * b.m + 2 ≤ 36028797018963962)
    rw [power]
    exact mul_le_mul_of_nonneg_right less (by positivity)
  · have power : (2 : ℚ) ^ (b.q - 2) ≤ 2 ^ n := by
      rw [← zpow_natCast]
      exact zpow_le_zpow_right₀ (by norm_num) (by omega)
    have less : (4 * b.m + 2 : ℚ) ≤ 2 ^ 55 := by
      exact_mod_cast (by omega : 4 * b.m + 2 ≤ 2 ^ 55)
    calc
      ((4 * b.m + 2) * 2 ^ (b.q - 2) : ℚ) ≤ 2 ^ 55 * 2 ^ n :=
        mul_le_mul less power (by positivity) (by positivity)
      _ ≤ _ := by linarith

/-- What rounds to a double other than the largest rounds to no more than the second largest. -/
theorem top_le_largest {b : Binary} (bits : b.m < 2 ^ 53) (scale : b.q ≤ 971)
    (other : ¬(b.m = 2 ^ 53 - 1 ∧ b.q = 971)) : b.top ≤ Number.largest := by
  obtain ⟨n, size, places⟩ : ∃ n, Number.largest = (2 ^ 55 - 6) * (2 * 2 ^ n) ∧ n = 968 :=
    ⟨_, by decide +kernel, rfl⟩
  rw [size]
  exact top_le bits (by omega) (by omega)

/-- The digits of the largest double. -/
theorem shortest_largest (narrowBelow : Bool) :
    shortest .even ⟨2 ^ 53 - 1, 971, narrowBelow⟩ = ⟨17976931348623157, 292⟩ := by
  revert narrowBelow
  decide +kernel

theorem exists_spells_largest (negative : Bool) :
    ∃ y, Spells ((if negative then ['-'] else []) ++ (scientific ⟨17976931348623157, 292⟩).toList)
      (.number (some (.real y))) := by
  have digits : digitsOf 17976931348623157 = '1' :: "7976931348623157".toList := by decide +kernel
  obtain ⟨c, cs, same, exponent, formed, text⟩ := scientific_formed ⟨17976931348623157, 292⟩
  rw [digits] at same
  cases same
  have lead : exponentOf ⟨17976931348623157, 292⟩ = 308 := exponent
  have read : ∀ negative, (Number.ofDigits negative [1] (values "7976931348623157".toList)
      (some (false, 308))).isSome := by
    decide +kernel
  obtain ⟨y, real⟩ := Number.exists_of_isSome (read negative)
  have spells := formed.spells negative
  rw [lead] at spells text
  rw [text, String.toList_ofList]
  exact ⟨y, real ▸ spells⟩

/-- A finite double is written as a number that is read as a double. -/
theorem exists_spells_realText (finite : x.isFinite) :
    ∃ y, Spells (realText x).toList (.number (some (.real y))) := by
  rcases kind_of x with ⟨negative, b, kind, -, bits, scale⟩ | ⟨-, infinite⟩
  · have sign : (if negative then "-" else "").toList = if negative then ['-'] else [] := by
      cases negative <;> rfl
    unfold realText
    rw [kind]
    dsimp only
    rw [String.toList_append, sign]
    by_cases zero : b.m = 0
    · rw [if_pos zero]
      exact plain_zero.exists_spells negative
    · rw [if_neg zero]
      have under := under_shortest .even (Nat.pos_of_ne_zero zero)
      show ∃ y, Spells (_ ++ String.toList (if -5 ≤ exponentOf (shortest .even b) ∧
        exponentOf (shortest .even b) < 16 then _ else _)) _
      by_cases middle : -5 ≤ exponentOf (shortest .even b) ∧ exponentOf (shortest .even b) < 16
      · rw [if_pos middle]
        obtain ⟨ws, ps, plain, text⟩ := positional_plain under.pos middle.2
        rw [text, String.toList_ofList]
        exact plain.exists_spells negative
      · rw [if_neg middle]
        by_cases last : b.m = 2 ^ 53 - 1 ∧ b.q = 971
        · obtain ⟨m, q, narrowBelow⟩ := b
          obtain ⟨rfl, rfl⟩ := last
          rw [shortest_largest]
          exact exists_spells_largest negative
        · exact exists_spells_scientific under.pos
            (under.le.trans (top_le_largest bits scale last)) negative
  · exact absurd finite infinite

/-- A double that is not finite is written as no number. -/
theorem realText_of_not_isFinite (infinite : ¬x.isFinite) : realText x = "null" := by
  rcases kind_of x with ⟨-, -, -, finite, -⟩ | ⟨other, -⟩
  · exact absurd finite infinite
  · unfold realText
    cases kind : Kind.of x with
    | finite negative b => exact absurd kind (other negative b)
    | infinite | undefined => rfl

end GeneCalculus.Json
