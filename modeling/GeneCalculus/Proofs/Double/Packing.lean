import Mathlib

/-!
Doubles as unpacked numbers. A double unpacks to a sign, a significand and an exponent of bounded
size, packing gives the double back, and a number within these bounds is what it unpacks to again.
-/

namespace GeneCalculus.Double

open Float.Model UnpackedFloat

variable {s : Sign} {m : Nat} {e : Int} {u : UnpackedFloat}

/-- A significand of at most fifty-three bits, with all of them unless the exponent is the least. -/
structure Canonical (m : Nat) (e : Int) : Prop where
  bits : m < 2 ^ 53
  least : -1074 ≤ e
  full : 2 ^ 52 ≤ m ∨ e = -1074

/-- What packing keeps: a canonical number whose exponent is not too large. -/
def Packs : UnpackedFloat → Prop
  | .finite _ m e _ => Canonical m e ∧ e ≤ 971
  | _ => True

theorem log2_of_full (full : 2 ^ 52 ≤ m) (bits : m < 2 ^ 53) : m.log2 = 52 :=
  (Nat.log2_eq_iff (by omega)).2 ⟨full, bits⟩

theorem log2_lt_of_lt (small : m < 2 ^ 52) : m.log2 < 52 := by
  by_cases zero : m = 0
  · subst zero
    decide
  · exact (Nat.log2_lt zero).2 small

theorem toNat_leadingOne (b : BitVec 52) : (1#1 ++ b).toNat = 2 ^ 52 + b.toNat := by
  rw [BitVec.toNat_append, ← Nat.shiftLeft_add_eq_or_of_lt b.isLt]
  rfl

/-- How the fields of a word are read. -/
theorem unpack_packComponents (e : BitVec 11) (b : BitVec 52) :
    UnpackedFloat.unpack Format.binary64 (packComponents Format.binary64 s e b) =
      if e = -1#11 then if b = 0#52 then .infinity s else .notANumber
      else if e = 0#11 then
        if h : b = 0#52 then .zero s
        else .finite s b.toNat (-1074) (by simpa [BitVec.toNat_pos, BitVec.pos_iff_ne_zero])
      else .finite s (2 ^ 52 + b.toNat) (e.toNat - 1075) (by omega) := by
  unfold UnpackedFloat.unpack
  simp only [unpackMantissa_packComponents, unpackExponent_packComponents,
    unpackSign_packComponents, Sign.ofBitVec_toBitVec, toNat_leadingOne]
  split
  · rfl
  · split
    · rename_i zero
      subst zero
      rfl
    · rfl

/-- How a finite number is written. -/
theorem pack_finite (pos : 0 < m) :
    UnpackedFloat.pack Format.binary64 (.finite s m e pos) =
      if 2048 ≤ (e + 1075).toNat + 1 then packedInfinity Format.binary64 s
      else if m.log2 + 1 = 53 then
        packComponents Format.binary64 s (BitVec.ofNat 11 (e + 1075).toNat) (BitVec.ofNat 52 m)
      else packComponents Format.binary64 s 0#11 (BitVec.ofNat 52 m) := by
  have bias : Format.binary64.exponentBias = 1023 := by decide
  have bits : Format.binary64.mantissaBits = 53 := by decide
  have biased : (e + ((1023 : Nat) : Int) + ((52 : Nat) : Int)).toNat = (e + 1075).toNat := by omega
  unfold UnpackedFloat.pack
  simp only [bias, bits, biased]

/-- A packed number unpacks to itself. -/
theorem unpack_pack (h : Packs u) : (Float.Model.pack u).unpack = u := by
  show UnpackedFloat.unpack Format.binary64 (UnpackedFloat.pack Format.binary64 u) = u
  cases u with
  | notANumber => rfl
  | infinity s => cases s <;> rfl
  | zero s => cases s <;> rfl
  | finite s m e pos =>
    obtain ⟨⟨bits, least, full⟩, most⟩ := h
    rw [pack_finite, if_neg (by omega)]
    by_cases normal : 2 ^ 52 ≤ m
    · have field : (BitVec.ofNat 11 (e + 1075).toNat).toNat = (e + 1075).toNat :=
        Nat.mod_eq_of_lt (by omega)
      have fraction : (BitVec.ofNat 52 m).toNat = m - 2 ^ 52 := by
        show m % 2 ^ 52 = m - 2 ^ 52
        omega
      rw [if_pos (by rw [log2_of_full normal bits]), unpack_packComponents, if_neg, if_neg]
      · have significand : 2 ^ 52 + (m - 2 ^ 52) = m := by omega
        have exponent : ((e + 1075).toNat : Int) - 1075 = e := by omega
        simp only [field, fraction, significand, exponent]
      · intro zero
        rw [zero] at field
        exact absurd field (by show ¬0 = _; omega)
      · intro ones
        rw [ones] at field
        exact absurd field (by show ¬2047 = _; omega)
    · have small : m < 2 ^ 52 := by omega
      have least : e = -1074 := full.resolve_left normal
      have fraction : (BitVec.ofNat 52 m).toNat = m := Nat.mod_eq_of_lt small
      have nonzero : BitVec.ofNat 52 m ≠ 0#52 := by
        intro zero
        rw [zero] at fraction
        exact absurd fraction (by show ¬0 = m; omega)
      have few := log2_lt_of_lt small
      rw [if_neg (by omega), unpack_packComponents, if_neg (by decide),
        if_pos rfl, dif_neg nonzero]
      simp only [fraction, least]

/-- A number with too large an exponent is packed as infinite. -/
theorem unpack_pack_of_large (large : 971 < e) (pos : 0 < m) :
    (Float.Model.pack (.finite s m e pos)).unpack = .infinity s := by
  show UnpackedFloat.unpack Format.binary64 (UnpackedFloat.pack Format.binary64 _) = _
  rw [pack_finite, if_pos (by omega)]
  cases s <;> rfl

/-- What a double unpacks to is within bounds. -/
theorem packs_unpack (v : Float.Model) : Packs v.unpack := by
  have parts : packComponents Format.binary64 _ _ _ = v.toBits.toBitVec :=
    packComponents_unpackSign_unpackExponent_unpackMantissa _
  show Packs (UnpackedFloat.unpack Format.binary64 v.toBits.toBitVec)
  rw [← parts, unpack_packComponents]
  generalize @unpackExponent Format.binary64 v.toBits.toBitVec = field
  generalize @unpackMantissa Format.binary64 v.toBits.toBitVec = fraction
  have small : fraction.toNat < 2 ^ 52 := fraction.isLt
  split
  · split <;> trivial
  · rename_i notOnes
    split
    · split
      · trivial
      · exact ⟨⟨by omega, by omega, .inr rfl⟩, by omega⟩
    · rename_i notZero
      have below : field.toNat ≠ 2047 := fun ones => notOnes (BitVec.eq_of_toNat_eq ones)
      have above : field.toNat ≠ 0 := fun zero => notZero (BitVec.eq_of_toNat_eq zero)
      have bound : field.toNat < 2048 := field.isLt
      exact ⟨⟨by omega, by omega, .inl (by omega)⟩, by omega⟩

/-- Packing what a double unpacks to gives the double back. -/
theorem pack_unpack (v : Float.Model) : Float.Model.pack v.unpack = v := by
  obtain ⟨⟨word⟩, valid⟩ := v
  simp only [Float.Model.pack, Float.Model.unpack, UnpackedFloat.pack_unpack_of_valid valid]

end GeneCalculus.Double
