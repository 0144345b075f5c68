import GeneCalculus.Identity
import Mathlib.Order.Defs.Unbundled

/-!
Identifiers that were computed are well-formed. A soul has the text that `SoulId.parse` accepts if
its digest had the four bytes that it keeps, and the identifier of stored bytes is read back as it
is. Identifiers are ordered by their texts.
-/

namespace GeneCalculus

/-- The order of texts is one of all that is determined by its text. -/
theorem isStrictTotalOrder_of_text {α : Type} [LT α] (text : α → String)
    (injective : Function.Injective text) (ordered : ∀ a b, text a < text b ↔ a < b) :
    IsStrictTotalOrder α (· < ·) where
  irrefl a less := String.lt_irrefl (text a) ((ordered a a).2 less)
  trans a b c first second :=
    (ordered a c).1 (String.lt_trans ((ordered a b).2 first) ((ordered b c).2 second))
  trichotomous a b notLess notMore :=
    injective (String.le_antisymm (mt (ordered b a).1 notMore) (mt (ordered a b).1 notLess))

instance : IsStrictTotalOrder SoulId (· < ·) :=
  isStrictTotalOrder_of_text SoulId.text (fun ⟨_⟩ ⟨_⟩ => congrArg _) fun _ _ => Iff.rfl

namespace Text.Hex

/-- All digits are of the lower case. -/
theorem digit_lower : ∀ n < 16, (digit n).isDigit ∨ 'a' ≤ digit n ∧ digit n ≤ 'f' := by decide

theorem value?_digit_isSome : ∀ n < 16, (value? (digit n)).isSome := by decide

theorem toLower_digit : ∀ n < 16, (digit n).toLower = digit n := by decide

theorem exists_of_mem_ofBytes {c : Char} {bs : List UInt8} (h : c ∈ ofBytes bs) :
    ∃ n < 16, c = digit n := by
  induction bs with
  | nil => cases h
  | cons b bs ih =>
    have bound := b.toNat_lt
    rcases List.mem_cons.1 h with rfl | h
    · exact ⟨b.toNat / 16, by omega, rfl⟩
    · rcases List.mem_cons.1 h with rfl | h
      · exact ⟨b.toNat % 16, by omega, rfl⟩
      · exact ih h

end Text.Hex

namespace SoulId

theorem eq_of_parse {s : String} {soul : SoulId} (h : parse s = .ok soul) : soul = ⟨s⟩ := by
  unfold parse at h
  split at h
  · split at h
    · exact (Except.ok.inj h).symm
    · cases h
  · cases h

/-- What is parsed keeps its text. -/
theorem parse_eq_ok_iff {s : String} {soul : SoulId} :
    parse s = .ok soul ↔ soul.text = s ∧ soul.WellFormed := by
  constructor
  · intro h
    obtain rfl := eq_of_parse h
    exact ⟨rfl, by rw [WellFormed, h]; rfl⟩
  · rintro ⟨rfl, accepted⟩
    unfold WellFormed at accepted
    cases parsed : parse soul.text with
    | error cause =>
      rw [parsed] at accepted
      cases accepted
    | ok t => rw [eq_of_parse parsed]

/-- A soul is well-formed if its digest had enough bytes. -/
theorem wellFormed_ofDigest {digest : List UInt8} :
    (ofDigest digest).WellFormed ↔ 4 ≤ digest.length := by
  have text : (ofDigest digest).text.toList = 'λ' :: Text.Hex.ofBytes (digest.take 4) := by
    simp [ofDigest, Text.Hex.encode]
  have lower : (Text.Hex.ofBytes (digest.take 4)).all
      fun c => c.isDigit || ('a' ≤ c && c ≤ 'f') := by
    apply List.all_eq_true.2
    intro c hc
    obtain ⟨n, bound, rfl⟩ := Text.Hex.exists_of_mem_ofBytes hc
    simpa using Text.Hex.digit_lower n bound
  have length : (Text.Hex.ofBytes (digest.take 4)).length = 8 ↔ 4 ≤ digest.length := by
    rw [Text.Hex.length_ofBytes, List.length_take]
    omega
  unfold WellFormed parse
  rw [text]
  simp only [lower, length, and_true]
  split
  · rename_i enough
    exact iff_of_true rfl enough
  · rename_i short
    exact iff_of_false nofun short

theorem wellFormed_ofCanonical (bytes : List UInt8) : (ofCanonical bytes).WellFormed := by
  apply wellFormed_ofDigest.2
  rw [Sha256.length_digest]
  decide

end SoulId

/-- The identifier of stored bytes is read back as it is. -/
theorem Cid.parse_ofBytes (bytes : List UInt8) :
    Cid.parse (Cid.ofBytes bytes).text = .ok (Cid.ofBytes bytes) := by
  let hex := Text.Hex.ofBytes (Sha256.digest bytes)
  have text : (Cid.ofBytes bytes).text.toList =
      's' :: 'h' :: 'a' :: '2' :: '5' :: '6' :: ':' :: hex := by
    simp [Cid.ofBytes, Text.Hex.encode, hex]
  have digits : ∀ c ∈ hex, (Text.Hex.value? c).isSome ∧ c.toLower = c := by
    intro c hc
    obtain ⟨n, bound, rfl⟩ := Text.Hex.exists_of_mem_ofBytes hc
    exact ⟨Text.Hex.value?_digit_isSome n bound, Text.Hex.toLower_digit n bound⟩
  have valid : hex.length = 64 ∧ hex.all fun c => (Text.Hex.value? c).isSome :=
    ⟨by rw [Text.Hex.length_ofBytes, Sha256.length_digest],
      List.all_eq_true.2 fun c hc => (digits c hc).1⟩
  have lower : (Cid.ofBytes bytes).text.toList.map Char.toLower =
      (Cid.ofBytes bytes).text.toList := by
    rw [text]
    simp only [List.map_cons, List.map_congr_left fun c hc => (digits c hc).2, List.map_id']
    rfl
  unfold Cid.parse
  rw [lower, String.ofList_toList, text]
  exact if_pos valid

end GeneCalculus
