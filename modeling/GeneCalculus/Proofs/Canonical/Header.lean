import GeneCalculus.Proofs.Canonical.Encoding

/-!
What stands in front of the children of a node: its shape. A text in it is preceded by its length in
a word of 32 bits, so it can only be told by its bytes if its length fits.
-/

namespace GeneCalculus

namespace Bytes

variable {xs ys : List UInt8}

theorem littleEndian_append_inj {count a b : Nat} (ha : a < Nat.pow 256 count)
    (hb : b < Nat.pow 256 count) (same : littleEndian count a ++ xs = littleEndian count b ++ ys) :
    a = b ∧ xs = ys := by
  have lengths : (littleEndian count a).length = (littleEndian count b).length := by
    rw [length_littleEndian, length_littleEndian]
  obtain ⟨front, rest⟩ := List.append_inj same lengths
  have values := congrArg value front
  rw [value_littleEndian, value_littleEndian, Nat.mod_eq_of_lt ha, Nat.mod_eq_of_lt hb] at values
  exact ⟨values, rest⟩

theorem ofUInt32_append_inj {a b : UInt32} (same : ofUInt32 a ++ xs = ofUInt32 b ++ ys) :
    a = b ∧ xs = ys := by
  obtain ⟨words, rest⟩ := littleEndian_append_inj a.toNat_lt b.toNat_lt same
  exact ⟨UInt32.toNat_inj.1 words, rest⟩

end Bytes

/-- The length of the text fits in a word of 32 bits. -/
def Text.Short (s : String) : Prop := (Text.Utf8.encode s).length < UInt32.size

/-- A text of a leaf is short. -/
def Atom.Short : Atom → Prop
  | .const (.str s) | .prim s => Text.Short s
  | _ => True

instance (s : String) : Decidable (Text.Short s) := inferInstanceAs (Decidable (_ < _))

instance : DecidablePred Atom.Short
  | .const (.str s) | .prim s => inferInstanceAs (Decidable (Text.Short s))
  | .const (.int _) | .const (.bool _) | .const .nil | .ident => inferInstanceAs (Decidable True)

namespace Canonical

/-- The node without its children. -/
def shape {α : Type} (n : Node α) : Node Unit := n.mapChildren fun _ => ()

/-- The texts of the node are short. -/
def Short {α : Type} (n : Node α) : Prop := ∀ a, n = .atom a → a.Short

theorem short_shape {α : Type} {n : Node α} : Short (shape n) ↔ Short n := by
  constructor
  · rintro short a rfl
    exact short a rfl
  · intro short a same
    cases n <;> cases same
    exact short a rfl

theorem header_shape {α : Type} (n : Node α) : header (shape n) = header n :=
  header_mapChildren n _

theorem header_ne_nil {α : Type} (n : Node α) : header n ≠ [] := by
  cases n with
  | atom a => cases a <;> simp [header, atomBytes]
  | binary form => cases form <;> simp [header, binaryBytes]
  | _ => simp [header]

end Canonical

end GeneCalculus
