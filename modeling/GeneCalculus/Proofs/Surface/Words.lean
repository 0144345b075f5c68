import GeneCalculus.Proofs.Surface.Named
import GeneCalculus.Proofs.Surface.Printing

/-!
What the words of printed forms are read as. Under the names that printed forms give to binders, a
word that was printed for a variable or for a constant is read as it, and the name of a primitive
of the host is read as the primitive unless it is the name of a binder in scope.
-/

namespace GeneCalculus.Surface

open Text.Numeral

/-- The words that begin forms. -/
def reservedWords : List String := lambdaWords ++ ["app", "let"] ++ Form.all.map Form.name

/-- The names that are read as primitives of the host where no binder has them: they are words, but
no integers, no variables beyond all binders, and no constants. -/
structure IsHostName (name : String) : Prop where
  word : IsWord name.toList
  integer : int64? name.toList = none
  free : ∀ digits, name.toList = '#' :: digits → uint32? 10 digits = none
  constant : name ∉ ["true", "false", "nil", "id"]

/-- What printed forms call the binders in scope, innermost first, under `depth` of them. -/
def scopeNames : Nat → List String
  | 0 => []
  | depth + 1 => binderName depth :: scopeNames depth

variable {w name : String} {d j k : Nat}

theorem mem_reservedWords (h : isReserved w = true) : w ∈ reservedWords := by
  simp only [isReserved, Bool.or_eq_true, beq_iff_eq, Option.isSome_iff_exists] at h
  rcases h with ((lambda | rfl) | rfl) | ⟨form, named⟩
  · exact List.mem_append_left _ (List.mem_append_left _ (List.contains_iff_mem.1 lambda))
  · decide
  · decide
  · have name := List.find?_some named
    simp only [beq_iff_eq] at name
    exact List.mem_append_right _
      (List.mem_map.2 ⟨form, List.mem_of_find?_eq_some named, name⟩)

theorem Form.ofName?_name : ∀ form ∈ Form.all, Form.ofName? form.name = some form := by decide

theorem Form.name_mem (form : Form) : form.name ∈ reservedWords := by
  rcases form with _ | (_ | _ | _ | _ | op) | form | _
  case binary.arith => cases op <;> decide
  case ternary => cases form <;> decide
  all_goals decide

theorem length_scopeNames (d : Nat) : (scopeNames d).length = d := by
  induction d with
  | zero => rfl
  | succ d ih => rw [scopeNames, List.length_cons, ih]

theorem toList_binderName (j : Nat) : (binderName j).toList = 'x' :: Nat.toDigits 10 j := by
  rw [binderName, String.toList_append]
  exact congrArg ('x' :: ·) String.toList_ofList

theorem toList_toString (n : Nat) : (toString n).toList = Nat.toDigits 10 n := String.toList_ofList

theorem binderName_inj (same : binderName j = binderName k) : j = k := by
  have digits := congrArg String.toList same
  rw [toList_binderName, toList_binderName, List.cons.injEq] at digits
  have value : natural? 10 (Nat.toDigits 10 j) = some j :=
    natural?_toDigits (by decide) (by decide) j
  rw [digits.2, natural?_toDigits (by decide) (by decide)] at value
  exact (Option.some.inj value).symm

theorem idxOf?_scopeNames_eq_none : (scopeNames d).idxOf? w = none ↔ ∀ j < d, w ≠ binderName j := by
  induction d with
  | zero => simp [scopeNames]
  | succ d ih =>
    rw [List.idxOf?_eq_none_iff, scopeNames, List.mem_cons, not_or, ← List.idxOf?_eq_none_iff, ih]
    constructor
    · rintro ⟨here, before⟩ j less
      rcases Nat.lt_or_eq_of_le (Nat.le_of_lt_succ less) with earlier | rfl
      · exact before j earlier
      · exact here
    · exact fun all => ⟨all d (Nat.lt_succ_self d), fun j less => all j (Nat.lt_succ_of_lt less)⟩

/-- A binder in scope is found where as many binders as its variables count stand in between. -/
theorem idxOf?_scopeNames (less : k < d) :
    (scopeNames d).idxOf? (binderName (d - 1 - k)) = some k := by
  induction d generalizing k with
  | zero => exact absurd less (Nat.not_lt_zero k)
  | succ d ih =>
    rw [scopeNames, List.idxOf?_cons]
    cases k with
    | zero => rw [Nat.sub_zero, Nat.add_sub_cancel, beq_self_eq_true]; rfl
    | succ k =>
      have less : k < d := Nat.lt_of_succ_lt_succ less
      have other : (binderName d == binderName (d + 1 - 1 - (k + 1))) = false :=
        beq_eq_false_iff_ne.2 fun same => by
          have := binderName_inj same
          omega
      have inner : d + 1 - 1 - (k + 1) = d - 1 - k := by omega
      rw [other, inner, ih less]
      rfl

/-- A word that no binder name is like. -/
theorem idxOf?_scopeNames_of_head (head : w.toList.head? ≠ some 'x') (d : Nat) :
    (scopeNames d).idxOf? w = none := by
  refine idxOf?_scopeNames_eq_none.2 fun j _ same => head ?_
  rw [same, toList_binderName]
  rfl

theorem unbound_free {n : Nat} (fits : n + d < UInt32.size) :
    unbound d ("#" ++ toString n) = .ok (.var (UInt32.ofNat (n + d))) := by
  have written : ("#" ++ toString n).toList = '#' :: Nat.toDigits 10 n := by
    rw [String.toList_append]
    exact congrArg ('#' :: ·) String.toList_ofList
  have small : n < UInt32.size := Nat.lt_of_le_of_lt (Nat.le_add_right n d) fits
  have value : (UInt32.ofNat n).toNat = n := UInt32.toNat_ofNat_of_lt' small
  have other : int64? ('#' :: Nat.toDigits 10 n) = none := rfl
  unfold unbound
  simp only [written, other, uint32?_toDigits (by decide : 2 ≤ 10) (by decide) small, value, fits,
    ↓reduceIte]

theorem unbound_integer (n : Int64) (d : Nat) :
    unbound d (toString n.toInt) = .ok (.const (.int n)) := by
  unfold unbound
  rw [int64?_toString]

theorem IsHostName.unbound (h : IsHostName name) (d : Nat) :
    unbound d name = .ok (.prim name) := by
  have constant := h.constant
  unfold Surface.unbound
  rw [h.integer]
  dsimp only
  split
  · rename_i k found
    split at found
    · rename_i digits written
      cases (h.free digits written).symm.trans found
    · cases found
  · split
    case h_5 => rfl
    all_goals exact absurd (by decide) constant

/-- A word that is read as a primitive is the name of the primitive. -/
theorem isHostName_of_unbound (word : IsWord w.toList) (found : unbound d w = .ok (.prim name)) :
    name = w ∧ IsHostName w := by
  unfold unbound at found
  split at found
  · cases found
  · rename_i integer
    dsimp only at found
    split at found
    · split at found <;> cases found
    · rename_i free
      split at found
      · cases found
      · cases found
      · cases found
      · cases found
      · rename_i true_ false_ nil id_
        cases found
        refine ⟨rfl, word, integer, fun digits written => ?_, ?_⟩
        · rwa [written] at free
        · simp only [List.mem_cons, List.not_mem_nil, or_false, not_or]
          exact ⟨true_, false_, nil, id_⟩

theorem term?_variableText (fits : k < UInt32.size) (d : Nat) :
    (Sexp.word (variableText k d)).term? (scopeNames d) = some (.var k) := by
  have value : (UInt32.ofNat k).toNat = k := UInt32.toNat_ofNat_of_lt' fits
  unfold variableText
  by_cases bound : k < d
  · rw [if_pos bound]
    exact (Sexp.term?_of_found (idxOf?_scopeNames bound)).trans (by rw [value])
  · have whole : k - d + d = k := Nat.sub_add_cancel (Nat.le_of_not_lt bound)
    rw [if_neg bound, Sexp.term?_of_absent (idxOf?_scopeNames_of_head ?_ d), length_scopeNames,
      unbound_free (by rwa [whole]), whole]
    · show some (Term.var (UInt32.ofNat k).toNat) = _
      rw [value]
    · rw [String.toList_append]
      exact fun head => absurd head (by simp)

/-- The word of an atom is read as the atom, unless it is the name of a binder in scope. -/
theorem term?_atomSexp (a : Atom) (host : ∀ name, a = .prim name → IsHostName name)
    (free : ∀ name, a = .prim name → (scopeNames d).idxOf? name = none) :
    (atomSexp a).term? (scopeNames d) = some (.atom a) := by
  have constant (w : String) (known : w.toList.head? ≠ some 'x') (a : Atom)
      (found : unbound d w = .ok (.atom a)) :
      (Sexp.word w).term? (scopeNames d) = some (.atom a) := by
    rw [Sexp.term?_of_absent (idxOf?_scopeNames_of_head known d), length_scopeNames, found]
    rfl
  match a with
  | .const (.str s) => rfl
  | .const (.int n) =>
    have absent : (scopeNames d).idxOf? (toString n.toInt) = none :=
      idxOf?_scopeNames_eq_none.2 fun j _ same => by
        have value := int64?_toString n
        rw [same, toList_binderName] at value
        cases value
    refine (Sexp.term?_of_absent absent).trans ?_
    rw [length_scopeNames, unbound_integer]
    rfl
  | .const (.bool true) => exact constant "true" (by decide) _ rfl
  | .const (.bool false) => exact constant "false" (by decide) _ rfl
  | .const .nil => exact constant "nil" (by decide) _ rfl
  | .ident => exact constant "id" (by decide) _ rfl
  | .prim name =>
    refine (Sexp.term?_of_absent (free name rfl)).trans ?_
    rw [length_scopeNames, (host name rfl).unbound]
    rfl

/-- A word that a reader would not take for a primitive begins no form. -/
theorem isReserved_eq_false (other : w.toList.head? = some 'x' ∨ w.toList.head? = some '#' ∨
    (int64? w.toList).isSome ∨ w ∈ ["true", "false", "nil", "id"]) : isReserved w = false := by
  have reserved : ∀ w ∈ reservedWords, ¬(w.toList.head? = some 'x' ∨ w.toList.head? = some '#' ∨
    (int64? w.toList).isSome ∨ w ∈ ["true", "false", "nil", "id"]) := by decide
  exact Bool.eq_false_iff.2 fun h => reserved w (mem_reservedWords h) other

theorem isReserved_variableText (k d : Nat) : isReserved (variableText k d) = false := by
  unfold variableText
  split
  · exact isReserved_eq_false (.inl (by rw [String.toList_append]; rfl))
  · exact isReserved_eq_false (.inr (.inl (by rw [String.toList_append]; rfl)))

theorem isReserved_atomSexp (a : Atom) (free : ∀ name, a = .prim name → isReserved name = false) :
    (atomSexp a).isReserved = false := by
  match a with
  | .const (.str s) => rfl
  | .const (.int n) =>
    exact isReserved_eq_false (.inr (.inr (.inl (int64?_toString n ▸ rfl))))
  | .const (.bool true) => rfl
  | .const (.bool false) => rfl
  | .const .nil => rfl
  | .ident => rfl
  | .prim name => exact free name rfl

theorem isWordChar_of_digit {c : Char} (digit : (Text.Hex.value? c).isSome) :
    isWordChar c = true := by
  have ne (d : Char) (other : Text.Hex.value? d = none) : c ≠ d := by
    rintro rfl
    rw [other] at digit
    cases digit
  refine isWordChar_iff.2 ⟨?_, ne '(' rfl, ne ')' rfl, ne '"' rfl, ne ';' rfl⟩
  have range : 48 ≤ c.toNat ∧ c.toNat ≤ 102 := by
    unfold Text.Hex.value? at digit
    grind
  simp only [Text.isBlank, Bool.or_eq_false_iff, Bool.and_eq_false_iff, decide_eq_false_iff_not,
    beq_eq_false_iff_ne]
  omega

theorem isWord_toDigits (n : Nat) : IsWord (Nat.toDigits 10 n) :=
  ⟨Nat.toDigits_ne_nil, fun _ mem =>
    isWordChar_of_digit (isSome_value?_of_mem_toDigits (by decide) (by decide) mem)⟩

theorem IsWord.cons {c : Char} {cs : List Char} (first : isWordChar c = true) (word : IsWord cs) :
    IsWord (c :: cs) :=
  ⟨nofun, List.forall_mem_cons.2 ⟨first, word.2⟩⟩

theorem isWord_binderName (j : Nat) : IsWord (binderName j).toList :=
  toList_binderName j ▸ (isWord_toDigits j).cons rfl

theorem isWord_variableText (k d : Nat) : IsWord (variableText k d).toList := by
  unfold variableText
  split
  · exact isWord_binderName (d - 1 - k)
  · rw [String.toList_append]
    exact toList_toString (k - d) ▸ (isWord_toDigits (k - d)).cons rfl

/-- A form is spelled if its parts are. -/
theorem spelled_list (mem : w ∈ reservedWords) {items : List Sexp}
    (parts : ∀ e ∈ items, e.Spelled) : (Sexp.list (.word w :: items)).Spelled := by
  have words : ∀ w ∈ reservedWords, IsWord w.toList := by
    decide
  exact .list (List.forall_mem_cons.2 ⟨.word (words w mem), parts⟩)

theorem spelled_atomSexp (a : Atom) (host : ∀ name, a = .prim name → IsHostName name) :
    (atomSexp a).Spelled := by
  match a with
  | .const (.str s) => exact .text s
  | .const (.int n) =>
    refine .word ?_
    show IsWord (toString n.toInt).toList
    cases n.toInt with
    | ofNat n => exact toList_toString_ofNat n ▸ isWord_toDigits n
    | negSucc n => exact toList_toString_negSucc n ▸ (isWord_toDigits (n + 1)).cons rfl
  | .const (.bool true) => exact .word (by decide)
  | .const (.bool false) => exact .word (by decide)
  | .const .nil => exact .word (by decide)
  | .ident => exact .word (by decide)
  | .prim name => exact .word (host name rfl).word

end GeneCalculus.Surface
