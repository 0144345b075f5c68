import Mathlib.Algebra.Group.Nat.Defs
import GeneCalculus.Json.Reader

/-!
Reading written numbers. A number that is written with its digits, a point and an exponent where
they belong is read up to its end, and its value is the one that the digits have.
-/

namespace GeneCalculus.Json

variable {ws ps cs rest : List Char} {es : Option (Bool × List Char)} {negative : Bool}

/-- `rest` does not go on with a number before it. -/
def Ends (rest : List Char) : Prop :=
  ∀ c ∈ rest.head?, ¬isDigit c ∧ c ≠ '.' ∧ c ≠ 'e' ∧ c ≠ 'E'

theorem ends_nil : Ends [] := nofun

/-- The values of digits. -/
def values (cs : List Char) : List Nat := cs.map fun c => c.toNat - 48

/-- A written exponent: whether it is negative, and its digits. -/
def marked (es : Option (Bool × List Char)) : List Char :=
  (es.map fun (down, es) => 'e' :: (if down then '-' else '+') :: es).getD []

/-- A number with `ws` before its point, `ps` behind it, and maybe an exponent `es`. -/
def written (ws ps : List Char) (es : Option (Bool × List Char)) : List Char :=
  ws ++ ((if ps = [] then [] else '.' :: ps) ++ marked es)

/-- The value of a written exponent. -/
def power (es : Option (Bool × List Char)) : Option (Bool × Nat) :=
  es.map fun (down, es) => (down, Nat.ofDigitChars 10 es 0)

/-- What makes a number well-formed. -/
structure Formed (ws ps : List Char) (es : Option (Bool × List Char)) : Prop where
  whole : ∀ c ∈ ws, isDigit c
  part : ∀ c ∈ ps, isDigit c
  exponent : ∀ e ∈ es, e.2 ≠ [] ∧ ∀ c ∈ e.2, isDigit c
  front : ws ≠ []
  lead : (values ws).head? = some 0 → ws.length = 1

theorem formed_of_digits (whole : ∀ c ∈ ws, isDigit c) (part : ∀ c ∈ ps, isDigit c)
    (front : ws ≠ []) (lead : (values ws).head? = some 0 → ws.length = 1) : Formed ws ps none := by
  refine ⟨whole, part, ?_, front, lead⟩
  intro e none
  cases none

theorem leadingDigits_append (digits : ∀ c ∈ cs, isDigit c)
    (stop : ∀ c ∈ rest.head?, ¬isDigit c) :
    leadingDigits (cs ++ rest) = values cs ∧ (cs ++ rest).dropWhile isDigit = rest := by
  have none : rest.takeWhile isDigit = [] ∧ rest.dropWhile isDigit = rest := by
    cases rest with
    | nil => exact ⟨rfl, rfl⟩
    | cons c rest =>
      have other : isDigit c = false := Bool.eq_false_iff.2 (stop c rfl)
      exact ⟨List.takeWhile_cons_of_neg (Bool.eq_false_iff.1 other),
        List.dropWhile_cons_of_neg (Bool.eq_false_iff.1 other)⟩
  constructor
  · rw [leadingDigits, List.takeWhile_append_of_pos digits, none.1, List.append_nil]
    rfl
  · rw [List.dropWhile_append_of_pos digits, none.2]

/-- The number that digits write. -/
theorem foldl_values (cs : List Char) :
    (values cs).foldl (fun v d => v * 10 + d) 0 = Nat.ofDigitChars 10 cs 0 := by
  rw [values, List.foldl_map, Nat.ofDigitChars]
  simp only [Nat.mul_comm]
  rfl

theorem leadingExponent_marked (he : ∀ e ∈ es, e.2 ≠ [] ∧ ∀ c ∈ e.2, isDigit c)
    (ends : Ends rest) : leadingExponent (marked es ++ rest) = some (power es, rest) := by
  cases es with
  | none =>
    cases rest with
    | nil => rfl
    | cons c rest =>
      obtain ⟨-, -, lower, upper⟩ := ends c rfl
      show leadingExponent (c :: rest) = _
      exact if_neg (not_or_intro lower upper)
  | some e =>
    obtain ⟨down, es⟩ := e
    obtain ⟨front, digits⟩ := he _ rfl
    obtain ⟨read, behind⟩ := leadingDigits_append digits fun c hc => (ends c hc).1
    have nonempty : values es ≠ [] := fun none => front (List.map_eq_nil_iff.1 none)
    have sign : ((if down then '-' else '+') == '-') = down := by cases down <;> rfl
    have signed : (down = true ∨ some (if down then '-' else '+') = some '+') = True := by
      cases down <;> simp
    show leadingExponent ('e' :: (if down then '-' else '+') :: (es ++ rest)) = _
    simp only [leadingExponent, List.head?_cons, Option.some_beq_some, sign, signed, true_or,
      ↓reduceIte, List.tail_cons, read, behind, foldl_values]
    rfl

/-- What is written is read up to its end. -/
theorem readNumber_written (h : Formed ws ps es) (negative : Bool) (ends : Ends rest) :
    readNumber negative (written ws ps es ++ rest) =
      some (Number.ofDigits negative (values ws) (values ps) (power es), rest) := by
  have exponent := leadingExponent_marked h.exponent ends
  have mark : ∀ c ∈ (marked es ++ rest).head?, ¬isDigit c ∧ c ≠ '.' := by
    cases es with
    | none => exact fun c hc => ⟨(ends c hc).1, (ends c hc).2.1⟩
    | some es =>
      rintro c ⟨⟩
      decide
  have one : ¬((values ws).isEmpty ∨ (values ws).head? = some 0 ∧ 1 < (values ws).length) := by
    rintro (none | ⟨zero, more⟩)
    · exact h.front (List.map_eq_nil_iff.1 (List.isEmpty_iff.1 none))
    · have := h.lead zero
      rw [values, List.length_map] at more
      omega
  unfold written
  rw [List.append_assoc, List.append_assoc]
  generalize marked es ++ rest = tail at exponent mark
  cases ps with
  | nil =>
    obtain ⟨read, behind⟩ := leadingDigits_append h.whole fun c hc => (mark c hc).1
    rw [if_pos rfl, List.nil_append]
    unfold readNumber
    simp only [read, behind, if_neg one]
    split
    · exact absurd rfl (mark '.' rfl).2
    · simp [exponent, values]
  | cons p ps =>
    have point : ∀ c ∈ ('.' :: p :: (ps ++ tail)).head?, ¬isDigit c := by
      rintro c ⟨⟩
      decide
    obtain ⟨read, behind⟩ := leadingDigits_append h.whole point
    obtain ⟨read', behind'⟩ := leadingDigits_append h.part fun c hc => (mark c hc).1
    rw [List.cons_append] at read' behind'
    rw [if_neg (List.cons_ne_nil p ps)]
    show readNumber negative (ws ++ '.' :: p :: (ps ++ tail)) = _
    unfold readNumber
    simp only [read, behind, if_neg one, read', behind']
    simp [exponent, values]

theorem values_lt (digits : ∀ c ∈ cs, isDigit c) : ∀ d ∈ values cs, d < 10 := by
  intro d hd
  obtain ⟨c, hc, rfl⟩ := List.mem_map.1 hd
  have digit := digits c hc
  simp only [isDigit, Char.isDigit, Bool.and_eq_true, decide_eq_true_eq] at digit
  have most : c.toNat ≤ 57 := UInt32.le_iff_toNat_le.1 digit.2
  omega

theorem readLeaf_minus (cs : List Char) :
    readLeaf ('-' :: cs) = (readNumber true cs).map fun (n, rest) => (.number n, rest) := rfl

theorem readLeaf_digit {c : Char} (digit : isDigit c) (cs : List Char) :
    readLeaf (c :: cs) = (readNumber false (c :: cs)).map fun (n, rest) => (.number n, rest) := by
  have other : ∀ d word, isDigit d = false → behind? (d :: word) (c :: cs) = none := by
    intro d word letter
    have differ : (d == c) = false := by
      apply beq_false_of_ne
      rintro rfl
      rw [letter] at digit
      cases digit
    unfold behind? List.isPrefixOf
    rw [differ]
    rfl
  have sign : c ≠ '-' := by
    rintro rfl
    cases digit
  unfold readLeaf
  rw [show behind? "null".toList (c :: cs) = none from other 'n' _ rfl,
    show behind? "true".toList (c :: cs) = none from other 't' _ rfl,
    show behind? "false".toList (c :: cs) = none from other 'f' _ rfl]
  dsimp only
  split
  · rename_i same
    cases same
    exact absurd rfl sign
  · rfl

/-- A character that begins a value that is no text, array or object. -/
structure Leads (c : Char) : Prop where
  space : ¬isSpace c
  text : c ≠ '"'
  array : c ≠ '['
  object : c ≠ '\x7b'

theorem leads_number {c : Char} (start : isDigit c ∨ c = '-') : Leads c := by
  have other : ∀ d, isDigit d = false → d ≠ '-' → c ≠ d := by
    rintro d letter sign rfl
    rcases start with digit | minus
    · rw [letter] at digit
      cases digit
    · exact sign minus
  refine ⟨?_, other '"' rfl (by decide), other '[' rfl (by decide), other '\x7b' rfl (by decide)⟩
  intro space
  simp only [isSpace, Bool.or_eq_true, beq_iff_eq] at space
  rcases space with ((rfl | rfl) | rfl) | rfl <;> revert start <;> decide

/-- `a` is read from the front of `cs`, and `rest` is left. -/
def Reads {α : Type} (x : Read α cs) (a : α) (rest : List Char) : Prop :=
  ∃ shorter, x = some (a, ⟨rest, shorter⟩)

/-- A leaf is read from the front of a text. -/
theorem reads_leaf {c : Char} {v : Json} (leads : Leads c)
    (leaf : readLeaf (c :: cs) = some (v, rest)) (shorter : rest.length < (c :: cs).length) :
    Reads (readValue (c :: cs)) v rest := by
  have skipped : skip (c :: cs) = c :: cs := List.dropWhile_cons_of_neg leads.space
  refine ⟨shorter, ?_⟩
  rw [readValue]
  split
  · rename_i empty
    rw [skipped] at empty
    cases empty
  · rename_i d body same
    rw [skipped] at same
    cases same
    rw [if_neg leads.text, if_neg leads.array, if_neg leads.object, leaf]
    exact dif_pos shorter

/-- A value that is read to the end is that of the text. -/
theorem parse_of_reads {s : String} {v : Json} (h : Reads (readValue s.toList) v []) :
    parse s = some v := by
  obtain ⟨shorter, read⟩ := h
  unfold parse
  rw [read]
  rfl

theorem length_lt_cons_append (c : Char) (cs rest : List Char) :
    rest.length < (c :: (cs ++ rest)).length := by
  rw [List.length_cons, List.length_append]
  omega

/-- Wherever `cs` stands before what does not go on with it, it is read as `v`. -/
def Spells (cs : List Char) (v : Json) : Prop :=
  ∀ rest, Ends rest → Reads (readValue (cs ++ rest)) v rest

theorem Spells.parse {s : String} {v : Json} (h : Spells s.toList v) : parse s = some v := by
  have read := h [] ends_nil
  rw [List.append_nil] at read
  exact parse_of_reads read

theorem spells_null : Spells "null".toList .null := fun _ _ =>
  reads_leaf ⟨by decide, by decide, by decide, by decide⟩ rfl
    (length_lt_cons_append ..)

/-- A number is read after its sign. -/
theorem Formed.spells (h : Formed ws ps es) (negative : Bool) :
    Spells ((if negative then ['-'] else []) ++ written ws ps es)
      (.number (Number.ofDigits negative (values ws) (values ps) (power es))) := by
  intro rest ends
  have read := readNumber_written h negative ends
  generalize Number.ofDigits negative (values ws) (values ps) (power es) = value at read
  cases negative with
  | true =>
    refine reads_leaf (leads_number (.inr rfl)) ?_ (length_lt_cons_append ..)
    show readLeaf ('-' :: (written ws ps es ++ rest)) = _
    rw [readLeaf_minus, read]
    rfl
  | false =>
    cases ws with
    | nil => exact absurd rfl h.front
    | cons c ws =>
      have digit := h.whole c List.mem_cons_self
      refine reads_leaf (leads_number (.inl digit)) ?_ (length_lt_cons_append ..)
      rw [readLeaf_digit digit]
      exact congrArg (Option.map fun (n, rest) => (Json.number n, rest)) read

end GeneCalculus.Json
