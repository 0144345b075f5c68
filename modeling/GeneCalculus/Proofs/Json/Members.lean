import GeneCalculus.Proofs.Json.Real

/-!
Reading what was written without blanks. A text is read back as it is, whatever its characters, a
double as it would be alone, and an array or an object if its parts are.
-/

namespace GeneCalculus.Json

variable {cs rest : List Char} {ps : List Piece} {ms : List (Option String × Json)}

/-- How a character is written: behind a backslash, as its number, or as it is. -/
theorem escape_cases (c : Char) :
    (∃ e, escape c = ['\\', e] ∧ escaped? e = some c ∧ e ≠ 'u') ∨
    (c.toNat < 0x20 ∧ escape c =
      ['\\', 'u', '0', '0', Text.Hex.digit (c.toNat / 16), Text.Hex.digit (c.toNat % 16)]) ∨
    (¬c.toNat < 0x20 ∧ c ≠ '"' ∧ c ≠ '\\' ∧ escape c = [c]) := by
  unfold escape
  split
  case h_8 quote back _ _ _ _ _ =>
    by_cases control : c.toNat < 0x20
    · exact .inr (.inl ⟨control, if_pos control⟩)
    · exact .inr (.inr ⟨control, quote, back, if_neg control⟩)
  all_goals exact .inl ⟨_, rfl, rfl, by decide⟩

theorem assemble_unit {n : Nat} (small : n < 0xd800) (ps : List Piece) :
    assemble (.unit n :: ps) = (assemble ps).map (Char.ofNat n :: ·) := by
  have low : ¬(0xd800 ≤ n ∧ n < 0xdc00) := by omega
  have high : ¬(0xdc00 ≤ n ∧ n < 0xe000) := by omega
  have half : ¬(0xd800 ≤ n ∧ n < 0xe000) := by omega
  cases ps with
  | nil => exact if_neg half
  | cons p ps =>
    cases p with
    | char c => exact if_neg half
    | unit m => rw [assemble, if_neg low, if_neg high]

theorem reads_short {c e : Char} (back : escaped? e = some c) (plain : e ≠ 'u')
    (h : Reads (pieces cs) ps rest) : Reads (pieces ('\\' :: e :: cs)) (.char c :: ps) rest := by
  obtain ⟨shorter, read⟩ := h
  refine ⟨Nat.lt_add_right 2 shorter, ?_⟩
  rw [pieces, back, read]
  · rfl
  · rintro a b c d rest rfl
    exact absurd rfl plain

theorem reads_unit {n : Nat} (small : n < 0x100) (h : Reads (pieces cs) ps rest) :
    Reads (pieces ('\\' :: 'u' :: '0' :: '0' :: Text.Hex.digit (n / 16) ::
      Text.Hex.digit (n % 16) :: cs)) (.unit n :: ps) rest := by
  obtain ⟨shorter, read⟩ := h
  have parts : ((0 * 16 + 0) * 16 + n / 16) * 16 + n % 16 = n := by omega
  refine ⟨Nat.lt_add_right 6 shorter, ?_⟩
  rw [pieces, Text.Hex.value?_digit _ (by omega), Text.Hex.value?_digit _ (by omega), read]
  show some (Piece.unit (((0 * 16 + 0) * 16 + n / 16) * 16 + n % 16) :: ps, _) = _
  rw [parts]

theorem reads_char {c : Char} (printed : ¬c.toNat < 0x20) (quote : c ≠ '"') (back : c ≠ '\\')
    (h : Reads (pieces cs) ps rest) : Reads (pieces (c :: cs)) (.char c :: ps) rest := by
  obtain ⟨shorter, read⟩ := h
  refine ⟨Nat.lt_add_right 1 shorter, ?_⟩
  rw [pieces, if_neg (not_or_intro printed back), read]
  · rfl
  · exact quote
  · rintro a b c d rest rfl
    exact absurd rfl back
  · rintro e rest rfl
    exact absurd rfl back

/-- An escaped character is read as one piece, which stands for the character. -/
theorem reads_escape (c : Char) (h : Reads (pieces cs) ps rest) :
    ∃ p, Reads (pieces (escape c ++ cs)) (p :: ps) rest ∧
      assemble (p :: ps) = (assemble ps).map (c :: ·) := by
  rcases escape_cases c with
    ⟨e, short, back, plain⟩ | ⟨control, long⟩ | ⟨printed, quote, back, same⟩
  · rw [short]
    exact ⟨.char c, reads_short back plain h, rfl⟩
  · rw [long]
    refine ⟨.unit c.toNat, reads_unit (by omega) h, ?_⟩
    rw [assemble_unit (by omega), Char.ofNat_toNat]
  · rw [same]
    exact ⟨.char c, reads_char printed quote back h, rfl⟩

theorem exists_reads_pieces (s rest : List Char) :
    ∃ ps, Reads (pieces (s.flatMap escape ++ '"' :: rest)) ps rest ∧ assemble ps = some s := by
  induction s with
  | nil => exact ⟨[], ⟨Nat.lt_succ_self _, rfl⟩, rfl⟩
  | cons c s ih =>
    obtain ⟨ps, read, all⟩ := ih
    obtain ⟨p, first, one⟩ := reads_escape c read
    rw [List.flatMap_cons, List.append_assoc]
    exact ⟨p :: ps, first, by rw [one, all, Option.map_some]⟩

/-- A quoted text is read back as it is. -/
theorem reads_text (s : String) (rest : List Char) :
    Reads (readText (s.toList.flatMap escape ++ '"' :: rest)) (some s) rest := by
  obtain ⟨ps, ⟨shorter, read⟩, all⟩ := exists_reads_pieces s.toList rest
  refine ⟨shorter, ?_⟩
  unfold readText
  rw [read]
  show some ((assemble ps).map String.ofList, _) = _
  rw [all, Option.map_some, String.ofList_toList]

/-- What is read of a double: a number, or nothing if it is not finite. -/
theorem exists_spells (x : Float) :
    ∃ v, Spells (realText x).toList v ∧ parse (realText x) = some v := by
  by_cases finite : x.isFinite
  · obtain ⟨y, spells⟩ := exists_spells_realText finite
    exact ⟨_, spells, spells.parse⟩
  · rw [realText_of_not_isFinite finite]
    exact ⟨.null, spells_null, spells_null.parse⟩

/-- The value that a double is read back as. -/
def again (x : Float) : Json := (parse (realText x)).getD .null

theorem spells_again (x : Float) : Spells (realText x).toList (again x) := by
  obtain ⟨v, spells, read⟩ := exists_spells x
  rwa [again, read]

/-- A member before what follows it. -/
def member (name : String) (value tail : List Char) : List Char :=
  '"' :: (name.toList.flatMap escape ++ '"' :: ':' :: (value ++ tail))

/-- What follows a member: the end of the object, or a comma and more members. -/
inductive Follows : List Char → List (Option String × Json) → List Char → Prop
  | close (rest : List Char) : Follows ('\x7d' :: rest) [] rest
  | more {cs rest : List Char} {ms : List (Option String × Json)}
      (h : Reads (readMembers cs) ms rest) : Follows (',' :: cs) ms rest

theorem Follows.ends (h : Follows cs ms rest) : Ends cs ∧ rest.length < cs.length := by
  cases h with
  | close => exact ⟨by rintro c ⟨⟩; decide, Nat.lt_succ_self _⟩
  | more h => exact ⟨by rintro c ⟨⟩; decide, Nat.lt_succ_of_lt h.1⟩

theorem reads_member {value : List Char} {v : Json} (name : String) (spells : Spells value v)
    (h : Follows cs ms rest) :
    Reads (readMembers (member name value cs)) ((some name, v) :: ms) rest := by
  obtain ⟨ends, less⟩ := h.ends
  obtain ⟨shorter, read⟩ := reads_text name (':' :: (value ++ cs))
  obtain ⟨shorter', read'⟩ := spells cs ends
  unfold member
  refine ⟨by simp only [List.length_cons, List.length_append]; omega, ?_⟩
  rw [readMembers]
  split
  · rename_i body same
    cases same
    rw [read]
    simp only [Option.bind_eq_bind, Option.bind_some]
    split
    · rename_i body same
      cases same
      rw [read']
      simp only [Option.bind_some]
      cases h with
      | close =>
        split
        · rename_i same
          cases same
        · rename_i same
          cases same
          rfl
        · rename_i other
          exact absurd rfl (other _)
      | more h =>
        obtain ⟨shorter'', read''⟩ := h
        split
        · rename_i same
          cases same
          rw [read'']
          rfl
        · rename_i same
          cases same
        · rename_i other _
          exact absurd rfl (other _)
    · rename_i other
      exact absurd rfl (other _)
  · rename_i other
    exact absurd rfl (other _)

/-- What follows an item: the end of the array, or a comma and more items. -/
inductive Trails : List Char → List Json → List Char → Prop
  | close (rest : List Char) : Trails (']' :: rest) [] rest
  | more {cs rest : List Char} {vs : List Json} (h : Reads (readItems cs) vs rest) :
      Trails (',' :: cs) vs rest

theorem Trails.ends {vs : List Json} (h : Trails cs vs rest) :
    Ends cs ∧ rest.length < cs.length := by
  cases h with
  | close => exact ⟨by rintro c ⟨⟩; decide, Nat.lt_succ_self _⟩
  | more h => exact ⟨by rintro c ⟨⟩; decide, Nat.lt_succ_of_lt h.1⟩

theorem reads_item {value : List Char} {v : Json} {vs : List Json} (spells : Spells value v)
    (h : Trails cs vs rest) : Reads (readItems (value ++ cs)) (v :: vs) rest := by
  obtain ⟨ends, less⟩ := h.ends
  obtain ⟨shorter, read⟩ := spells cs ends
  refine ⟨by simp only [List.length_append]; omega, ?_⟩
  rw [readItems, read]
  simp only [Option.bind_eq_bind, Option.bind_some]
  cases h with
  | close =>
    split
    · rename_i same
      cases same
    · rename_i same
      cases same
      rfl
    · rename_i other
      exact absurd rfl (other _)
  | more h =>
    obtain ⟨shorter', read'⟩ := h
    split
    · rename_i same
      cases same
      rw [read']
      rfl
    · rename_i same
      cases same
    · rename_i other _
      exact absurd rfl (other _)

/-- No item begins with a closing bracket. -/
theorem Reads.ne_bracket {vs : List Json} (h : Reads (readItems cs) vs rest) (body : List Char) :
    skip cs ≠ ']' :: body := by
  intro close
  have none : readValue cs = none := by
    rw [readValue]
    split
    · rfl
    · rename_i c body' same
      rw [close] at same
      cases same
      rfl
  obtain ⟨shorter, read⟩ := h
  rw [readItems, none] at read
  cases read

/-- No member begins with a closing brace. -/
theorem Reads.ne_brace (h : Reads (readMembers cs) ms rest) (body : List Char) :
    skip cs ≠ '\x7d' :: body := by
  intro close
  obtain ⟨shorter, read⟩ := h
  rw [readMembers] at read
  split at read
  · rename_i same
    rw [close] at same
    cases same
  · cases read

theorem spells_str (s : String) : Spells (str s).compact.toList (str s) := by
  intro rest ends
  have text : (str s).compact.toList ++ rest =
      '"' :: (s.toList.flatMap escape ++ '"' :: rest) := by
    simp [str, compact, leafText, quote]
  rw [text]
  obtain ⟨shorter, read⟩ := reads_text s rest
  refine ⟨Nat.lt_succ_of_lt shorter, ?_⟩
  rw [readValue]
  split
  · rename_i same
    cases same
  · rename_i same
    cases same
    rw [if_pos rfl, read]
    rfl

section Parts

variable {α : Type} {name : α → String} {f g : α → Json} {x : α} {xs : List α}

theorem reads_items (each : ∀ y ∈ x :: xs, Spells (f y).compact.toList (g y)) (rest : List Char) :
    Reads (readItems ((compactItems ((x :: xs).map f)).toList ++ ']' :: rest))
      ((x :: xs).map g) rest := by
  have ⟨first, others⟩ := List.forall_mem_cons.1 each
  induction xs generalizing x with
  | nil => exact reads_item first (.close rest)
  | cons y xs ih =>
    have ⟨second, last⟩ := List.forall_mem_cons.1 others
    have text : (compactItems ((x :: y :: xs).map f)).toList ++ ']' :: rest =
        (f x).compact.toList ++
          ',' :: ((compactItems ((y :: xs).map f)).toList ++ ']' :: rest) := by
      simp only [List.map_cons, compactItems, String.toList_append, List.append_assoc]
      rfl
    rw [text]
    exact reads_item first (.more (ih others second last))

/-- An array is read back if its items are. -/
theorem spells_array (each : ∀ x ∈ xs, Spells (f x).compact.toList (g x)) :
    Spells (array (xs.map f)).compact.toList (.array (xs.map g)) := by
  intro rest ends
  have text : (array (xs.map f)).compact.toList ++ rest =
      '[' :: ((compactItems (xs.map f)).toList ++ ']' :: rest) := by
    simp [compact]
  rw [text]
  refine ⟨by simp only [List.length_cons, List.length_append]; omega, ?_⟩
  rw [readValue]
  split
  · rename_i same
    cases same
  · rename_i same
    cases same
    rw [if_neg (by decide), if_pos rfl]
    cases xs with
    | nil => rfl
    | cons x xs =>
      have items := reads_items each rest
      have ⟨shorter, read⟩ := items
      split
      · rename_i close
        exact absurd close (items.ne_bracket _)
      · rw [read]
        rfl

theorem compactMembers_cons (y : α) :
    compactMembers ((x :: y :: xs).map fun z => (some (name z), f z)) =
      quote (name x) ++ ":" ++ (f x).compact ++ "," ++
        compactMembers ((y :: xs).map fun z => (some (name z), f z)) := rfl

theorem reads_members (each : ∀ y ∈ x :: xs, Spells (f y).compact.toList (g y))
    (rest : List Char) :
    Reads (readMembers ((compactMembers ((x :: xs).map fun y => (some (name y), f y))).toList ++
      '\x7d' :: rest)) ((x :: xs).map fun y => (some (name y), g y)) rest := by
  have ⟨first, others⟩ := List.forall_mem_cons.1 each
  induction xs generalizing x with
  | nil =>
    have text : (compactMembers ([x].map fun y => (some (name y), f y))).toList ++ '\x7d' :: rest =
        member (name x) (f x).compact.toList ('\x7d' :: rest) := by
      simp [compactMembers, quote, member]
    rw [text]
    exact reads_member (name x) first (.close rest)
  | cons y xs ih =>
    have ⟨second, last⟩ := List.forall_mem_cons.1 others
    have text : (compactMembers ((x :: y :: xs).map fun z => (some (name z), f z))).toList ++
        '\x7d' :: rest = member (name x) (f x).compact.toList (',' ::
          ((compactMembers ((y :: xs).map fun z => (some (name z), f z))).toList ++
            '\x7d' :: rest)) := by
      rw [compactMembers_cons]
      simp [quote, member]
    rw [text]
    exact reads_member (name x) first (.more (ih others second last))

/-- An object is read back if its members are. -/
theorem spells_record (each : ∀ x ∈ xs, Spells (f x).compact.toList (g x)) :
    Spells (record (xs.map fun x => (name x, f x))).compact.toList
      (.object (xs.map fun x => (some (name x), g x))) := by
  intro rest ends
  have text : (record (xs.map fun x => (name x, f x))).compact.toList ++ rest =
      '\x7b' :: ((compactMembers (xs.map fun x => (some (name x), f x))).toList ++
        '\x7d' :: rest) := by
    simp [record, compact, List.map_map, Function.comp_def]
  rw [text]
  refine ⟨by simp only [List.length_cons, List.length_append]; omega, ?_⟩
  rw [readValue]
  split
  · rename_i same
    cases same
  · rename_i same
    cases same
    rw [if_neg (by decide), if_neg (by decide), if_pos rfl]
    cases xs with
    | nil => rfl
    | cons x xs =>
      have members : Reads (readMembers (_ ++ '\x7d' :: rest))
          ((x :: xs).map fun y => (some (name y), g y)) rest := reads_members each rest
      have ⟨shorter, read⟩ := members
      split
      · rename_i close
        exact absurd close (members.ne_brace _)
      · rw [read]
        rfl

end Parts

/-- The value is read back as it is. -/
def Faithful (v : Json) : Prop := Spells v.compact.toList v

theorem faithful_str (s : String) : Faithful (str s) := spells_str s

theorem faithful_array {items : List Json} (each : ∀ v ∈ items, Faithful v) :
    Faithful (array items) := by
  have spells : Spells (array (items.map id)).compact.toList (.array (items.map id)) :=
    spells_array each
  rwa [List.map_id] at spells

theorem faithful_record {members : List (String × Json)} (each : ∀ m ∈ members, Faithful m.2) :
    Faithful (record members) := by
  have spells : Spells (record (members.map fun m => (m.1, m.2))).compact.toList
      (.object (members.map fun m => (some m.1, m.2))) := spells_record each
  rwa [show members.map (fun m => (m.1, m.2)) = members from List.map_id _] at spells

/-- A table of doubles is read back with each name in its place. -/
theorem parse_floats (entries : List (String × Float)) :
    parse (record (entries.map fun e => (e.1, float e.2))).compact =
      some (.object (entries.map fun e => (some e.1, again e.2))) := by
  have spells : Spells (record (entries.map fun e => (e.1, float e.2))).compact.toList
      (.object (entries.map fun e => (some e.1, again e.2))) :=
    spells_record fun e _ => spells_again e.2
  exact spells.parse

end GeneCalculus.Json
