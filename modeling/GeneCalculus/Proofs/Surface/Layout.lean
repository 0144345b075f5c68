import GeneCalculus.Proofs.Surface.Quoting
import GeneCalculus.Surface.Sexp

/-!
Layouts of S-expressions. Between tokens there may be any blanks and comments, and each character of
a quoted text may be written in any of its ways; every layout is read as what it lays out.
-/

namespace GeneCalculus.Surface

/-- Blanks and closed comments. -/
inductive Trivia : List Char → Prop
  | nil : Trivia []
  | blank {c : Char} {cs : List Char} : Text.isBlank c = true → Trivia cs → Trivia (c :: cs)
  | comment {line cs : List Char} : '\n' ∉ line → Trivia cs → Trivia (';' :: (line ++ '\n' :: cs))

/-- What a word is written with: at least one character, and none that ends a word. -/
def IsWord (w : List Char) : Prop := w ≠ [] ∧ ∀ c ∈ w, isWordChar c = true

instance (w : List Char) : Decidable (IsWord w) :=
  decidable_of_iff ((!w.isEmpty && w.all isWordChar) = true) (by simp [IsWord])

/-- A word that stands in front of `cs` ends there. -/
def EndsWord (cs : List Char) : Prop := ∀ c ∈ cs.head?, isWordChar c = false

/-- The characters lay out the S-expressions, one after the other. -/
inductive Lays : List Sexp → List Char → Prop
  | nil {ts : List Char} : Trivia ts → Lays [] ts
  | word {ts w cs : List Char} {items : List Sexp} : Trivia ts → IsWord w → EndsWord cs →
      Lays items cs → Lays (.word (String.ofList w) :: items) (ts ++ (w ++ cs))
  | text {ts s cs ds : List Char} {items : List Sexp} : Trivia ts → SpellsText s cs →
      Lays items ds → Lays (.text (String.ofList s) :: items) (ts ++ '"' :: (cs ++ '"' :: ds))
  | list {ts cs ds : List Char} {inner items : List Sexp} : Trivia ts → Lays inner cs →
      Lays items ds → Lays (.list inner :: items) (ts ++ '(' :: (cs ++ ')' :: ds))

variable {c : Char} {ts w s cs rest : List Char} {items : List Sexp} {e : Sexp}

theorem isWordChar_iff : isWordChar c = true ↔
    Text.isBlank c = false ∧ c ≠ '(' ∧ c ≠ ')' ∧ c ≠ '"' ∧ c ≠ ';' := by
  simp [isWordChar, and_assoc]

theorem Trivia.append (h : Trivia ts) (h' : Trivia cs) : Trivia (ts ++ cs) := by
  induction h with
  | nil => exact h'
  | blank blank _ ih => exact .blank blank ih
  | comment open_ _ ih =>
    rw [List.cons_append, List.append_assoc]
    exact .comment open_ ih

theorem Trivia.scan (h : Trivia ts) (offset : Nat) (rest : List Char) :
    scan offset (ts ++ rest) = scan (offset + ts.length) rest := by
  induction h generalizing offset with
  | nil => rfl
  | @blank c cs blank _ ih =>
    rw [List.cons_append, Surface.scan, if_pos blank, ih, List.length_cons, Nat.add_assoc,
      Nat.add_comm 1]
  | @comment line cs open_ _ ih =>
    have before : ∀ d ∈ line, (d != '\n') = true := fun d mem =>
      bne_iff_ne.2 fun newline => open_ (newline ▸ mem)
    have front : (line ++ '\n' :: (cs ++ rest)).takeWhile (· != '\n') = line := by
      rw [List.takeWhile_append_of_pos before]
      exact List.append_nil _
    have behind : (line ++ '\n' :: (cs ++ rest)).dropWhile (· != '\n') = '\n' :: (cs ++ rest) := by
      rw [List.dropWhile_append_of_pos before]
      rfl
    have length : (';' :: (line ++ '\n' :: cs)).length = line.length + 2 + cs.length := by
      simp only [List.length_cons, List.length_append]
      omega
    rw [List.cons_append, List.append_assoc, List.cons_append, Surface.scan,
      if_neg (by decide), if_pos rfl]
    simp only [front, behind, List.drop_succ_cons, List.drop_zero]
    rw [ih, length, ← Nat.add_assoc, ← Nat.add_assoc]

theorem scan_opening (offset : Nat) (rest : List Char) :
    scan offset ('(' :: rest) = (offset, .opening) :: scan (offset + 1) rest := by
  rw [scan, if_neg (by decide), if_neg (by decide), if_pos rfl]

theorem scan_closing (offset : Nat) (rest : List Char) :
    scan offset (')' :: rest) = (offset, .closing) :: scan (offset + 1) rest := by
  rw [scan, if_neg (by decide), if_neg (by decide), if_neg (by decide), if_pos rfl]

theorem SpellsText.scan (h : SpellsText s cs) (offset : Nat) (rest : List Char) :
    scan offset ('"' :: (cs ++ '"' :: rest)) =
      (offset, .text (String.ofList s)) :: scan (offset + (cs.length + 2)) rest := by
  obtain ⟨shorter, read⟩ := h.quoted rest
  have consumed : 1 + ((cs ++ '"' :: rest).length - rest.length) = cs.length + 2 := by
    simp only [List.length_append, List.length_cons]
    omega
  rw [Surface.scan, if_neg (by decide), if_neg (by decide), if_neg (by decide),
    if_neg (by decide), if_pos rfl]
  simp only [read]
  rw [Nat.add_assoc, consumed]

theorem IsWord.scan (h : IsWord w) (ends : EndsWord rest) (offset : Nat) :
    scan offset (w ++ rest) =
      (offset, .word (String.ofList w)) :: scan (offset + w.length) rest := by
  obtain ⟨some, chars⟩ := h
  cases w with
  | nil => exact absurd rfl some
  | cons c w =>
    obtain ⟨blank, opening, closing, quote, comment⟩ := isWordChar_iff.1 (chars c (.head _))
    have inside : ∀ d ∈ w, isWordChar d = true := fun d mem => chars d (.tail _ mem)
    have stop : rest.takeWhile isWordChar = [] ∧ rest.dropWhile isWordChar = rest := by
      cases rest with
      | nil => exact ⟨rfl, rfl⟩
      | cons d rest =>
        have other := Bool.eq_false_iff.1 (ends d rfl)
        exact ⟨List.takeWhile_cons_of_neg other, List.dropWhile_cons_of_neg other⟩
    rw [List.cons_append, Surface.scan, if_neg (Bool.eq_false_iff.1 blank), if_neg comment,
      if_neg opening, if_neg closing, if_neg quote]
    simp only [List.takeWhile_append_of_pos inside, List.dropWhile_append_of_pos inside, stop,
      List.append_nil]

theorem EndsWord.append (h : EndsWord cs) (ends : EndsWord rest) : EndsWord (cs ++ rest) := by
  cases cs with
  | nil => exact ends
  | cons c cs => exact h

theorem endsWord_closing (rest : List Char) : EndsWord (')' :: rest) := by
  rintro c ⟨⟩
  rfl

/-- What is laid out inside an open list joins the items of that list, and the list is closed. -/
theorem Lays.read (h : Lays items cs) (open_ : List Sexp) (stack : List (List Sexp)) (offset : Nat)
    (after : List Char) :
    Sexp.read (open_ :: stack) (scan offset (cs ++ ')' :: after)) =
      (Sexp.list (open_.reverse ++ items)).place stack (scan (offset + (cs.length + 1)) after)
        fun s => Sexp.read s (scan (offset + (cs.length + 1)) after) := by
  induction h generalizing open_ stack offset after with
  | nil trivia =>
    rw [trivia.scan, scan_closing, Sexp.read, List.append_nil, Nat.add_assoc]
  | @word ts w cs items trivia word ends _ ih =>
    have ends' := ends.append (endsWord_closing after)
    have length : offset + ((ts ++ (w ++ cs)).length + 1) =
        offset + ts.length + w.length + (cs.length + 1) := by
      simp only [List.length_append]
      omega
    rw [length, List.append_assoc, trivia.scan, List.append_assoc, word.scan ends', Sexp.read]
    show Sexp.read ((_ :: open_) :: stack) _ = _
    rw [ih, List.reverse_cons, List.append_assoc, List.singleton_append]
  | @text ts s cs ds items trivia spelled _ ih =>
    have length : offset + ((ts ++ '"' :: (cs ++ '"' :: ds)).length + 1) =
        offset + ts.length + (cs.length + 2) + (ds.length + 1) := by
      simp only [List.length_append, List.length_cons]
      omega
    rw [length, List.append_assoc, trivia.scan, List.cons_append, List.append_assoc,
      List.cons_append, spelled.scan, Sexp.read]
    show Sexp.read ((_ :: open_) :: stack) _ = _
    rw [ih, List.reverse_cons, List.append_assoc, List.singleton_append]
  | @list ts cs ds inner items trivia _ _ inside ih =>
    have length : offset + ((ts ++ '(' :: (cs ++ ')' :: ds)).length + 1) =
        offset + ts.length + 1 + (cs.length + 1) + (ds.length + 1) := by
      simp only [List.length_append, List.length_cons]
      omega
    rw [length, List.append_assoc, trivia.scan, List.cons_append, List.append_assoc,
      List.cons_append, scan_opening, Sexp.read, inside]
    show Sexp.read ((_ :: open_) :: stack) _ = _
    rw [ih, List.reverse_cons, List.append_assoc, List.singleton_append, List.reverse_nil,
      List.nil_append]

theorem Lays.trivia (h : Lays [] cs) : Trivia cs := by
  cases h with
  | nil trivia => exact trivia

theorem Trivia.scan_eq_nil (h : Trivia ts) (offset : Nat) : Surface.scan offset ts = [] := by
  have all := h.scan offset []
  rwa [List.append_nil, Surface.scan] at all

/-- A layout of one S-expression is read as it. -/
theorem Lays.ofString (h : Lays [e] cs) : Sexp.ofString (String.ofList cs) = .ok e := by
  rw [Sexp.ofString, String.toList_ofList]
  cases h with
  | word trivia word ends rest =>
    rw [trivia.scan, word.scan ends, rest.trivia.scan_eq_nil, Sexp.read]
    rfl
  | text trivia spelled rest =>
    rw [trivia.scan, spelled.scan, rest.trivia.scan_eq_nil, Sexp.read]
    rfl
  | list trivia inside rest =>
    rw [trivia.scan, scan_opening, Sexp.read, inside.read, rest.trivia.scan_eq_nil,
      List.reverse_nil, List.nil_append]
    rfl

end GeneCalculus.Surface
