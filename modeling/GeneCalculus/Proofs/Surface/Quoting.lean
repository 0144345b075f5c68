import GeneCalculus.Proofs.Text.Numeral
import GeneCalculus.Surface.Token
import GeneCalculus.Text.Quoted

/-!
Quoted texts. A character may be written as itself or as an escape, and whichever way each character
of a text is written, the text is read back. What quoting writes is one of these ways.
-/

namespace GeneCalculus.Surface

open Text.Quoted (escape quote)

/-- A way to write a character between quotes. -/
inductive Spells : Char → List Char → Prop
  | plain {c : Char} : c ≠ '"' → c ≠ '\\' → Spells c [c]
  | simple {e c : Char} : simpleEscape? e = some c → Spells c ['\\', e]
  | codePoint {digits : List Char} {c : Char} : codePoint? digits = some c → '\x7d' ∉ digits →
      Spells c ('\\' :: 'u' :: '\x7b' :: (digits ++ ['\x7d']))

/-- A way to write a text between quotes, character by character. -/
inductive SpellsText : List Char → List Char → Prop
  | nil : SpellsText [] []
  | cons {c : Char} {s cs ds : List Char} : Spells c cs → SpellsText s ds →
      SpellsText (c :: s) (cs ++ ds)

variable {c : Char} {s cs : List Char}

theorem Spells.character (h : Spells c cs) (rest : List Char) :
    ∃ shorter, character (cs ++ rest) = .ok (c, ⟨rest, shorter⟩) := by
  cases h with
  | plain _ escape =>
    refine ⟨Nat.lt_succ_self _, ?_⟩
    show Surface.character (c :: rest) = _
    rw [Surface.character]
    · rfl
    all_goals intros; contradiction
  | @simple e c known =>
    refine ⟨Nat.lt_succ_of_lt (Nat.lt_succ_self _), ?_⟩
    show Surface.character ('\\' :: e :: rest) = _
    have letter : e ≠ 'u' := by
      rintro rfl
      cases known
    rw [Surface.character, known]
    · rfl
    all_goals intros; contradiction
  | @codePoint digits c known closed =>
    have before : ∀ d ∈ digits, (d != '\x7d') = true := fun d mem =>
      bne_iff_ne.2 fun brace => closed (brace ▸ mem)
    have front : (digits ++ '\x7d' :: rest).takeWhile (· != '\x7d') = digits := by
      rw [List.takeWhile_append_of_pos before]
      exact List.append_nil _
    have behind : (digits ++ '\x7d' :: rest).dropWhile (· != '\x7d') = '\x7d' :: rest := by
      rw [List.dropWhile_append_of_pos before]
      rfl
    have whole : '\\' :: 'u' :: '\x7b' :: (digits ++ ['\x7d']) ++ rest =
        '\\' :: 'u' :: '\x7b' :: (digits ++ '\x7d' :: rest) := by
      simp only [List.cons_append, List.append_assoc, List.nil_append]
    rw [whole, Surface.character, front, known]
    simp only [behind, List.drop_succ_cons, List.drop_zero, List.length_cons, List.length_append]
    exact ⟨by omega, trivial⟩

theorem Spells.not_quote (h : Spells c cs) (rest after : List Char) :
    cs ++ rest ≠ '"' :: after := by
  cases h with
  | plain quote _ =>
    intro same
    exact quote (List.cons.inj same).1
  | simple | codePoint =>
    intro same
    cases (List.cons.inj same).1

/-- A text that is written in one of the ways is read, up to the closing quote. -/
theorem SpellsText.quoted (h : SpellsText s cs) (rest : List Char) :
    ∃ shorter, quoted (cs ++ '"' :: rest) = .ok (s, ⟨rest, shorter⟩) := by
  induction h with
  | nil =>
    rw [List.nil_append, Surface.quoted]
    exact ⟨_, rfl⟩
  | @cons c s cs ds first _ ih =>
    obtain ⟨shorter, read⟩ := ih
    obtain ⟨front, one⟩ := first.character (ds ++ '"' :: rest)
    rw [List.append_assoc, Surface.quoted, one]
    · simp only [read]
      exact ⟨Nat.lt_trans shorter front, trivial⟩
    · exact fun after => first.not_quote _ after

theorem codePoint?_ofNat (c : Char) : codePoint? (Text.Hex.ofNat c.toNat) = some c := by
  have fits : c.toNat < UInt32.size := c.val.toNat_lt
  have word : UInt32.ofNat c.toNat = c.val := UInt32.ofNat_toNat
  rw [codePoint?, Text.Hex.ofNat, Text.Numeral.uint32?_toDigits (by decide) (by decide) fits,
    Option.bind_some, word, if_pos c.valid]
  exact congrArg some c.ofNat_toNat

theorem spells_escape (c : Char) : Spells c (escape c) := by
  unfold escape
  split
  · exact .simple rfl
  · exact .simple rfl
  · exact .simple rfl
  · exact .simple rfl
  · exact .simple rfl
  · exact .simple rfl
  · rename_i quote backslash _ _ _ _
    split
    · refine .codePoint (codePoint?_ofNat c) fun brace => ?_
      have digit := Text.Numeral.isSome_value?_of_mem_toDigits (by decide) (by decide) brace
      cases digit
    · exact .plain quote backslash

theorem spellsText_escape (s : List Char) : SpellsText s (s.flatMap escape) := by
  induction s with
  | nil => exact .nil
  | cons c s ih => exact .cons (spells_escape c) ih

end GeneCalculus.Surface
