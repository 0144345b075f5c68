import Mathlib.Data.List.TakeWhile
import GeneCalculus.Proofs.Surface.Layout
import GeneCalculus.Proofs.Surface.Renaming

/-!
What the reader accepts. An S-expression is a sequence of tokens, and a text holds it exactly if the
text is a layout of these tokens: blanks and comments anywhere between them, something between words
that follow each other, and each character of a quoted text in any of its ways. So the reader takes
every layout, and nothing else.
-/

namespace GeneCalculus.Surface

mutual

/-- The tokens that an S-expression is written with. -/
def Sexp.tokens : Sexp → List Token
  | .word w => [.word w]
  | .text s => [.text s]
  | .list items => .opening :: (Sexp.tokensAll items ++ [.closing])

/-- The tokens of several S-expressions, one after the other. -/
def Sexp.tokensAll : List Sexp → List Token
  | [] => []
  | item :: items => item.tokens ++ Sexp.tokensAll items

end

/-- Blanks and comments at the end of a text, where the last comment need not be closed. -/
inductive Closing : List Char → Prop
  | trivia {cs : List Char} : Trivia cs → Closing cs
  | comment {ts line : List Char} : Trivia ts → '\n' ∉ line → Closing (ts ++ ';' :: line)

/-- A blank or a comment stands between a word and a word after it. -/
def Apart (tokens : List Token) (cs : List Char) : Prop :=
  ∀ v more, tokens = .word v :: more → ∃ c rest, cs = c :: rest ∧ (Text.isBlank c = true ∨ c = ';')

/-- The characters lay out the tokens. -/
inductive Layout : List Token → List Char → Prop
  | done {cs : List Char} : Closing cs → Layout [] cs
  | opening {tokens : List Token} {ts cs : List Char} : Trivia ts → Layout tokens cs →
      Layout (.opening :: tokens) (ts ++ '(' :: cs)
  | closing {tokens : List Token} {ts cs : List Char} : Trivia ts → Layout tokens cs →
      Layout (.closing :: tokens) (ts ++ ')' :: cs)
  | word {tokens : List Token} {ts w cs : List Char} : Trivia ts → IsWord w → Apart tokens cs →
      Layout tokens cs → Layout (.word (String.ofList w) :: tokens) (ts ++ (w ++ cs))
  | text {tokens : List Token} {ts s cs ds : List Char} : Trivia ts → SpellsText s cs →
      Layout tokens ds → Layout (.text (String.ofList s) :: tokens) (ts ++ '"' :: (cs ++ '"' :: ds))

variable {c : Char} {ts cs ds rest : List Char} {tokens : List Token} {e : Sexp}
  {toks : List (Nat × Token)} {stack : List (List Sexp)}

theorem Trivia.head (h : Trivia (c :: cs)) : Text.isBlank c = true ∨ c = ';' := by
  cases h with
  | blank blank => exact .inl blank
  | comment => exact .inr rfl

theorem not_isWordChar_of_gap (gap : Text.isBlank c = true ∨ c = ';') : isWordChar c = false := by
  rcases gap with blank | rfl
  · rw [isWordChar, blank]
    rfl
  · rfl

theorem Trivia.endsWord (h : Trivia ts) (ends : EndsWord cs) : EndsWord (ts ++ cs) := by
  cases ts with
  | nil => exact ends
  | cons c ts =>
    rintro d ⟨⟩
    exact not_isWordChar_of_gap h.head

/-- A word ends where the layout of what follows it begins. -/
theorem Layout.endsWord (h : Layout tokens cs) (apart : Apart tokens cs) : EndsWord cs := by
  cases h with
  | done closing =>
    cases closing with
    | trivia trivia => exact List.append_nil cs ▸ trivia.endsWord nofun
    | comment trivia _ =>
      refine trivia.endsWord ?_
      rintro d ⟨⟩
      rfl
  | opening trivia _ | closing trivia _ | text trivia _ _ =>
    refine trivia.endsWord ?_
    rintro d ⟨⟩
    rfl
  | word =>
    obtain ⟨c, rest, eq, gap⟩ := apart _ _ rfl
    rw [eq]
    rintro d ⟨⟩
    exact not_isWordChar_of_gap gap

theorem scan_comment {line : List Char} (open_ : '\n' ∉ line) (offset : Nat) :
    scan offset (';' :: line) = [] := by
  have before : ∀ d ∈ line, (d != '\n') = true := fun d mem =>
    bne_iff_ne.2 fun newline => open_ (newline ▸ mem)
  have behind : line.dropWhile (· != '\n') = [] := List.dropWhile_eq_nil_iff.2 before
  rw [scan, if_neg (by decide), if_pos rfl]
  simp only [behind, List.drop_nil]
  rw [scan]

/-- A layout is scanned into its tokens. -/
theorem Layout.scan (h : Layout tokens cs) (offset : Nat) :
    (scan offset cs).map Prod.snd = tokens := by
  induction h generalizing offset with
  | done closing =>
    cases closing with
    | trivia trivia => rw [trivia.scan_eq_nil, List.map_nil]
    | comment trivia open_ => rw [trivia.scan, scan_comment open_, List.map_nil]
  | opening trivia _ ih => rw [trivia.scan, scan_opening, List.map_cons, ih]
  | closing trivia _ ih => rw [trivia.scan, scan_closing, List.map_cons, ih]
  | word trivia word apart rest ih =>
    rw [trivia.scan, word.scan (rest.endsWord apart), List.map_cons, ih]
  | text trivia spelled _ ih => rw [trivia.scan, spelled.scan, List.map_cons, ih]

/-- A list is cut in front of the first `d`, or it has none. -/
theorem takeWhile_bne_cases (d : Char) (cs : List Char) :
    d ∉ cs.takeWhile (· != d) ∧ (cs.dropWhile (· != d) = [] ∧ cs.takeWhile (· != d) = cs ∨
      ∃ rest, cs.dropWhile (· != d) = d :: rest ∧ cs = cs.takeWhile (· != d) ++ d :: rest) := by
  have whole : cs.takeWhile (· != d) ++ cs.dropWhile (· != d) = cs :=
    List.takeWhile_append_dropWhile
  refine ⟨fun mem => absurd (List.mem_takeWhile_imp mem) (by simp), ?_⟩
  cases eq : cs.dropWhile (· != d) with
  | nil => exact .inl ⟨rfl, by rwa [eq, List.append_nil] at whole⟩
  | cons e rest =>
    have stop := List.head?_dropWhile_not (· != d) cs
    rw [eq] at stop
    have same : e = d := by simpa using stop
    subst same
    exact .inr ⟨rest, rfl, by rw [← eq, whole]⟩

/-- A character that is read was written in one of its ways, if the text goes on behind it. -/
theorem spells_of_character {after : { rest : List Char // rest.length < cs.length }}
    (noQuote : ∀ rest, cs ≠ '"' :: rest) (read : character cs = .ok (c, after))
    (more : after.1 ≠ []) : ∃ front, cs = front ++ after.1 ∧ Spells c front := by
  fun_cases character cs with
  | case1 | case2 =>
    rw [character] at read
    cases read
  | case3 rest digits d known =>
    rw [character, known] at read
    cases read
    obtain ⟨open_, none | ⟨behind, rest', whole⟩⟩ := takeWhile_bne_cases '\x7d' rest
    · exact absurd (congrArg (List.drop 1) none.1) more
    · refine ⟨_, ?_, .codePoint known open_⟩
      dsimp only
      rw [rest', List.cons_append, List.cons_append, List.cons_append, List.append_assoc]
      exact congrArg ('\\' :: 'u' :: '\x7b' :: ·) whole
  | case4 rest digits unknown =>
    rw [character, unknown] at read
    cases read
  | case5 rest noBrace =>
    rw [character] at read
    · cases read
    · exact noBrace
  | case6 e rest brace letter d known =>
    rw [character, known] at read
    · cases read
      exact ⟨['\\', e], rfl, .simple known⟩
    · exact brace
    · exact letter
  | case7 e rest brace letter unknown =>
    rw [character, unknown] at read
    · cases read
    · exact brace
    · exact letter
  | case8 d rest alone _ _ escaped =>
    rw [character] at read
    · cases read
      refine ⟨[c], rfl, .plain ?_ ?_⟩
      · rintro rfl
        exact noQuote _ rfl
      · rintro rfl
        cases rest with
        | nil => exact more rfl
        | cons e rest => exact escaped _ _ rfl rfl
    all_goals assumption

/-- A quoted text that is read was written in one of its ways. -/
theorem spellsText_of_quoted {after : { rest : List Char // rest.length < cs.length }}
    (read : quoted cs = .ok (s, after)) :
    ∃ front, cs = front ++ '"' :: after.1 ∧ SpellsText s front := by
  fun_induction quoted cs generalizing s with
  | case1 rest =>
    cases read
    exact ⟨[], rfl, .nil⟩
  | case2 | case3 => cases read
  | case4 cs noQuote c rest shorter first text after h read' ih =>
    cases read
    obtain ⟨back, whole, spelled⟩ := ih read'
    have more : rest ≠ [] := by simp [whole]
    obtain ⟨front, whole', spells⟩ := spells_of_character noQuote first more
    refine ⟨front ++ back, ?_, .cons spells spelled⟩
    calc
      cs = front ++ rest := whole'
      _ = front ++ (back ++ '"' :: after) := congrArg (front ++ ·) whole
      _ = front ++ back ++ '"' :: after := (List.append_assoc ..).symm

theorem Layout.gap (h : Layout tokens cs) (trivia : Trivia ts) : Layout tokens (ts ++ cs) := by
  cases h with
  | done closing =>
    cases closing with
    | trivia trivia' => exact .done (.trivia (trivia.append trivia'))
    | comment trivia' open_ =>
      rw [← List.append_assoc]
      exact .done (.comment (trivia.append trivia') open_)
  | opening trivia' rest =>
    rw [← List.append_assoc]
    exact .opening (trivia.append trivia') rest
  | closing trivia' rest =>
    rw [← List.append_assoc]
    exact .closing (trivia.append trivia') rest
  | word trivia' word apart rest =>
    rw [← List.append_assoc]
    exact .word (trivia.append trivia') word apart rest
  | text trivia' spelled rest =>
    rw [← List.append_assoc]
    exact .text (trivia.append trivia') spelled rest

/-- Behind a word that has ended, another word stands apart. -/
theorem Layout.apart (h : Layout tokens cs) (ends : EndsWord cs) : Apart tokens cs := by
  rintro v more rfl
  cases h with
  | @word _ ts w cs trivia word _ _ =>
    cases ts with
    | nil =>
      obtain ⟨c, w, rfl⟩ := List.exists_cons_of_ne_nil word.1
      have inside := word.2 c (.head _)
      rw [ends c rfl] at inside
      cases inside
    | cons c ts => exact ⟨c, _, rfl, trivia.head⟩

/-- A text is a layout of the tokens that it is scanned into, if none of them is broken. -/
theorem layout_of_scan {offset : Nat}
    (sound : ∀ fault, .broken fault ∉ (Surface.scan offset cs).map Prod.snd) :
    Layout ((Surface.scan offset cs).map Prod.snd) cs := by
  fun_induction Surface.scan offset cs with
  | case1 => exact .done (.trivia .nil)
  | case2 offset c rest blank ih => exact (ih sound).gap (.blank blank .nil)
  | case3 offset rest line _ ih =>
    obtain ⟨open_, ⟨none, whole⟩ | ⟨rest', behind, whole⟩⟩ := takeWhile_bne_cases '\n' rest
    · rw [none, List.drop_nil, Trivia.nil.scan_eq_nil]
      exact .done (.comment .nil (whole ▸ open_))
    · rw [behind] at sound ih ⊢
      have comment : Trivia (';' :: (line ++ ['\n'])) := .comment open_ .nil
      have laid := (ih sound).gap comment
      rw [List.cons_append, List.append_assoc, List.singleton_append] at laid
      rw [whole]
      exact laid
  | case4 offset rest _ _ ih =>
    exact .opening .nil (ih fun fault mem => sound fault (.tail _ mem))
  | case5 offset rest _ _ _ ih =>
    exact .closing .nil (ih fun fault mem => sound fault (.tail _ mem))
  | case6 => exact absurd (.head _) (sound _)
  | case7 offset rest text after _ read _ _ _ _ ih =>
    obtain ⟨front, whole, spelled⟩ := spellsText_of_quoted read
    have laid := ih fun fault mem => sound fault (.tail _ mem)
    generalize Surface.scan (offset + 1 + (rest.length - after.length)) after = toks at laid ⊢
    rw [whole]
    exact .text .nil spelled laid
  | case8 offset c rest blank comment opening closing quote word ih =>
    have laid := ih fun fault mem => sound fault (.tail _ mem)
    have whole : c :: rest = word ++ rest.dropWhile isWordChar :=
      congrArg (c :: ·) List.takeWhile_append_dropWhile.symm
    have chars : ∀ d ∈ word, isWordChar d = true := by
      intro d mem
      rcases List.mem_cons.1 mem with rfl | mem
      · exact isWordChar_iff.2 ⟨Bool.eq_false_iff.2 blank, opening, closing, quote, comment⟩
      · exact List.mem_takeWhile_imp mem
    have ends : EndsWord (rest.dropWhile isWordChar) := by
      intro d first
      have stop := List.head?_dropWhile_not isWordChar rest
      rw [first] at stop
      exact stop
    rw [whole]
    exact .word .nil ⟨List.cons_ne_nil _ _, chars⟩ (laid.apart ends) laid

/-- The tokens of S-expressions that lists are still open around, from the outermost on. -/
def openTokens : List (List Sexp) → List Token
  | [] => []
  | items :: outer => openTokens outer ++ .opening :: Sexp.tokensAll items.reverse

theorem tokensAll_append (items more : List Sexp) :
    Sexp.tokensAll (items ++ more) = Sexp.tokensAll items ++ Sexp.tokensAll more := by
  induction items with
  | nil => rfl
  | cons item items ih =>
    rw [List.cons_append, Sexp.tokensAll, Sexp.tokensAll, ih, List.append_assoc]

/-- Inside an open list S-expressions are read in turn if each of them is. -/
theorem read_tokensAll {items : List Sexp}
    (each : ∀ item ∈ items, ∀ (stack : List (List Sexp)) (front rest : List (Nat × Token)),
      front.map Prod.snd = item.tokens →
        Sexp.read stack (front ++ rest) = item.place stack rest fun s => Sexp.read s rest)
    (open_ : List Sexp) (stack : List (List Sexp)) {front : List (Nat × Token)}
    (rest : List (Nat × Token)) (tokens : front.map Prod.snd = Sexp.tokensAll items) :
    Sexp.read (open_ :: stack) (front ++ rest) =
      Sexp.read ((items.reverse ++ open_) :: stack) rest := by
  induction items generalizing open_ front with
  | nil =>
    cases List.map_eq_nil_iff.1 tokens
    rfl
  | cons item items ih =>
    obtain ⟨first, more, rfl, here, behind⟩ := List.map_eq_append_iff.1 tokens
    rw [List.append_assoc, each item (.head _) _ _ _ here]
    show Sexp.read ((item :: open_) :: stack) (more ++ rest) = _
    rw [ih (fun item mem => each item (.tail _ mem)) _ behind, List.reverse_cons, List.append_assoc,
      List.singleton_append]

/-- The tokens of an S-expression are read as it, wherever they stand. -/
theorem read_tokens (e : Sexp) : ∀ (stack : List (List Sexp)) (front rest : List (Nat × Token)),
    front.map Prod.snd = e.tokens →
      Sexp.read stack (front ++ rest) = e.place stack rest fun s => Sexp.read s rest := by
  induction e using Sexp.member_induction with
  | word w =>
    intro stack front rest tokens
    obtain ⟨⟨offset, _⟩, rfl, rfl⟩ := List.map_eq_singleton_iff.1 tokens
    rfl
  | text s =>
    intro stack front rest tokens
    obtain ⟨⟨offset, _⟩, rfl, rfl⟩ := List.map_eq_singleton_iff.1 tokens
    rfl
  | list items ih =>
    intro stack front rest tokens
    obtain ⟨⟨offset, _⟩, front, rfl, rfl, behind⟩ := List.map_eq_cons_iff.1 tokens
    obtain ⟨inside, last, rfl, all, close⟩ := List.map_eq_append_iff.1 behind
    obtain ⟨⟨offset', _⟩, rfl, rfl⟩ := List.map_eq_singleton_iff.1 close
    rw [List.cons_append, List.append_assoc, Sexp.read, read_tokensAll ih _ _ _ all,
      List.append_nil, List.singleton_append, Sexp.read, List.reverse_reverse]

/-- A finished S-expression is the whole, or it joins the innermost open list. -/
theorem place_eq_ok {item : Sexp} {more : List (List Sexp) → Except SyntaxError Sexp}
    (read : item.place stack toks more = .ok e) :
    stack = [] ∧ toks = [] ∧ item = e ∨
      ∃ items outer, stack = items :: outer ∧ more ((item :: items) :: outer) = .ok e := by
  unfold Sexp.place at read
  split at read
  · exact .inr ⟨_, _, rfl, read⟩
  · cases read
    exact .inl ⟨rfl, rfl, rfl⟩
  · cases read

theorem openTokens_join (item : Sexp) (items : List Sexp) (outer : List (List Sexp)) :
    openTokens ((item :: items) :: outer) = openTokens (items :: outer) ++ item.tokens := by
  rw [openTokens, openTokens, List.reverse_cons, tokensAll_append, Sexp.tokensAll, Sexp.tokensAll,
    List.append_nil, List.append_assoc, List.cons_append]

/-- What is read has the tokens that were read. -/
theorem tokens_of_read (read : Sexp.read stack toks = .ok e) :
    openTokens stack ++ toks.map Prod.snd = e.tokens := by
  induction toks generalizing stack with
  | nil =>
    rw [Sexp.read] at read
    split at read <;> cases read
  | cons t rest ih =>
    obtain ⟨offset, token⟩ := t
    have joined (item : Sexp) (stack : List (List Sexp))
        (read : (item.place stack rest fun s => Sexp.read s rest) = .ok e) :
        openTokens stack ++ (item.tokens ++ rest.map Prod.snd) = e.tokens := by
      rcases place_eq_ok read with ⟨rfl, rfl, rfl⟩ | ⟨items, outer, rfl, read⟩
      · exact List.append_nil _
      · rw [← ih read, openTokens_join, List.append_assoc]
    cases token with
    | opening =>
      have inside : openTokens ([] :: stack) ++ rest.map Prod.snd = e.tokens := ih read
      rw [← inside, openTokens, List.append_assoc]
      rfl
    | closing =>
      cases stack with
      | nil => cases read
      | cons items outer =>
        rw [← joined (.list items.reverse) outer read, openTokens, Sexp.tokens, List.append_assoc,
          List.cons_append, List.cons_append, List.append_assoc]
        rfl
    | word w => exact joined (.word w) stack read
    | text s => exact joined (.text s) stack read
    | broken fault => cases read

theorem broken_not_mem_tokens (fault : TextFault) (e : Sexp) : .broken fault ∉ e.tokens := by
  induction e using Sexp.member_induction with
  | word w => exact fun mem => nomatch List.mem_singleton.1 mem
  | text s => exact fun mem => nomatch List.mem_singleton.1 mem
  | list items ih =>
    have inside : .broken fault ∉ Sexp.tokensAll items := by
      induction items with
      | nil => exact List.not_mem_nil
      | cons item items all =>
        rw [Sexp.tokensAll, List.mem_append]
        rintro (here | behind)
        · exact ih item (.head _) here
        · exact all (fun item mem => ih item (.tail _ mem)) behind
    rw [Sexp.tokens, List.mem_cons, List.mem_append, List.mem_singleton]
    rintro (same | mem | same)
    · cases same
    · exact inside mem
    · cases same

/-- A text is read as an S-expression exactly if it is scanned into its tokens. -/
theorem ofString_eq_ok_iff {source : String} :
    Sexp.ofString source = .ok e ↔ (scan 0 source.toList).map Prod.snd = e.tokens := by
  constructor
  · exact fun read => tokens_of_read read
  · intro tokens
    have read := read_tokens e [] (scan 0 source.toList) [] tokens
    rwa [List.append_nil] at read

/-- A text is scanned into the tokens of an S-expression exactly if it is a layout of them. -/
theorem scan_eq_tokens_iff {offset : Nat} :
    (scan offset cs).map Prod.snd = e.tokens ↔ Layout e.tokens cs := by
  constructor
  · intro tokens
    rw [← tokens]
    exact layout_of_scan fun fault => tokens ▸ broken_not_mem_tokens fault e
  · exact fun laid => laid.scan offset

/-- Texts that hold one S-expression are parsed alike: into one node, or with one fault. -/
theorem parse_congr {source source' : String} (read : Sexp.ofString source = .ok e)
    (read' : Sexp.ofString source' = .ok e) :
    parse source = parse source' ∧ ∀ A : Arena,
      (∃ i B C, parse source A = (.ok i, B) ∧ parse source' B = (.ok i, C)) ∨
        ∃ fault B C, parse source A = (.error fault, B) ∧ parse source' B = (.error fault, C) := by
  have same : parse source = parse source' := by
    unfold parse
    rw [read, read']
  have alike : Alike source source' := alike_of_translation? <|
    (translation?_of_ofString read).trans (translation?_of_ofString read').symm
  refine ⟨same, fun A => (alike A).imp_right ?_⟩
  rintro ⟨fault, fault', B, C, first, second⟩
  have concur := parse_inStep source A B
  rw [first, same, second] at concur
  cases concur
  exact ⟨fault, B, C, first, second⟩

/-- A text is read as an S-expression exactly if it is a layout of it. So two layouts of it are
built into one node, or they meet one fault. -/
theorem ofString_eq_ok_iff_layout :
    (∀ (source : String) (e : Sexp),
      Sexp.ofString source = .ok e ↔ Layout e.tokens source.toList) ∧
    ∀ (source source' : String) (e : Sexp),
      Layout e.tokens source.toList → Layout e.tokens source'.toList →
        parse source = parse source' ∧ ∀ A : Arena,
          (∃ i B C, parse source A = (.ok i, B) ∧ parse source' B = (.ok i, C)) ∨
            ∃ fault B C,
              parse source A = (.error fault, B) ∧ parse source' B = (.error fault, C) := by
  have whole (source : String) (e : Sexp) :
      Sexp.ofString source = .ok e ↔ Layout e.tokens source.toList :=
    ofString_eq_ok_iff.trans scan_eq_tokens_iff
  exact ⟨whole, fun source source' e laid laid' =>
    parse_congr ((whole source e).2 laid) ((whole source' e).2 laid')⟩

/-- A comment inside a list, and a letter that is written by its code point. -/
theorem ofString_eq_ok_iff_layout_escaped :
    let e : Sexp := .list [.word "f", .text "a"]
    let plain := "(f \"a\")"
    let escaped := "( ; head\nf\"\\u\x7b61\x7d\" ) ; end"
    Layout e.tokens plain.toList ∧ Layout e.tokens escaped.toList ∧
      ∀ A : Arena, ∃ i B C, parse plain A = (.ok i, B) ∧ parse escaped B = (.ok i, C) := by
  intro e plain escaped
  have tokens : e.tokens =
      [.opening, .word (String.ofList ['f']), .text (String.ofList ['a']), .closing] := rfl
  have apart (cs : List Char) : Apart [.text (String.ofList ['a']), .closing] cs :=
    fun _ _ same => nomatch same
  have laid : Layout e.tokens plain.toList := by
    have spelled : plain = String.ofList ['(', 'f', ' ', '"', 'a', '"', ')'] := rfl
    rw [tokens, spelled, String.toList_ofList]
    exact .opening .nil (.word .nil (by decide : IsWord ['f']) (apart _)
      (.text (.blank rfl .nil) (.cons (.plain (by decide) (by decide)) .nil)
        (.closing .nil (.done (.trivia .nil)))))
  have laid' : Layout e.tokens escaped.toList := by
    have spelled : escaped = String.ofList ['(', ' ', ';', ' ', 'h', 'e', 'a', 'd', '\n', 'f', '"',
      '\\', 'u', '\x7b', '6', '1', '\x7d', '"', ' ', ')', ' ', ';', ' ', 'e', 'n', 'd'] := rfl
    have line : '\n' ∉ [' ', 'h', 'e', 'a', 'd'] := by decide
    have head : Trivia [' ', ';', ' ', 'h', 'e', 'a', 'd', '\n'] := .blank rfl (.comment line .nil)
    have letter : Spells 'a' ['\\', 'u', '\x7b', '6', '1', '\x7d'] :=
      .codePoint (rfl : codePoint? ['6', '1'] = some 'a') (by decide)
    have behind : Closing [' ', ';', ' ', 'e', 'n', 'd'] :=
      .comment (.blank rfl .nil : Trivia [' ']) (by decide)
    rw [tokens, spelled, String.toList_ofList]
    exact .opening .nil (.word head (by decide : IsWord ['f']) (apart _)
      (.text .nil (.cons letter .nil) (.closing (.blank rfl .nil) (.done behind))))
  refine ⟨laid, laid', fun A => ?_⟩
  have told : translation? plain = some (.app (.atom (.prim "f")) (.const (.str "a"))) := by
    rw [translation?_of_ofString ((ofString_eq_ok_iff_layout.1 plain e).2 laid)]
    rfl
  obtain ⟨i, B, built, -⟩ := parse_of_translation? told A
  rcases (ofString_eq_ok_iff_layout.2 plain escaped e laid laid').2 A with
    both | ⟨_, _, _, fails, _⟩
  · exact both
  · rw [built] at fails
    cases fails

end GeneCalculus.Surface
