import GeneCalculus.Proofs.Surface.RoundTrip

/-!
What can be read can be printed. The words that a reader finds are words again when they are
written, so all primitives of an expression that was read have names of the host.
-/

namespace GeneCalculus

namespace Surface

variable {cs : List Char} {offset place : Nat} {w : String} {e : Sexp} {n : Named} {t : Term}
  {scope : List String}

theorem isWord_of_mem_scan (mem : (place, Token.word w) ∈ scan offset cs) : IsWord w.toList := by
  fun_induction scan offset cs with
  | case1 => cases mem
  | case2 offset c rest blank ih => exact ih mem
  | case3 offset rest blank line ih => exact ih mem
  | case4 offset rest blank other ih => exact ih ((List.mem_cons.1 mem).resolve_left nofun)
  | case5 offset rest blank other opening ih =>
    exact ih ((List.mem_cons.1 mem).resolve_left nofun)
  | case6 =>
    cases List.mem_singleton.1 mem
  | case7 =>
    rename_i ih
    exact ih ((List.mem_cons.1 mem).resolve_left nofun)
  | case8 offset c rest blank comment opening closing quote word ih =>
    rcases List.mem_cons.1 mem with same | mem
    · cases same
      rw [String.toList_ofList]
      refine ⟨nofun, List.forall_mem_cons.2 ⟨?_, fun d inside => ?_⟩⟩
      · exact isWordChar_iff.2 ⟨Bool.eq_false_iff.2 blank, opening, closing, quote, comment⟩
      · exact List.all_eq_true.1 List.all_takeWhile d inside
    · exact ih mem

/-- All that stands in open lists is spelled. -/
def SpelledStack (stack : List (List Sexp)) : Prop :=
  ∀ items ∈ stack, ∀ item ∈ items, item.Spelled

theorem spelled_of_place {item : Sexp} {stack : List (List Sexp)} {rest : List (Nat × Token)}
    {more : List (List Sexp) → Except SyntaxError Sexp} (spelled : item.Spelled)
    (opened : SpelledStack stack)
    (later : ∀ stack, SpelledStack stack → more stack = .ok e → e.Spelled)
    (read : item.place stack rest more = .ok e) : e.Spelled := by
  cases stack with
  | nil =>
    cases rest with
    | nil =>
      cases read
      exact spelled
    | cons => cases read
  | cons items outer =>
    obtain ⟨inner, outer⟩ := List.forall_mem_cons.1 opened
    exact later _ (List.forall_mem_cons.2 ⟨List.forall_mem_cons.2 ⟨spelled, inner⟩, outer⟩) read

/-- What is read is spelled, if what is open is and all words to come are words. -/
theorem spelled_of_read {tokens : List (Nat × Token)} {stack : List (List Sexp)}
    (words : ∀ place w, (place, Token.word w) ∈ tokens → IsWord w.toList)
    (opened : SpelledStack stack) (read : Sexp.read stack tokens = .ok e) : e.Spelled := by
  induction tokens generalizing stack with
  | nil => cases read
  | cons token rest ih =>
    have later (stack : List (List Sexp)) (opened : SpelledStack stack)
        (read : Sexp.read stack rest = .ok e) : e.Spelled :=
      ih (fun place w mem => words place w (.tail _ mem)) opened read
    obtain ⟨place, token⟩ := token
    cases token with
    | opening => exact later _ (List.forall_mem_cons.2 ⟨by simp, opened⟩) read
    | closing =>
      cases stack with
      | nil => cases read
      | cons items outer =>
        obtain ⟨inner, outer⟩ := List.forall_mem_cons.1 opened
        refine spelled_of_place (.list fun item mem => ?_) outer later read
        exact inner item (List.mem_reverse.1 mem)
    | word w =>
      exact spelled_of_place (.word (words place w (.head _))) opened later read
    | text s => exact spelled_of_place (.text s) opened later read
    | broken fault => cases read

theorem spelled_of_ofString {source : String} (read : Sexp.ofString source = .ok e) : e.Spelled :=
  spelled_of_read (fun _ _ => isWord_of_mem_scan) (by simp [SpelledStack]) read

/-- All words of the expression are such that a reader finds them. -/
inductive Named.Spelled : Named → Prop
  | word {w : String} : IsWord w.toList → Spelled (.word w)
  | text (s : String) : Spelled (.text s)
  | lam (x : String) {body : Named} : Spelled body → Spelled (.lam x body)
  | node (form : Form) {parts : List Named} : (∀ e ∈ parts, Spelled e) → Spelled (.node form parts)

theorem Named.Spelled.app {f x : Named} (first : f.Spelled) (second : x.Spelled) :
    (Named.app f x).Spelled :=
  .node _ (by simp [first, second])

theorem spelled_foldl_app {args : List Named} {f : Named} (first : f.Spelled)
    (others : ∀ e ∈ args, e.Spelled) : (args.foldl .app f).Spelled := by
  induction args generalizing f with
  | nil => exact first
  | cons x args ih =>
    obtain ⟨second, others⟩ := List.forall_mem_cons.1 others
    exact ih (first.app second) others

theorem spelled_spine {es : List Named} (spelled : ∀ e ∈ es, e.Spelled)
    (spine : Named.spine? es = some n) : n.Spelled := by
  match es with
  | [] => cases spine
  | [_] => cases spine
  | f :: x :: more =>
    cases spine
    obtain ⟨first, others⟩ := List.forall_mem_cons.1 spelled
    exact spelled_foldl_app first others

theorem spelled_foldr_lam (names : List String) (body : n.Spelled) :
    (names.foldr .lam n).Spelled := by
  induction names with
  | nil => exact body
  | cons x names ih => exact .lam x ih

theorem spelled_namedAll {items : List Sexp} {es : List Named}
    (each : ∀ item ∈ items, ∀ n, item.named? = some n → n.Spelled)
    (all : Sexp.namedAll? items = some es) : ∀ e ∈ es, e.Spelled := by
  induction items generalizing es with
  | nil =>
    cases all
    simp
  | cons item items ih =>
    rw [Sexp.namedAll?] at all
    obtain ⟨n, named, rest⟩ := Option.bind_eq_some_iff.1 all
    obtain ⟨ns, others, rfl⟩ := Option.map_eq_some_iff.1 rest
    exact List.forall_mem_cons.2
      ⟨each item (.head _) n named, ih (fun item mem => each item (.tail _ mem)) others⟩

/-- What a form abbreviates is spelled if what its members abbreviate is. -/
theorem spelled_of_form {k : String} {args : List Sexp}
    (reserved : (Sexp.word k).isReserved ≠ false)
    (inner : ∀ item ∈ args, ∀ n, item.named? = some n → n.Spelled)
    (named : (Sexp.list (.word k :: args)).named? = some n) : n.Spelled := by
  unfold Sexp.named? at named
  split at named
  · split at named
    · rename_i binders body
      obtain ⟨names, -, named⟩ := Option.bind_eq_some_iff.1 named
      obtain ⟨b, first, rfl⟩ := Option.map_eq_some_iff.1 named
      exact spelled_foldr_lam names (inner body (by simp) b first)
    · cases named
  · split at named
    · obtain ⟨es, all, spine⟩ := Option.bind_eq_some_iff.1 named
      exact spelled_spine (spelled_namedAll inner all) spine
    · split at named
      · split at named
        · rename_i x value body
          obtain ⟨v, first, named⟩ := Option.bind_eq_some_iff.1 named
          obtain ⟨b, second, rfl⟩ := Option.map_eq_some_iff.1 named
          exact (Named.Spelled.lam x (inner body (by simp) b second)).app
            (inner value (by simp) v first)
        · cases named
      · rename_i lambda app let_
        split at named
        · rename_i form _
          obtain ⟨es, all, rfl⟩ := Option.map_eq_some_iff.1 named
          exact .node form (spelled_namedAll inner all)
        · rename_i unnamed
          exact absurd (isReserved_eq_false_iff.2 ⟨lambda, app, let_, unnamed⟩) reserved

/-- What a spelled S-expression abbreviates is spelled. -/
theorem Sexp.Spelled.named? (spelled : e.Spelled) (named : e.named? = some n) : n.Spelled := by
  induction spelled generalizing n with
  | word word =>
    cases named
    exact .word word
  | text s =>
    cases named
    exact .text s
  | @list items members each =>
    clear members
    cases items with
    | nil => cases named
    | cons head args =>
      by_cases free : head.isReserved = false
      · rw [Sexp.named?_apply free] at named
        obtain ⟨es, all, spine⟩ := Option.bind_eq_some_iff.1 named
        exact spelled_spine (spelled_namedAll (fun item mem n => @each item mem n) all) spine
      · cases head with
        | word k =>
          exact spelled_of_form free (fun item mem n => @each item (.tail _ mem) n) named
        | text | list => exact absurd rfl free

theorem hosted_ofLeaf {depth : Nat} {m : Node NodeId} (word : IsWord w.toList)
    (found : unbound depth w = .ok m) : (Term.ofLeaf m).Everywhere Term.Hosted := by
  match m with
  | .prim name =>
    obtain ⟨rfl, host⟩ := isHostName_of_unbound word found
    exact host
  | .var _ | .const _ | .ident => trivial
  | .lam _ | .neg _ | .binary .. | .ternary .. | .focus .. => cases children_unbound found

theorem Form.of_term? {form : Form} {ts : List Term} (told : form.term? ts = some t) :
    t.children = ts ∧ t.Hosted := by
  obtain ⟨m, node, rfl⟩ := Option.map_eq_some_iff.1 told
  unfold Form.node? at node
  split at node <;> cases node <;> exact ⟨rfl, trivial⟩

theorem hosted_terms {es : List Named} {ts : List Term}
    (each : ∀ e ∈ es, ∀ t, e.term? scope = some t → t.Everywhere Term.Hosted)
    (all : Named.terms? scope es = some ts) : ∀ t ∈ ts, t.Everywhere Term.Hosted := by
  induction es generalizing ts with
  | nil =>
    cases all
    simp
  | cons e es ih =>
    rw [Named.terms?] at all
    obtain ⟨t, first, rest⟩ := Option.bind_eq_some_iff.1 all
    obtain ⟨ts, others, rfl⟩ := Option.map_eq_some_iff.1 rest
    exact List.forall_mem_cons.2
      ⟨each e (.head _) t first, ih (fun e mem => each e (.tail _ mem)) others⟩

/-- The primitives of what a spelled expression is translated to have names of the host. -/
theorem Named.Spelled.hosted (spelled : n.Spelled) (told : n.term? scope = some t) :
    t.Everywhere Term.Hosted := by
  induction spelled generalizing scope t with
  | @word w word =>
    rw [Named.term?] at told
    split at told
    · cases told
      trivial
    · obtain ⟨m, found, rfl⟩ := Option.map_eq_some_iff.1 told
      exact hosted_ofLeaf word (ok_of_toOption found)
  | text s =>
    cases told
    trivial
  | lam x _ ih =>
    rw [Named.term?] at told
    obtain ⟨b, inner, rfl⟩ := Option.map_eq_some_iff.1 told
    exact ⟨trivial, ih inner⟩
  | @node form parts members ih =>
    clear members
    rw [Named.term?] at told
    obtain ⟨ts, all, told⟩ := Option.bind_eq_some_iff.1 told
    obtain ⟨rfl, root⟩ := form.of_term? told
    exact .intro root (hosted_terms (fun e mem t inner => ih e mem inner) all)

/-- The primitives of an expression that was read have names of the host. -/
theorem hosted_of_translation? {source : String} (told : translation? source = some t) :
    t.Everywhere Term.Hosted := by
  obtain ⟨e, read, told⟩ := Option.bind_eq_some_iff.1 told
  obtain ⟨n, named, told⟩ := Option.bind_eq_some_iff.1 told
  exact ((spelled_of_ofString (ok_of_toOption read)).named? named).hosted told

end Surface

namespace Arena

open Surface

variable {A B : Arena} {source : String} {i : NodeId}

/-- The printed form of an expression that was read is read again, and gives the expression exactly
if no primitive of it is called like a binder in scope. -/
theorem parse_print_of_parse (read : parse source A = (.ok i, B)) :
    ∃ j C, parse (B.print i) B = (.ok j, C) ∧ C.Holds j ((B.term i).reread 0) ∧
      (j = i ↔ (B.term i).Uncaptured 0) := by
  obtain ⟨-, t, told, held⟩ := translation?_of_parse read
  obtain ⟨j, C, again, keep, made⟩ := held.parse_printed (hosted_of_translation? told) B
  rw [held.2]
  exact ⟨j, C, again, made, (made.eq_iff (held.mono keep)).trans Term.reread_eq_self_iff⟩

theorem parse_print_of_parse_outer :
    ∃ i B, parse "(lam y (y x1))" empty = (.ok i, B) ∧
      ∃ j C, parse (B.print i) B = (.ok j, C) ∧ j = i := by
  have told : translation? "(lam y (y x1))" = some (.lam (.app (.var 0) (.atom (.prim "x1")))) := by
    cbv
  obtain ⟨i, B, read, -, held⟩ := parse_of_translation? told empty
  obtain ⟨j, C, again, -, same⟩ := parse_print_of_parse read
  refine ⟨i, B, read, j, C, again, same.2 (Term.reread_eq_self_iff.1 ?_)⟩
  rw [held.2]
  rfl

/-- A primitive that is called like a binder in scope is lost when it is printed and read. -/
theorem not_forall_parse_print :
    ¬∀ source A i B, parse source A = (.ok i, B) → ∃ C, parse (B.print i) B = (.ok i, C) := by
  intro all
  have told : translation? "(lam y x0)" = some (.lam (.atom (.prim "x0"))) := by cbv
  obtain ⟨i, B, read, -, held⟩ := parse_of_translation? told empty
  obtain ⟨C, same⟩ := all _ _ _ _ read
  obtain ⟨j, D, again, keep, made⟩ := held.parse_printed (hosted_of_translation? told) B
  cases same.symm.trans again
  have trees := (held.mono keep).unique made
  cases trees

end Arena

end GeneCalculus
