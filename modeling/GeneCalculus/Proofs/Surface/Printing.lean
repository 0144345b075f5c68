import GeneCalculus.Proofs.Sharing.Holding
import GeneCalculus.Proofs.Surface.Layout
import GeneCalculus.Surface.Print

/-!
The printed form of an expression lays out an S-expression, in which binders are called by their
depth from the outside.
-/

namespace GeneCalculus

namespace Surface

/-- What the printed form calls a binder under `depth` others. -/
def binderName (depth : Nat) : String := "x" ++ toString depth

/-- The S-expression that an atom is printed as. -/
def atomSexp : Atom → Sexp
  | .const (.str s) => .text s
  | a => .word (atomText a)

end Surface

open Surface Sexp

namespace Term

/-- Whether the tree is a primitive whose name begins a form. -/
def isReservedHead : Term → Bool
  | .atom (.prim name) => isReserved name
  | _ => false

/-- The S-expression that the tree is printed as under `depth` binders. -/
def sexp (depth : Nat) : Term → Sexp
  | .var k => .word (variableText k depth)
  | .atom a => atomSexp a
  | .lam b => .list [.word "lam", .word (binderName depth), b.sexp (depth + 1)]
  | .neg a => .list [.word Form.neg.name, a.sexp depth]
  | .binary .app f x =>
    if f.isReservedHead then .list [.word "app", f.sexp depth, x.sexp depth]
    else .list [f.sexp depth, x.sexp depth]
  | .binary form a b => .list [.word (Form.binary form).name, a.sexp depth, b.sexp depth]
  | .ternary form a b c =>
    .list [.word (Form.ternary form).name, a.sexp depth, b.sexp depth, c.sexp depth]
  | .focus a b c d =>
    .list [.word Form.focus.name, a.sexp depth, b.sexp depth, c.sexp depth, d.sexp depth]

end Term

namespace Surface.Sexp

mutual

/-- The layout with one blank between the members of a list. -/
def written : Sexp → List Char
  | .word w => w.toList
  | .text s => (Text.Quoted.quote s).toList
  | .list [] => ['(', ')']
  | .list (e :: es) => '(' :: (e.written ++ (writtenRest es ++ [')']))

/-- The members of a list behind the first. -/
def writtenRest : List Sexp → List Char
  | [] => []
  | e :: es => ' ' :: (e.written ++ writtenRest es)

end

/-- All words of the S-expression are such that a reader finds them. -/
inductive Spelled : Sexp → Prop
  | word {w : String} : IsWord w.toList → Spelled (.word w)
  | text (s : String) : Spelled (.text s)
  | list {items : List Sexp} : (∀ e ∈ items, Spelled e) → Spelled (.list items)

end Surface.Sexp

namespace Surface

open Sexp

theorem written_atomSexp (a : Atom) : (atomSexp a).written = (atomText a).toList := by
  rcases a with (_ | _ | _ | _) | _ | _ <;> rfl

theorem written_list (w : String) (es : List Sexp) :
    (list (word w :: es)).written = '(' :: (w.toList ++ (writtenRest es ++ [')'])) := rfl

variable {e : Sexp} {items : List Sexp} {ts cs rest : List Char}

theorem Lays.prepend (trivia : Trivia ts) (h : Lays items cs) : Lays items (ts ++ cs) := by
  cases h with
  | nil trivia' => exact .nil (trivia.append trivia')
  | word trivia' word ends rest =>
    rw [← List.append_assoc]
    exact .word (trivia.append trivia') word ends rest
  | text trivia' spelled rest =>
    rw [← List.append_assoc]
    exact .text (trivia.append trivia') spelled rest
  | list trivia' inside rest =>
    rw [← List.append_assoc]
    exact .list (trivia.append trivia') inside rest

theorem endsWord_writtenRest (es : List Sexp) : EndsWord (writtenRest es) := by
  cases es with
  | nil => exact nofun
  | cons e es =>
    rintro c ⟨⟩
    rfl

/-- In front of what lays out other S-expressions, the written form lays out its own. -/
theorem Sexp.Spelled.lays (spelled : e.Spelled) (h : Lays items cs) (ends : EndsWord cs) :
    Lays (e :: items) (e.written ++ cs) := by
  induction spelled generalizing items cs with
  | @word w word =>
    have laid := Lays.word .nil word ends h
    rwa [String.ofList_toList] at laid
  | text s =>
    have laid := Lays.text .nil (spellsText_escape s.toList) h
    rw [String.ofList_toList] at laid
    rw [Sexp.written, Text.Quoted.quote, String.toList_ofList, List.cons_append, List.append_assoc]
    exact laid
  | @list inner _ ih =>
    have rest (es : List Sexp) (mem : ∀ e ∈ es, e ∈ inner) : Lays es (writtenRest es) := by
      induction es with
      | nil => exact .nil .nil
      | cons e es ih' =>
        have later := ih' fun e here => mem e (.tail _ here)
        have whole := ih e (mem e (.head _)) later (endsWord_writtenRest es)
        exact whole.prepend (.blank rfl .nil)
    cases inner with
    | nil => exact .list .nil (.nil .nil) h
    | cons e es =>
      have inside := ih e (.head _) (rest es fun e here => .tail _ here) (endsWord_writtenRest es)
      have whole : (Sexp.list (e :: es)).written ++ cs =
          [] ++ '(' :: (e.written ++ writtenRest es ++ ')' :: cs) := by
        rw [Sexp.written]
        simp only [List.cons_append, List.append_assoc, List.nil_append]
      exact whole ▸ .list .nil inside h

theorem Sexp.Spelled.ofString (spelled : e.Spelled) :
    Sexp.ofString (String.ofList e.written) = .ok e := by
  have laid : Lays [e] (e.written ++ []) := spelled.lays (.nil .nil) nofun
  rw [List.append_nil] at laid
  exact laid.ofString

end Surface

namespace Arena

variable {A : Arena} {i : NodeId} {t : Term}

theorem Holds.isReservedHead (h : A.Holds i t) : A.isReservedHead i = t.isReservedHead := by
  obtain ⟨n, found, shown⟩ := h.exists_shows
  unfold Arena.isReservedHead Term.isReservedHead
  rw [found]
  cases shown with
  | atom a => cases a <;> rfl
  | _ => rfl

theorem printParts {d : Nat} {l : List NodeId} (printed : ∀ i ∈ l, ∀ out,
      (A.printOnto i d out).toList = out.toList ++ ((A.term i).sexp d).written)
    (out : String) :
    (l.foldl (fun out i => A.printOnto i d (out.push ' ')) out).toList =
      out.toList ++ writtenRest ((l.map A.term).map (Term.sexp d)) := by
  induction l generalizing out with
  | nil => simp [writtenRest]
  | cons i is ih =>
    rw [List.foldl_cons, ih fun i mem => printed i (.tail _ mem), printed i (.head _)]
    simp [writtenRest]

/-- The forms that have a word of their own are printed as it and their parts. -/
theorem Shows.sexp_form {n : Node NodeId} (shown : A.Shows n t) (var : ∀ k, n ≠ .var k)
    (atom : ∀ a, n ≠ .atom a) (lam : ∀ b, n ≠ .lam b) (app : ∀ f x, n ≠ .app f x) {d : Nat} :
    t.sexp d = .list (.word (openingWord n) :: t.children.map (Term.sexp d)) := by
  cases shown with
  | var k => exact absurd rfl (var k)
  | atom a => exact absurd rfl (atom a)
  | lam => exact absurd rfl (lam _)
  | binary form =>
    cases form with
    | app => exact absurd rfl (app _ _)
    | _ => rfl
  | _ => rfl

/-- What is printed is the S-expression of the tree. -/
theorem Holds.printOnto (h : A.Holds i t) (depth : Nat) (out : String) :
    (A.printOnto i depth out).toList = out.toList ++ (t.sexp depth).written := by
  induction i using Nat.strongRecOn generalizing t depth out with
  | ind i ih =>
    obtain ⟨n, found, shown⟩ := h.exists_shows
    unfold Arena.printOnto
    split
    · rename_i absent
      cases absent.symm.trans found
    · rename_i k found'
      cases found.symm.trans found'
      cases shown
      rw [String.toList_append]
      rfl
    · rename_i a found'
      cases found.symm.trans found'
      cases shown
      rw [String.toList_append, Term.sexp, written_atomSexp]
    · rename_i body found'
      cases found.symm.trans found'
      cases shown with
      | lam hb =>
        dsimp only
        rw [String.toList_push, ih body (A.lt_of_mem_children found (by simp [Node.children])) hb]
        simp [Term.sexp, written, writtenRest, binderName]
    · rename_i f x found'
      cases found.symm.trans found'
      cases shown with
      | binary _ hf hx =>
        have first := ih f (A.lt_of_mem_children found (by simp [Node.children])) hf
        have second := ih x (A.lt_of_mem_children found (by simp [Node.children])) hx
        rw [String.toList_push, second, String.toList_push, first, String.toList_append,
          hf.isReservedHead, Term.sexp]
        split <;> simp [written, writtenRest]
    · rename_i n' var atom lam app found'
      cases found.symm.trans found'
      have parts := printParts (d := depth) (l := n.children) fun c mem out =>
        ih c (A.lt_of_mem_children found mem) (holds_term (shown.known c mem)) depth out
      have fold := List.foldl_attach (l := n.children)
        (f := fun out c => A.printOnto c depth (out.push ' ')) (b := out ++ "(" ++ openingWord n)
      rw [String.toList_push, shown.sexp_form var atom lam app, written_list, ← shown.children]
      refine (congrArg (String.toList · ++ [')']) fold).trans ?_
      rw [parts]
      simp

theorem Holds.print (h : A.Holds i t) : A.print i = String.ofList (t.sexp 0).written := by
  rw [← String.toList_inj, String.toList_ofList, Arena.print, h.printOnto]
  rfl

end Arena

end GeneCalculus
