import GeneCalculus.Proofs.Surface.Translation

/-!
Renaming and abbreviation. Only what a word refers to matters, not how binders are called, and the
forms for several binders, for definitions and for application with several arguments stand for
simpler ones. Sources that differ in no more than that are built into one node.
-/

namespace GeneCalculus.Surface

/-- The name of a binder and its new name, which begins no form unless it is the old one. -/
structure Rename where
  old : String
  new : String
  plain : new = old ∨ isReserved new = false

/-- Two words refer to the same of the renamed binders in scope, innermost first. If they refer to
none, they are equal. -/
inductive Refers : List Rename → String → String → Prop
  | free {w : String} : Refers [] w w
  | own {x : Rename} {ρ : List Rename} : Refers (x :: ρ) x.old x.new
  | outer {x : Rename} {ρ : List Rename} {w v : String} : w ≠ x.old → v ≠ x.new → Refers ρ w v →
      Refers (x :: ρ) w v

/-- A binder list before and after its names are renamed. -/
inductive Binders : List Rename → Sexp → Sexp → Prop
  | one (x : Rename) : Binders [x] (.word x.old) (.word x.new)
  | several {xs : List Rename} : xs ≠ [] →
      Binders xs (.list (xs.map fun x => .word x.old)) (.list (xs.map fun x => .word x.new))

/-- S-expressions before and after binders in them are renamed, under binders that are. -/
inductive RenamedAll : List Rename → List Sexp → List Sexp → Prop
  | nil {ρ : List Rename} : RenamedAll ρ [] []
  | word {ρ : List Rename} {w v : String} {es es' : List Sexp} : Refers ρ w v →
      RenamedAll ρ es es' → RenamedAll ρ (.word w :: es) (.word v :: es')
  | text {ρ : List Rename} {s : String} {es es' : List Sexp} :
      RenamedAll ρ es es' → RenamedAll ρ (.text s :: es) (.text s :: es')
  | lambda {ρ xs : List Rename} {k : String} {binders binders' body body' : Sexp}
      {es es' : List Sexp} : lambdaWords.contains k = true → Binders xs binders binders' →
      RenamedAll (xs.reverse ++ ρ) [body] [body'] → RenamedAll ρ es es' →
      RenamedAll ρ (.list [.word k, binders, body] :: es) (.list [.word k, binders', body'] :: es')
  | let_ {ρ : List Rename} (x : Rename) {value value' body body' : Sexp} {es es' : List Sexp} :
      RenamedAll ρ [value] [value'] → RenamedAll (x :: ρ) [body] [body'] → RenamedAll ρ es es' →
      RenamedAll ρ (.list [.word "let", .word x.old, value, body] :: es)
        (.list [.word "let", .word x.new, value', body'] :: es')
  | app {ρ : List Rename} {args args' es es' : List Sexp} : RenamedAll ρ args args' →
      RenamedAll ρ es es' →
      RenamedAll ρ (.list (.word "app" :: args) :: es) (.list (.word "app" :: args') :: es')
  | form {ρ : List Rename} {form : Form} {k : String} {args args' es es' : List Sexp} :
      Form.ofName? k = some form → RenamedAll ρ args args' → RenamedAll ρ es es' →
      RenamedAll ρ (.list (.word k :: args) :: es) (.list (.word k :: args') :: es')
  | apply {ρ : List Rename} {head head' : Sexp} {args args' es es' : List Sexp} :
      head.isReserved = false → RenamedAll ρ (head :: args) (head' :: args') →
      RenamedAll ρ es es' →
      RenamedAll ρ (.list (head :: args) :: es) (.list (head' :: args') :: es')

/-- The S-expression after binders in it are renamed. -/
def Sexp.Renamed (e e' : Sexp) : Prop := RenamedAll [] [e] [e']

/-- The S-expression stands for the other, by one of the laws of abbreviation. -/
inductive Sexp.Abbreviates : Sexp → Sexp → Prop
  | let_ {k x : String} {value body : Sexp} : lambdaWords.contains k = true →
      Abbreviates (.list [.word "let", .word x, value, body])
        (.list [.list [.word k, .word x, body], value])
  | lambda {k : String} {names : List String} {body : Sexp} : lambdaWords.contains k = true →
      names ≠ [] → Abbreviates (.list [.word k, .list (names.map .word), body])
        (names.foldr (fun x body => .list [.word k, .word x, body]) body)
  | app {f x : Sexp} {more : List Sexp} : Abbreviates (.list (.word "app" :: f :: x :: more))
      ((x :: more).foldl (fun f x => .list [.word "app", f, x]) f)
  | apply {f x : Sexp} {more : List Sexp} : f.isReserved = false →
      Abbreviates (.list (f :: x :: more)) (.list (.word "app" :: f :: x :: more))

variable {ρ xs : List Rename} {w v : String} {e e' binders binders' : Sexp} {es es' : List Sexp}
  {source source' : String}

theorem Refers.reserved (h : Refers ρ w v) (free : isReserved w = false) :
    isReserved v = false := by
  induction h with
  | free => exact free
  | @own x ρ =>
    rcases x.plain with same | plain
    · exact same ▸ free
    · exact plain
  | outer _ _ _ ih => exact ih free

theorem Refers.idxOf? (h : Refers ρ w v) :
    (ρ.map (·.old)).idxOf? w = (ρ.map (·.new)).idxOf? v ∧
      ((ρ.map (·.old)).idxOf? w = none → w = v) := by
  induction h with
  | free => exact ⟨rfl, fun _ => rfl⟩
  | own => simp [List.idxOf?_cons]
  | outer here here' _ ih =>
    simp only [List.map_cons, List.idxOf?_cons, beq_eq_false_iff_ne.2 here.symm,
      beq_eq_false_iff_ne.2 here'.symm, Bool.false_eq_true, ↓reduceIte, ih.1,
      Option.map_eq_none_iff, true_and]
    exact fun absent => ih.2 (ih.1.trans absent)

theorem Refers.term? (h : Refers ρ w v) :
    (Sexp.word w).term? (ρ.map (·.old)) = (Sexp.word v).term? (ρ.map (·.new)) := by
  obtain ⟨place, free⟩ := h.idxOf?
  cases found : (ρ.map (·.old)).idxOf? w with
  | some k => rw [Sexp.term?_of_found found, Sexp.term?_of_found (place.symm.trans found)]
  | none =>
    rw [Sexp.term?_of_absent found, Sexp.term?_of_absent (place.symm.trans found), free found,
      List.length_map, List.length_map]

theorem binderNames_list {names : List String} (some : names ≠ []) :
    binderNames (.list (names.map .word)) = .ok names := by
  have step (x : String) (item : Sexp) (rest : List Sexp) :
      binderNames (.list (.word x :: item :: rest)) =
        (binderNames (.list (item :: rest))).map (x :: ·) := by
    rw [binderNames, List.mapM_cons, binderNames]
    generalize List.mapM (m := Except SyntaxError) _ (item :: rest) = names
    cases names <;> rfl
  cases names with
  | nil => exact absurd rfl some
  | cons x names =>
    induction names generalizing x with
    | nil => rfl
    | cons y names ih =>
      have rest := ih y nofun
      rw [List.map_cons] at rest
      rw [List.map_cons, List.map_cons, step, rest]
      rfl

theorem Binders.names (h : Binders xs binders binders') :
    binderNames binders = .ok (xs.map (·.old)) ∧ binderNames binders' = .ok (xs.map (·.new)) := by
  cases h with
  | one x => exact ⟨rfl, rfl⟩
  | several some =>
    have list (name : Rename → String) :
        binderNames (.list (xs.map fun x => .word (name x))) = .ok (xs.map name) := by
      have names : binderNames (.list ((xs.map name).map .word)) = .ok (xs.map name) :=
        binderNames_list (by simpa using some)
      rwa [List.map_map] at names
    exact ⟨list Rename.old, list Rename.new⟩

theorem Sexp.term?_eq_of_terms? {scope scope' : List String}
    (same : terms? scope [e] = terms? scope' [e']) : e.term? scope = e'.term? scope' := by
  rw [terms?_cons, terms?_cons] at same
  revert same
  cases e.term? scope <;> cases e'.term? scope' <;> simp [terms?, namedAll?, Named.terms?]

theorem RenamedAll.head {head head' : Sexp} (h : RenamedAll ρ (head :: es) (head' :: es'))
    (free : head.isReserved = false) : head'.isReserved = false := by
  cases h with
  | word refers => exact refers.reserved free
  | _ => rfl

theorem RenamedAll.terms? (h : RenamedAll ρ es es') :
    Sexp.terms? (ρ.map (·.old)) es = Sexp.terms? (ρ.map (·.new)) es' := by
  induction h with
  | nil => rfl
  | word refers _ ih => rw [Sexp.terms?_cons, Sexp.terms?_cons, refers.term?, ih]
  | text _ ih => rw [Sexp.terms?_cons, Sexp.terms?_cons, ih]; rfl
  | lambda lambda binders _ _ inner ih =>
    obtain ⟨old, new⟩ := binders.names
    have body := Sexp.term?_eq_of_terms? inner
    simp only [List.map_append, List.map_reverse] at body
    rw [Sexp.terms?_cons, Sexp.terms?_cons, ih, Sexp.term?_lambda lambda, Sexp.term?_lambda lambda,
      old, new]
    simp only [Except.toOption, Option.bind_some, body, List.length_map]
  | let_ x _ _ _ value body ih =>
    rw [Sexp.terms?_cons, Sexp.terms?_cons, ih, Sexp.term?_let, Sexp.term?_let,
      Sexp.term?_eq_of_terms? value]
    have inner := Sexp.term?_eq_of_terms? body
    simp only [List.map_cons] at inner
    rw [inner]
  | app _ _ args ih =>
    rw [Sexp.terms?_cons, Sexp.terms?_cons, ih, Sexp.term?_app, Sexp.term?_app, args]
  | form named _ _ args ih =>
    rw [Sexp.terms?_cons, Sexp.terms?_cons, ih, Sexp.term?_form named, Sexp.term?_form named, args]
  | apply free args _ whole ih =>
    rw [Sexp.terms?_cons, Sexp.terms?_cons, ih, Sexp.term?_apply free,
      Sexp.term?_apply (args.head free), whole]

theorem named?_nested {k : String} (lambda : lambdaWords.contains k = true) (names : List String)
    (body : Sexp) : (names.foldr (fun x body => .list [.word k, .word x, body]) body).named? =
      body.named?.map fun b => names.foldr .lam b := by
  induction names with
  | nil => exact Option.map_id'.symm
  | cons x names ih =>
    rw [List.foldr_cons, Sexp.named?_lambda lambda, ih]
    cases body.named? <;> rfl

theorem named?_applied (f : Sexp) (args : List Sexp) :
    (args.foldl (fun f x => .list [.word "app", f, x]) f).named? =
      f.named?.bind fun e => (Sexp.namedAll? args).map fun es => es.foldl .app e := by
  induction args generalizing f with
  | nil => cases h : f.named? <;> simp [Sexp.namedAll?, h]
  | cons x args ih =>
    rw [List.foldl_cons, ih, Sexp.named?_app]
    simp only [Sexp.namedAll?]
    cases f.named? with
    | none => rfl
    | some e =>
      cases x.named? with
      | none => rfl
      | some u => cases Sexp.namedAll? args <;> rfl

theorem Sexp.Abbreviates.named? (h : e.Abbreviates e') : e.named? = e'.named? := by
  cases h with
  | @let_ k x value body lambda =>
    rw [named?_let, named?_apply rfl]
    simp only [namedAll?, named?_lambda lambda]
    cases value.named? with
    | none => cases body.named? <;> rfl
    | some v => cases body.named? <;> rfl
  | lambda lambda some =>
    rw [named?_lambda lambda, binderNames_list some, named?_nested lambda]
    rfl
  | @app f x more =>
    rw [named?_app, named?_applied]
    simp only [namedAll?]
    cases f.named? with
    | none => rfl
    | some e =>
      cases x.named? with
      | none => rfl
      | some u => cases namedAll? more <;> rfl
  | apply free => rw [named?_apply free, named?_app]

/-- In each arena both sources are built into one node, or neither is. -/
def Alike (source source' : String) : Prop := ∀ A : Arena,
  (∃ i B C, parse source A = (.ok i, B) ∧ parse source' B = (.ok i, C)) ∨
    ∃ fault fault' B C, parse source A = (.error fault, B) ∧ parse source' B = (.error fault', C)

theorem alike_of_translation? (same : translation? source = translation? source') :
    Alike source source' := by
  intro A
  have first := parse_outcome source A
  have second := parse_outcome source' (parse source A).2
  rw [← same] at second
  rcases eq : parse source A with ⟨r, B⟩
  rcases eq' : parse source' B with ⟨r', C⟩
  rw [eq] at first second
  rw [eq'] at second
  generalize translation? source = told at first second
  cases first with
  | made _ holds =>
    cases second with
    | made keep holds' =>
      cases (holds.mono keep).inj holds'
      exact .inl ⟨_, _, _, rfl, eq'⟩
  | failed =>
    cases second with
    | failed => exact .inr ⟨_, _, _, _, rfl, eq'⟩

/-- A source is built into the node of its translation. So nothing changes if binders are renamed,
or if a form is written for what it abbreviates. -/
theorem parse_translates :
    (∀ (source : String) (A : Arena),
      Outcome A Arena.Holds (translation? source) (parse source A)) ∧
    ∀ (source source' : String) (e e' : Sexp), Sexp.ofString source = .ok e →
      Sexp.ofString source' = .ok e' → e.Renamed e' ∨ e.Abbreviates e' → Alike source source' := by
  refine ⟨parse_outcome, fun source source' e e' read read' related => alike_of_translation? ?_⟩
  rw [translation?_of_ofString read, translation?_of_ofString read']
  rcases related with renamed | abbreviates
  · exact Sexp.term?_eq_of_terms? renamed.terms?
  · rw [Sexp.term?, Sexp.term?, abbreviates.named?]

theorem parse_translates_swapped_names :
    translation? "(lam (x y) (x f))" = some (.lam (.lam (.app (.var 1) (.atom (.prim "f"))))) ∧
    Alike "(lam (x y) (x f))" "(lam (y x) (y f))" ∧ Alike "(let n f n)" "((lam n n) f)" := by
  refine ⟨by cbv, ?_, ?_⟩
  · refine parse_translates.2 _ _ (.list [.word "lam", .list [.word "x", .word "y"],
      .list [.word "x", .word "f"]]) (.list [.word "lam", .list [.word "y", .word "x"],
      .list [.word "y", .word "f"]]) (by cbv) (by cbv) (.inl ?_)
    have binders : Binders [⟨"x", "y", .inr rfl⟩, ⟨"y", "x", .inr rfl⟩] _ _ :=
      .several (List.cons_ne_nil _ _)
    have other : Refers [⟨"y", "x", .inr rfl⟩, ⟨"x", "y", .inr rfl⟩] "f" "f" :=
      .outer (by decide) (by decide) (.outer (by decide) (by decide) .free)
    exact .lambda rfl binders
      (.apply rfl (.word (.outer (by decide) (by decide) .own) (.word other .nil)) .nil) .nil
  · exact parse_translates.2 _ _ (.list [.word "let", .word "n", .word "f", .word "n"])
      (.list [.list [.word "lam", .word "n", .word "n"], .word "f"]) (by cbv) (by cbv)
      (.inr (.let_ rfl))

end GeneCalculus.Surface
