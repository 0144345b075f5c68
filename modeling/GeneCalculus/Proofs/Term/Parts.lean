import GeneCalculus.Arena.Unfolding

/-!
The parts of a tree: what holds of all of them, and how they are replaced, one of them or all
children, related one by one or with a state that is passed on.
-/

namespace GeneCalculus

namespace Term

/-- Replaces every child. -/
def mapChildren (f : Term → Term) : Term → Term
  | var k => var k
  | atom a => atom a
  | lam a => lam (f a)
  | neg a => neg (f a)
  | binary form a b => binary form (f a) (f b)
  | ternary form a b c => ternary form (f a) (f b) (f c)
  | focus a b c d => focus (f a) (f b) (f c) (f d)

/-- How many binders a tree puts around its children. -/
def binders : Term → Nat
  | lam _ => 1
  | _ => 0

/-- Variables are told apart from all other trees, which are made of their children. -/
theorem var_induction {motive : Term → Prop} (var : ∀ k, motive (var k))
    (inner : ∀ t, (∀ k, t ≠ .var k) → (∀ c ∈ t.children, motive c) → motive t) (t : Term) :
    motive t := by
  induction t using child_induction with
  | step t ih =>
    by_cases leaf : ∃ k, t = .var k
    · obtain ⟨k, rfl⟩ := leaf
      exact var k
    · exact inner t (fun k same => leaf ⟨k, same⟩) ih

theorem mapChildren_eq_self {f : Term → Term} {t : Term} (same : ∀ c ∈ t.children, f c = c) :
    t.mapChildren f = t := by
  cases t <;> simp_all [children, mapChildren]

theorem mapChildren_congr {f g : Term → Term} {t : Term} (same : ∀ c ∈ t.children, f c = g c) :
    t.mapChildren f = t.mapChildren g := by
  cases t <;> simp_all [children, mapChildren]

theorem eq_of_mapChildren_eq_self {f : Term → Term} {t c : Term} (same : t.mapChildren f = t)
    (mem : c ∈ t.children) : f c = c := by
  cases t <;> simp only [mapChildren, lam.injEq, neg.injEq, binary.injEq, ternary.injEq, focus.injEq,
    children, List.mem_cons, List.not_mem_nil, or_false] at same mem <;>
    rcases mem with rfl | rfl | rfl | rfl <;> simp only [same]

theorem binders_mapChildren (f : Term → Term) (t : Term) : (t.mapChildren f).binders = t.binders := by
  cases t <;> rfl

theorem children_mapChildren (f : Term → Term) (t : Term) :
    (t.mapChildren f).children = t.children.map f := by
  cases t <;> rfl

/-- `P` holds of the tree and of all its parts. -/
def Everywhere (P : Term → Prop) : Term → Prop
  | var k => P (var k)
  | atom a => P (atom a)
  | lam a => P (lam a) ∧ a.Everywhere P
  | neg a => P (neg a) ∧ a.Everywhere P
  | binary form a b => P (binary form a b) ∧ a.Everywhere P ∧ b.Everywhere P
  | ternary form a b c =>
    P (ternary form a b c) ∧ a.Everywhere P ∧ b.Everywhere P ∧ c.Everywhere P
  | focus a b c d =>
    P (focus a b c d) ∧ a.Everywhere P ∧ b.Everywhere P ∧ c.Everywhere P ∧ d.Everywhere P

theorem everywhere_iff {P : Term → Prop} {t : Term} :
    t.Everywhere P ↔ P t ∧ ∀ c ∈ t.children, c.Everywhere P := by
  cases t <;> simp [Everywhere, children]

theorem Everywhere.intro {P : Term → Prop} {t : Term} (root : P t)
    (parts : ∀ c ∈ t.children, c.Everywhere P) : t.Everywhere P :=
  everywhere_iff.2 ⟨root, parts⟩

theorem Everywhere.root {P : Term → Prop} {t : Term} (h : t.Everywhere P) : P t :=
  (everywhere_iff.1 h).1

theorem Everywhere.child {P : Term → Prop} {t c : Term} (h : t.Everywhere P) (mem : c ∈ t.children) :
    c.Everywhere P :=
  (everywhere_iff.1 h).2 c mem

instance decidableEverywhere (P : Term → Prop) [DecidablePred P] :
    (t : Term) → Decidable (t.Everywhere P)
  | var k => inferInstanceAs (Decidable (P (var k)))
  | atom a => inferInstanceAs (Decidable (P (atom a)))
  | lam a =>
    have := decidableEverywhere P a
    inferInstanceAs (Decidable (P (lam a) ∧ a.Everywhere P))
  | neg a =>
    have := decidableEverywhere P a
    inferInstanceAs (Decidable (P (neg a) ∧ a.Everywhere P))
  | binary form a b =>
    have := decidableEverywhere P a
    have := decidableEverywhere P b
    inferInstanceAs (Decidable (P (binary form a b) ∧ a.Everywhere P ∧ b.Everywhere P))
  | ternary form a b c =>
    have := decidableEverywhere P a
    have := decidableEverywhere P b
    have := decidableEverywhere P c
    inferInstanceAs (Decidable
      (P (ternary form a b c) ∧ a.Everywhere P ∧ b.Everywhere P ∧ c.Everywhere P))
  | focus a b c d =>
    have := decidableEverywhere P a
    have := decidableEverywhere P b
    have := decidableEverywhere P c
    have := decidableEverywhere P d
    inferInstanceAs (Decidable
      (P (focus a b c d) ∧ a.Everywhere P ∧ b.Everywhere P ∧ c.Everywhere P ∧ d.Everywhere P))

/-- One part of the tree is replaced as `R` tells. -/
inductive Within (R : Term → Term → Prop) : Term → Term → Prop
  | here {t u : Term} : R t u → Within R t u
  | lam {a a' : Term} : Within R a a' → Within R (lam a) (lam a')
  | neg {a a' : Term} : Within R a a' → Within R (neg a) (neg a')
  | binary₁ (form : Binary) {a a' : Term} (b : Term) : Within R a a' →
      Within R (binary form a b) (binary form a' b)
  | binary₂ (form : Binary) (a : Term) {b b' : Term} : Within R b b' →
      Within R (binary form a b) (binary form a b')
  | ternary₁ (form : Ternary) {a a' : Term} (b c : Term) : Within R a a' →
      Within R (ternary form a b c) (ternary form a' b c)
  | ternary₂ (form : Ternary) (a : Term) {b b' : Term} (c : Term) : Within R b b' →
      Within R (ternary form a b c) (ternary form a b' c)
  | ternary₃ (form : Ternary) (a b : Term) {c c' : Term} : Within R c c' →
      Within R (ternary form a b c) (ternary form a b c')
  | focus₁ {a a' : Term} (b c d : Term) : Within R a a' → Within R (focus a b c d) (focus a' b c d)
  | focus₂ (a : Term) {b b' : Term} (c d : Term) : Within R b b' →
      Within R (focus a b c d) (focus a b' c d)
  | focus₃ (a b : Term) {c c' : Term} (d : Term) : Within R c c' →
      Within R (focus a b c d) (focus a b c' d)
  | focus₄ (a b c : Term) {d d' : Term} : Within R d d' → Within R (focus a b c d) (focus a b c d')

/-- A part of a child is a part of the tree. -/
theorem Within.of_mem_children {R : Term → Term → Prop} {t c d : Term}
    (h : Within R c d) (mem : c ∈ t.children) : ∃ u, Within R t u := by
  cases t <;> simp only [children, List.mem_cons, List.not_mem_nil, or_false] at mem
  case lam => exact mem ▸ ⟨_, .lam h⟩
  case neg => exact mem ▸ ⟨_, .neg h⟩
  case binary form a b =>
    rcases mem with rfl | rfl
    · exact ⟨_, .binary₁ form b h⟩
    · exact ⟨_, .binary₂ form a h⟩
  case ternary form a b e =>
    rcases mem with rfl | rfl | rfl
    · exact ⟨_, .ternary₁ form b e h⟩
    · exact ⟨_, .ternary₂ form a e h⟩
    · exact ⟨_, .ternary₃ form a b h⟩
  case focus a b e f =>
    rcases mem with rfl | rfl | rfl | rfl
    · exact ⟨_, .focus₁ b e f h⟩
    · exact ⟨_, .focus₂ a e f h⟩
    · exact ⟨_, .focus₃ a b f h⟩
    · exact ⟨_, .focus₄ a b e h⟩

/-- The children are replaced one after the other as `R` tells, each from the state that the one
before it left. -/
inductive Traverse {τ : Type} (R : Term → τ → Term → τ → Prop) : Term → τ → Term → τ → Prop
  | var (k : Nat) (s : τ) : Traverse R (var k) s (var k) s
  | atom (a : Atom) (s : τ) : Traverse R (atom a) s (atom a) s
  | lam {a a' : Term} {s s' : τ} : R a s a' s' → Traverse R (lam a) s (lam a') s'
  | neg {a a' : Term} {s s' : τ} : R a s a' s' → Traverse R (neg a) s (neg a') s'
  | binary (form : Binary) {a a' b b' : Term} {s s₁ s₂ : τ} : R a s a' s₁ → R b s₁ b' s₂ →
      Traverse R (binary form a b) s (binary form a' b') s₂
  | ternary (form : Ternary) {a a' b b' c c' : Term} {s s₁ s₂ s₃ : τ} : R a s a' s₁ →
      R b s₁ b' s₂ → R c s₂ c' s₃ → Traverse R (ternary form a b c) s (ternary form a' b' c') s₃
  | focus {a a' b b' c c' d d' : Term} {s s₁ s₂ s₃ s₄ : τ} : R a s a' s₁ → R b s₁ b' s₂ →
      R c s₂ c' s₃ → R d s₃ d' s₄ → Traverse R (focus a b c d) s (focus a' b' c' d') s₄

/-- The trees have the same form, and `R` relates their children. -/
inductive Alike (R : Term → Term → Prop) : Term → Term → Prop
  | var (k : Nat) : Alike R (var k) (var k)
  | atom (a : Atom) : Alike R (atom a) (atom a)
  | lam {a a' : Term} : R a a' → Alike R (lam a) (lam a')
  | neg {a a' : Term} : R a a' → Alike R (neg a) (neg a')
  | binary (form : Binary) {a a' b b' : Term} : R a a' → R b b' →
      Alike R (binary form a b) (binary form a' b')
  | ternary (form : Ternary) {a a' b b' c c' : Term} : R a a' → R b b' → R c c' →
      Alike R (ternary form a b c) (ternary form a' b' c')
  | focus {a a' b b' c c' d d' : Term} : R a a' → R b b' → R c c' → R d d' →
      Alike R (focus a b c d) (focus a' b' c' d')

theorem Alike.mono {R S : Term → Term → Prop} (sub : ∀ a b, R a b → S a b) {t u : Term}
    (h : Alike R t u) : Alike S t u := by
  cases h with
  | var k => exact .var k
  | atom a => exact .atom a
  | lam a => exact .lam (sub _ _ a)
  | neg a => exact .neg (sub _ _ a)
  | binary form a b => exact .binary form (sub _ _ a) (sub _ _ b)
  | ternary form a b c => exact .ternary form (sub _ _ a) (sub _ _ b) (sub _ _ c)
  | focus a b c d => exact .focus (sub _ _ a) (sub _ _ b) (sub _ _ c) (sub _ _ d)

theorem Alike.self {R : Term → Term → Prop} {t : Term} (same : ∀ c ∈ t.children, R c c) :
    Alike R t t := by
  cases t <;> constructor <;> simp_all [children]

theorem Alike.left {R : Term → Term → Prop} {t u : Term} (h : Alike R t u) :
    ∀ a ∈ t.children, ∃ b, R a b := by
  cases h <;> simp only [children, List.forall_mem_cons, List.not_mem_nil, false_imp_iff,
    implies_true, and_true] <;> grind

theorem Alike.mem {R : Term → Term → Prop} {t u : Term} (h : Alike R t u) :
    Alike (fun a b => a ∈ t.children ∧ b ∈ u.children ∧ R a b) t u := by
  cases h <;> constructor <;> simp_all [children]

variable {τ υ : Type} {R : Term → τ → Term → τ → Prop} {t t' : Term} {s s' : τ}

theorem Traverse.mono {S : Term → τ → Term → τ → Prop} (sub : ∀ a s b s', R a s b s' → S a s b s')
    (h : t.Traverse R s t' s') : t.Traverse S s t' s' := by
  cases h with
  | var => exact .var ..
  | atom => exact .atom ..
  | lam a => exact .lam (sub _ _ _ _ a)
  | neg a => exact .neg (sub _ _ _ _ a)
  | binary form a b => exact .binary form (sub _ _ _ _ a) (sub _ _ _ _ b)
  | ternary form a b c => exact .ternary form (sub _ _ _ _ a) (sub _ _ _ _ b) (sub _ _ _ _ c)
  | focus a b c d =>
    exact .focus (sub _ _ _ _ a) (sub _ _ _ _ b) (sub _ _ _ _ c) (sub _ _ _ _ d)

theorem Traverse.mem (h : t.Traverse R s t' s') :
    t.Traverse (fun a s b s' => a ∈ t.children ∧ R a s b s') s t' s' := by
  cases h with
  | var => exact .var ..
  | atom => exact .atom ..
  | lam a => exact .lam ⟨by simp [children], a⟩
  | neg a => exact .neg ⟨by simp [children], a⟩
  | binary form a b => exact .binary form ⟨by simp [children], a⟩ ⟨by simp [children], b⟩
  | ternary form a b c =>
    exact .ternary form ⟨by simp [children], a⟩ ⟨by simp [children], b⟩ ⟨by simp [children], c⟩
  | focus a b c d =>
    exact .focus ⟨by simp [children], a⟩ ⟨by simp [children], b⟩ ⟨by simp [children], c⟩
      ⟨by simp [children], d⟩

theorem Traverse.alike {R : Term → Term → Prop} (h : t.Traverse (fun a _ b _ => R a b) s t' s') :
    Alike R t t' := by
  cases h with
  | var => exact .var _
  | atom => exact .atom _
  | lam a => exact .lam a
  | neg a => exact .neg a
  | binary form a b => exact .binary form a b
  | ternary form a b c => exact .ternary form a b c
  | focus a b c d => exact .focus a b c d

/-- Carries a traversal over to other states. What holds of the last state held of all (`J`), and
what holds of the first holds of all (`I`), if each step says so. -/
theorem Traverse.map {S : Term → υ → Term → υ → Prop} {f : τ → υ} {I J : τ → Prop}
    (h : t.Traverse (fun a s b s' => J s' → J s ∧ (I s → S a (f s) b (f s') ∧ I s')) s t' s')
    (last : J s') : J s ∧ (I s → t.Traverse S (f s) t' (f s') ∧ I s') := by
  cases h with
  | var => exact ⟨last, fun first => ⟨.var _ _, first⟩⟩
  | atom => exact ⟨last, fun first => ⟨.atom _ _, first⟩⟩
  | lam a =>
    obtain ⟨j, k⟩ := a last
    exact ⟨j, fun first => ⟨.lam (k first).1, (k first).2⟩⟩
  | neg a =>
    obtain ⟨j, k⟩ := a last
    exact ⟨j, fun first => ⟨.neg (k first).1, (k first).2⟩⟩
  | binary form a b =>
    obtain ⟨j₂, k₂⟩ := b last
    obtain ⟨j₁, k₁⟩ := a j₂
    refine ⟨j₁, fun first => ?_⟩
    obtain ⟨a', i₁⟩ := k₁ first
    obtain ⟨b', i₂⟩ := k₂ i₁
    exact ⟨.binary form a' b', i₂⟩
  | ternary form a b c =>
    obtain ⟨j₃, k₃⟩ := c last
    obtain ⟨j₂, k₂⟩ := b j₃
    obtain ⟨j₁, k₁⟩ := a j₂
    refine ⟨j₁, fun first => ?_⟩
    obtain ⟨a', i₁⟩ := k₁ first
    obtain ⟨b', i₂⟩ := k₂ i₁
    obtain ⟨c', i₃⟩ := k₃ i₂
    exact ⟨.ternary form a' b' c', i₃⟩
  | focus a b c d =>
    obtain ⟨j₄, k₄⟩ := d last
    obtain ⟨j₃, k₃⟩ := c j₄
    obtain ⟨j₂, k₂⟩ := b j₃
    obtain ⟨j₁, k₁⟩ := a j₂
    refine ⟨j₁, fun first => ?_⟩
    obtain ⟨a', i₁⟩ := k₁ first
    obtain ⟨b', i₂⟩ := k₂ i₁
    obtain ⟨c', i₃⟩ := k₃ i₂
    obtain ⟨d', i₄⟩ := k₄ i₃
    exact ⟨.focus a' b' c' d', i₄⟩

/-- Where each child can be replaced by itself, the tree can. -/
theorem exists_traverse {I : τ → Prop} (step : ∀ c ∈ t.children, ∀ s, I s → ∃ s', R c s c s' ∧ I s')
    (first : I s) : ∃ s', t.Traverse R s t s' ∧ I s' := by
  cases t with
  | var k => exact ⟨s, .var k s, first⟩
  | atom a => exact ⟨s, .atom a s, first⟩
  | lam a =>
    obtain ⟨s₁, r₁, i₁⟩ := step a (by simp [children]) s first
    exact ⟨s₁, .lam r₁, i₁⟩
  | neg a =>
    obtain ⟨s₁, r₁, i₁⟩ := step a (by simp [children]) s first
    exact ⟨s₁, .neg r₁, i₁⟩
  | binary form a b =>
    obtain ⟨s₁, r₁, i₁⟩ := step a (by simp [children]) s first
    obtain ⟨s₂, r₂, i₂⟩ := step b (by simp [children]) s₁ i₁
    exact ⟨s₂, .binary form r₁ r₂, i₂⟩
  | ternary form a b c =>
    obtain ⟨s₁, r₁, i₁⟩ := step a (by simp [children]) s first
    obtain ⟨s₂, r₂, i₂⟩ := step b (by simp [children]) s₁ i₁
    obtain ⟨s₃, r₃, i₃⟩ := step c (by simp [children]) s₂ i₂
    exact ⟨s₃, .ternary form r₁ r₂ r₃, i₃⟩
  | focus a b c d =>
    obtain ⟨s₁, r₁, i₁⟩ := step a (by simp [children]) s first
    obtain ⟨s₂, r₂, i₂⟩ := step b (by simp [children]) s₁ i₁
    obtain ⟨s₃, r₃, i₃⟩ := step c (by simp [children]) s₂ i₂
    obtain ⟨s₄, r₄, i₄⟩ := step d (by simp [children]) s₃ i₃
    exact ⟨s₄, .focus r₁ r₂ r₃ r₄, i₄⟩

/-- A traversal has one outcome if every step in it has. -/
theorem Traverse.deterministic {u v : Term} {s₁ s₂ : τ}
    (h : t.Traverse (fun a s b s' => ∀ b₂ s₂, R a s b₂ s₂ → b = b₂ ∧ s' = s₂) s u s₁)
    (k : t.Traverse R s v s₂) : u = v ∧ s₁ = s₂ := by
  cases h with
  | var | atom => cases k; exact ⟨rfl, rfl⟩
  | lam a | neg a =>
    cases k with | _ a'
    obtain ⟨rfl, rfl⟩ := a _ _ a'
    exact ⟨rfl, rfl⟩
  | binary form a b =>
    cases k with | binary _ a' b'
    obtain ⟨rfl, rfl⟩ := a _ _ a'
    obtain ⟨rfl, rfl⟩ := b _ _ b'
    exact ⟨rfl, rfl⟩
  | ternary form a b c =>
    cases k with | ternary _ a' b' c'
    obtain ⟨rfl, rfl⟩ := a _ _ a'
    obtain ⟨rfl, rfl⟩ := b _ _ b'
    obtain ⟨rfl, rfl⟩ := c _ _ c'
    exact ⟨rfl, rfl⟩
  | focus a b c d =>
    cases k with | focus a' b' c' d'
    obtain ⟨rfl, rfl⟩ := a _ _ a'
    obtain ⟨rfl, rfl⟩ := b _ _ b'
    obtain ⟨rfl, rfl⟩ := c _ _ c'
    obtain ⟨rfl, rfl⟩ := d _ _ d'
    exact ⟨rfl, rfl⟩

/-- Relates the second tree to what comes of the first one child by child. -/
theorem Alike.flip_mapChildren {R : Term → Term → Prop} {f : Term → Term}
    (h : Alike (fun a b => R b (f a)) t t') : Alike R t' (t.mapChildren f) := by
  cases h with
  | var k => exact .var k
  | atom a => exact .atom a
  | lam a => exact .lam a
  | neg a => exact .neg a
  | binary form a b => exact .binary form a b
  | ternary form a b c => exact .ternary form a b c
  | focus a b c d => exact .focus a b c d

theorem Alike.eq_mapChildren {f : Term → Term} (h : Alike (fun x y => y = f x) t t') :
    t' = t.mapChildren f := by
  cases h <;> simp_all only [mapChildren]

end Term

end GeneCalculus
