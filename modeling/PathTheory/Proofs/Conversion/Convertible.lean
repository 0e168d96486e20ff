import PathTheory.Proofs.Reduction.Fuel
import PathTheory.Proofs.Reduction.Views
import PathTheory.Proofs.Level.Instantiation
import PathTheory.Typing
/-!
Conversion of nameless terms. Two terms are looked at in weak head normal form, where the heads have
to agree and the parts are convertible again; a field of a variable whose type fixes the field is
the fixed value, and functions and tuples are determined by their applications and components. What
a common type settles is not asked for: domains of functions, types of tuples, and the universes of
constructors and fields. There is no rule of transitivity, since steps of terms without a type
join everything; as it stands the relation keeps variables and functions apart.
-/
namespace PathTheory

/-- Types of variables, the latest first. -/
abbrev Types := List (Var × Nameless)

/-- The types of a context, up to the names of binders. -/
def Context.reading (Γ : Context) : Types := Γ.map fun (x, type) => (x, type.reading)

theorem Context.lookup_reading (Γ : Context) (x : Var) :
    Γ.reading.lookup x = (Γ.lookup x).map Term.reading := by
  induction Γ with
  | nil => rfl
  | cons e Γ ih =>
      rw [reading, List.map_cons, List.lookup_cons, List.lookup_cons]
      split
      · rfl
      · exact ih

/-- A universe is the same as another one if all values of the level parameters make them so; the
    propositions are one universe whatever its size. -/
def Universe.Same (u v : Universe) : Prop := ∀ p,
  (u.h.under p ≤ -1 ∧ v.h.under p ≤ -1) ∨
    (u.p.under p = v.p.under p ∧ u.h.under p = v.h.under p)

theorem Level.compareLe_decided {a b : Level} {v : Verdict} (left : a.hasInference = false)
    (right : b.hasInference = false) (done : a.compareLe b = .ok v) :
    ∃ r, v = .decided r ∧ (r = true ↔ ∀ p, a.under p ≤ b.under p) := by
  have decided : ∃ r, v = .decided r := by
    unfold compareLe at done
    split at done
    · cases done
      exact ⟨true, rfl⟩
    · split at done
      · cases done
        exact ⟨true, rfl⟩
      · rw [right] at done
        cases done
        exact ⟨false, rfl⟩
      · rw [left, right] at done
        obtain ⟨r, _, same⟩ := map_ok done
        exact ⟨r, same.symm⟩
  obtain ⟨r, rfl⟩ := decided
  refine ⟨r, rfl, Level.holds_iff left right ?_⟩
  simp [holds, compare, done, bind, Except.bind, pure, Except.pure]

theorem Level.compare_eq_decided {a b : Level} {v : Verdict} (left : a.hasInference = false)
    (right : b.hasInference = false) (done : a.compare b .eq = .ok v) :
    ∃ r, v = .decided r ∧ (r = true → ∀ p, a.under p = b.under p) := by
  simp only [compare] at done
  split at done
  · rename_i same
    cases done
    exact ⟨true, rfl, fun _ p => same ▸ rfl⟩
  · simp only [left, right, Bool.or_false, Bool.false_eq_true, if_false] at done
    obtain ⟨first, below, rest⟩ := bind_ok done
    obtain ⟨r, rfl, belowIff⟩ := compareLe_decided left right below
    cases r with
    | false =>
        cases rest
        exact ⟨false, rfl, fun holds => Bool.noConfusion holds⟩
    | true =>
        obtain ⟨r, rfl, aboveIff⟩ := compareLe_decided right left rest
        exact ⟨r, rfl, fun holds p => le_antisymm (belowIff.mp rfl p) (aboveIff.mp holds p)⟩

theorem Universe.same_of_compare {u v : Universe} {c : Comparison} (left : u.Closed)
    (right : v.Closed) (done : Universe.compare true u v .eq = .ok c) (holds : c.holds = true) :
    u.Same v := by
  have prop : ∀ p, Level.prop.under p = -1 := fun _ => rfl
  change compareUp true u v .eq = .ok c at done
  unfold compareUp at done
  by_cases small : u.isProp
  · have least := isProp_iff.mp small
    rw [if_pos small] at done
    split at done
    · rename_i either
      have also : v.isProp = true := by simpa using either
      intro p
      left
      rw [least, isProp_iff.mp also]
      exact ⟨le_refl _, le_refl _⟩
    · obtain ⟨verdict, compared, same⟩ := bind_ok done
      cases same
      obtain ⟨r, rfl, equal⟩ := Level.compare_eq_decided right.h rfl compared
      intro p
      left
      rw [least, equal holds p]
      exact ⟨le_refl _, le_refl _⟩
  rw [if_neg small] at done
  by_cases least : v.isProp
  · rw [if_pos least] at done
    obtain ⟨verdict, compared, same⟩ := bind_ok done
    cases same
    obtain ⟨r, rfl, below⟩ := Level.compareLe_decided left.h rfl compared
    intro p
    left
    rw [isProp_iff.mp least]
    exact ⟨below.mp holds p, le_refl _⟩
  rw [if_neg least] at done
  obtain ⟨verdict, sizes, rest⟩ := bind_ok done
  obtain ⟨r, rfl, sameSize⟩ := Level.compare_eq_decided left.p right.p sizes
  cases r with
  | false =>
      cases rest
      cases holds
  | true =>
      obtain ⟨second, dimensions, same⟩ := bind_ok rest
      obtain ⟨verdict, compared, rfl⟩ := map_ok dimensions
      obtain ⟨r, rfl, sameDimension⟩ := Level.compare_eq_decided left.h right.h compared
      cases same
      exact fun p => .inr ⟨sameSize rfl p, sameDimension holds p⟩

namespace Nameless

/-- Weak head reduction of the term ends there. -/
def Evaluates (env : Environment) (t v : Nameless) : Prop :=
  ∃ fuel, (whnfWith env fuel t).result? = some v

/-- What stands in the scope of one binder, with a name for the bound variable. -/
def named (x : Var) (t : Nameless) : Nameless := t.fill [.free x] 0

def mkApp (fn arg : Nameless) : Nameless := .node .app (.part fn (.part arg .nil))

def mkProj (whole : Nameless) (i : Nat) : Nameless := .node (.proj i) (.part whole .nil)

/-- A binder with its domain, and one term in its scope. -/
def binding (l : Label) (mode : Mode) (domain body : Nameless) : Nameless :=
  .node l (.part domain (.binder mode (.part body .nil)))

end Nameless

/-- The fields of a record with their values. -/
def NamelessParts.slots : NamelessParts → List (DefId × Nameless)
  | .part (.node (.slot f) (.part t .nil)) rest => (f, t) :: rest.slots
  | _ => []

open Nameless

/-- What a term reveals: its weak head normal form, or what the value reveals that a variable has for
    the field that the term asks it for. -/
inductive Reveals (env : Environment) (Γ : Types) : Nameless → Nameless → Prop where
  | evaluated {t v} : t.Evaluates env v → Reveals env Γ t v
  | implemented {t v f u x type c levels fields value} :
      t.Evaluates env (.node (.field f u) (.part (.free x) .nil)) → Γ.lookup x = some type →
      type.Evaluates env (.node (.record c levels) fields) → fields.slot? f = some value →
      Reveals env Γ value v → Reveals env Γ t v

/-- Neither a type of the context nor a term beside it has a claim on the variable. -/
def Unused (x : Var) (Γ : Types) (a b : Nameless) : Prop :=
  x ∉ Γ.map Prod.fst ∧ x ∉ a.freeVars ∧ x ∉ b.freeVars

inductive Convertible (env : Environment) : Types → Nameless → Nameless → Prop where
  | refl {Γ t} : Convertible env Γ t t
  | symm {Γ a b} : Convertible env Γ a b → Convertible env Γ b a
  | shown {Γ a b v} : Reveals env Γ a v → Reveals env Γ b v → Convertible env Γ a b
  | univ {Γ a b u v} : Reveals env Γ a (.node (.univ u) .nil) → Reveals env Γ b (.node (.univ v) .nil) →
      u.Same v → Convertible env Γ a b
  | pi {Γ a b mode A B c d x} : Reveals env Γ a (binding .pi mode A c) →
      Reveals env Γ b (binding .pi mode B d) → Convertible env Γ A B → Unused x Γ c d →
      Convertible env ((x, A) :: Γ) (c.named x) (d.named x) → Convertible env Γ a b
  | lam {Γ a b m m' A B c d x} : Reveals env Γ a (binding .lam m A c) →
      Reveals env Γ b (binding .lam m' B d) → Unused x Γ c d →
      Convertible env ((x, A) :: Γ) (c.named x) (d.named x) → Convertible env Γ a b
  -- a function is determined by its values
  | eta {Γ a b m A c t x} : Reveals env Γ a (binding .lam m A c) → Reveals env Γ b t →
      Unused x Γ c t → Convertible env ((x, A) :: Γ) (c.named x) (t.mkApp (.free x)) →
      Convertible env Γ a b
  | sigmaNil {Γ a b} : Reveals env Γ a (.node .sigma .nil) → Reveals env Γ b (.node .sigma .nil) →
      Convertible env Γ a b
  -- the types of the components after the first one are a tuple type over it
  | sigma {Γ a b m m' A B p q x} : Reveals env Γ a (.node .sigma (.part A (.binder m p))) →
      Reveals env Γ b (.node .sigma (.part B (.binder m' q))) → Convertible env Γ A B →
      Unused x Γ (.node .sigma p) (.node .sigma q) →
      Convertible env ((x, A) :: Γ) (named x (.node .sigma p)) (named x (.node .sigma q)) →
      Convertible env Γ a b
  | tuple {Γ a b p q} : Reveals env Γ a (.node .tuple p) → Reveals env Γ b (.node .tuple q) →
      p.list.dropLast.length = q.list.dropLast.length →
      (∀ e ∈ p.list.dropLast.zip q.list.dropLast, Convertible env Γ e.1 e.2) →
      Convertible env Γ a b
  -- a tuple is determined by its components
  | components {Γ a b p t} : Reveals env Γ a (.node .tuple p) → Reveals env Γ b t →
      (∀ q, t ≠ .node .tuple q) →
      (∀ e ∈ p.list.dropLast.zipIdx, Convertible env Γ e.1 (t.mkProj e.2)) → Convertible env Γ a b
  | proj {Γ a b i t u} : Reveals env Γ a (mkProj t i) → Reveals env Γ b (mkProj u i) →
      Convertible env Γ t u → Convertible env Γ a b
  | app {Γ a b f g t u} : Reveals env Γ a (mkApp f t) → Reveals env Γ b (mkApp g u) →
      Convertible env Γ f g → Convertible env Γ t u → Convertible env Γ a b
  | call {Γ a b f u v p q} : Reveals env Γ a (.node (.call f u) p) →
      Reveals env Γ b (.node (.call f v) q) → u.Same v → p.list.length = q.list.length →
      (∀ e ∈ p.list.zip q.list, Convertible env Γ e.1 e.2) → Convertible env Γ a b
  | con {Γ a b c u v p q ps qs} : Reveals env Γ a (.node (.con c u) (.part (.node .ofType ps) p)) →
      Reveals env Γ b (.node (.con c v) (.part (.node .ofType qs) q)) →
      ps.list.length = qs.list.length → p.list.length = q.list.length →
      (∀ e ∈ ps.list.zip qs.list, Convertible env Γ e.1 e.2) →
      (∀ e ∈ p.list.zip q.list, Convertible env Γ e.1 e.2) → Convertible env Γ a b
  | data {Γ a b d u v p q} : Reveals env Γ a (.node (.data d u) p) →
      Reveals env Γ b (.node (.data d v) q) → u.Same v → p.list.length = q.list.length →
      (∀ e ∈ p.list.zip q.list, Convertible env Γ e.1 e.2) → Convertible env Γ a b
  -- as many fields, and each of them is one of the other record
  | record {Γ a b c u v p q} (other : DefId → Nameless) :
      Reveals env Γ a (.node (.record c u) p) → Reveals env Γ b (.node (.record c v) q) → u.Same v →
      p.slots.length = q.slots.length → (∀ e ∈ q.slots, p.slot? e.1 = some (other e.1)) →
      (∀ e ∈ q.slots, Convertible env Γ (other e.1) e.2) → Convertible env Γ a b
  | field {Γ a b f u v t r} : Reveals env Γ a (.node (.field f u) (.part t .nil)) →
      Reveals env Γ b (.node (.field f v) (.part r .nil)) → Convertible env Γ t r →
      Convertible env Γ a b
  | new {Γ a b t r} : Reveals env Γ a (.node .new (.part t .nil)) →
      Reveals env Γ b (.node .new (.part r .nil)) → Convertible env Γ t r → Convertible env Γ a b
  | caseOf {Γ a b p q as bs tree} : Reveals env Γ a (.node .caseOf p) →
      Reveals env Γ b (.node .caseOf q) → caseParts? p = some (as, tree) →
      caseParts? q = some (bs, tree) → as.length = bs.length →
      (∀ e ∈ as.zip bs, Convertible env Γ e.1 e.2) → Convertible env Γ a b

section Distinct

variable {env : Environment} {Γ : Types} {a b t v w : Nameless}

theorem Nameless.Evaluates.unique (first : t.Evaluates env v) (second : t.Evaluates env w) :
    v = w := by
  obtain ⟨n, ends⟩ := first
  obtain ⟨m, also⟩ := second
  have le := (whnfWith_le env (Nat.le_max_left n m) t).result? ends
  have le' := (whnfWith_le env (Nat.le_max_right n m) t).result? also
  exact Option.some.inj (le.symm.trans le')

theorem evaluates_value (value : t.isValue = true) : t.Evaluates env t := by
  refine ⟨1, ?_⟩
  rw [Nameless.whnfWith, Nameless.headStep?_value value]
  rfl

/-- Two variables, or the identity and a constant function. -/
inductive Nameless.Differ : Nameless → Nameless → Prop where
  | vars {x y} : x ≠ y → Differ (.free x) (.free y)
  | identity {m m' A B x} : Differ (binding .lam m A (.bound 0)) (binding .lam m' B (.free x))
  | constant {m m' A B x} : Differ (binding .lam m A (.free x)) (binding .lam m' B (.bound 0))

theorem Nameless.Differ.symm (differ : v.Differ w) : w.Differ v := by
  cases differ with
  | vars other => exact .vars other.symm
  | identity => exact .constant
  | constant => exact .identity

theorem Nameless.Differ.ne (differ : v.Differ w) : v ≠ w := by
  cases differ with
  | vars other => exact fun same => other (by cases same; rfl)
  | identity => exact nofun
  | constant => exact nofun

theorem Reveals.eq_of_differ (reveals : Reveals env Γ a t) (evaluates : a.Evaluates env v)
    (differ : v.Differ w) : t = v := by
  cases reveals with
  | evaluated also => exact also.unique evaluates
  | implemented isField =>
      obtain rfl := isField.unique evaluates
      cases differ

theorem Reveals.differ (reveals : Reveals env Γ a t) (evaluates : a.Evaluates env v)
    (differ : v.Differ w) : t.Differ w :=
  reveals.eq_of_differ evaluates differ ▸ differ

theorem free_evaluates {y : Var} : (Nameless.free y).Evaluates env (.free y) := ⟨1, rfl⟩

theorem Convertible.not_differ (equal : Convertible env Γ a b) : ∀ v w, a.Evaluates env v →
    b.Evaluates env w → ¬ v.Differ w := by
  induction equal with
  | refl =>
      intro v w first second differ
      exact differ.ne (first.unique second)
  | symm _ ih => exact fun v w first second differ => ih w v second first differ.symm
  | shown left right =>
      intro v w first second differ
      have same := left.eq_of_differ first differ
      exact differ.ne (same.symm.trans (right.eq_of_differ second differ.symm))
  | lam left right unused _ ih =>
      intro v w first second differ
      obtain rfl := left.eq_of_differ first differ
      obtain rfl := right.eq_of_differ second differ.symm
      obtain ⟨-, notLeft, notRight⟩ := unused
      cases differ with
      | identity =>
          refine ih _ _ free_evaluates free_evaluates (.vars ?_)
          exact fun same => notRight (by simp [Nameless.freeVars, same])
      | constant =>
          refine ih _ _ free_evaluates free_evaluates (.vars ?_)
          exact fun same => notLeft (by simp [Nameless.freeVars, same])
  | eta left right unused _ ih =>
      intro v w first second differ
      obtain rfl := left.eq_of_differ first differ
      obtain rfl := right.eq_of_differ second differ.symm
      obtain ⟨-, notLeft, notRight⟩ := unused
      cases differ with
      | identity =>
          refine ih _ _ free_evaluates ⟨2, rfl⟩ (.vars ?_)
          exact fun same =>
            notRight (by simp [binding, Nameless.freeVars, NamelessParts.freeVars, same])
      | constant =>
          refine ih _ _ free_evaluates ⟨2, rfl⟩ (.vars ?_)
          exact fun same => notLeft (by simp [Nameless.freeVars, same])
  -- what is left is about heads that neither a variable nor a function has
  | univ left | pi left | sigmaNil left | sigma left | tuple left | components left | proj left
  | app left | call left | con left | data left | record _ left | field left | new left
  | caseOf left => exact fun v w first _ differ => nomatch left.differ first differ

/-- A function that gives its argument is not one that gives a variable, whatever the types are. -/
theorem identity_not_constant {m m' : Mode} {A B : Nameless} {x : Var} :
    ¬ Convertible env Γ (binding .lam m A (.bound 0)) (binding .lam m' B (.free x)) :=
  fun equal => equal.not_differ _ _ (evaluates_value rfl) (evaluates_value rfl) .identity

end Distinct

end PathTheory
