import PathTheory.Proofs.Conversion.Heads
/-!
Soundness of the comparison. Finished terms that are found equal are convertible, provided that no
binder that the comparison has passed was in the typing context before. The right side of two binders
is renamed after the left one without a look at the variables that are free there, so an old variable
can be captured: the identity and a constant function are found equal.
-/
namespace PathTheory

open Unify

/-- Old variables and variables of the context, and nothing left to inference. -/
structure Term.Over (Γ : Context) (n : Nat) (t : Term) : Prop where
  below : t.Below n
  finished : t.reading.Finished Γ.reading.Scope

instance (Γ : Context) (n : Nat) (t : Term) : Decidable (t.Over Γ n) :=
  decidable_of_iff (t.Below n ∧ t.reading.Finished Γ.reading.Scope)
    ⟨fun ⟨below, finished⟩ => ⟨below, finished⟩, fun ⟨below, finished⟩ => ⟨below, finished⟩⟩

theorem Term.Over.ready {Γ : Context} {n : Nat} {t : Term} (isOver : t.Over Γ n) : t.Ready n :=
  ⟨isOver.below, isOver.finished.mono fun _ _ => trivial⟩

namespace Context

variable {Γ : Context} {n : Nat}

/-- The variables are old, and their types are about the same variables. -/
structure Closed (Γ : Context) (n : Nat) : Prop where
  vars : ∀ e ∈ Γ, e.1.id < n
  types : ∀ e ∈ Γ, e.2.Over Γ n

instance (Γ : Context) (n : Nat) : Decidable (Γ.Closed n) :=
  decidable_of_iff ((∀ e ∈ Γ, e.1.id < n) ∧ ∀ e ∈ Γ, e.2.Over Γ n)
    ⟨fun ⟨vars, types⟩ => ⟨vars, types⟩, fun ⟨vars, types⟩ => ⟨vars, types⟩⟩

theorem Closed.ready {s : Store} (closed : s.context.Closed n) : s.Ready n :=
  ⟨closed.vars, fun e member => (closed.types e member).ready⟩

theorem Closed.legible {s : Store} (closed : s.context.Closed n) :
    Types.Legible s.context.reading s where
  known x type found := by
    rw [lookup_reading] at found
    obtain ⟨t, there, same⟩ := Option.map_eq_some_iff.mp found
    exact ⟨t, there, same⟩
  closed x type found := by
    rw [lookup_reading] at found
    obtain ⟨t, there, rfl⟩ := Option.map_eq_some_iff.mp found
    exact (closed.types (x, t) (mem_of_lookup there)).finished

end Context

section Comparing

variable {env : Environment} {low n : Nat} {s s' : Store} {span : Span}

/-- What the comparison looks at in the place of a term. -/
theorem looked (known : env.Ready low) (order : low ≤ n) (ready : s.Ready n) {t : Term}
    (isReady : t.Ready n) :
    Yields (do implementedField s.context env env.fuel (← t.whnf env)) n fun v m => v.Ready m ∧
      ∀ Γ : Types, Γ.Legible s → t.reading.Finished Γ.Scope →
        v.reading.Finished Γ.Scope ∧ Reveals env Γ t.reading v.reading := by
  refine (isReady.reduces known order).bind fun v m next seen => ?_
  obtain ⟨vReady, evaluates, kept⟩ := seen
  refine (implementedField_reveals known ready env.fuel v m (order.trans next) next vReady).weaken ?_
  rintro w k ⟨wReady, reveals⟩
  refine ⟨wReady, fun Γ legible inScope => ?_⟩
  obtain ⟨wInScope, shown⟩ := reveals Γ legible (kept _ inScope)
  exact ⟨wInScope, shown _ evaluates⟩

theorem Term.Ready.noError {t : Term} (ready : t.Ready n) : t.isError = false := by
  cases t with
  | error message term => exact ready.finished.1.elim
  | _ => rfl

theorem Term.Ready.noHole {t : Term} (ready : t.Ready n) : t.hole? = none := by
  cases t with
  | hole m => exact ready.finished.elim
  | _ => rfl

theorem compareDistinct_sound (known : env.Ready low) {distinct : Compare}
    (sound : Sound env low distinct) (fuel : Nat) :
    Sound env low (compareDistinct distinct fuel) := by
  intro left right span s n order ready l r
  unfold compareDistinct
  refine Gives.get ?_
  refine (Gives.reading ready (looked known order ready l)).bind ?_
  intro v s₁ m next ready₁ _ seen
  obtain ⟨rfl, vReady, vSeen⟩ := seen
  refine (Gives.reading ready₁ (looked known (order.trans next) ready₁ (r.mono next))).bind ?_
  intro w s₂ k next₂ ready₂ _ seen
  obtain ⟨rfl, wReady, wSeen⟩ := seen
  have vLater := vReady.mono next₂
  have orderLater := order.trans (next.trans next₂)
  have answer : ∀ {holds : Bool} {s' : Store}, Tells env s₂ v w holds s' →
      Says env s₂ left right holds s' := by
    intro holds s' told yes apart Γ legible inLeft inRight
    obtain ⟨vInScope, vReveals⟩ := vSeen Γ legible inLeft
    obtain ⟨wInScope, wReveals⟩ := wSeen Γ legible inRight
    exact told yes apart Γ legible vInScope wInScope _ _ vReveals wReveals
  split
  · rename_i same
    have equal : v = w := (by simpa using same : _ ∧ v = w).2
    subst equal
    refine Gives.pure ready₂ fun _ _ => answer fun _ _ Γ _ _ _ a b first second => ?_
    exact .shown first second
  rw [vReady.noError, wReady.noError, vReady.noHole, wReady.noHole]
  refine (Gives.reading ready₂ (stuckMeta_none known orderLater vLater)).bind ?_
  rintro _ s₃ i next₃ ready₃ _ ⟨rfl, rfl⟩
  change Gives env (reading w.stuckMeta >>= fun _ => _) _ _ _
  refine (Gives.reading ready₃ (stuckMeta_none known (orderLater.trans next₃)
    (wReady.mono next₃))).bind ?_
  rintro _ s₄ j next₄ ready₄ _ ⟨rfl, rfl⟩
  have latest := next₃.trans next₄
  refine (compareHeads_tells sound (orderLater.trans latest) ready₄ (vLater.mono latest)
    (wReady.mono latest)).weaken ?_
  intro holds s' _ _ _ told _ _ _ _
  exact answer told

theorem compareDistinctWith_sound (known : env.Ready low) (fuel : Nat) :
    Sound env low (compareDistinctWith fuel) := by
  induction fuel with
  | zero =>
      intro left right span s n _ _ _ _
      exact Gives.throw
  | succ fuel ih => exact compareDistinct_sound known ih fuel

theorem compare_sound (known : env.Ready low) : Sound env low Unify.compare := by
  intro left right span s n order ready l r
  refine Gives.looking ?_
  exact (compareDistinctWith_sound known env.fuel).orSame left right span s n order ready l r

/-- Finished terms that are found equal are convertible, and the environment is as before, if no
    variable was in the context already when the comparison has passed its binder. -/
theorem compare_convertible {env' : Environment} {m : Nat} {a b : Term} (known : env.Ready low)
    (order : low ≤ n) (closed : s.context.Closed n) (left : a.Over s.context n)
    (right : b.Over s.context n)
    (equal : Unify.compare a b .eq span s env n = .ok (((true, s'), env'), m)) (apart : s'.Apart) :
    env' = env ∧ Convertible env s.context.reading a.reading b.reading := by
  obtain ⟨same, -, -, -, told⟩ :=
    compare_sound known a b span s n order closed.ready left.ready right.ready true s' env' m equal
  exact ⟨same, told rfl apart _ closed.legible left.finished right.finished⟩

end Comparing

section Examples

open Library

def binary : Var := ⟨29, "f"⟩

def binaryType : Term := .pi .explicit ⟨30, "_"⟩ natType (.pi .explicit ⟨31, "_"⟩ natType natType)

def knowing (Γ : Context) : Store := { Store.empty with context := Γ }

def once : Term :=
  let x : Var := ⟨32, "x"⟩
  .lam .explicit x natType (.app (.ref binary) (.ref x))

def twice : Term :=
  let y : Var := ⟨33, "y"⟩
  let z : Var := ⟨34, "z"⟩
  .lam .explicit y natType (.lam .explicit z natType (.app (.app (.ref binary) (.ref y)) (.ref z)))

/-- A function is what it does, once and once more. -/
theorem once_convertible :
    Unify.compare once twice .eq .none (knowing [(binary, binaryType)]) (environment 10) 35 =
      .ok (((true, knowing [(⟨34, "z"⟩, natType), (⟨32, "x"⟩, natType), (binary, binaryType)]),
        environment 10), 35) ∧
    Convertible (environment 10) (Context.reading [(binary, binaryType)]) once.reading
      twice.reading := by
  have equal : Unify.compare once twice .eq .none (knowing [(binary, binaryType)])
      (environment 10) 35 = .ok (((true, knowing [(⟨34, "z"⟩, natType), (⟨32, "x"⟩, natType),
        (binary, binaryType)]), environment 10), 35) := rfl
  obtain ⟨-, convertible⟩ := compare_convertible (library_ready 10) (by decide) (by decide)
    (by decide) (by decide) equal (by decide)
  exact ⟨equal, convertible⟩

def shared : Var := ⟨29, "x"⟩

/-- The identity, with a binder that is a variable of the context. -/
def itself : Term := .lam .explicit shared natType (.ref shared)

def constantly : Term := .lam .explicit ⟨30, "y"⟩ natType (.ref shared)

/-- Both are functions of the numbers, and they are found equal because the binder of the second one
    is renamed to the variable that is free below it. -/
theorem itself_not_constantly :
    (itself.typeOf? (environment 10) [(shared, natType)]).run 31 =
      .ok (some (.pi .explicit shared natType natType), 31) ∧
    (constantly.typeOf? (environment 10) [(shared, natType)]).run 31 =
      .ok (some (.pi .explicit ⟨30, "y"⟩ natType natType), 31) ∧
    (Term.pi .explicit shared natType natType).AlphaEq (.pi .explicit ⟨30, "y"⟩ natType natType) ∧
    Unify.compare itself constantly .eq .none (knowing [(shared, natType)]) (environment 10) 31 =
      .ok (((true, knowing [(shared, natType), (shared, natType)]), environment 10), 31) ∧
    ¬ Convertible (environment 10) (Context.reading [(shared, natType)]) itself.reading
      constantly.reading :=
  ⟨rfl, rfl, rfl, rfl, identity_not_constant⟩

end Examples

end PathTheory
