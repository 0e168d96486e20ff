import PathTheory.Proofs.Equation.History
import PathTheory.Proofs.Reduction.Blocked
/-!
The order in which equations are put off, woken and taken up again. A course is a history that keeps
to this order: an equation is put off only where something unsolved blocks it, whoever solves a
metavariable wakes its listeners at once, and woken equations are compared until none is left, by
the replay that is under way or by one of their own.
-/
namespace PathTheory

/-- The equation waits for a metavariable that solutions lead to from one of its sides. -/
def Equation.Awaits (e : Equation) (env : Environment) (m : MetaId) : Prop :=
  env.solution? m = none ∧ (env.Reaches e.left m ∨ env.Reaches e.right m)

/-- A side that is stuck on an error. -/
def Equation.Vacuous (e : Equation) (env : Environment) : Prop :=
  ∃ side t blocker : Term, ∃ n k i j, (side = e.left ∨ side = e.right) ∧
    side.zonk env [] n = .ok (t, k) ∧ t.stuckOn env i = .ok (some blocker, j) ∧
    blocker.isError = true

/-- The diagnostic says that the equation has not been solved. -/
def Equation.Unsolved (e : Equation) (env : Environment) (d : Diagnostic) : Prop :=
  ∃ left right n k i j leftText rightText, e.left.zonk env [] n = .ok (left, k) ∧
    e.right.zonk env [] i = .ok (right, j) ∧ left.text = .ok leftText ∧
    right.text = .ok rightText ∧ d = ⟨e.span, .unsolvedEquation leftText rightText e.cmp⟩

/-- Every bound is a record type. -/
def Store.Records (s : Store) : Prop := ∀ b : RecordBound,
  b ∈ s.lowerBounds ∨ b ∈ s.upperBounds → b.record.isRecord = true

namespace Unify

/-- Equations are where they were, the same metavariables are solved, and new bounds are record
    types. -/
structure Undisturbed (s : Store) (env : Environment) (s' : Store) (env' : Environment) : Prop where
  equations : s'.equations = s.equations
  listeners : s'.listeners = s.listeners
  worklist : s'.worklist = s.worklist
  replaying : s'.replaying = s.replaying
  solution : ∀ m, env'.solution? m = env.solution? m
  records : s.Records → s'.Records

/-- What has become of a metavariable when its listeners are woken: it has a solution or an error
    for one, or it had one before. -/
inductive Installed (m : MetaId) : Store → Environment → Store → Environment → Environment → Prop
  | nothing {s : Store} {env : Environment} : Installed m s env s env env
  | fail {s : Store} {env env' : Environment} {message : String}
      (solved : env.solve m (.error message none) = .ok env') : Installed m s env s env env'
  | solve {s s' : Store} {env env' env'' : Environment} {value : Term}
      (accepted : Accepted m value s env s' env') (solved : env'.solve m value = .ok env'') :
      Installed m s env s' env' env''

/-- An equation is compared, and a mismatch is reported if the comparison fails. -/
def Replayed (e : Equation) (s : Store) (env : Environment) (s' : Store) (env' : Environment)
    (told : Store) : Prop :=
  ∃ (compare : Compare) (n k : Nat) (holds : Bool), compare.Own ∧
    compare e.left e.right e.cmp e.span s env n = .ok (((holds, s'), env'), k) ∧
    if holds then told = s' else ∃ d, Diagnostic.mismatch e.span e.right e.left = .ok d ∧
      told = { s' with diagnostics := s'.diagnostics.push d }

/-- The store is closed: what was put off is given up. -/
structure Closing (s : Store) (env : Environment) (s' : Store) (env' : Environment) : Prop where
  history : History s env s' env'
  equations : s'.equations = s.equations.map fun _ => none
  worklist : s'.worklist = s.worklist
  replaying : s'.replaying = s.replaying
  records : s.Records → s'.Records
  given : ∀ e ∈ s.pending, e.Vacuous env ∨ ∃ d ∈ s'.diagnostics, e.Unsolved env d

/-- A history in order, with the equations that are put off on the way. -/
inductive Course : Store → Environment → List Equation → Store → Environment → Prop
  | start {s : Store} {env : Environment} : Course s env [] s env
  | quiet {s s₁ s₂ : Store} {env env₁ env₂ : Environment} {put : List Equation}
      (before : Course s env put s₁ env₁) (change : Change s₁ env₁ s₂ env₂)
      (aside : Undisturbed s₁ env₁ s₂ env₂) : Course s env put s₂ env₂
  | defer {s s₁ : Store} {env env₁ : Environment} {put : List Equation}
      (before : Course s env put s₁ env₁) (e : Equation) (blockers : List MetaId)
      (blocked : env₁.Determined → ∃ m ∈ blockers, e.Awaits env₁ m) :
      Course s env (put ++ [e]) (s₁.defer e blockers) env₁
  -- woken equations are left to the replay that is under way
  | within {s s₁ s₂ : Store} {env env₁ env₂ env₃ : Environment} {put checked : List Equation}
      {m : MetaId} (before : Course s env put s₁ env₁) (checking : Course s₁ env₁ checked s₂ env₂)
      (installed : Installed m s₁ env₁ s₂ env₂ env₃) (busy : s₂.replaying = true) :
      Course s env (put ++ checked) (s₂.wake m) env₃
  | drain {s s₁ s₂ s₃ : Store} {env env₁ env₂ env₃ env₄ : Environment}
      {put checked woken : List Equation} {m : MetaId} (before : Course s env put s₁ env₁)
      (checking : Course s₁ env₁ checked s₂ env₂) (installed : Installed m s₁ env₁ s₂ env₂ env₃)
      (idle : s₂.replaying = false)
      (draining : Course { s₂.wake m with replaying := true } env₃ woken s₃ env₄)
      (exhausted : s₃.next? s₃.worklist = none) :
      Course s env (put ++ checked ++ woken) { s₃ with worklist := [], replaying := false } env₄
  | replay {s s₁ s₂ s₃ s₄ : Store} {env env₁ env₂ : Environment} {put compared : List Equation}
      {e : Equation} (before : Course s env put s₁ env₁)
      (found : s₁.next? s₁.worklist = some (e, s₂)) (comparing : Course s₂ env₁ compared s₃ env₂)
      (replayed : Replayed e s₂ env₁ s₃ env₂ s₄) : Course s env (put ++ compared) s₄ env₂
  | close {s s₁ s₂ : Store} {env env₁ env₂ : Environment} {put : List Equation}
      (before : Course s env put s₁ env₁) (idle : s₁.replaying = false)
      (closing : Closing s₁ env₁ s₂ env₂) : Course s env put s₂ env₂

namespace Course

variable {s s₁ s₂ : Store} {env env₁ env₂ : Environment} {put more : List Equation}

theorem trans (first : Course s env put s₁ env₁) (next : Course s₁ env₁ more s₂ env₂) :
    Course s env (put ++ more) s₂ env₂ := by
  induction next with
  | start => rwa [List.append_nil]
  | quiet _ change aside ih => exact .quiet (ih first) change aside
  | defer _ e blockers blocked ih =>
      rw [← List.append_assoc]
      exact .defer (ih first) e blockers blocked
  | within _ checking installed busy ih _ =>
      rw [← List.append_assoc]
      exact .within (ih first) checking installed busy
  | drain _ checking installed idle draining exhausted ih _ _ =>
      rw [← List.append_assoc, ← List.append_assoc]
      exact .drain (ih first) checking installed idle draining exhausted
  | replay _ found comparing replayed ih _ =>
      rw [← List.append_assoc]
      exact .replay (ih first) found comparing replayed
  | close _ idle closing ih => exact .close (ih first) idle closing

end Course

/-- Solving is accepted or given up by an error, if anything is solved. -/
theorem Installed.history {m : MetaId} {s s₁ : Store} {env env₁ env₂ : Environment}
    (installed : Installed m s env s₁ env₁ env₂) (checking : History s env s₁ env₁) :
    History s env s₁ env₂ := by
  cases installed with
  | nothing => exact checking
  | fail solved => exact .change checking (.fail solved)
  | solve accepted solved => exact .solve .start checking accepted solved

theorem Replayed.history {e : Equation} {s s₁ s₂ : Store} {env env₁ : Environment}
    (replayed : Replayed e s env s₁ env₁ s₂) : History s₁ env₁ s₂ env₁ := by
  obtain ⟨_, _, _, holds, _, _, told⟩ := replayed
  cases holds with
  | true =>
      cases told
      exact .start
  | false =>
      obtain ⟨d, _, rfl⟩ := told
      exact .single (.report d)

theorem Course.history {s s' : Store} {env env' : Environment} {put : List Equation}
    (course : Course s env put s' env') : History s env s' env' := by
  induction course with
  | start => exact .start
  | quiet _ change _ ih => exact .change ih change
  | defer _ e blockers _ ih => exact .change ih (.defer e blockers)
  | within _ _ installed _ ih checked =>
      exact ih.trans (.change (installed.history checked) (.wake _))
  | drain _ _ installed _ _ exhausted ih checked drained =>
      have woken := History.trans (.single (.wake _)) (.trans (.single .replay) drained)
      exact (ih.trans (installed.history checked)).trans (.change woken (.rest exhausted))
  | replay _ found _ replayed ih compared =>
      exact (History.change ih (.take found)).trans (compared.trans replayed.history)
  | close _ _ closing ih => exact ih.trans closing.history

/-- Leads from one state of a store and its environment to another. -/
abbrev Way := Store → Environment → Store → Environment → Prop

/-- Ways can be put together, and are histories at least. -/
class Passage (way : Way) : Prop where
  start : ∀ s env, way s env s env
  trans : ∀ {s s₁ s₂ env env₁ env₂}, way s env s₁ env₁ → way s₁ env₁ s₂ env₂ → way s env s₂ env₂
  history : ∀ {s s' env env'}, way s env s' env' → History s env s' env'

instance : Passage History := ⟨fun _ _ => .start, .trans, id⟩

/-- There is a course from one state to another. -/
def Orderly : Way := fun s env s' env' => ∃ put, Course s env put s' env'

theorem Orderly.aside {s s' : Store} {env env' : Environment} (change : Change s env s' env')
    (aside : Undisturbed s env s' env') : Orderly s env s' env' := ⟨[], .quiet .start change aside⟩

theorem Orderly.defer {s : Store} {env : Environment} (e : Equation) {blockers : List MetaId}
    (blocked : env.Determined → ∃ m ∈ blockers, e.Awaits env m) :
    Orderly s env (s.defer e blockers) env := ⟨[e], .defer .start e blockers blocked⟩

instance : Passage Orderly where
  start _ _ := ⟨[], .start⟩
  trans := fun ⟨_, first⟩ ⟨_, next⟩ => ⟨_, first.trans next⟩
  history := fun ⟨_, course⟩ => course.history

end Unify

end PathTheory
