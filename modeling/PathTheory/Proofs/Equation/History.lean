import PathTheory.Equation.Conversion
import PathTheory.Proofs.Run
/-!
What happens to a store and its environment while equations are solved. A history is a chain of
changes that need no check and of solutions that are recorded after the checks of scope and type;
the comparison of types comes between the first check and the solution, and has a history of its
own. Whatever every link keeps is kept by all of it: nothing that has been made, solved, demanded or
noted is ever taken back.
-/
namespace PathTheory

namespace LevelEquations

theorem mem_push {e : LevelEquations} {c : LevelConstraint} {left right : Level} :
    c ∈ (e.push left right).constraints ↔ c ∈ e.constraints ∨ c = ⟨left, right, e.span⟩ := by
  simp [push]

theorem record_constraints {e : LevelEquations} {d : Demand} {c : LevelConstraint}
    (listed : c ∈ e.constraints) : c ∈ (e.record d).constraints := by
  unfold record
  split
  · exact mem_push.mpr (.inl listed)
  · exact mem_push.mpr (.inl listed)
  · exact mem_push.mpr (.inl (mem_push.mpr (.inl listed)))

theorem recordAll_constraints {e : LevelEquations} (ds : List Demand) {c : LevelConstraint}
    (listed : c ∈ e.constraints) : c ∈ (e.recordAll ds).constraints := by
  induction ds generalizing e with
  | nil => exact listed
  | cons d ds ih => exact ih (record_constraints listed)

/-- What is demanded to be at most something becomes a constraint. -/
theorem recordAll_demanded {e : LevelEquations} {ds : List Demand} {a b : Level}
    (demanded : ⟨a, b, .le⟩ ∈ ds) : ∃ span, ⟨a, b, span⟩ ∈ (e.recordAll ds).constraints := by
  induction ds generalizing e with
  | nil => cases demanded
  | cons d ds ih =>
      rcases List.mem_cons.mp demanded with rfl | demanded
      · exact ⟨e.span, recordAll_constraints ds (mem_push.mpr (.inr rfl))⟩
      · exact ih demanded

end LevelEquations

namespace Environment

variable {env env' : Environment} {m : MetaId} {value : Term}

/-- Solving gives an unsolved metavariable its solution and leaves everything else alone. -/
theorem solve_ok (solved : env.solve m value = .ok env') : ∃ entry, env.meta? m = some entry ∧
    entry.solution = none ∧ env' = { env with
      metas := env.metas.setIfInBounds m.index { entry with solution := some value } } := by
  unfold solve at solved
  split at solved
  · cases solved
  · rename_i entry found
    split at solved
    · cases solved
    · rename_i unsolved
      cases solved
      exact ⟨entry, found, unsolved, rfl⟩

theorem solve_unsolved (solved : env.solve m value = .ok env') : env.solution? m = none := by
  obtain ⟨entry, found, unsolved, _⟩ := solve_ok solved
  simp [solution?, found, unsolved]

theorem solve_size (solved : env.solve m value = .ok env') :
    env'.metas.size = env.metas.size := by
  obtain ⟨_, _, _, rfl⟩ := solve_ok solved
  exact Array.size_setIfInBounds

theorem solve_meta? (solved : env.solve m value = .ok env') (k : MetaId) :
    env'.meta? k =
      if k = m then (env.meta? m).map ({ · with solution := some value }) else env.meta? k := by
  obtain ⟨entry, found, unsolved, rfl⟩ := solve_ok solved
  have bound : m.index < env.metas.size := (Array.getElem?_eq_some_iff.mp found).1
  unfold meta?
  rw [Array.getElem?_setIfInBounds]
  by_cases same : k = m
  · subst same
    have here : env.metas[k.index]? = some entry := found
    rw [if_pos rfl, if_pos bound, if_pos rfl, here]
    rfl
  · have differ : m.index ≠ k.index := fun equal => same (by cases m; cases k; simp_all)
    simp [same, differ]

theorem solve_solution? (solved : env.solve m value = .ok env') (k : MetaId) :
    env'.solution? k = if k = m then some value else env.solution? k := by
  obtain ⟨entry, found, _, _⟩ := solve_ok solved
  unfold solution?
  rw [solve_meta? solved k]
  split
  · simp [found]
  · rfl

theorem freshMeta_meta? (env : Environment) (name : String) (type : Term) (scope : List Var)
    (kind : MetaKind) (span : Span) (k : MetaId) :
    (env.freshMeta name type scope kind span).2.meta? k =
      if k.index = env.metas.size then some ⟨name, type, scope, kind, none, span⟩
      else env.meta? k := by
  simp only [freshMeta, meta?, Array.getElem?_push]

theorem freshMeta_solution? (env : Environment) (name : String) (type : Term) (scope : List Var)
    (kind : MetaKind) (span : Span) (k : MetaId) :
    (env.freshMeta name type scope kind span).2.solution? k = env.solution? k := by
  unfold solution?
  rw [freshMeta_meta?]
  split
  · rename_i last
    have missing : env.meta? k = none := Array.getElem?_eq_none (Nat.le_of_eq last.symm)
    rw [missing]
    rfl
  · rfl

end Environment

theorem Store.mem_pending {s : Store} {e : Equation} :
    e ∈ s.pending ↔ ∃ id : Nat, s.equations[id]? = some (some e) := by
  simp [pending, ← Array.mem_iff_getElem?]

namespace Unify

/-- One thing that is done to the store or to the environment without a check. -/
inductive Change : Store → Environment → Store → Environment → Prop
  | report {s : Store} {env : Environment} (d : Diagnostic) :
      Change s env { s with diagnostics := s.diagnostics.push d } env
  | bind {s : Store} {env : Environment} (x : Var) (type : Term) :
      Change s env { s with context := (x, type) :: s.context } env
  | demand {s : Store} {env : Environment} (span : Span) (ds : List Demand) :
      Change s env
        { s with levels := ({ s.levels with span } : LevelEquations).recordAll ds } env
  | levels {s : Store} {env : Environment} : Change s env s env.freshUniverse.2
  | hole {s : Store} {env : Environment} (name : String) (type : Term) (scope : List Var)
      (kind : MetaKind) (span : Span) :
      Change s env { s with metas := s.metas.push (env.freshMeta name type scope kind span).1 }
        (env.freshMeta name type scope kind span).2
  | defer {s : Store} {env : Environment} (e : Equation) (blockers : List MetaId) :
      Change s env (s.defer e blockers) env
  | prop {s : Store} {env : Environment} (m : MetaId) (span : Span) :
      Change s env { s with props := s.props.push (m, span) } env
  | lower {s : Store} {env : Environment} (bound : RecordBound) :
      Change s env { s with lowerBounds := s.lowerBounds.push bound } env
  | upper {s : Store} {env : Environment} (bound : RecordBound) :
      Change s env { s with upperBounds := s.upperBounds.push bound } env
  | wake {s : Store} {env : Environment} (m : MetaId) : Change s env (s.wake m) env
  | replay {s : Store} {env : Environment} : Change s env { s with replaying := true } env
  | take {s s' : Store} {env : Environment} {e : Equation}
      (found : s.next? s.worklist = some (e, s')) : Change s env s' env
  | rest {s : Store} {env : Environment} (nothing : s.next? s.worklist = none) :
      Change s env { s with worklist := [], replaying := false } env
  | drop {s : Store} {env : Environment} :
      Change s env { s with equations := s.equations.map fun _ => none } env
  -- what cannot be solved otherwise
  | fail {s : Store} {env env' : Environment} {m : MetaId} {message : String}
      (solved : env.solve m (.error message none) = .ok env') : Change s env s env'

/-- The comparisons that check the types of solutions. -/
def Compare.Own (compare : Compare) : Prop :=
  compare = Unify.compare ∨ ∃ depth, compare = (compareDistinctWith depth).orSame

/-- The checks that a solution has passed: the first one changes nothing, the comparison of types
    goes on to another store and environment. -/
def Accepted (m : MetaId) (value : Term) (s : Store) (env : Environment) (s' : Store)
    (env' : Environment) : Prop :=
  ∃ (compare : Compare) (entry : MetaEntry) (span : Span) (n k l : Nat), compare.Own ∧
    env.meta? m = some entry ∧
    scopeProblem m entry value span s env n = .ok (((none, s), env), k) ∧
    typeProblem compare entry value span s env k = .ok (((none, s'), env'), l)

/-- What has happened between two states. -/
inductive History : Store → Environment → Store → Environment → Prop
  | start {s : Store} {env : Environment} : History s env s env
  | change {s s₁ s₂ : Store} {env env₁ env₂ : Environment} (before : History s env s₁ env₁)
      (change : Change s₁ env₁ s₂ env₂) : History s env s₂ env₂
  -- the solution is recorded where the comparison of types has left off
  | solve {s s₁ s₂ : Store} {env env₁ env₂ env₃ : Environment} {m : MetaId} {value : Term}
      (before : History s env s₁ env₁) (checking : History s₁ env₁ s₂ env₂)
      (accepted : Accepted m value s₁ env₁ s₂ env₂) (solved : env₂.solve m value = .ok env₃) :
      History s env s₂ env₃

/-- Nothing that has to stay has gone between two states, and what has been made is listed. -/
structure Grows (s : Store) (env : Environment) (s' : Store) (env' : Environment) : Prop where
  definitions : env'.definitions = env.definitions
  instances : env'.instances = env.instances
  fuel : env'.fuel = env.fuel
  size : env.metas.size ≤ env'.metas.size
  solution : ∀ m t, env.solution? m = some t → env'.solution? m = some t
  metas : ∀ m ∈ s.metas, m ∈ s'.metas
  made : ∀ m : MetaId, env.metas.size ≤ m.index → m.index < env'.metas.size → m ∈ s'.metas
  constraints : ∀ c ∈ s.levels.constraints, c ∈ s'.levels.constraints
  diagnostics : ∀ d ∈ s.diagnostics, d ∈ s'.diagnostics

namespace Grows

variable {s s₁ s₂ : Store} {env env₁ env₂ : Environment}

theorem refl (s : Store) (env : Environment) : Grows s env s env where
  definitions := rfl
  instances := rfl
  fuel := rfl
  size := Nat.le_refl _
  solution := fun _ _ solved => solved
  metas := fun _ listed => listed
  made := fun _ old new => absurd new (Nat.not_lt.mpr old)
  constraints := fun _ listed => listed
  diagnostics := fun _ noted => noted

theorem trans (first : Grows s env s₁ env₁) (next : Grows s₁ env₁ s₂ env₂) :
    Grows s env s₂ env₂ where
  definitions := next.definitions.trans first.definitions
  instances := next.instances.trans first.instances
  fuel := next.fuel.trans first.fuel
  size := Nat.le_trans first.size next.size
  solution := fun m t solved => next.solution m t (first.solution m t solved)
  metas := fun m listed => next.metas m (first.metas m listed)
  made := fun m old new => by
    by_cases between : m.index < env₁.metas.size
    · exact next.metas m (first.made m old between)
    · exact next.made m (Nat.not_lt.mp between) new
  constraints := fun c listed => next.constraints c (first.constraints c listed)
  diagnostics := fun d noted => next.diagnostics d (first.diagnostics d noted)

theorem of_solve {m : MetaId} {value : Term} (solved : env.solve m value = .ok env₁) :
    Grows s env s env₁ := by
  obtain ⟨entry, _, _, same⟩ := Environment.solve_ok solved
  have size := Environment.solve_size solved
  refine { refl s env with
    definitions := by rw [same]
    instances := by rw [same]
    fuel := by rw [same]
    size := Nat.le_of_eq size.symm
    solution := fun k t known => ?_
    made := fun k old new => absurd new (by rw [size]; exact Nat.not_lt.mpr old) }
  rw [Environment.solve_solution? solved]
  split
  · rename_i again
    rw [again, Environment.solve_unsolved solved] at known
    cases known
  · exact known

end Grows

theorem next?_equation {s s' : Store} {e : Equation} {ids : List Nat}
    (found : s.next? ids = some (e, s')) : ∃ id rest, s.equations[id]? = some (some e) ∧
      s' = { s with equations := s.equations.setIfInBounds id none, worklist := rest } := by
  induction ids with
  | nil => cases found
  | cons id rest ih =>
      unfold Store.next? at found
      split at found
      · rename_i here
        cases found
        exact ⟨id, rest, Option.join_eq_some_iff.mp here, rfl⟩
      · exact ih found

/-- What definitions are called is settled when they are made. -/
theorem Change.names {s s' : Store} {env env' : Environment} (change : Change s env s' env') :
    env'.names = env.names := by
  cases change with
  | fail solved =>
      obtain ⟨_, _, _, rfl⟩ := Environment.solve_ok solved
      rfl
  | _ => rfl

theorem Change.grows {s s' : Store} {env env' : Environment} (change : Change s env s' env') :
    Grows s env s' env' := by
  cases change with
  | report d =>
      exact { Grows.refl s env with diagnostics := fun _ noted => Array.mem_push.mpr (.inl noted) }
  | demand span ds =>
      exact { Grows.refl s env with
        constraints := fun _ listed => LevelEquations.recordAll_constraints ds listed }
  | hole name type scope kind span =>
      have size : (env.freshMeta name type scope kind span).2.metas.size = env.metas.size + 1 :=
        Array.size_push ..
      refine { Grows.refl s env with
        size := by omega
        solution := fun k t known => ?_
        metas := fun _ listed => Array.mem_push.mpr (.inl listed)
        made := fun k old new => Array.mem_push.mpr (.inr ?_) }
      · rw [Environment.freshMeta_solution?]
        exact known
      · have last : k.index = env.metas.size := by omega
        cases k
        exact congrArg MetaId.mk last
  | take found =>
      obtain ⟨_, _, _, rfl⟩ := next?_equation found
      exact { Grows.refl s env with }
  | fail solved => exact .of_solve solved
  | _ => exact { Grows.refl s env with }

namespace History

variable {s s₁ s₂ : Store} {env env₁ env₂ : Environment}

theorem single (change : Change s env s₁ env₁) : History s env s₁ env₁ := .change .start change

theorem trans (first : History s env s₁ env₁) (next : History s₁ env₁ s₂ env₂) :
    History s env s₂ env₂ := by
  induction next with
  | start => exact first
  | change _ change ih => exact .change (ih first) change
  | solve _ checking accepted solved ih _ => exact .solve (ih first) checking accepted solved

theorem grows (history : History s env s₁ env₁) : Grows s env s₁ env₁ := by
  induction history with
  | start => exact .refl _ _
  | change _ change ih => exact ih.trans change.grows
  | solve _ _ _ solved ih checked => exact (ih.trans checked).trans (.of_solve solved)

theorem names (history : History s env s₁ env₁) : env₁.names = env.names := by
  induction history with
  | start => rfl
  | change _ change ih => exact change.names.trans ih
  | solve _ _ _ solved ih checked =>
      obtain ⟨_, _, _, rfl⟩ := Environment.solve_ok solved
      exact checked.trans ih

end History

theorem unify_bind {α β : Type} {a : Unify α} {f : α → Unify β} {s : Store} {env : Environment}
    {n : Nat} {r : ((β × Store) × Environment) × Nat} (done : (a >>= f) s env n = .ok r) :
    ∃ x s' env' m, a s env n = .ok (((x, s'), env'), m) ∧ f x s' env' m = .ok r := by
  obtain ⟨⟨⟨⟨x, s'⟩, env'⟩, m⟩, first, rest⟩ := bind_ok (a := a s env n) done
  exact ⟨x, s', env', m, first, rest⟩

theorem unify_then {α β : Type} {a : Unify α} {x : α} {s s' : Store} {env env' : Environment}
    {n m : Nat} (first : a s env n = .ok (((x, s'), env'), m)) {f : α → Unify β}
    {r : Checked (((β × Store) × Environment) × Nat)} (rest : f x s' env' m = r) :
    (a >>= f) s env n = r := by
  change (a s env n >>= fun r => f r.1.1.1 r.1.1.2 r.1.2 r.2) = _
  rw [first]
  exact rest

/-- The computation ends, and where it ends passes the test. -/
def endsIn {α : Type} (a : Unify α) (s : Store) (env : Environment) (n : Nat)
    (test : α → Store → Environment → Nat → Bool) : Bool :=
  match a s env n with
  | .ok (((x, s'), env'), m) => test x s' env' m
  | .error _ => false

theorem endsIn_run {α : Type} {a : Unify α} {s : Store} {env : Environment} {n : Nat}
    {test : α → Store → Environment → Nat → Bool} (ends : endsIn a s env n test = true) :
    ∃ x s' env' m, a s env n = .ok (((x, s'), env'), m) ∧ test x s' env' m = true := by
  unfold endsIn at ends
  split at ends
  · rename_i x s' env' m run
    exact ⟨x, s', env', m, run, ends⟩
  · cases ends

/-- Computations with terms know nothing of the store. -/
theorem unify_lift {α : Type} {a : Fresh α} {s s' : Store} {env env' : Environment} {n m : Nat}
    {x : α} (done : (liftM a : Unify α) s env n = .ok (((x, s'), env'), m)) :
    s' = s ∧ env' = env ∧ a n = .ok (x, m) := by
  change ((a n >>= fun r => _) >>= fun r => _) = _ at done
  obtain ⟨_, first, rest⟩ := bind_ok done
  obtain ⟨_, run, same⟩ := bind_ok first
  cases same
  cases rest
  exact ⟨rfl, rfl, run⟩

theorem readEnv_run {α : Type} {r : Environment → Fresh α} {s s' : Store} {env env' : Environment}
    {n k : Nat} {x : α} (done : reading r s env n = .ok (((x, s'), env'), k)) :
    s' = s ∧ env' = env ∧ r env n = .ok (x, k) := unify_lift (a := r env) done

theorem checked_run {α : Type} {a : Checked α} {s s' : Store} {env env' : Environment} {n m : Nat}
    {x : α} (done : (liftM a : Unify α) s env n = .ok (((x, s'), env'), m)) :
    s' = s ∧ env' = env ∧ m = n ∧ a = .ok x := by
  cases a with
  | error fault => cases done
  | ok y =>
      cases done
      exact ⟨rfl, rfl, rfl, rfl⟩

end Unify

end PathTheory
