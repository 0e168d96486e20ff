import PathTheory.Proofs.Equation.Acyclic
/-!
Scopes of solutions. A solution is recorded once all of its own variables are in the scope of its
metavariable; but it may mention metavariables whose scopes are larger, and these are solved without
another look at it. So a variable comes out of scope exactly where a metavariable brings it into a
solution whose scope does not have it.
-/
namespace PathTheory

open Relation

mutual

/-- Where metavariables stand: each occurrence with the variables bound above it. -/
def Scoped.places : Scoped → List (MetaId × List Var)
  | .var _ => []
  | .hole m => [(m, [])]
  | .node _ parts => parts.places

def Parts.places : Parts → List (MetaId × List Var)
  | .nil => []
  | .part t rest => t.places ++ rest.places
  | .binder _ x rest => rest.places.map fun place => (place.1, x :: place.2)

end

def Term.places (t : Term) : List (MetaId × List Var) := t.toScoped.places

section Zonking

variable {rule : HoleRule} {brings : MetaId → Var → Prop} {x : Var} {n k : Nat}

/-- Metavariables bring variables to the places where they stand. -/
def BringsTo (brings : MetaId → Var → Prop) (x : Var) (places : List (MetaId × List Var)) : Prop :=
  ∃ place ∈ places, brings place.1 x ∧ x ∉ place.2

theorem bringsTo_append {first rest : List (MetaId × List Var)} :
    BringsTo brings x (first ++ rest) ↔ BringsTo brings x first ∨ BringsTo brings x rest := by
  simp only [BringsTo, List.mem_append, or_and_right, exists_or]

theorem bringsTo_under {y : Var} {places : List (MetaId × List Var)} :
    BringsTo brings x (places.map fun place => (place.1, y :: place.2)) ↔
      BringsTo brings x places ∧ x ≠ y := by
  constructor
  · rintro ⟨_, member, brought, unbound⟩
    obtain ⟨place, inside, rfl⟩ := List.mem_map.mp member
    have apart := List.ne_of_not_mem_cons unbound
    exact ⟨⟨place, inside, brought, List.not_mem_of_not_mem_cons unbound⟩, apart⟩
  · rintro ⟨⟨place, inside, brought, outside⟩, apart⟩
    exact ⟨_, List.mem_map_of_mem inside, brought,
      List.not_mem_cons_of_ne_of_not_mem apart outside⟩

mutual

/-- Free once solutions are put in is what was free before and what they bring. -/
theorem Scoped.mem_zonked (ends : ∀ m i u j, rule .zonking m i = .ok (u, j) →
      (x ∈ u.freeVars ↔ brings m x)) : ∀ (t : Scoped) {n k : Nat} {r : Scoped},
    t.subst rule .zonking n = .ok (r, k) →
      (x ∈ r.freeVars ↔ x ∈ t.freeVars ∨ BringsTo brings x t.places)
  | .var y, n, k, r, done => by
      cases done
      have same : ((Subst.zonking.get? y).getD (.ref y)).toScoped = .var y := rfl
      simp [same, BringsTo, Scoped.places]
  | .hole m, n, k, r, done => by
      obtain ⟨u, j, run, same⟩ := fresh_map done
      cases same
      rw [Term.toScoped_freeVars, ends m n u _ run]
      simp [BringsTo, Scoped.places, Scoped.freeVars]
  | .node l parts, n, k, r, done => by
      unfold Scoped.subst at done
      have label : l.mapM Subst.zonking.sort = .ok l := Label.mapM_self (fun _ => rfl) l
      rw [label] at done
      obtain ⟨l', i, labelled, done⟩ := fresh_bind done
      cases labelled
      obtain ⟨parts', j, run, done⟩ := fresh_bind done
      cases fresh_pure done
      exact parts.mem_zonked ends run

theorem Parts.mem_zonked (ends : ∀ m i u j, rule .zonking m i = .ok (u, j) →
      (x ∈ u.freeVars ↔ brings m x)) : ∀ (t : Parts) {n k : Nat} {r : Parts},
    t.subst rule .zonking n = .ok (r, k) →
      (x ∈ r.freeVars ↔ x ∈ t.freeVars ∨ BringsTo brings x t.places)
  | .nil, n, k, r, done => by
      cases done
      simp [BringsTo, Parts.places]
  | .part t rest, n, k, r, done => by
      obtain ⟨t', i, head, done⟩ := fresh_bind done
      obtain ⟨rest', j, tail, done⟩ := fresh_bind done
      cases fresh_pure done
      rw [Parts.freeVars, Parts.freeVars, Parts.places, List.mem_append, List.mem_append,
        bringsTo_append, t.mem_zonked ends head, rest.mem_zonked ends tail]
      tauto
  | .binder mode y rest, n, k, r, done => by
      obtain ⟨inner, i, passed, done⟩ := fresh_bind done
      cases passed
      obtain ⟨rest', j, run, done⟩ := fresh_bind done
      cases fresh_pure done
      have inside := rest.mem_zonked ends run
      simp only [Parts.freeVars, Parts.places, List.mem_filter, bringsTo_under, inside, bne_iff_ne]
      tauto

end

end Zonking

namespace Environment

variable {env env' : Environment} {m : MetaId} {x : Var}

/-- A variable that stands in the solution of a metavariable, or that a metavariable in there brings
    along. -/
inductive Shows (env : Environment) : MetaId → Var → Prop
  | own {m : MetaId} {x : Var} {t : Term} (solved : env.solution? m = some t)
      (free : x ∈ t.freeVars) : Shows env m x
  | through {m : MetaId} {x : Var} {t : Term} {place : MetaId × List Var}
      (solved : env.solution? m = some t) (stands : place ∈ t.places) (shown : Shows env place.1 x)
      (unbound : x ∉ place.2) : Shows env m x

theorem shows_iff {t : Term} (solved : env.solution? m = some t) :
    env.Shows m x ↔ x ∈ t.freeVars ∨ BringsTo env.Shows x t.places := by
  constructor
  · intro shown
    cases shown with
    | own solved' free =>
        cases solved.symm.trans solved'
        exact .inl free
    | through solved' stands shown unbound =>
        cases solved.symm.trans solved'
        exact .inr ⟨_, stands, shown, unbound⟩
  · rintro (free | ⟨place, stands, shown, unbound⟩)
    · exact .own solved free
    · exact .through solved stands shown unbound

theorem not_shows (unsolved : env.solution? m = none) : ¬ env.Shows m x := by
  rintro (⟨solved, _⟩ | ⟨solved, _, _, _⟩) <;> cases unsolved.symm.trans solved

theorem mem_unsolved (unsolved : env.solution? m = none) {fuel n k : Nat} {z : Term}
    (done : Subst.holeRule env fuel .zonking m n = .ok (z, k)) :
    x ∈ z.freeVars ↔ env.Shows m x := by
  rw [Subst.holeRule_unsolved unsolved] at done
  cases fresh_pure done
  exact iff_of_false List.not_mem_nil (not_shows unsolved)

/-- What an expanded metavariable mentions is what it shows. -/
theorem mem_expanded (fuel : Nat) {n k : Nat} {z : Term}
    (done : Subst.holeRule env fuel .zonking m n = .ok (z, k)) :
    x ∈ z.freeVars ↔ env.Shows m x := by
  induction fuel generalizing m n k z with
  | zero =>
      cases solved : env.solution? m with
      | none => exact mem_unsolved solved done
      | some t =>
          simp [Subst.holeRule, Subst.zonking, solved] at done
          cases done
  | succ fuel ih =>
      cases solved : env.solution? m with
      | none => exact mem_unsolved solved done
      | some t =>
          rw [Subst.holeRule_solved solved] at done
          have tree := fresh_map_of_ok done Term.toScoped
          rw [← Term.toScoped_subst] at tree
          rw [← Term.toScoped_freeVars, shows_iff solved, ← t.toScoped_freeVars]
          exact t.toScoped.mem_zonked (fun m i u j run => ih run) tree

/-- The variables that stand in solutions themselves are in scope. -/
def InScope (env : Environment) : Prop := ∀ m entry t, env.meta? m = some entry →
  entry.solution = some t → ∀ x ∈ t.freeVars, x ∈ entry.scope

/-- Whatever an expanded solution mentions is in the scope of its metavariable. -/
def Confined (env : Environment) : Prop := ∀ m entry z n k, env.meta? m = some entry →
  (Term.hole m).zonk env [] n = .ok (z, k) → ∀ x ∈ z.freeVars, x ∈ entry.scope

/-- A metavariable in a solution has a variable in its scope that is neither in the scope of the
    solution nor bound where the metavariable stands, and it comes to show this variable. -/
def Outreaches (env : Environment) : Prop :=
  ∃ m entry t place inner x, env.meta? m = some entry ∧ entry.solution = some t ∧
    place ∈ t.places ∧ env.meta? place.1 = some inner ∧ x ∈ inner.scope ∧ x ∉ entry.scope ∧
    x ∉ place.2 ∧ env.Shows place.1 x

/-- Where metavariables stand in solutions their scopes are no larger. -/
def Nested (env : Environment) : Prop := ∀ m entry t, env.meta? m = some entry →
  entry.solution = some t → ∀ place ∈ t.places, ∀ inner, env.meta? place.1 = some inner →
    ∀ x ∈ inner.scope, x ∈ entry.scope ∨ x ∈ place.2

theorem solution?_of_meta? {entry : MetaEntry} (known : env.meta? m = some entry) :
    env.solution? m = entry.solution := by
  simp [solution?, known]

/-- On the way of a variable out of the scope of a solution there is a first metavariable that has it
    in its scope. -/
theorem outreaches_of_shows (inScope : env.InScope) (shown : env.Shows m x) {entry : MetaEntry}
    (known : env.meta? m = some entry) (outside : x ∉ entry.scope) : env.Outreaches := by
  induction shown generalizing entry with
  | own solved free =>
      rw [solution?_of_meta? known] at solved
      exact absurd (inScope _ entry _ known solved _ free) outside
  | @through m x t place solved stands shown unbound ih =>
      have found : ∃ inner, env.meta? place.1 = some inner := by
        obtain ⟨solved, _⟩ | ⟨solved, _, _, _⟩ := shown
        all_goals exact (Option.bind_eq_some_iff.mp solved).imp fun _ both => both.1
      obtain ⟨inner, found⟩ := found
      -- this is the first metavariable that may mention the variable, or it is further inside
      by_cases within : x ∈ inner.scope
      · rw [solution?_of_meta? known] at solved
        exact ⟨m, entry, t, place, inner, x, known, solved, stands, found, within, outside, unbound,
          shown⟩
      · exact ih found within

theorem confined_of_inScope (inScope : env.InScope) (kept : ¬ env.Outreaches) : env.Confined := by
  intro m entry z n k known done x free
  by_contra outside
  have shown : env.Shows m x := (mem_expanded env.metas.size done).mp free
  exact kept (outreaches_of_shows inScope shown known outside)

theorem Nested.confined (nested : env.Nested) (inScope : env.InScope) : env.Confined := by
  refine confined_of_inScope inScope ?_
  rintro ⟨m, entry, t, place, inner, x, known, solved, stands, found, within, outside, unbound, _⟩
  exact (nested m entry t known solved place stands inner found x within).elim outside unbound

/-- Where every metavariable expands, one that outreaches its surroundings is seen from outside. -/
theorem Acyclic.confined_iff (acyclic : env.Acyclic) (inScope : env.InScope) :
    env.Confined ↔ ¬ env.Outreaches := by
  refine ⟨?_, confined_of_inScope inScope⟩
  rintro confined ⟨m, entry, t, place, inner, x, known, solved, stands, _, _, outside, unbound,
    shown⟩
  obtain ⟨z, done, _⟩ := acyclic.expanded (.hole m) 0
  refine outside (confined m entry z 0 0 known done x ((mem_expanded env.metas.size done).mpr ?_))
  exact .through ((solution?_of_meta? known).trans solved) stands shown unbound

section Solve

variable {value : Term} {entry : MetaEntry} {j : MetaId}

/-- Metavariables keep their scopes when one of them is solved. -/
theorem scope_of_solve (solved : env.solve m value = .ok env') (known : env.meta? j = some entry) :
    ∃ entry', env'.meta? j = some entry' ∧ entry'.scope = entry.scope := by
  rw [solve_meta? solved]
  split
  · rename_i same
    rw [← same, known]
    exact ⟨_, rfl, rfl⟩
  · exact ⟨entry, known, rfl⟩

theorem inScope_of_solve (solved : env.solve m value = .ok env') (inScope : env.InScope)
    (fits : ∀ entry, env.meta? m = some entry → ∀ x ∈ value.freeVars, x ∈ entry.scope) :
    env'.InScope := by
  intro k entry t known isSolution
  rw [solve_meta? solved] at known
  split at known
  · obtain ⟨before, found, rfl⟩ := Option.map_eq_some_iff.mp known
    cases isSolution
    exact fits before found
  · exact inScope k entry t known isSolution

end Solve

end Environment

namespace Unify

variable {s s' : Store} {env env' : Environment} {m : MetaId} {entry : MetaEntry}

theorem Change.scope (change : Change s env s' env') (known : env.meta? m = some entry) :
    ∃ entry', env'.meta? m = some entry' ∧ entry'.scope = entry.scope := by
  cases change with
  | hole name type scope kind span =>
      refine ⟨entry, ?_, rfl⟩
      have bound : m.index < env.metas.size := (Array.getElem?_eq_some_iff.mp known).1
      rw [Environment.freshMeta_meta?, if_neg (Nat.ne_of_lt bound)]
      exact known
  | fail solved => exact Environment.scope_of_solve solved known
  | _ => exact ⟨entry, known, rfl⟩

theorem History.scope (history : History s env s' env') (known : env.meta? m = some entry) :
    ∃ entry', env'.meta? m = some entry' ∧ entry'.scope = entry.scope := by
  induction history generalizing entry with
  | start => exact ⟨entry, known, rfl⟩
  | change _ change ih =>
      obtain ⟨entry₁, found, same⟩ := ih known
      obtain ⟨entry₂, found, same'⟩ := change.scope found
      exact ⟨entry₂, found, same'.trans same⟩
  | solve _ _ _ solved ih checked =>
      obtain ⟨entry₁, found, same⟩ := ih known
      obtain ⟨entry₂, found, same'⟩ := checked found
      obtain ⟨entry₃, found, same''⟩ := Environment.scope_of_solve solved found
      exact ⟨entry₃, found, same''.trans (same'.trans same)⟩

theorem Change.inScope (change : Change s env s' env') (inScope : env.InScope) : env'.InScope := by
  cases change with
  | hole name type scope kind span =>
      intro k entry t known isSolution
      rw [Environment.freshMeta_meta?] at known
      split at known
      · cases known
        cases isSolution
      · exact inScope k entry t known isSolution
  | fail solved => exact Environment.inScope_of_solve solved inScope fun _ _ => nofun
  | levels => exact inScope
  | _ => exact inScope

/-- The scope is looked at before the types are compared; it is the same when the solution is
    recorded. -/
theorem Accepted.fits {value : Term} {s₁ : Store} {env₁ : Environment}
    (accepted : Accepted m value s env s₁ env₁) (checking : History s env s₁ env₁)
    (known : env₁.meta? m = some entry) : ∀ x ∈ value.freeVars, x ∈ entry.scope := by
  obtain ⟨_, before, _, _, _, _, _, found, checked, _⟩ := accepted
  obtain ⟨_, _, _, passed⟩ := scopeProblem_run checked
  obtain ⟨entry', found', same⟩ := checking.scope found
  cases found'.symm.trans known
  intro x free
  have inside := List.find?_eq_none.mp (passed rfl).2 x free
  rw [same]
  simpa using inside

/-- Solutions are in scope when they are recorded. -/
theorem History.inScope (history : History s env s' env') (inScope : env.InScope) :
    env'.InScope := by
  induction history with
  | start => exact inScope
  | change _ change ih => exact change.inScope (ih inScope)
  | solve _ checking accepted solved ih checked =>
      exact Environment.inScope_of_solve solved (checked (ih inScope)) fun _ known =>
        accepted.fits checking known

variable {rs : List Request} {n k : Nat} {x : PUnit}

/-- Whatever is asked of a store, expanded solutions stay in the scopes of their metavariables unless
    a metavariable in one of them has a larger scope and comes to show a variable of its own; and if
    no solution comes back to where it started, then they stay there only without such a one. -/
theorem requests_confined (start : env.InScope)
    (run : rs.forM Request.run s env n = .ok (((x, s'), env'), k)) :
    (¬ env'.Outreaches → env'.Confined) ∧ (env'.Acyclic → env'.Confined → ¬ env'.Outreaches) := by
  have sound : Sound History .free s env (rs.forM Request.run) Anything :=
    .forM (R := fun _ _ => True) (fun _ _ => trivial) (fun _ _ => trivial) fun r _ _ _ => r.sound
  have inScope := (sound.history run).inScope start
  exact ⟨Environment.confined_of_inScope inScope, fun acyclic => (acyclic.confined_iff inScope).mp⟩

section Successor

open Library

/-- Two numbers, of which the first one may mention no variable and the second one a variable. The
    first one is the successor of the second one, and that one turns out to be the variable. -/
def successors : List Request :=
  let x : Var := ⟨29, "x"⟩
  [.bind x natType,
    .freshMeta "a" natType [] .expression .none,
    .freshMeta "b" natType [x] .expression .none,
    .compare (.hole ⟨0⟩) (.con suc .set0 [] [.hole ⟨1⟩]) .eq .none,
    .compare (.hole ⟨1⟩) (.ref x) .eq .none]

theorem library_inScope (fuel : Nat) : (Library.environment fuel).InScope := nofun

/-- Some metavariable expands to a term with a variable that is not in its scope. -/
def Unconfined (env : Environment) : Prop := ∃ m entry z n k x, env.meta? m = some entry ∧
  (Term.hole m).zonk env [] n = .ok (z, k) ∧ x ∈ z.freeVars ∧ x ∉ entry.scope

theorem Unconfined.not_confined {env : Environment} (unconfined : Unconfined env) :
    ¬ env.Confined := by
  obtain ⟨m, entry, z, n, k, x, known, done, free, outside⟩ := unconfined
  exact fun confined => outside (confined m entry z n k known done x free)

/-- Nothing is said, and the first number expands to the successor of the variable. -/
theorem successors_escape : ∃ s env n,
    successors.forM Request.run .empty (Library.environment 20) 30 = .ok (((⟨⟩, s), env), n) ∧
      s.diagnostics = #[] ∧ Unconfined env := by
  have ends : endsIn (successors.forM Request.run) .empty (Library.environment 20) 30
      (fun _ s env n => s.diagnostics.isEmpty && (env.meta? ⟨0⟩).any fun entry =>
        endsIn (reading ((Term.hole ⟨0⟩).zonk · [])) s env n fun z _ _ _ =>
          z.freeVars.any fun x => !entry.scope.contains x) = true := by
    decide +kernel
  obtain ⟨_, s, env, n, run, ends⟩ := endsIn_run ends
  obtain ⟨silent, ends⟩ := Bool.and_eq_true_iff.mp ends
  obtain ⟨entry, known, ends⟩ := (Option.any_eq_true _ _).mp ends
  obtain ⟨z, _, _, k, done, leaves⟩ := endsIn_run ends
  obtain ⟨_, _, done⟩ := readEnv_run done
  obtain ⟨x, free, outside⟩ := List.any_eq_true.mp leaves
  exact ⟨s, env, n, run, Array.isEmpty_iff.mp silent, ⟨0⟩, entry, z, n, k, x, known, done, free,
    by simpa using outside⟩

/-- The second number stands in the first one, and has the variable in its scope. -/
theorem successors_outreach : ∃ s env n,
    successors.forM Request.run .empty (Library.environment 20) 30 = .ok (((⟨⟩, s), env), n) ∧
      env.Outreaches := by
  obtain ⟨s, env, n, run, _, unconfined⟩ := successors_escape
  obtain ⟨confined, _⟩ := requests_confined (library_inScope 20) run
  exact ⟨s, env, n, run, by_contra fun kept => unconfined.not_confined (confined kept)⟩

theorem successors_unconfined : ∃ s env n,
    successors.forM Request.run .empty (Library.environment 20) 30 = .ok (((⟨⟩, s), env), n) ∧
      s.diagnostics = #[] ∧ ¬ env.Confined := by
  obtain ⟨s, env, n, run, silent, unconfined⟩ := successors_escape
  exact ⟨s, env, n, run, silent, unconfined.not_confined⟩

end Successor

end Unify

end PathTheory
