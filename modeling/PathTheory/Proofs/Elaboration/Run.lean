import PathTheory.Elaboration.Declaration
import PathTheory.Proofs.Equation.Settled
/-!
Runs of the elaborator: what becomes of the environment when a definition is stored, what a sequence
of computations says of its steps, what is reported one by one, and what a compilation and the
settling of the store leave behind.
-/
namespace PathTheory

namespace Environment

variable {env : Environment} {id x : DefId} {f : FunctionDef}

theorem definition?_set (env : Environment) (id x : DefId) (d : Definition) :
    (env.set id d).definition? x =
      if id.index = x.index ∧ x.index < env.definitions.size then some d
      else env.definition? x := by
  unfold definition? set
  rw [Array.getElem?_setIfInBounds]
  by_cases same : id.index = x.index
  · by_cases bound : id.index < env.definitions.size
    · simp_all
    · simp_all
  · simp [same]

theorem definition?_of_set {d d' : Definition} (found : (env.set id d).definition? id = some d') :
    d' = d := by
  rw [definition?_set] at found
  split at found
  · exact (Option.some.inj found).symm
  · rename_i outside
    have missing : env.definition? id = none := by
      simpa [definition?] using outside
    rw [missing] at found
    cases found

theorem function?_of_set {g : FunctionDef}
    (found : (env.set id (.function f)).function? id = some g) : g = f := by
  obtain ⟨definition, here, isFunction⟩ := Option.bind_eq_some_iff.mp found
  cases definition?_of_set here
  exact (Option.some.inj isFunction).symm

theorem definition?_set_of_ne {d : Definition} (apart : id.index ≠ x.index) :
    (env.set id d).definition? x = env.definition? x := by
  rw [definition?_set, if_neg fun both => apart both.1]

/-- A function that is stored is no data type and no constructor. -/
theorem data?_of_set {data : DataDef} (found : (env.set id (.function f)).data? x = some data) :
    env.data? x = some data := by
  unfold data? at found ⊢
  rw [definition?_set] at found
  split at found
  · cases found
  · exact found

theorem constructor?_of_set {con : ConstructorDef}
    (found : (env.set id (.function f)).constructor? x = some con) :
    env.constructor? x = some con := by
  unfold constructor? at found ⊢
  rw [definition?_set] at found
  split at found
  · cases found
  · exact found

/-- Definitions of other names have stayed, and so have the number of definitions, what they are
    called, the instances, and the solutions that metavariables have. -/
structure Spares (before : Environment) (own : List DefId) (after : Environment) : Prop where
  definitions : ∀ x : DefId, (∀ d ∈ own, d.index ≠ x.index) →
    after.definition? x = before.definition? x
  size : after.definitions.size = before.definitions.size
  names : after.names = before.names
  instances : after.instances = before.instances
  solution : ∀ m t, before.solution? m = some t → after.solution? m = some t

namespace Spares

variable {env₁ env₂ env₃ : Environment} {own own' : List DefId}

theorem of_same (definitions : env₂.definitions = env₁.definitions)
    (names : env₂.names = env₁.names) (instances : env₂.instances = env₁.instances)
    (solution : ∀ m t, env₁.solution? m = some t → env₂.solution? m = some t) :
    env₁.Spares own env₂ where
  definitions := fun x _ => by
    unfold definition?
    rw [definitions]
  size := by rw [definitions]
  names := names
  instances := instances
  solution := solution

theorem set (env : Environment) {id : DefId} (member : id ∈ own) (d : Definition) :
    env.Spares own (env.set id d) where
  definitions := fun _ apart => definition?_set_of_ne (apart id member)
  size := Array.size_setIfInBounds
  names := rfl
  instances := rfl
  solution := fun _ _ solved => solved

theorem trans (first : env₁.Spares own env₂) (next : env₂.Spares own env₃) :
    env₁.Spares own env₃ where
  definitions := fun x apart => (next.definitions x apart).trans (first.definitions x apart)
  size := next.size.trans first.size
  names := next.names.trans first.names
  instances := next.instances.trans first.instances
  solution := fun m t solved => next.solution m t (first.solution m t solved)

theorem mono (spares : env₁.Spares own env₂) (more : own ⊆ own') : env₁.Spares own' env₂ where
  definitions := fun x apart => spares.definitions x fun d member => apart d (more member)
  size := spares.size
  names := spares.names
  instances := spares.instances
  solution := spares.solution

end Spares

end Environment

/-- Substitution looks at the metavariables only, not at the definitions. -/
theorem Subst.holeRule_set (env : Environment) (id : DefId) (d : Definition) (fuel : Nat) :
    holeRule (env.set id d) fuel = holeRule env fuel := by
  have same : ∀ m, (env.set id d).solution? m = env.solution? m := fun _ => rfl
  induction fuel with
  | zero =>
      funext s m
      simp only [holeRule, same]
  | succ fuel ih =>
      funext s m
      simp only [holeRule, same, ih]

theorem Subst.rule_set (env : Environment) (id : DefId) (d : Definition) :
    rule (env.set id d) = rule env := holeRule_set env id d _

theorem Term.zonk_set (env : Environment) (id : DefId) (d : Definition)
    (levels : List (LevelVar × Level)) (t : Term) :
    t.zonk (env.set id d) levels = t.zonk env levels := by
  unfold Term.zonk Subst.apply
  rw [Subst.rule_set]

section Zonks

variable (env : Environment) (levels : LevelSolution)

/-- The second term is the first one with solutions and levels put in. -/
def Term.ZonksTo (t t' : Term) : Prop := ∃ n m, t.zonk env levels.values n = .ok (t', m)

def Telescope.ZonksTo (params params' : Telescope) : Prop := ∃ n scope m,
  (Subst.zonking.withLevels levels.values).applyTelescope env params n = .ok ((params', scope), m)

def CaseTree.ZonksTo (tree tree' : CaseTree) : Prop := ∃ n m,
  (Subst.zonking.withLevels levels.values).applyTree env tree n = .ok (tree', m)

def Body.ZonksTo : Body → Body → Prop
  | .term t, .term t' => t.ZonksTo env levels t'
  | .tree t, .tree t' => t.ZonksTo env levels t'
  | _, _ => False

end Zonks

namespace Elaborate

variable {α β : Type} {config : Config} {st : ElaborationState} {s : Store} {env : Environment}
  {n : Nat}

theorem elaborate_bind {a : Elaborate α} {f : α → Elaborate β}
    {r : (((β × ElaborationState) × Store) × Environment) × Nat}
    (done : (a >>= f) config st s env n = .ok r) : ∃ x st' s' env' m,
      a config st s env n = .ok ((((x, st'), s'), env'), m) ∧
        f x config st' s' env' m = .ok r := by
  obtain ⟨⟨x, st'⟩, s', env', m, first, rest⟩ := Unify.unify_bind (a := a config st)
    (f := fun r => f r.1 config r.2) done
  exact ⟨x, st', s', env', m, first, rest⟩

theorem elaborate_then {a : Elaborate α} {x : α} {st' : ElaborationState} {s' : Store}
    {env' : Environment} {m : Nat} (first : a config st s env n = .ok ((((x, st'), s'), env'), m))
    {f : α → Elaborate β} {r : Checked ((((β × ElaborationState) × Store) × Environment) × Nat)}
    (rest : f x config st' s' env' m = r) : (a >>= f) config st s env n = r := by
  change (a config st s env n >>= fun r => f r.1.1.1.1 config r.1.1.1.2 r.1.1.2 r.1.2 r.2) = _
  rw [first]
  exact rest

theorem elaborate_pure {x : α} {r : (((α × ElaborationState) × Store) × Environment) × Nat}
    (done : (pure x : Elaborate α) config st s env n = .ok r) : r = ((((x, st), s), env), n) :=
  (Except.ok.inj done).symm

/-- Computations of the store know nothing of the state of elaboration. -/
theorem elaborate_lift {a : Unify α} {x : α} {st' : ElaborationState} {s' : Store}
    {env' : Environment} {m : Nat}
    (done : (liftM a : Elaborate α) config st s env n = .ok ((((x, st'), s'), env'), m)) :
    st' = st ∧ a s env n = .ok (((x, s'), env'), m) := by
  obtain ⟨y, s₁, env₁, k, first, rest⟩ := Unify.unify_bind (a := a)
    (f := fun x => pure (x, st)) done
  cases rest
  exact ⟨rfl, first⟩

theorem lift_of {a : Unify α} {x : α} {s' : Store} {env' : Environment} {m : Nat}
    (done : a s env n = .ok (((x, s'), env'), m)) :
    (liftM a : Elaborate α) config st s env n = .ok ((((x, st), s'), env'), m) :=
  Unify.unify_then (f := fun x => pure (x, st)) done rfl

theorem elaborate_reading {f : Environment → Fresh α} {x : α} {st' : ElaborationState}
    {s' : Store} {env' : Environment} {m : Nat}
    (done : reading f config st s env n = .ok ((((x, st'), s'), env'), m)) :
    st' = st ∧ s' = s ∧ env' = env ∧ f env n = .ok (x, m) := by
  obtain ⟨rfl, run⟩ := elaborate_lift done
  exact ⟨rfl, Unify.unify_lift run⟩

theorem reading_of {f : Environment → Fresh α} {x : α} {m : Nat} (done : f env n = .ok (x, m)) :
    reading f config st s env n = .ok ((((x, st), s), env), m) := by
  change (((f env n >>= fun r => pure ((r.1, env), r.2)) >>=
    fun r => pure (((r.1.1, s), r.1.2), r.2)) >>=
      fun r => pure ((((r.1.1.1, st), r.1.1.2), r.1.2), r.2)) = _
  rw [done]
  rfl

section Zonks

variable {levels : LevelSolution} {st' : ElaborationState} {s' : Store} {env' : Environment}
  {m : Nat}

theorem zonk_run {t t' : Term}
    (done : zonk levels t config st s env n = .ok ((((t', st'), s'), env'), m)) :
    st' = st ∧ s' = s ∧ env' = env ∧ t.ZonksTo env levels t' :=
  have ⟨state, store, same, run⟩ := elaborate_reading done
  ⟨state, store, same, n, m, run⟩

theorem zonkTelescope_run {params params' : Telescope}
    (done : zonkTelescope levels params config st s env n =
      .ok ((((params', st'), s'), env'), m)) :
    st' = st ∧ s' = s ∧ env' = env ∧ Telescope.ZonksTo env levels params params' := by
  obtain ⟨⟨_, scope⟩, _, _, _, _, ran, final⟩ := elaborate_bind done
  cases elaborate_pure final
  obtain ⟨rfl, rfl, rfl, run⟩ := elaborate_reading ran
  exact ⟨rfl, rfl, rfl, n, scope, _, run⟩

theorem zonkBody_run {body body' : Body}
    (done : zonkBody levels body config st s env n = .ok ((((body', st'), s'), env'), m)) :
    st' = st ∧ s' = s ∧ env' = env ∧ body.ZonksTo env levels body' := by
  cases body with
  | term t =>
      obtain ⟨_, _, _, _, _, ran, final⟩ := elaborate_bind done
      cases elaborate_pure final
      exact zonk_run ran
  | tree tree =>
      obtain ⟨_, _, _, _, _, ran, final⟩ := elaborate_bind done
      cases elaborate_pure final
      obtain ⟨rfl, rfl, rfl, run⟩ := elaborate_reading ran
      exact ⟨rfl, rfl, rfl, n, _, run⟩

theorem zonkBody?_run {body body' : Option Body}
    (done : body.mapM (zonkBody levels) config st s env n =
      .ok ((((body', st'), s'), env'), m)) :
    st' = st ∧ s' = s ∧ env' = env ∧
      ∀ after ∈ body', ∃ before ∈ body, Body.ZonksTo env levels before after := by
  cases body with
  | none =>
      cases elaborate_pure done
      exact ⟨rfl, rfl, rfl, nofun⟩
  | some body =>
      rw [Option.mapM_some, map_eq_pure_bind] at done
      obtain ⟨_, _, _, _, _, ran, final⟩ := elaborate_bind done
      cases elaborate_pure final
      obtain ⟨rfl, rfl, rfl, zonks⟩ := zonkBody_run ran
      exact ⟨rfl, rfl, rfl, fun _ same => ⟨body, rfl, Option.mem_some_iff.mp same ▸ zonks⟩⟩

end Zonks

/-- Reporting diagnostics one by one changes nothing but what has been reported. -/
theorem report_all {ds : List Diagnostic} {x : PUnit} {st' : ElaborationState} {s' : Store}
    {env' : Environment} {m : Nat}
    (done : (forIn ds PUnit.unit fun d _ => do
      report d
      pure (ForInStep.yield PUnit.unit) : Elaborate PUnit) config st s env n =
        .ok ((((x, st'), s'), env'), m)) :
    s' = s ∧ env' = env ∧ st'.reported.toList = st.reported.toList ++ ds := by
  induction ds generalizing st with
  | nil =>
      cases done
      simp
  | cons d ds ih =>
      rw [List.forIn_cons] at done
      obtain ⟨_, _, _, _, _, here, done⟩ := elaborate_bind done
      obtain ⟨_, _, _, _, _, told, final⟩ := elaborate_bind here
      cases told
      cases elaborate_pure final
      obtain ⟨rfl, rfl, reported⟩ := ih done
      refine ⟨rfl, rfl, ?_⟩
      simp [reported]

/-- What a compilation leaves behind: its demands are constraints of the store from then on, and what
    it has noted is reported. -/
theorem compile_run {span : Span} {params : Telescope} {clauses : List Matching.Clause}
    {sort : Option Universe} {inCase : Bool} {found : Option CaseTree} {st' : ElaborationState}
    {s' : Store} {env' : Environment} {m : Nat}
    (done : compile span params clauses sort inCase config st s env n =
      .ok ((((found, st'), s'), env'), m)) : ∃ outcome k,
      Matching.compile ⟨env, config, true, inCase, sort⟩ span params clauses n =
        .ok (outcome, k) ∧ found = outcome.tree ∧ env' = env ∧
        s'.levels = s.levels.recordAll outcome.demands ∧
        st'.reported.toList = st.reported.toList ++ outcome.diagnostics := by
  unfold compile at done
  obtain ⟨_, _, _, _, _, ask, next⟩ := elaborate_bind done
  cases ask
  obtain ⟨_, _, _, _, _, ask, next⟩ := elaborate_bind next
  cases ask
  obtain ⟨outcome, st₁, s₁, env₁, k, ran, next⟩ := elaborate_bind next
  obtain ⟨levels, st₂, s₂, env₂, _, ask, next⟩ := elaborate_bind next
  obtain ⟨_, st₃, s₃, env₃, _, put, next⟩ := elaborate_bind next
  obtain ⟨_, st₄, s₄, env₄, _, told, final⟩ := elaborate_bind next
  cases elaborate_pure final
  cases put
  cases ask
  obtain ⟨rfl, rfl, reported⟩ := report_all told
  obtain ⟨rfl, compiled⟩ := elaborate_lift ran
  obtain ⟨rfl, rfl, first⟩ := Unify.unify_lift compiled
  exact ⟨outcome, k, first, rfl, rfl, rfl, reported⟩

/-- A definition is accepted only if no error has been reported. -/
theorem conclude_run {name : String} {x : α} {r : Except Failure α} {st' : ElaborationState}
    {s' : Store} {env' : Environment} {m : Nat}
    (done : conclude name x config st s env n = .ok ((((r, st'), s'), env'), m)) :
    st' = st ∧ s' = s ∧ env' = env ∧
      ∀ y, r = .ok y → y = x ∧ ∀ e ∈ st.reported.toList, e.isWarning = true := by
  unfold conclude at done
  obtain ⟨errors, _, _, _, _, counted, next⟩ := elaborate_bind done
  cases counted
  cases elaborate_pure next
  refine ⟨rfl, rfl, rfl, fun y accepted => ?_⟩
  split at accepted
  · rename_i none
    cases accepted
    have errors := List.filter_eq_nil_iff.mp (List.length_eq_zero_iff.mp none)
    exact ⟨rfl, fun e noted => by simpa using errors e noted⟩
  · cases accepted

/-- The store is settled, and what it has noted is reported. -/
theorem finish_parts {levels : LevelSolution} {st' : ElaborationState} {s' : Store}
    {env' : Environment} {m : Nat}
    (done : finish config st s env n = .ok ((((levels, st'), s'), env'), m)) :
    ∃ s₁ k, Unify.settle s env n = .ok (((levels, s₁), env'), k) ∧
      s' = { s₁ with diagnostics := #[] } ∧
      st'.reported.toList = st.reported.toList ++ s₁.diagnostics.toList := by
  unfold finish at done
  obtain ⟨_, _, s₁, env₁, _, settled, next⟩ := elaborate_bind done
  obtain ⟨ds, _, _, _, _, taken, next⟩ := elaborate_bind next
  obtain ⟨_, _, _, _, _, told, final⟩ := elaborate_bind next
  cases elaborate_pure final
  obtain ⟨rfl, took⟩ := elaborate_lift taken
  cases took
  obtain ⟨rfl, rfl, reported⟩ := report_all told
  obtain ⟨rfl, run⟩ := elaborate_lift settled
  exact ⟨s₁, _, run, rfl, reported⟩

/-- Levels that settle the equations satisfy every constraint there was, if no error is reported. -/
theorem finish_settled {levels : LevelSolution} {st' : ElaborationState} {s' : Store}
    {env' : Environment} {m : Nat}
    (done : finish config st s env n = .ok ((((levels, st'), s'), env'), m)) :
    env'.definitions = env.definitions ∧
      ((∃ e : LevelEquations, (∀ c ∈ s.levels.constraints, c ∈ e.constraints) ∧
        e.solve.run = .ok (.ok levels)) ∨ ∃ d ∈ st'.reported.toList, d.isWarning = false) := by
  obtain ⟨s₁, _, settled, _, reported⟩ := finish_parts done
  obtain ⟨history, result, _⟩ := Unify.settle_settled settled
  refine ⟨history.grows.definitions, result.imp_right ?_⟩
  rintro ⟨d, noted, isError⟩
  refine ⟨d, ?_, isError⟩
  rw [reported]
  exact List.mem_append_right _ (Array.mem_toList_iff.mpr noted)

/-- Without errors, the levels solve all constraints that there are once the store is prepared. -/
theorem finish_levels {levels : LevelSolution} {st' : ElaborationState} {s' : Store}
    {env' : Environment} {m : Nat}
    (done : finish config st s env n = .ok ((((levels, st'), s'), env'), m))
    (accepted : ∀ d ∈ st'.reported.toList, d.isWarning = true) : ∃ s₁ env₁ k,
      Unify.prepare s env n = .ok ((((), s₁), env₁), k) ∧
        s₁.levels.solve.run = .ok (.ok levels) := by
  obtain ⟨s₂, _, settled, _, reported⟩ := finish_parts done
  rw [Unify.settle_eq] at settled
  obtain ⟨_, s₁, env₁, k, prepared, finished⟩ := Unify.unify_bind settled
  refine ⟨s₁, env₁, k, prepared, (Unify.finish_run finished).1.resolve_right ?_⟩
  rintro ⟨d, noted, isError⟩
  have listed : d ∈ st'.reported.toList := by
    rw [reported]
    exact List.mem_append_right _ (Array.mem_toList_iff.mpr noted)
  rw [accepted d listed] at isError
  cases isError

end Elaborate

end PathTheory
