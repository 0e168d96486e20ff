import PathTheory.Proofs.Equation.Course
/-!
Comparing terms keeps to what is allowed. Terms mention metavariables that have been made, and an
error stands for something only after it has been reported; so what is allowed grows with the
environment and with the diagnostics. The main statement is that every comparison goes on by a
history in which the store and the environment stay within what is allowed then.
-/
namespace PathTheory

/-- What terms may mention whatever the state is. -/
structure Ground where
  -- whether metavariables matter, and the number of the first one that may be mentioned
  bounded : Prop
  first : Nat
  error : Prop
  definition : DefId → Prop
  data : DefId → Prop

/-- What terms may mention in a state. -/
def Ground.at (g : Ground) (s : Store) (env : Environment) : Allowance where
  hole m := g.bounded → g.first ≤ m.index ∧ m.index < env.metas.size
  error := g.error ∨ ∃ d ∈ s.diagnostics, d.isWarning = false
  definition := g.definition
  data := g.data

/-- Nothing is asked of terms. -/
def Ground.free : Ground := ⟨False, 0, True, fun _ => True, fun _ => True⟩

theorem Ground.free_at (s : Store) (env : Environment) : (Ground.free.at s env).Free :=
  ⟨fun _ impossible => impossible.elim, .inl trivial, fun _ => trivial, fun _ => trivial⟩

structure Store.Allowed (A : Allowance) (s : Store) : Prop where
  equations : ∀ e : Equation, some e ∈ s.equations → e.left.Allowed A ∧ e.right.Allowed A
  props : ∀ p ∈ s.props, A.hole p.1
  lowerBounds : ∀ b ∈ s.lowerBounds, A.hole b.hole ∧ b.record.Allowed A
  upperBounds : ∀ b ∈ s.upperBounds, A.hole b.hole ∧ b.record.Allowed A
  metas : ∀ m ∈ s.metas, A.hole m
  context : Context.Allowed A s.context

theorem Store.Allowed.mono {A B : Allowance} {s : Store} (allowed : s.Allowed A)
    (order : A ≤ B) : s.Allowed B where
  equations := fun e member =>
    ⟨(allowed.equations e member).1.mono order, (allowed.equations e member).2.mono order⟩
  props := fun p member => order.hole _ (allowed.props p member)
  lowerBounds := fun b member =>
    ⟨order.hole _ (allowed.lowerBounds b member).1, (allowed.lowerBounds b member).2.mono order⟩
  upperBounds := fun b member =>
    ⟨order.hole _ (allowed.upperBounds b member).1, (allowed.upperBounds b member).2.mono order⟩
  metas := fun m member => order.hole _ (allowed.metas m member)
  context := fun entry member => (allowed.context entry member).mono order

/-- Store and environment are within what is allowed. -/
structure Ground.Holds (g : Ground) (s : Store) (env : Environment) : Prop where
  first : g.bounded → g.first ≤ env.metas.size
  known : env.Allowed (g.at s env)
  store : s.Allowed (g.at s env)

theorem Ground.free_holds (s : Store) (env : Environment) : Ground.free.Holds s env := by
  have free := Ground.free_at s env
  exact ⟨False.elim, Environment.allowed_of_free free env,
    fun e _ => ⟨e.left.allowed_of_free free, e.right.allowed_of_free free⟩,
    fun p _ => free.hole _, fun b _ => ⟨free.hole _, b.record.allowed_of_free free⟩,
    fun b _ => ⟨free.hole _, b.record.allowed_of_free free⟩, fun m _ => free.hole m,
    fun entry _ => entry.2.allowed_of_free free⟩

namespace Unify

variable {g : Ground}

theorem Grows.at {s s' : Store} {env env' : Environment} (grows : Grows s env s' env') :
    g.at s env ≤ g.at s' env' where
  hole := fun _ own bounded => ⟨(own bounded).1, Nat.lt_of_lt_of_le (own bounded).2 grows.size⟩
  error := Or.imp_right fun ⟨d, noted, isError⟩ => ⟨d, grows.diagnostics d noted, isError⟩
  definition := fun _ => id
  data := fun _ => id

section Holds

variable {s s' : Store} {env env' : Environment}

theorem holds_report (holds : g.Holds s env) (d : Diagnostic) :
    g.Holds { s with diagnostics := s.diagnostics.push d } env := by
  have report : Change s env { s with diagnostics := s.diagnostics.push d } env := .report d
  have order := report.grows.at (g := g)
  exact ⟨holds.first, holds.known.error_mono order.error, { holds.store.mono order with }⟩

theorem holds_bind (holds : g.Holds s env) (x : Var) {type : Term}
    (allowed : type.Allowed (g.at s env)) :
    g.Holds { s with context := (x, type) :: s.context } env :=
  ⟨holds.first, holds.known, { holds.store with
    context := Context.allowed_cons.mpr ⟨allowed, holds.store.context⟩ }⟩

theorem holds_demand (holds : g.Holds s env) (levels : LevelEquations) :
    g.Holds { s with levels } env := ⟨holds.first, holds.known, { holds.store with }⟩

theorem holds_universe (holds : g.Holds s env) : g.Holds s env.freshUniverse.2 :=
  ⟨holds.first, { holds.known with }, { holds.store with }⟩

theorem holds_hole (holds : g.Holds s env) (name : String) {type : Term}
    (allowed : type.Allowed (g.at s env)) (scope : List Var) {kind : MetaKind}
    (isClass : ∀ c, kind = .instanceOf c → g.definition c) (span : Span) :
    g.Holds { s with metas := s.metas.push (env.freshMeta name type scope kind span).1 }
        (env.freshMeta name type scope kind span).2 := by
  have hole : Change s env
      { s with metas := s.metas.push (env.freshMeta name type scope kind span).1 }
      (env.freshMeta name type scope kind span).2 := .hole name type scope kind span
  have order := hole.grows.at (g := g)
  have new : (env.freshMeta name type scope kind span).1.index <
      (env.freshMeta name type scope kind span).2.metas.size := by
    simp [Environment.freshMeta]
  have later := holds.store.mono order
  refine ⟨fun b => Nat.le_of_lt (Nat.lt_of_le_of_lt (holds.first b) new),
    ⟨?_, ?_, holds.known.instances, ?_⟩, { later with metas := fun m listed => ?_ }⟩
  · exact fun d definition own found => (holds.known.definitions d definition own found).mono order
  · exact fun d own => ⟨(holds.known.data d own).1, (holds.known.data d own).2.imp_left order.error⟩
  · intro m entry own found
    rw [Environment.freshMeta_meta?] at found
    split at found
    · cases found
      exact ⟨allowed.mono order, isClass, fun t absent => by cases absent⟩
    · have bound : m.index < env.metas.size := (Array.getElem?_eq_some_iff.mp found).1
      exact (holds.known.metas m entry (fun b => ⟨(own b).1, bound⟩) found).mono order
  · rcases Array.mem_push.mp listed with old | rfl
    · exact later.metas m old
    · exact fun b => ⟨holds.first b, new⟩

theorem holds_defer (holds : g.Holds s env) {e : Equation}
    (allowed : e.left.Allowed (g.at s env) ∧ e.right.Allowed (g.at s env))
    (blockers : List MetaId) : g.Holds (s.defer e blockers) env := by
  refine ⟨holds.first, holds.known, { holds.store with equations := fun e' member => ?_ }⟩
  rcases Array.mem_push.mp member with old | same
  · exact holds.store.equations e' old
  · cases same
    exact allowed

theorem holds_prop (holds : g.Holds s env) {m : MetaId} (own : (g.at s env).hole m)
    (span : Span) : g.Holds { s with props := s.props.push (m, span) } env := by
  refine ⟨holds.first, holds.known, { holds.store with props := fun p member => ?_ }⟩
  rcases Array.mem_push.mp member with old | rfl
  · exact holds.store.props p old
  · exact own

theorem holds_lower (holds : g.Holds s env) {b : RecordBound}
    (own : (g.at s env).hole b.hole ∧ b.record.Allowed (g.at s env)) :
    g.Holds { s with lowerBounds := s.lowerBounds.push b } env := by
  refine ⟨holds.first, holds.known, { holds.store with lowerBounds := fun b' member => ?_ }⟩
  rcases Array.mem_push.mp member with old | rfl
  · exact holds.store.lowerBounds b' old
  · exact own

theorem holds_upper (holds : g.Holds s env) {b : RecordBound}
    (own : (g.at s env).hole b.hole ∧ b.record.Allowed (g.at s env)) :
    g.Holds { s with upperBounds := s.upperBounds.push b } env := by
  refine ⟨holds.first, holds.known, { holds.store with upperBounds := fun b' member => ?_ }⟩
  rcases Array.mem_push.mp member with old | rfl
  · exact holds.store.upperBounds b' old
  · exact own

theorem holds_take (holds : g.Holds s env) {e : Equation} {ids : List Nat}
    (found : s.next? ids = some (e, s')) : g.Holds s' env ∧
      e.left.Allowed (g.at s env) ∧ e.right.Allowed (g.at s env) := by
  obtain ⟨id, rest, here, rfl⟩ := next?_equation found
  refine ⟨⟨holds.first, holds.known, { holds.store with equations := fun e' member => ?_ }⟩,
    holds.store.equations e (Array.mem_of_getElem? here)⟩
  rcases Array.mem_or_eq_of_mem_setIfInBounds member with old | impossible
  · exact holds.store.equations e' old
  · cases impossible

theorem holds_drop (holds : g.Holds s env) :
    g.Holds { s with equations := s.equations.map fun _ => none } env :=
  ⟨holds.first, holds.known, { holds.store with equations := fun e member => by simp at member }⟩

/-- Store and environment stay within what is allowed if the solution does. -/
theorem holds_solve (holds : g.Holds s env) {m : MetaId} {value : Term}
    (allowed : value.Allowed (g.at s env)) (solved : env.solve m value = .ok env') :
    g.Holds s env' := by
  have grows := Grows.of_solve (s := s) solved
  have order := grows.at (g := g)
  have size := Environment.solve_size solved
  refine ⟨fun b => size ▸ holds.first b, ⟨?_, ?_, ?_, ?_⟩, holds.store.mono order⟩
  · intro d definition own found
    unfold Environment.definition? at found
    rw [grows.definitions] at found
    exact (holds.known.definitions d definition own found).mono order
  · intro d own
    unfold Environment.data? Environment.definition?
    rw [grows.definitions]
    exact ⟨(holds.known.data d own).1, (holds.known.data d own).2.imp_left order.error⟩
  · rw [grows.instances]
    exact holds.known.instances
  · intro k entry own found
    have before : (g.at s env).hole k := fun b => ⟨(own b).1, size ▸ (own b).2⟩
    rw [Environment.solve_meta? solved] at found
    split at found
    · rename_i same
      subst same
      obtain ⟨old, here, rfl⟩ := Option.map_eq_some_iff.mp found
      have known := (holds.known.metas k old before here).mono order
      exact ⟨known.type, known.kind, fun t isValue =>
        Option.mem_some_iff.mp isValue ▸ allowed.mono order⟩
    · exact (holds.known.metas k entry before found).mono order

end Holds

/-- However the computation ends, it has gone on that way and stayed within what is allowed, and the
    result has the property. -/
def Sound {α : Type} (way : Way) (g : Ground) (s : Store) (env : Environment) (a : Unify α)
    (Q : Allowance → α → Prop) : Prop :=
  g.Holds s env → ∀ n x s' env' m, a s env n = .ok (((x, s'), env'), m) →
    way s env s' env' ∧ g.Holds s' env' ∧ Q (g.at s' env') x

/-- Nothing is asked of a result. -/
abbrev Anything {α : Type} : Allowance → α → Prop := fun _ _ => True

namespace Sound

variable {way : Way} {α β : Type} {s : Store} {env : Environment} {a : Unify α}
  {f : α → Unify β} {P : Allowance → α → Prop} {Q : Allowance → β → Prop}

theorem throw {fault : Fault} : Sound way g s env (throw fault : Unify α) P := by
  intro within n y s' env' m impossible
  cases impossible

theorem weaken {P' : Allowance → α → Prop} (first : Sound way g s env a P)
    (weaker : ∀ A x, P A x → P' A x) : Sound way g s env a P' := by
  intro within n y s' env' m done
  obtain ⟨history, within', result⟩ := first within _ _ _ _ _ done
  exact ⟨history, within', weaker _ _ result⟩

theorem within (sound : g.Holds s env → Sound way g s env a P) : Sound way g s env a P :=
  fun holds => sound holds holds

theorem get {f : Store → Unify β} (next : Sound way g s env (f s) Q) :
    Sound way g s env (get >>= f) Q := next

theorem look {f : Environment → Unify β} (next : Sound way g s env (f env) Q) :
    Sound way g s env (Unify.env >>= f) Q := next

theorem modify {c : Store → Store} (step : way s env (c s) env)
    (holds : g.Holds s env → g.Holds (c s) env) :
    Sound way g s env (modify c : Unify PUnit) Anything := by
  intro within n x s' env' m done
  cases done
  exact ⟨step, holds within, trivial⟩

/-- What is read off the environment leaves everything as it is. -/
theorem reading {R : α → Prop} {r : Environment → Fresh α}
    (always : env.Allowed (g.at s env) → (r env).Always R)
    (next : ∀ x, R x → Sound way g s env (f x) Q) : Sound way g s env (Unify.reading r >>= f) Q := by
  intro within n y s' env' m done
  obtain ⟨x, s₁, env₁, k, start, rest⟩ := unify_bind done
  obtain ⟨rfl, rfl, run⟩ := unify_lift (a := r env) start
  exact next x (always within.known n x k run) within k y s' env' m rest

theorem readingAny {r : Environment → Fresh α} (next : ∀ x, Sound way g s env (f x) Q) :
    Sound way g s env (Unify.reading r >>= f) Q :=
  reading (fun _ => .anything) fun x _ => next x

/-- With nothing asked of terms, what is left of a computation is the way it goes on. -/
theorem goes (sound : Sound way .free s env a P) {n m : Nat} {x : α} {s' : Store}
    {env' : Environment} (done : a s env n = .ok (((x, s'), env'), m)) : way s env s' env' :=
  (sound (Ground.free_holds s env) _ _ _ _ _ done).1

variable [Passage way]

theorem pure {x : α} (holds : P (g.at s env) x) : Sound way g s env (pure x) P := by
  intro within n y s' env' m done
  cases done
  exact ⟨Passage.start _ _, within, holds⟩

theorem bind (first : Sound way g s env a P)
    (next : ∀ x s' env', g.at s env ≤ g.at s' env' → P (g.at s' env') x →
      Sound way g s' env' (f x) Q) : Sound way g s env (a >>= f) Q := by
  intro within n y s' env' m done
  obtain ⟨x, s₁, env₁, k, start, rest⟩ := unify_bind done
  obtain ⟨before, within₁, holds⟩ := first within _ _ _ _ _ start
  have order := (Passage.history before).grows.at (g := g)
  obtain ⟨after, within', result⟩ := next x s₁ env₁ order holds within₁ _ _ _ _ _ rest
  exact ⟨Passage.trans before after, within', result⟩

theorem set {s' : Store} {f : PUnit → Unify β} (step : way s env s' env)
    (holds : g.Holds s env → g.Holds s' env)
    (next : g.at s env ≤ g.at s' env → Sound way g s' env (f ⟨⟩) Q) :
    Sound way g s env (set s' >>= f) Q := by
  intro within n x s'' env'' m done
  obtain ⟨after, within', result⟩ :=
    next (Passage.history step).grows.at (holds within) n x s'' env'' m done
  exact ⟨Passage.trans step after, within', result⟩

theorem setEnv {env' : Environment} {f : PUnit → Unify β} (step : way s env s env')
    (holds : g.Holds s env → g.Holds s env')
    (next : g.at s env ≤ g.at s env' → Sound way g s env' (f ⟨⟩) Q) :
    Sound way g s env (MonadStateOf.set env' >>= f) Q := by
  intro within n x s'' env'' m done
  obtain ⟨after, within', result⟩ :=
    next (Passage.history step).grows.at (holds within) n x s'' env'' m done
  exact ⟨Passage.trans step after, within', result⟩

theorem lift (a : Checked α) : Sound way g s env (liftM a : Unify α) Anything := by
  intro within n x s' env' m done
  cases a with
  | error fault => cases done
  | ok y =>
      cases done
      exact ⟨Passage.start _ _, within, trivial⟩

theorem read {r : Environment → Fresh α}
    (always : env.Allowed (g.at s env) → (r env).Always (P (g.at s env))) :
    Sound way g s env (Unify.reading r) P := by
  intro within n x s' env' m done
  obtain ⟨rfl, rfl, run⟩ := unify_lift (a := r env) done
  exact ⟨Passage.start _ _, within, always within.known n x m run⟩

/-- A further question that is asked only if the answer to the first one is yes. -/
theorem ifHolds {a b : Unify Bool} (first : Sound way g s env a Anything)
    (next : ∀ s' env', g.at s env ≤ g.at s' env' → Sound way g s' env' b Anything) :
    Sound way g s env (do if ← a then b else return false) Anything := by
  refine first.bind fun holds s' env' order _ => ?_
  split
  · exact next s' env' order
  · exact pure trivial

theorem unlessFails {a b : Unify Bool} (first : Sound way g s env a Anything)
    (next : ∀ s' env', g.at s env ≤ g.at s' env' → Sound way g s' env' b Anything) :
    Sound way g s env (do
      if !(← a) then return false
      b) Anything := by
  refine first.bind fun holds s' env' order _ => ?_
  split
  · exact pure trivial
  · exact next s' env' order

/-- Goes on from here if every element can be gone through wherever its property still holds. -/
theorem forM {γ : Type} {f : γ → Unify PUnit} {R : Allowance → γ → Prop}
    (mono : ∀ {A B : Allowance} {x : γ}, A ≤ B → R A x → R B x) {l : List γ}
    (given : ∀ x ∈ l, R (g.at s env) x)
    (each : ∀ x s env, R (g.at s env) x → Sound way g s env (f x) Anything) :
    Sound way g s env (l.forM f) Anything := by
  induction l generalizing s env with
  | nil => exact pure trivial
  | cons x l ih =>
      obtain ⟨here, others⟩ := List.forall_mem_cons.mp given
      exact (each x s env here).bind fun _ _ _ order _ =>
        ih fun y member => mono order (others y member)

theorem forIn {γ δ : Type} {f : γ → δ → Unify (ForInStep δ)} (l : List γ)
    (each : ∀ x d s env, Sound way g s env (f x d) Anything) (d : δ) :
    Sound way g s env (forIn l d f) Anything := by
  induction l generalizing d s env with
  | nil => exact pure trivial
  | cons x l ih =>
      rw [List.forIn_cons]
      refine (each x d s env).bind fun step _ _ _ _ => ?_
      cases step with
      | done d => exact pure trivial
      | yield d => exact ih d

theorem mapM {γ : Type} {f : γ → Unify α} {R : Allowance → γ → Prop}
    (monoR : ∀ {A B : Allowance} {x : γ}, A ≤ B → R A x → R B x)
    (monoP : ∀ {A B : Allowance} {y : α}, A ≤ B → P A y → P B y) {l : List γ}
    (given : ∀ x ∈ l, R (g.at s env) x) (each : ∀ x s env, R (g.at s env) x →
      Sound way g s env (f x) P) : Sound way g s env (l.mapM f) fun A ys => ∀ y ∈ ys, P A y := by
  induction l generalizing s env with
  | nil =>
      rw [List.mapM_nil]
      exact pure (List.forall_mem_nil _)
  | cons x l ih =>
      obtain ⟨here, others⟩ := List.forall_mem_cons.mp given
      rw [List.mapM_cons]
      refine (each x s env here).bind fun y _ _ order₁ result => ?_
      refine (ih fun y member => monoR order₁ (others y member)).bind ?_
      exact fun ys _ _ order₂ results =>
        pure (List.forall_mem_cons.mpr ⟨monoP order₂ result, results⟩)

/-- Whatever way a computation goes on, it goes on by a history. -/
theorem loosen (sound : Sound way g s env a P) : Sound History g s env a P := by
  intro within n x s' env' m done
  obtain ⟨went, within', result⟩ := sound within n x s' env' m done
  exact ⟨Passage.history went, within', result⟩

theorem history (sound : Sound way .free s env a P) {n m : Nat} {x : α} {s' : Store}
    {env' : Environment} (done : a s env n = .ok (((x, s'), env'), m)) : History s env s' env' :=
  Passage.history (sound.goes done)

end Sound

section Store

variable {s : Store} {env : Environment}

theorem report_sound (d : Diagnostic) : Sound Orderly g s env (report d) Anything :=
  .modify (.aside (.report d) ⟨rfl, rfl, rfl, rfl, fun _ => rfl, id⟩) fun within =>
    holds_report within d

/-- A diagnostic that is not a warning makes errors possible. -/
theorem report_error (d : Diagnostic) (isError : d.isWarning = false) :
    Sound Orderly g s env (report d) fun A _ => A.error := by
  intro within n x s' env' m done
  cases done
  exact ⟨.aside (.report d) ⟨rfl, rfl, rfl, rfl, fun _ => rfl, id⟩, holds_report within d,
    .inr ⟨d, Array.mem_push_self, isError⟩⟩

theorem reportMismatch_sound (span : Span) (expected actual : Term) :
    Sound Orderly g s env (reportMismatch span expected actual) Anything :=
  (Sound.lift _).bind fun _ _ _ _ _ => report_sound _

theorem bind_sound (x : Var) {type : Term} (allowed : type.Allowed (g.at s env)) :
    Sound Orderly g s env (Unify.bind x type) Anything :=
  .modify (.aside (.bind x type) ⟨rfl, rfl, rfl, rfl, fun _ => rfl, id⟩) fun within =>
    holds_bind within x allowed

theorem freshUniverse_sound : Sound Orderly g s env freshUniverse Anything :=
  .look (.setEnv (.aside .levels ⟨rfl, rfl, rfl, rfl, fun _ => rfl, id⟩) holds_universe fun _ =>
    .pure trivial)

theorem freshMeta_sound (name : String) {type : Term} (allowed : type.Allowed (g.at s env))
    (scope : List Var) {kind : MetaKind} (isClass : ∀ c, kind = .instanceOf c → g.definition c)
    (span : Span) :
    Sound Orderly g s env (freshMeta name type scope kind span) fun A t => t.Allowed A := by
  intro within n x s' env' m done
  cases done
  refine ⟨.aside (.hole name type scope kind span) ⟨rfl, rfl, rfl, rfl, ?_, id⟩,
    holds_hole within name allowed scope isClass span, fun b => ⟨within.first b, ?_⟩⟩
  · exact Environment.freshMeta_solution? env name type scope kind span
  · simp

theorem recordDemands_sound (span : Span) (ds : List Demand) :
    Sound Orderly g s env (recordDemands span ds) Anything :=
  .modify (.aside (.demand span ds) ⟨rfl, rfl, rfl, rfl, fun _ => rfl, id⟩) fun within =>
    holds_demand within _

theorem compareUniverses_sound (u v : Universe) (cmp : Cmp) (span : Span) :
    Sound Orderly g s env (compareUniverses u v cmp span) Anything :=
  (Sound.lift _).bind fun _ _ _ _ _ => (recordDemands_sound _ _).bind fun _ _ _ _ _ =>
    .pure trivial

theorem defer_sound {left right : Term} (fromLeft : left.Allowed (g.at s env))
    (fromRight : right.Allowed (g.at s env)) {cmp : Cmp} {span : Span}
    (blocked : env.Determined → ∃ m, (Equation.mk left right cmp span).Awaits env m) :
    Sound Orderly g s env (Unify.defer left right cmp span) Anything := by
  refine .reading (fun _ => left.stuckMeta_reaches) fun l fromL => ?_
  refine .reading (fun _ => right.stuckMeta_reaches) fun r fromR => .look ?_
  refine .modify (.defer _ fun determined => ?_) fun within =>
    holds_defer within ⟨fromLeft, fromRight⟩ _
  simp only [List.mem_eraseDups]
  split
  · obtain ⟨m, unsolved, reached⟩ := blocked determined
    refine ⟨m, List.mem_append.mpr ?_, unsolved, reached⟩
    exact reached.imp (Environment.mem_unsolvedIn unsolved) (Environment.mem_unsolvedIn unsolved)
  · rename_i head
    obtain ⟨m, member⟩ := List.exists_mem_of_ne_nil _ (mt List.isEmpty_iff.mpr head)
    refine ⟨m, member, ?_⟩
    rcases List.mem_append.mp member with isLeft | isRight
    · obtain ⟨unsolved, reached⟩ := fromL determined m (Option.mem_toList.mp isLeft)
      exact ⟨unsolved, .inl reached⟩
    · obtain ⟨unsolved, reached⟩ := fromR determined m (Option.mem_toList.mp isRight)
      exact ⟨unsolved, .inr reached⟩

theorem rename_sound (x y : Var) {t : Term} (allowed : t.Allowed (g.at s env)) :
    Sound Orderly g s env (rename x y t) fun A r => r.Allowed A := by
  unfold rename
  split
  · exact .pure allowed
  · exact .read fun known => Subst.apply_allowed known.computes (by simp) allowed

end Store

end Unify

end PathTheory
