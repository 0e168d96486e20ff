import PathTheory.Proofs.Elaboration.Levels
import PathTheory.Proofs.Level.Deferred
/-!
Sizes of data types. What a constructor stores has to fit into the universe of the data type, unless
the data type is truncated. The universes are compared while the levels are still to be found; the
main statement is that the comparison holds of the levels that are found. It is about the universes
that inference gives to the types of parameters: an occurrence of the data type itself is given the
universe of its header, even if the levels that it is used at lead to a larger one.
-/
namespace PathTheory

open Surface Elaborate

/-- One universe was found to be at most the other, and what this takes is recorded. -/
def Store.Bounds (s : Store) (u v : Universe) : Prop :=
  ∃ c, Universe.compare true u v .le = .ok c ∧ c.holds = true ∧
    ∀ d ∈ c.demands, ∀ side ∈ d.sides, ∃ span,
      (⟨side.1, side.2, span⟩ : LevelConstraint) ∈ s.levels.constraints

namespace Store.Bounds

variable {s s' : Store} {env env' : Environment} {u v u' v' : Universe}

theorem later (bounds : s.Bounds u v) (grows : Unify.Grows s env s' env') : s'.Bounds u v := by
  obtain ⟨c, compared, holds, recorded⟩ := bounds
  refine ⟨c, compared, holds, fun d demanded side among => ?_⟩
  obtain ⟨span, listed⟩ := recorded d demanded side among
  exact ⟨span, grows.constraints _ listed⟩

/-- What was recorded makes the comparison hold of the solved universes. -/
theorem solved (bounds : s.Bounds u v) {e : LevelEquations} {levels : LevelSolution}
    (among : ∀ c ∈ s.levels.constraints, c ∈ e.constraints)
    (solved : e.solve.run = .ok (.ok levels)) (left : levels.sort u = .ok u')
    (right : levels.sort v = .ok v') : u'.holds v' .le = .ok true := by
  obtain ⟨c, compared, holds, recorded⟩ := bounds
  obtain ⟨satisfied, params⟩ := LevelEquations.solve_satisfies solved
  refine Universe.compare_deferred params compared holds ?_ left right
  intro d demanded constraint side
  obtain ⟨span, listed⟩ := recorded d demanded _ side
  exact satisfied ⟨constraint.left, constraint.right, span⟩
    (Array.mem_toList_iff.mpr (among _ listed))

end Store.Bounds

namespace Elaborate

variable {α β : Type} {config : Config} {c : Moment} {st st' : ElaborationState} {s s' : Store}
  {env env' : Environment} {n m : Nat}

/-- Nothing is forgotten in a computation, whatever it is about. -/
theorem Sound.later {a : Elaborate α} {Q : Allowance → α → Prop}
    (sound : Sound .free config c a Q) {x : α}
    (done : a config c.state c.store c.env n = .ok ((((x, st'), s'), env'), m)) :
    c.Later ⟨st', s', env'⟩ :=
  (sound (Ground.free_suits c) _ _ _ _ _ _ done).1

theorem elaborate_map {a : Elaborate α} {f : α → β} {y : β}
    (done : (f <$> a) config st s env n = .ok ((((y, st'), s'), env'), m)) :
    ∃ x, a config st s env n = .ok ((((x, st'), s'), env'), m) ∧ y = f x := by
  rw [map_eq_pure_bind] at done
  obtain ⟨x, _, _, _, _, ran, final⟩ := elaborate_bind done
  cases elaborate_pure final
  exact ⟨x, ran, rfl⟩

theorem elaborate_map_ok {a : Elaborate α} {f : α → β} {x : α}
    (done : a config st s env n = .ok ((((x, st'), s'), env'), m)) :
    (f <$> a) config st s env n = .ok ((((f x, st'), s'), env'), m) := by
  rw [map_eq_pure_bind]
  change (a config st s env n >>= _) = _
  rw [done]
  rfl

end Elaborate

/-- What is silent in the end was silent before. -/
theorem Moment.Later.silent {c c' : Moment} (later : c.Later c')
    (silent : ∀ d ∈ c'.state.reported.toList, d.isWarning = true) :
    ∀ d ∈ c.state.reported.toList, d.isWarning = true := fun d reported =>
  silent d (Array.mem_toList_iff.mpr (later.reported d (Array.mem_toList_iff.mp reported)))

theorem Context.allowed_free (c : Moment) (Γ : Context) :
    Context.Allowed (c.allowance .free) Γ := by
  have free : Allowance.Free (c.allowance .free) :=
    ⟨fun _ impossible => impossible.elim, .inl (.inl trivial), fun _ => trivial, fun _ => trivial⟩
  exact fun entry _ => entry.2.allowed_of_free free

namespace Surface

variable {config : Config} {c : Moment} {st st' : ElaborationState} {s s' : Store}
  {env env' : Environment} {n m : Nat} {j : Judge} {Γ : Context} {sort : Universe}

/-- Without a report every universe has been found to be at most the one of the data type. -/
theorem checkSizes_bounds {span : Span} {us : List Universe} {x : Unit}
    (done : checkSizes span sort us config c.state c.store c.env n =
      .ok ((((x, st'), s'), env'), m))
    (silent : ∀ d ∈ st'.reported.toList, d.isWarning = true) : ∀ u ∈ us, s'.Bounds u sort := by
  induction us generalizing c n with
  | nil => exact List.forall_mem_nil _
  | cons u rest ih =>
      unfold checkSizes at done
      obtain ⟨holds, st₁, s₁, env₁, n₁, compared, next⟩ := elaborate_bind done
      cases holds with
      | true =>
          have others := (checkSizes_sound (c := ⟨st₁, s₁, env₁⟩) span sort rest).later next
          refine List.forall_mem_cons.mpr ⟨?_, ih (c := ⟨st₁, s₁, env₁⟩) next⟩
          obtain ⟨rfl, lifted⟩ := elaborate_lift compared
          obtain ⟨c, compared, holds, levels⟩ := Unify.compareUniverses_ok lifted
          refine Store.Bounds.later ⟨c, compared, holds.symm, ?_⟩ others.grows
          intro d demanded side among
          refine ⟨span, ?_⟩
          rw [levels, ← Array.mem_toList_iff]
          exact LevelEquations.mem_recordAll.mpr (.inr ⟨d, demanded, among, rfl⟩)
      | false =>
          -- the report of the mismatch stays
          obtain ⟨d, st₂, s₂, env₂, n₂, said, next⟩ := elaborate_bind next
          obtain ⟨_, _, isError⟩ := mismatch_sound (g := .free) (c := ⟨st₁, s₁, env₁⟩) _ _ _
            (Ground.free_suits _) _ _ _ _ _ _ said
          obtain ⟨_, st₃, s₃, env₃, n₃, told, next⟩ := elaborate_bind next
          cases told
          have others := (checkSizes_sound (c := ⟨_, s₂, env₂⟩) span sort rest).later next
          have warning := others.silent silent d (Array.mem_toList_iff.mpr Array.mem_push_self)
          cases isError.symm.trans warning

theorem checkBinders_length {binders : List (Binding Expr)}
    {r : Telescope × Context × List Universe}
    (done : checkBinders j Γ binders config st s env n = .ok ((((r, st'), s'), env'), m)) :
    r.2.2.length = r.1.length := by
  induction binders generalizing Γ r st s env n st' s' env' m with
  | nil =>
      cases elaborate_pure done
      rfl
  | cons b rest ih =>
      obtain ⟨⟨type, u⟩, _, _, _, _, _, next⟩ := elaborate_bind done
      obtain ⟨inner, _, _, _, _, _, next⟩ := elaborate_bind next
      obtain ⟨r', _, _, _, _, following, final⟩ := elaborate_bind next
      cases elaborate_pure final
      exact congrArg (· + 1) (ih following)

/-- A constructor with the universes that its parameters are in. -/
def ConstructorDecl.sized (j : Judge) (Γ : Context) (truncated : Bool) (sort : Universe)
    (con : ConstructorDecl) : Elaborate ((DefId × Telescope × Nat) × List Universe) := do
  let (params, _, us) ← checkBinders j Γ con.params
  if !truncated then checkSizes con.span sort us
  let intervals ← params.filterM fun b => isIntervalType b.type
  return ((con.id, params, intervals.length), us)

theorem ConstructorDecl.elaborate_eq_sized (truncated : Bool) (con : ConstructorDecl) :
    con.elaborate j Γ truncated sort = (·.1) <$> con.sized j Γ truncated sort := by
  unfold ConstructorDecl.elaborate ConstructorDecl.sized
  simp only [map_bind]
  refine bind_congr fun r => ?_
  split <;> simp only [map_bind, map_pure]

/-- The constructors with the universes of their parameters. -/
def DataDecl.sizedInside (d : DataDecl) (j : Judge) (Γ : Context) (sort : Universe) :
    Elaborate (List ((DefId × Telescope × Nat) × List Universe)) := do
  if d.sort.isNone && (d.constructors.map (·.id)).length > 1 then
    let _ ← demandBelow d.span .set0 sort
  let found ← d.constructors.mapM (ConstructorDecl.sized j Γ d.truncated sort)
  inSignature false
  return found

/-- A data type that has been looked through, and the universes of what its constructors store. -/
def DataDecl.sized (d : DataDecl) :
    Elaborate (Telescope × Universe × List ((DefId × Telescope × Nat) × List Universe)) := do
  let j ← judge
  let (params, Γ, sort) ← d.header j
  setDefinition d.id (.data ⟨params, sort, d.constructors.map (·.id), d.truncated, false⟩)
  let found ← d.sizedInside j Γ sort
  return (params, sort, found)

theorem mapM_map_fst {α β γ : Type} (f : γ → Elaborate (α × β)) (l : List γ) :
    l.mapM (fun x => (·.1) <$> f x) = (List.map (·.1)) <$> l.mapM f := by
  induction l with
  | nil => simp only [List.mapM_nil, map_pure, List.map_nil]
  | cons x rest ih =>
      simp only [List.mapM_cons, ih, map_bind, bind_map_left, map_pure, List.map_cons]

theorem DataDecl.inside_eq_sized (d : DataDecl) (j : Judge) (Γ : Context) (sort : Universe) :
    d.inside j Γ sort = (List.map (·.1)) <$> d.sizedInside j Γ sort := by
  have constructors :
      d.constructors.mapM (ConstructorDecl.elaborate j Γ d.truncated sort) =
        (List.map (·.1)) <$> d.constructors.mapM (ConstructorDecl.sized j Γ d.truncated sort) := by
    rw [← mapM_map_fst]
    congr 1
    exact funext fun con => con.elaborate_eq_sized d.truncated
  unfold DataDecl.inside DataDecl.sizedInside
  simp only [constructors, bind_map_left]
  split <;> simp only [map_bind, map_pure]

theorem DataDecl.checked_eq_sized (d : DataDecl) :
    d.checked = (fun r => (r.1, r.2.1, r.2.2.map (·.1))) <$> d.sized := by
  unfold DataDecl.checked DataDecl.sized
  simp only [DataDecl.inside_eq_sized, map_bind, bind_map_left, map_pure]

theorem ConstructorDecl.sized_later (sound : Judge.Sound .free config j) {truncated : Bool}
    {con : ConstructorDecl} {r : (DefId × Telescope × Nat) × List Universe}
    (done : con.sized j Γ truncated sort config c.state c.store c.env n =
      .ok ((((r, st'), s'), env'), m)) : c.Later ⟨st', s', env'⟩ := by
  have elaborated : con.elaborate j Γ truncated sort config c.state c.store c.env n =
      .ok ((((r.1, st'), s'), env'), m) := by
    rw [con.elaborate_eq_sized]
    exact elaborate_map_ok done
  exact (con.elaborate_sound sound Ground.free_open truncated sort
    (Context.allowed_free c Γ)).later elaborated

theorem ConstructorDecl.sized_bounds {con : ConstructorDecl}
    {r : (DefId × Telescope × Nat) × List Universe}
    (done : con.sized j Γ false sort config c.state c.store c.env n =
      .ok ((((r, st'), s'), env'), m))
    (silent : ∀ d ∈ st'.reported.toList, d.isWarning = true) :
    r.2.length = r.1.2.1.length ∧ ∀ u ∈ r.2, s'.Bounds u sort := by
  obtain ⟨⟨params, inner, us⟩, st₁, s₁, env₁, n₁, bound, next⟩ := elaborate_bind done
  obtain ⟨_, st₂, s₂, env₂, n₂, compared, next⟩ := elaborate_bind next
  obtain ⟨intervals, st₃, s₃, env₃, n₃, counted, final⟩ := elaborate_bind next
  cases elaborate_pure final
  have sound : Elaborate.Sound .free config ⟨st₂, s₂, env₂⟩
      (params.filterM fun b => isIntervalType b.type) Anything :=
    Elaborate.Sound.filterM fun b _ _ => isIntervalType_sound b.type
  have later := sound.later counted
  refine ⟨checkBinders_length bound, fun u listed => ?_⟩
  exact (checkSizes_bounds (c := ⟨st₁, s₁, env₁⟩) compared (later.silent silent) u listed).later
    later.grows

theorem DataDecl.found_bounds (sound : Judge.Sound .free config j)
    {cons : List ConstructorDecl} {found : List ((DefId × Telescope × Nat) × List Universe)}
    (done : cons.mapM (ConstructorDecl.sized j Γ false sort) config c.state c.store c.env n =
      .ok ((((found, st'), s'), env'), m))
    (silent : ∀ d ∈ st'.reported.toList, d.isWarning = true) :
    c.Later ⟨st', s', env'⟩ ∧
      ∀ r ∈ found, r.2.length = r.1.2.1.length ∧ ∀ u ∈ r.2, s'.Bounds u sort := by
  induction cons generalizing c n found with
  | nil =>
      rw [List.mapM_nil] at done
      cases elaborate_pure done
      exact ⟨.refl c, List.forall_mem_nil _⟩
  | cons con rest ih =>
      rw [List.mapM_cons] at done
      obtain ⟨r, st₁, s₁, env₁, n₁, first, next⟩ := elaborate_bind done
      obtain ⟨others, st₂, s₂, env₂, n₂, following, final⟩ := elaborate_bind next
      cases elaborate_pure final
      obtain ⟨later, each⟩ := ih (c := ⟨st₁, s₁, env₁⟩) following
      obtain ⟨length, here⟩ := ConstructorDecl.sized_bounds first (later.silent silent)
      exact ⟨(ConstructorDecl.sized_later sound first).trans later, List.forall_mem_cons.mpr
        ⟨⟨length, fun u listed => (here u listed).later later.grows⟩, each⟩⟩

theorem DataDecl.sizedInside_bounds {d : DataDecl} (untruncated : d.truncated = false)
    (sound : Judge.Sound .free config j) {found : List ((DefId × Telescope × Nat) × List Universe)}
    (done : d.sizedInside j Γ sort config c.state c.store c.env n =
      .ok ((((found, st'), s'), env'), m))
    (silent : ∀ d ∈ st'.reported.toList, d.isWarning = true) :
    ∀ r ∈ found, r.2.length = r.1.2.1.length ∧ ∀ u ∈ r.2, s'.Bounds u sort := by
  have constructors : ∀ {c : Moment} {n : Nat}, (do
      let found ← d.constructors.mapM (ConstructorDecl.sized j Γ d.truncated sort)
      inSignature false
      return found : Elaborate _) config c.state c.store c.env n =
        .ok ((((found, st'), s'), env'), m) →
      ∀ r ∈ found, r.2.length = r.1.2.1.length ∧ ∀ u ∈ r.2, s'.Bounds u sort := by
    intro c n done
    obtain ⟨found', st₁, s₁, env₁, n₁, ran, next⟩ := elaborate_bind done
    obtain ⟨_, st₂, s₂, env₂, n₂, outside, final⟩ := elaborate_bind next
    cases elaborate_pure final
    rw [untruncated] at ran
    have leaves : Elaborate.Sound .free config ⟨st₁, s₁, env₁⟩ (inSignature false) Anything :=
      inSignature_sound false
    have last := leaves.later outside
    obtain ⟨_, each⟩ := DataDecl.found_bounds sound ran (last.silent silent)
    exact fun r listed => (each r listed).imp_right fun bounds u inside =>
      (bounds u inside).later last.grows
  unfold DataDecl.sizedInside at done
  dsimp only at done
  split at done
  · obtain ⟨_, st₁, s₁, env₁, _, _, next⟩ := elaborate_bind done
    exact constructors (c := ⟨st₁, s₁, env₁⟩) next
  · exact constructors done

theorem DataDecl.sized_bounds {d : DataDecl} (untruncated : d.truncated = false)
    {params : Telescope} {found : List ((DefId × Telescope × Nat) × List Universe)}
    (done : d.sized config c.state c.store c.env n =
      .ok (((((params, sort, found), st'), s'), env'), m))
    (silent : ∀ d ∈ st'.reported.toList, d.isWarning = true) :
    ∀ r ∈ found, r.2.length = r.1.2.1.length ∧ ∀ u ∈ r.2, s'.Bounds u sort := by
  obtain ⟨j, st₁, s₁, env₁, n₁, judged, next⟩ := elaborate_bind done
  obtain ⟨_, _, sound⟩ := judge_sound (g := .free) (Ground.free_suits c) _ _ _ _ _ _ judged
  obtain ⟨⟨params', Γ, sort'⟩, st₂, s₂, env₂, n₂, _, next⟩ := elaborate_bind next
  obtain ⟨_, st₃, s₃, env₃, _, _, next⟩ := elaborate_bind next
  obtain ⟨found', _, _, _, _, inside, final⟩ := elaborate_bind next
  cases elaborate_pure final
  exact DataDecl.sizedInside_bounds (c := ⟨st₃, s₃, env₃⟩) untruncated (sound .free) inside silent

theorem Telescope.zonksTo_set {params params' : Telescope} (env : Environment) (id : DefId)
    (d : Definition) (levels : LevelSolution) :
    Telescope.ZonksTo (env.set id d) levels params params' ↔
      Telescope.ZonksTo env levels params params' := by
  unfold Telescope.ZonksTo Subst.applyTelescope
  rw [Subst.rule_set]

/-- Under the name of a constructor there is what was found for a constructor of that name, with
    solutions and levels put in. -/
theorem DataDecl.storeConstructors_stored {d : DataDecl} {levels : LevelSolution}
    {elaborated : List (DefId × Telescope × Nat)} {x : Unit}
    (done : d.storeConstructors levels elaborated config st s env n =
      .ok ((((x, st'), s'), env'), m)) : st' = st ∧
    (∀ y, (∀ e ∈ elaborated, e.1.index ≠ y.index) → env'.definition? y = env.definition? y) ∧
    ∀ y, (∃ e ∈ elaborated, e.1.index = y.index) → ∀ con, env'.constructor? y = some con →
      ∃ e ∈ elaborated, e.1.index = y.index ∧ Telescope.ZonksTo env levels e.2.1 con.params := by
  unfold DataDecl.storeConstructors at done
  induction elaborated generalizing st s env n with
  | nil =>
      cases done
      exact ⟨rfl, fun _ _ => rfl, nofun⟩
  | cons e rest ih =>
      rw [List.forIn_cons] at done
      simp only [bind_assoc, pure_bind] at done
      obtain ⟨params, _, _, env₁, _, zonked, next⟩ := elaborate_bind done
      obtain ⟨_, _, _, _, _, put, next⟩ := elaborate_bind next
      cases put
      obtain ⟨rfl, rfl, rfl, zonks⟩ := zonkTelescope_run zonked
      obtain ⟨state, others, stored⟩ := ih next
      refine ⟨state, ?_, ?_⟩
      · intro y apart
        obtain ⟨here, later⟩ := List.forall_mem_cons.mp apart
        rw [others y later, Environment.definition?_set_of_ne here]
      · intro y named con found
        -- a later constructor of the same name replaces this one
        by_cases again : ∃ e ∈ rest, e.1.index = y.index
        · obtain ⟨e', listed, same, zonks'⟩ := stored y again con found
          exact ⟨e', List.mem_cons_of_mem _ listed, same, (Telescope.zonksTo_set ..).mp zonks'⟩
        · have same : e.1.index = y.index := by
            obtain ⟨e', listed, same⟩ := named
            rcases List.mem_cons.mp listed with rfl | listed
            · exact same
            · exact absurd ⟨e', listed, same⟩ again
          obtain ⟨definition, here, isCon⟩ := Option.bind_eq_some_iff.mp found
          rw [others y fun e' listed same => again ⟨e', listed, same⟩] at here
          unfold Environment.definition? at here
          rw [← same] at here
          cases Environment.definition?_of_set here
          cases isCon
          exact ⟨e, List.mem_cons_self, same, zonks⟩

/-- What is stored of a data type and its constructors once the equations are settled. -/
theorem DataDecl.settled_stored {d : DataDecl} {params : Telescope}
    {elaborated : List (DefId × Telescope × Nat)} {r : Except Failure DefId}
    (done : d.settled params sort elaborated config st s env n =
      .ok ((((r, st'), s'), env'), m)) :
    ∃ levels s₁ env₁ k, finish config st s env n = .ok ((((levels, st'), s₁), env₁), k) ∧
      (∀ data, env'.data? d.id = some data → levels.sort sort = .ok data.sort) ∧
      (∀ e ∈ elaborated, ∀ con, env'.constructor? e.1 = some con → ∃ e' ∈ elaborated,
        e'.1.index = e.1.index ∧ Telescope.ZonksTo env₁ levels e'.2.1 con.params) ∧
      ∀ id, r = .ok id → ∀ d ∈ st'.reported.toList, d.isWarning = true := by
  obtain ⟨levels, st₁, s₁, env₁, k, finished, next⟩ := elaborate_bind done
  obtain ⟨params', _, _, _, _, zonked, next⟩ := elaborate_bind next
  obtain ⟨sort', _, _, _, _, raised, next⟩ := elaborate_bind next
  obtain ⟨_, st₂, s₂, env₂, _, stored, next⟩ := elaborate_bind next
  obtain ⟨_, _, _, _, _, put, concluded⟩ := elaborate_bind next
  cases put
  obtain ⟨rfl, rfl, rfl, verdict⟩ := conclude_run concluded
  obtain ⟨rfl, rfl, rfl, _⟩ := zonkTelescope_run zonked
  obtain ⟨rfl, lifted⟩ := elaborate_lift raised
  obtain ⟨rfl, rfl, _, sorted⟩ := Unify.checked_run lifted
  obtain ⟨rfl, _, constructors⟩ := DataDecl.storeConstructors_stored stored
  refine ⟨levels, _, _, k, finished, ?_, ?_, fun id accepted => (verdict id accepted).2⟩
  · intro data found
    obtain ⟨definition, here, isData⟩ := Option.bind_eq_some_iff.mp found
    cases Environment.definition?_of_set here
    cases isData
    exact sorted
  · intro e listed con found
    -- what is stored last is no constructor
    have before : env₂.constructor? e.1 = some con := by
      obtain ⟨definition, here, isCon⟩ := Option.bind_eq_some_iff.mp found
      rw [Environment.definition?_set] at here
      split at here
      · cases here
        cases isCon
      · exact Option.bind_eq_some_iff.mpr ⟨definition, here, isCon⟩
    exact constructors e.1 ⟨e, listed, rfl⟩ con before

end Surface

namespace Session

variable {s s' : Session}

/-- What is found when the data type is looked through in the session: its universe, and the
    parameters of its constructors with theirs. The equations are settled by these levels, in this
    environment. -/
def Measures (s : Session) (d : DataDecl) (sort : Universe)
    (found : List ((DefId × Telescope × Nat) × List Universe)) (levels : LevelSolution)
    (env : Environment) : Prop :=
  ∃ params c n st store k,
    d.sized s.config .start .empty s.env s.nextVar =
      .ok (((((params, sort, found), Moment.state c), c.store), c.env), n) ∧
    finish s.config c.state c.store c.env n = .ok ((((levels, st), store), env), k)

/-- If a data type without truncation is accepted, then every universe that was found for a
    parameter of one of its constructors is at most the one that the data type is stored in, once the
    levels are solved; and under the names of the constructors there are these parameters. -/
theorem stored_parameters_bounded (s s' : Session) (d : DataDecl) (id : DefId)
    (untruncated : d.truncated = false) (done : declare (.data d) s = .ok (.ok id, s')) :
    ∃ sort found levels env, s.Measures d sort found levels env ∧
      found.map (·.1.1) = d.constructors.map (·.id) ∧
      (∀ data, s'.env.data? d.id = some data → levels.sort sort = .ok data.sort) ∧
      ∀ r ∈ found, r.2.length = r.1.2.1.length ∧
        (∀ con, s'.env.constructor? r.1.1 = some con → ∃ r' ∈ found,
          r'.1.1.index = r.1.1.index ∧ Telescope.ZonksTo env levels r'.1.2.1 con.params) ∧
        ∀ u ∈ r.2, ∀ v w, levels.sort u = .ok v → levels.sort sort = .ok w →
          v.holds w .le = .ok true := by
  obtain ⟨st, store, m, run⟩ := elaborate_run done
  have run : d.elaborate s.config .start .empty s.env s.nextVar =
    .ok ((((.ok id, st), store), s'.env), m) := run
  rw [DataDecl.elaborate_eq] at run
  obtain ⟨⟨params, sort, elaborated⟩, st₁, s₁, env₁, n₁, checked, settled⟩ := elaborate_bind run
  obtain ⟨_, _, finds, _⟩ := d.checked_run (c := .start s.env) (Ground.free_suits _)
    Ground.free_open checked
  rw [DataDecl.checked_eq_sized] at checked
  obtain ⟨⟨params, sort, found⟩, sized, same⟩ := elaborate_map checked
  cases same
  obtain ⟨levels, s₂, env₂, k, finished, ofData, ofConstructors, verdict⟩ :=
    DataDecl.settled_stored settled
  -- what is accepted is silent: no size was too large, and the levels have a solution
  have silent := verdict id rfl
  obtain ⟨_, _, _, _, reported⟩ := finish_parts finished
  have silent₁ : ∀ d ∈ st₁.reported.toList, d.isWarning = true := fun d listed =>
    silent d (reported ▸ List.mem_append_left _ listed)
  have bounds := DataDecl.sized_bounds (c := .start s.env) untruncated sized silent₁
  obtain ⟨e, among, solved⟩ : ∃ e : LevelEquations,
      (∀ c ∈ s₁.levels.constraints, c ∈ e.constraints) ∧ e.solve.run = .ok (.ok levels) := by
    refine (finish_settled finished).2.resolve_right ?_
    rintro ⟨d, listed, isError⟩
    cases isError.symm.trans (silent d listed)
  refine ⟨sort, found, levels, env₂, ⟨params, ⟨st₁, s₁, env₁⟩, n₁, st, s₂, k, sized, finished⟩, ?_,
    ofData, fun r listed => ?_⟩
  · rw [← finds.ids, List.map_map]
    rfl
  obtain ⟨length, each⟩ := bounds r listed
  refine ⟨length, fun con stored => ?_, fun u inside v w left right =>
    (each u inside).solved among solved left right⟩
  obtain ⟨e, member, named, zonks⟩ := ofConstructors r.1 (List.mem_map_of_mem listed) con stored
  obtain ⟨r', listed', rfl⟩ := List.mem_map.mp member
  exact ⟨r', listed', named, zonks⟩

section Chains

def chain : DefId := ⟨11, "Chain"⟩

def chainLink : DefId := ⟨13, "link"⟩

def element : Var := ⟨29, "A"⟩

def reservedChain : Session :=
  { ((start .standard 20).reserveData chain.name ["end", chainLink.name]).2.2 with nextVar := 40 }

/-- Chains over a type: an end with an element, and a link to a chain over another type. -/
def chainDecl (linked : Expr) : DataDecl where
  span := .none
  id := chain
  params := [⟨.explicit, element, .univ .none none⟩]
  sort := none
  truncated := false
  constructors := [
    ⟨.none, ⟨12, "end"⟩, [⟨.explicit, ⟨30, "x"⟩, .var .none element⟩]⟩,
    ⟨.none, chainLink,
      [⟨.explicit, ⟨31, "rest"⟩, .app .none (.const .none chain) [(.explicit, linked)]⟩]⟩]

/-- Chains over that type are accepted and stored in the universe of the type, and the link is to a
    chain in a universe that is, or is not, at most that. -/
def linksWithin (linked : Expr) (link : Universe) (fits : Bool) : Bool :=
  match declare (.data (chainDecl linked)) reservedChain with
  | .ok (.ok _, s') => match s'.env.data? chain, s'.env.constructor? chainLink with
    | some data, some ⟨_, [rest], _⟩ =>
        decide (data.sort = .std) &&
        decide ((rest.type.sortOf? s'.env [(element, .univ .std)]).run s'.nextVar =
          .ok (some link, s'.nextVar)) &&
        decide (link.holds data.sort .le = .ok fits)
    | _, _ => false
  | _ => false

theorem linksWithin_run {linked : Expr} {link : Universe} {fits : Bool}
    (links : linksWithin linked link fits = true) : ∃ id s' data con rest,
      declare (.data (chainDecl linked)) reservedChain = .ok (.ok id, s') ∧
      s'.env.data? chain = some data ∧ s'.env.constructor? chainLink = some con ∧
      con.params = [rest] ∧ data.sort = .std ∧
      (rest.type.sortOf? s'.env [(element, .univ .std)]).run s'.nextVar =
        .ok (some link, s'.nextVar) ∧
      link.holds data.sort .le = .ok fits := by
  unfold linksWithin at links
  split at links
  · rename_i id s' accepted
    split at links
    · rename_i data of rest intervals isData isCon
      simp only [Bool.and_eq_true, decide_eq_true_eq] at links
      exact ⟨id, s', data, _, rest, accepted, isData, isCon, rfl, links.1.1, links.1.2, links.2⟩
    · cases links
  · cases links

/-- Chains of elements of one type. -/
theorem chain_parameters_bounded : ∃ id s' sort found levels env,
    declare (.data (chainDecl (.var .none element))) reservedChain = .ok (.ok id, s') ∧
    (chainDecl (.var .none element)).truncated = false ∧
    reservedChain.Measures (chainDecl (.var .none element)) sort found levels env ∧
    found.map (·.1.1) = [⟨12, "end"⟩, chainLink] ∧ levels.sort sort = .ok .std ∧
    ∀ r ∈ found, ∀ u ∈ r.2, ∀ v, levels.sort u = .ok v → v.holds .std .le = .ok true := by
  have links : linksWithin (.var .none element) .std true = true := by
    decide +kernel
  obtain ⟨id, s', data, _, _, accepted, isData, _, _, atStd, _⟩ := linksWithin_run links
  obtain ⟨sort, found, levels, env, measures, names, ofData, each⟩ :=
    stored_parameters_bounded reservedChain s' _ id rfl accepted
  have solved : levels.sort sort = .ok .std := atStd ▸ ofData data isData
  exact ⟨id, s', sort, found, levels, env, accepted, rfl, measures, names, solved,
    fun r listed u inside v isLevel => (each r listed).2.2 u inside v _ isLevel solved⟩

/-- Chains that link to a chain of universes are accepted as well, and are stored in a universe that
    the link does not fit into. -/
theorem chain_of_universes_accepted : ∃ id s' data con rest,
    declare (.data (chainDecl (.univ .none (some (.set 3))))) reservedChain = .ok (.ok id, s') ∧
    s'.env.data? chain = some data ∧ s'.env.constructor? chainLink = some con ∧
    con.params = [rest] ∧ data.sort = .std ∧
    (rest.type.sortOf? s'.env [(element, .univ .std)]).run s'.nextVar =
      .ok (some ⟨.const 4, .const 1⟩, s'.nextVar) ∧
    (⟨.const 4, .const 1⟩ : Universe).holds data.sort .le = .ok false := by
  have links : linksWithin (.univ .none (some (.set 3))) ⟨.const 4, .const 1⟩ false = true := by
    decide +kernel
  exact linksWithin_run links

end Chains

end Session

end PathTheory
