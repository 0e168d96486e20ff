import PathTheory.Proofs.Equation.Allowed
/-!
Comparisons keep to what is allowed. Every function that solves or compares is gone through once,
with the comparison of smaller terms as a hypothesis; the recursion is tied at the end. With nothing
asked of terms, what is left is that every comparison has a history.
-/
namespace PathTheory.Unify

variable {g : Ground}

/-- What is asked of the comparison of smaller terms. -/
def Compare.Sound (g : Ground) (compare : Compare) : Prop :=
  ∀ left right cmp span s env, left.Allowed (g.at s env) → right.Allowed (g.at s env) →
    Unify.Sound Orderly g s env (compare left right cmp span) Anything

theorem orSame_sound {compare : Compare} (sound : compare.Sound g) : compare.orSame.Sound g := by
  intro left right cmp span s env fromLeft fromRight
  unfold Compare.orSame
  split
  · exact .pure trivial
  · exact sound _ _ _ _ _ _ fromLeft fromRight

section Reading

variable {A : Allowance} {env : Environment}

theorem hole_of_hole? {t : Term} {m : MetaId} (isHole : t.hole? = some m)
    (allowed : t.Allowed A) : A.hole m := by
  cases t <;> cases isHole
  exact allowed

theorem implementedField_allowed {Γ : Context} (given : Context.Allowed A Γ)
    (known : env.Allowed A) (fuel : Nat) {t : Term} (allowed : t.Allowed A) :
    (implementedField Γ env fuel t).Always (·.Allowed A) := by
  induction fuel generalizing t with
  | zero => exact .throw
  | succ fuel ih =>
      unfold implementedField
      split
      · split
        · exact .pure allowed
        · rename_i type found
          refine .bind (Term.whnf_allowed known.computes (given.lookup found)) fun type' fine => ?_
          split
          · rename_i value fixed
            exact .bind (Term.whnf_allowed known.computes (fine.fixed fixed)) fun _ result =>
              ih result
          · exact .pure allowed
      · exact .pure allowed

theorem implementedField_openHole {Γ : Context} (fuel : Nat) {t : Term} (given : t.OpenHole env) :
    (implementedField Γ env fuel t).Always (·.OpenHole env) := by
  induction fuel generalizing t with
  | zero => exact .throw
  | succ fuel ih =>
      unfold implementedField
      split
      · split
        · exact .pure given
        · refine .bind .anything fun type _ => ?_
          split
          · exact .bind (Term.whnf_openHole _) fun _ result => ih result
          · exact .pure given
      · exact .pure given

/-- A term in the form in which heads are compared. -/
theorem compared_allowed {Γ : Context} (given : Context.Allowed A Γ) (known : env.Allowed A)
    {t : Term} (allowed : t.Allowed A) :
    Fresh.Always (do implementedField Γ env env.fuel (← t.whnf env)) (CanBlock A env) :=
  fun n r k done => ⟨Fresh.Always.bind (Term.whnf_allowed known.computes allowed)
      (fun _ fine => implementedField_allowed given known _ fine) n r k done,
    Fresh.Always.bind t.whnf_openHole (fun _ fine => implementedField_openHole _ fine) n r k done⟩

end Reading

section Steps

variable {compare : Compare} {s : Store} {env : Environment}

/-- A replay goes on until nothing that is woken is left. -/
theorem replay_run (sound : compare.Sound g) (ours : compare.Own) (fuel : Nat) {n k : Nat}
    {x : Unit} {s' : Store} {env' : Environment} (within : g.Holds s env)
    (done : replay compare fuel s env n = .ok (((x, s'), env'), k)) :
    ∃ woken s₁, Course s env woken s₁ env' ∧ s₁.next? s₁.worklist = none ∧
      s' = { s₁ with worklist := [], replaying := false } ∧ g.Holds s' env' := by
  induction fuel generalizing s env n with
  | zero => cases done
  | succ fuel ih =>
      unfold replay at done
      obtain ⟨_, _, _, _, look, done⟩ := unify_bind done
      cases look
      cases found : s.next? s.worklist with
      | none =>
          rw [found] at done
          cases done
          exact ⟨[], s, .start, found, rfl, within.first, within.known, { within.store with }⟩
      | some next =>
          obtain ⟨e, s₁⟩ := next
          rw [found] at done
          obtain ⟨_, _, _, _, put, done⟩ := unify_bind done
          cases put
          obtain ⟨holds, s₂, env₂, i, compared, done⟩ := unify_bind done
          obtain ⟨within₁, fromLeft, fromRight⟩ := holds_take within found
          have taken : Change s env s₁ env := .take found
          have order := taken.grows.at (g := g)
          obtain ⟨⟨_, comparing⟩, within₂, _⟩ := sound _ _ _ _ _ _ (fromLeft.mono order)
            (fromRight.mono order) within₁ _ _ _ _ _ compared
          -- the rest of the replay, once this equation is dealt with
          have goOn : ∀ told j, Replayed e s₁ env s₂ env₂ told → g.Holds told env₂ →
              replay compare fuel told env₂ j = .ok (((x, s'), env'), k) →
              ∃ woken s₁, Course s env woken s₁ env' ∧ s₁.next? s₁.worklist = none ∧
                s' = { s₁ with worklist := [], replaying := false } ∧ g.Holds s' env' := by
            intro told j replayed within₃ rest
            obtain ⟨_, s₃, course, exhausted, final⟩ := ih within₃ rest
            exact ⟨_, s₃, (Course.replay .start found comparing replayed).trans course, exhausted,
              final⟩
          cases holds with
          | true => exact goOn s₂ i ⟨compare, n, i, true, ours, compared, rfl⟩ within₂ done
          | false =>
              obtain ⟨_, s₃, env₃, j, told, rest⟩ := unify_bind done
              obtain ⟨d, s₄, env₄, l, said, noted⟩ := unify_bind told
              obtain ⟨rfl, rfl, rfl, mismatch⟩ := checked_run said
              cases noted
              exact goOn _ _ ⟨compare, n, _, false, ours, compared, d, mismatch, rfl⟩
                (holds_report within₂ d) rest

/-- Waking the listeners of a metavariable right after it has been installed. -/
theorem wake_run {s₀ : Store} {env₀ env₁ : Environment} (sound : compare.Sound g)
    (ours : compare.Own) (fuel : Nat) {m : MetaId} {n k : Nat} {x : Unit} {s' : Store}
    {env' : Environment} (checking : Orderly s₀ env₀ s env)
    (installed : Installed m s₀ env₀ s env env₁) (within : g.Holds s env₁)
    (done : wake compare fuel m s env₁ n = .ok (((x, s'), env'), k)) :
    Orderly s₀ env₀ s' env' ∧ g.Holds s' env' := by
  obtain ⟨_, checking⟩ := checking
  obtain ⟨_, _, _, _, woken, done⟩ := unify_bind done
  cases woken
  obtain ⟨_, _, _, _, look, done⟩ := unify_bind done
  cases look
  have within₁ : g.Holds (s.wake m) env₁ :=
    ⟨within.first, within.known, { within.store with }⟩
  split at done
  · rename_i busy
    cases done
    exact ⟨⟨_, .within .start checking installed busy⟩, within₁⟩
  · rename_i idle
    obtain ⟨_, _, _, _, started, done⟩ := unify_bind done
    cases started
    have within₂ : g.Holds { s.wake m with replaying := true } env₁ :=
      ⟨within₁.first, within₁.known, { within₁.store with }⟩
    obtain ⟨_, s₁, draining, exhausted, rfl, within'⟩ := replay_run sound ours fuel within₂ done
    have idle : s.replaying = false := Bool.not_eq_true _ ▸ idle
    exact ⟨⟨_, .drain .start checking installed idle draining exhausted⟩, within'⟩

/-- The checks that leave everything as it is. -/
theorem scopeProblem_run {m : MetaId} {entry : MetaEntry} {value : Term} {span : Span}
    {problem : Option Diagnostic} {s' : Store} {env' : Environment} {n k : Nat}
    (done : scopeProblem m entry value span s env n = .ok (((problem, s'), env'), k)) :
    s' = s ∧ env' = env ∧ (∀ d ∈ problem, d.isWarning = false) ∧
      (problem = none → env.occurs m value = false ∧
        value.freeVars.find? (!entry.scope.contains ·) = none) := by
  unfold scopeProblem at done
  obtain ⟨_, _, _, _, look, rest⟩ := unify_bind done
  cases look
  split at rest
  · obtain ⟨_, _, _, _, text, final⟩ := unify_bind rest
    obtain ⟨rfl, rfl, _⟩ := checked_run text
    cases final
    exact ⟨rfl, rfl, fun d isProblem => Option.mem_some_iff.mp isProblem ▸ rfl, nofun⟩
  · obtain ⟨_, _, _, _, look, rest⟩ := unify_bind rest
    cases look
    split at rest
    · obtain ⟨_, _, _, _, text, final⟩ := unify_bind rest
      obtain ⟨rfl, rfl, _⟩ := checked_run text
      cases final
      exact ⟨rfl, rfl, fun d isProblem => Option.mem_some_iff.mp isProblem ▸ rfl, nofun⟩
    · rename_i absent
      cases outside : value.freeVars.find? (!entry.scope.contains ·) with
      | some x =>
          rw [outside] at rest
          cases rest
          exact ⟨rfl, rfl, fun d isProblem => Option.mem_some_iff.mp isProblem ▸ rfl, nofun⟩
      | none =>
          rw [outside] at rest
          cases rest
          exact ⟨rfl, rfl, nofun, fun _ => ⟨Bool.eq_false_iff.mpr absent, rfl⟩⟩

theorem mismatch_error {span : Span} {expected actual : Term} {d : Diagnostic}
    (said : Diagnostic.mismatch span expected actual = .ok d) : d.isWarning = false := by
  obtain ⟨_, _, said⟩ := bind_ok said
  obtain ⟨_, _, said⟩ := bind_ok said
  cases said
  rfl

theorem typeProblem_sound (sound : compare.Sound g) {entry : MetaEntry} {value : Term}
    (known : entry.type.Allowed (g.at s env)) (allowed : value.Allowed (g.at s env))
    (span : Span) : Sound Orderly g s env (typeProblem compare entry value span)
      fun _ problem => ∀ d ∈ problem, d.isWarning = false := by
  refine .get (.within fun within => ?_)
  refine .reading (fun known => Term.typeOf?_allowed known value _ within.store.context allowed) ?_
  intro type fine
  split
  · exact .pure fun d absent => by cases absent
  · rename_i actual
    refine (sound _ _ _ _ _ _ (fine actual rfl) known).bind fun fits _ _ _ _ => ?_
    split
    · exact .pure fun d absent => by cases absent
    · intro within n problem s' env' m done
      obtain ⟨d, _, _, _, said, final⟩ := unify_bind done
      obtain ⟨rfl, rfl, _, mismatch⟩ := checked_run said
      cases final
      exact ⟨Passage.start _ _, within, fun _ isProblem =>
        Option.mem_some_iff.mp isProblem ▸ mismatch_error mismatch⟩

/-- The last part of a solution: it is recorded unless the check of its type has solved the
    metavariable already. -/
theorem install_run {s₀ : Store} {env₀ : Environment} (sound : compare.Sound g)
    (ours : compare.Own) (fuel : Nat) {m : MetaId} {value : Term} (span : Span) (accepted : Bool)
    (own : (g.at s env).hole m) (allowed : value.Allowed (g.at s env))
    (checking : Orderly s₀ env₀ s env)
    (installs : ∀ env', env.solve m value = .ok env' → Installed m s₀ env₀ s env env')
    (within : g.Holds s env) {n k : Nat} {r : Bool} {s' : Store} {env' : Environment}
    (done : (do
      match (← Unify.env).solve m value with
      | .ok env => do
          set env
          wake compare fuel m
          return accepted
      | .error _ =>
          match (← Unify.env).solution? m with
          | some existing => compare existing value .eq span
          | none => return false : Unify Bool) s env n = .ok (((r, s'), env'), k)) :
    Orderly s₀ env₀ s' env' ∧ g.Holds s' env' := by
  obtain ⟨_, _, _, _, look, rest⟩ := unify_bind done
  cases look
  cases solved : env.solve m value with
  | ok env₁ =>
      rw [solved] at rest
      obtain ⟨_, _, _, _, put, rest⟩ := unify_bind rest
      cases put
      obtain ⟨_, _, _, _, woken, final⟩ := unify_bind rest
      cases final
      exact wake_run sound ours fuel checking (installs env₁ solved)
        (holds_solve within allowed solved) woken
  | error _ =>
      rw [solved] at rest
      obtain ⟨_, _, _, _, look, rest⟩ := unify_bind rest
      cases look
      cases existing : env.solution? m with
      | some t =>
          rw [existing] at rest
          obtain ⟨after, within', _⟩ := sound t value .eq span s env
            (within.known.solution own existing) allowed within _ _ _ _ _ rest
          exact ⟨Passage.trans checking after, within'⟩
      | none =>
          rw [existing] at rest
          cases rest
          exact ⟨checking, within⟩

theorem solve_sound (sound : compare.Sound g) (ours : compare.Own) (fuel : Nat) {m : MetaId}
    {value : Term} (own : (g.at s env).hole m) (allowed : value.Allowed (g.at s env))
    (span : Span) : Sound Orderly g s env (solve compare fuel m value span) Anything := by
  refine .look (.within fun within => ?_)
  split
  · rename_i existing solved
    exact sound _ _ _ _ _ _ (within.known.solution own solved) allowed
  · refine .look ?_
    split
    · rename_i entry found
      refine .reading (fun known => Term.zonk_allowed known.computes [] allowed) ?_
      intro value fine
      split
      · exact .pure trivial
      · intro within n r s' env' l done
        -- an error stands for the value once the problem is reported
        have refused : ∀ (d : Diagnostic) (s₁ : Store) (env₁ : Environment) (k : Nat),
            Orderly s env s₁ env₁ → g.Holds s₁ env₁ → d.isWarning = false → (do
              report d
              match (← Unify.env).solve m (.error "ill-typed solution" none) with
              | .ok env => do
                  set env
                  wake compare fuel m
                  return false
              | .error _ =>
                  match (← Unify.env).solution? m with
                  | some existing =>
                      compare existing (.error "ill-typed solution" none) .eq span
                  | none => return false : Unify Bool) s₁ env₁ k = .ok (((r, s'), env'), l) →
            Orderly s env s' env' ∧ g.Holds s' env' := by
          intro d s₁ env₁ k before within₁ isError run
          obtain ⟨_, s₂, env₂, _, told, rest⟩ := unify_bind run
          obtain ⟨noted, within₂, error⟩ := report_error d isError within₁ _ _ _ _ _ told
          have upToHere := Passage.trans before noted
          have order := (Passage.history upToHere).grows.at (g := g)
          obtain ⟨after, within'⟩ := install_run sound ours fuel span false (order.hole m own)
            (Term.allowed_note.mpr error) (Passage.start s₂ env₂) (fun _ solved => .fail solved)
            within₂ rest
          exact ⟨Passage.trans upToHere after, within'⟩
        obtain ⟨refusal, s₀, env₀, i, checked, rest⟩ := unify_bind done
        obtain ⟨rfl, rfl, isError, _⟩ := scopeProblem_run checked
        cases refusal with
        | some d =>
            obtain ⟨_, _, _, _, kept, rest⟩ := unify_bind rest
            cases kept
            obtain ⟨went, within'⟩ :=
              refused d _ _ _ (Passage.start _ _) within (isError d rfl) rest
            exact ⟨went, within', trivial⟩
        | none =>
            obtain ⟨problem, s₁, env₁, k, typed, rest⟩ := unify_bind rest
            have type := (within.known.metas m entry own found).type
            obtain ⟨before, within₁, isError⟩ :=
              typeProblem_sound sound type fine span within _ _ _ _ _ typed
            cases problem with
            | some d =>
                obtain ⟨went, within'⟩ := refused d _ _ _ before within₁ (isError d rfl) rest
                exact ⟨went, within', trivial⟩
            | none =>
                have accepted : Accepted m value s₀ env₀ s₁ env₁ :=
                  ⟨compare, entry, span, _, _, _, ours, found, checked, typed⟩
                have order := (Passage.history before).grows.at (g := g)
                obtain ⟨went, within'⟩ := install_run sound ours fuel span true (order.hole m own)
                  (fine.mono order) before (fun _ solved => .solve accepted solved) within₁ rest
                exact ⟨went, within', trivial⟩
    · exact .pure trivial

theorem solveOrDefer_sound (sound : compare.Sound g) (ours : compare.Own) (fuel : Nat)
    {m : MetaId} (own : (g.at s env).hole m) (cmp : Cmp) (span : Span) {t : Term}
    (fine : CanBlock (g.at s env) env t) :
    Sound Orderly g s env (addEquation.solveOrDefer compare fuel m cmp span t) Anything := by
  unfold addEquation.solveOrDefer
  refine .reading (fun _ => t.stuckMeta_reaches) fun stuck reached => ?_
  split
  · rename_i blocks
    refine (defer_sound (Term.allowed_hole.mpr own) fine.1 fun determined => ?_).bind
      fun _ _ _ _ _ => .pure trivial
    rcases Bool.or_eq_true_iff.mp blocks with isHole | isStuck
    · obtain ⟨k, isHole⟩ := Option.isSome_iff_exists.mp isHole
      exact ⟨k, fine.2 k isHole, .inr (Environment.reaches_of_hole? isHole)⟩
    · obtain ⟨k, isStuck⟩ := Option.isSome_iff_exists.mp isStuck
      obtain ⟨unsolved, way⟩ := reached determined k isStuck
      exact ⟨k, unsolved, .inr way⟩
  · exact solve_sound sound ours _ own fine.1 _

theorem addEquation_sound (sound : compare.Sound g) (ours : compare.Own) (fuel : Nat) {m : MetaId}
    (own : (g.at s env).hole m) {t : Term} (allowed : t.Allowed (g.at s env)) (cmp : Cmp)
    (span : Span) : Sound Orderly g s env (addEquation compare fuel m t cmp span) Anything := by
  unfold addEquation
  have reduced : env.Allowed (g.at s env) → (t.whnf env).Always (CanBlock (g.at s env) env) :=
    fun known n r k done => ⟨Term.whnf_allowed known.computes allowed n r k done,
      Term.whnf_openHole t n r k done⟩
  refine .reading reduced fun t fine => ?_
  split
  · exact solve_sound sound ours _ own fine.1 _
  · split
    · split
      · refine (Sound.modify (.aside (.prop m span) ⟨rfl, rfl, rfl, rfl, fun _ => rfl, id⟩)
          fun within => holds_prop within own span).bind fun _ _ _ _ _ => .pure trivial
      · refine freshUniverse_sound.bind fun fresh _ _ order _ => ?_
        exact (solve_sound sound ours _ (order.hole m own) Term.allowed_univ _).unlessFails
          fun _ _ _ => compareUniverses_sound _ _ _ _
    · rename_i mode x domain codomain
      obtain ⟨outside, inside⟩ := Term.allowed_pi.mp fine.1
      refine .readingAny fun cumulative => ?_
      split
      · exact solveOrDefer_sound sound ours _ own _ _ fine
      · refine .look ?_
        split
        · refine (bind_sound x outside).bind fun _ _ _ order₁ _ => ?_
          refine freshUniverse_sound.bind fun u _ _ order₂ _ => ?_
          refine (freshMeta_sound "codomain" Term.allowed_univ _ (by nofun) span).bind ?_
          intro result s₁ env₁ order₃ made
          have order := (order₁.trans order₂).trans order₃
          refine (solve_sound sound ours _ (order.hole m own)
            (Term.allowed_pi.mpr ⟨outside.mono order, made⟩) _).unlessFails fun s₂ env₂ order₄ => ?_
          exact sound _ _ _ _ _ _ (made.mono order₄) (inside.mono (order.trans order₄))
        · exact .pure trivial
    · rename_i c levels fields
      have bound : (g.at s env).hole m ∧ (Term.record c levels fields).Allowed (g.at s env) :=
        ⟨own, fine.1⟩
      have isRecord : ∀ {b : RecordBound}, b = ⟨m, .record c levels fields, span⟩ →
          b.record.isRecord = true := by
        rintro b rfl
        rfl
      refine (Sound.modify ?_ fun within => ?_).bind fun _ _ _ _ _ => .pure trivial
      · split
        · refine .aside (.upper _) ⟨rfl, rfl, rfl, rfl, fun _ => rfl, fun records b listed => ?_⟩
          rcases listed with old | new
          · exact records b (.inl old)
          · exact (Array.mem_push.mp new).elim (fun old => records b (.inr old)) isRecord
        · refine .aside (.lower _) ⟨rfl, rfl, rfl, rfl, fun _ => rfl, fun records b listed => ?_⟩
          rcases listed with new | old
          · exact (Array.mem_push.mp new).elim (fun old => records b (.inl old)) isRecord
          · exact records b (.inr old)
      · split
        · exact holds_upper within bound
        · exact holds_lower within bound
    · exact solveOrDefer_sound sound ours _ own _ _ fine

theorem fixesAll_sound (sound : compare.Sound g) {larger : List (DefId × Term)}
    (fromLarger : ∀ entry ∈ larger, entry.2.Allowed (g.at s env)) (span : Span)
    {fields : List (DefId × Term)} (fromFields : ∀ entry ∈ fields, entry.2.Allowed (g.at s env)) :
    Sound Orderly g s env (fixesAll compare larger span fields) Anything := by
  induction fields generalizing s env with
  | nil => exact .pure trivial
  | cons entry rest ih =>
      obtain ⟨f, value⟩ := entry
      obtain ⟨here, others⟩ := List.forall_mem_cons.mp fromFields
      unfold fixesAll
      split
      · exact .pure trivial
      · rename_i other found
        refine (sound _ _ _ _ _ _ (fromLarger _ (mem_of_lookup found)) here).ifHolds ?_
        exact fun s₁ env₁ order => ih (fun entry member => (fromLarger entry member).mono order)
          fun entry member => (others entry member).mono order

theorem compareTelescopes_sound (sound : compare.Sound g) (span : Span) {t : Subst}
    (images : t.Allowed (g.at s env)) {left right : Telescope}
    (fromLeft : Telescope.Allowed (g.at s env) left)
    (fromRight : Telescope.Allowed (g.at s env) right) :
    Sound Orderly g s env (compareTelescopes compare span t left right) Anything := by
  induction left generalizing s env t right with
  | nil => cases right <;> exact .pure trivial
  | cons l ls ih =>
      cases right with
      | nil => exact .pure trivial
      | cons r rs =>
          obtain ⟨left, lefts⟩ := Telescope.allowed_cons.mp fromLeft
          obtain ⟨right, rights⟩ := Telescope.allowed_cons.mp fromRight
          refine .reading (fun known => Subst.apply_allowed known.computes images right) ?_
          intro type fine
          refine (sound _ _ _ _ _ _ left fine).unlessFails fun s₁ env₁ order₁ => ?_
          refine (bind_sound l.var (left.mono order₁)).bind fun _ s₂ env₂ order₂ _ => ?_
          have order := order₁.trans order₂
          exact ih (Subst.allowed_add.mpr ⟨Term.allowed_ref, images.mono order⟩)
            (lefts.mono order) (rights.mono order)

end Steps

section Heads

variable {distinct : Compare} {s : Store} {env : Environment}

theorem compareAll_sound (sound : distinct.Sound g) (span : Span) (differ : Bool)
    {left right : List Term} (fromLeft : ∀ a ∈ left, a.Allowed (g.at s env))
    (fromRight : ∀ a ∈ right, a.Allowed (g.at s env)) :
    Sound Orderly g s env (compareAll distinct span differ left right) Anything := by
  fun_induction compareAll distinct span differ left right generalizing s env with
  | case1 => exact .pure trivial
  | case2 =>
      exact sound _ _ _ _ _ _ (fromLeft _ List.mem_cons_self) (fromRight _ List.mem_cons_self)
  | case3 _ _ _ _ _ ih =>
      exact ih (List.forall_mem_cons.mp fromLeft).2 (List.forall_mem_cons.mp fromRight).2
  | case4 _ _ _ _ _ _ _ ih =>
      obtain ⟨left, lefts⟩ := List.forall_mem_cons.mp fromLeft
      obtain ⟨right, rights⟩ := List.forall_mem_cons.mp fromRight
      exact (sound _ _ _ _ _ _ left right).ifHolds fun _ _ order =>
        ih (Term.allowed_mono lefts order) (Term.allowed_mono rights order)
  | case5 => exact .pure trivial

theorem compareSame_sound (sound : distinct.Sound g) (differ : Bool) {left right : List Term}
    (fromLeft : ∀ a ∈ left, a.Allowed (g.at s env))
    (fromRight : ∀ a ∈ right, a.Allowed (g.at s env)) (span : Span) :
    Sound Orderly g s env (compareSame distinct differ left right span) Anything := by
  unfold compareSame
  split
  · exact compareAll_sound sound _ _ fromLeft fromRight
  · exact .pure trivial

theorem compareProjections_sound (sound : distinct.Sound g) (span : Span) (flipped : Bool)
    {whole : Term} (fromWhole : whole.Allowed (g.at s env)) (index : Nat) {components : List Term}
    (given : ∀ a ∈ components, a.Allowed (g.at s env)) :
    Sound Orderly g s env (compareProjections distinct span flipped whole index components)
      Anything := by
  induction components generalizing s env index with
  | nil => exact .pure trivial
  | cons a rest ih =>
      obtain ⟨here, others⟩ := List.forall_mem_cons.mp given
      have projection := Term.allowed_proj (i := index).mpr fromWhole
      have next : ∀ s' env', g.at s env ≤ g.at s' env' → Sound Orderly g s' env'
          (compareProjections distinct span flipped whole (index + 1) rest) Anything :=
        fun _ _ order => ih (fromWhole.mono order) _ (Term.allowed_mono others order)
      unfold compareProjections
      split
      · exact (orSame_sound sound _ _ _ _ _ _ projection here).ifHolds next
      · exact (orSame_sound sound _ _ _ _ _ _ here projection).ifHolds next

theorem compareHeads_sound (sound : distinct.Sound g) {left right : Term}
    (fromLeft : left.Allowed (g.at s env)) (fromRight : right.Allowed (g.at s env)) (cmp : Cmp)
    (span : Span) : Sound Orderly g s env (compareHeads distinct left right cmp span) Anything := by
  have whole := orSame_sound sound
  -- an eta step: the other side is applied to the variable of the function
  have applied : ∀ {t : Term} (x : Var) (s' : Store) (env' : Environment),
      t.Allowed (g.at s env) → g.at s env ≤ g.at s' env' →
        (Term.app t (.ref x)).Allowed (g.at s' env') := fun x s' env' allowed order =>
    Term.allowed_app.mpr ⟨allowed.mono order, Term.allowed_ref⟩
  unfold compareHeads
  dsimp only
  split
  · exact compareUniverses_sound _ _ _ _
  · obtain ⟨a, c⟩ := Term.allowed_pi.mp fromLeft
    obtain ⟨b, d⟩ := Term.allowed_pi.mp fromRight
    split
    · exact .pure trivial
    · refine (whole _ _ _ _ _ _ a b).unlessFails fun _ _ order₁ => ?_
      refine (rename_sound _ _ (d.mono order₁)).bind fun _ _ _ order₂ renamed => ?_
      refine (bind_sound _ (a.mono (order₁.trans order₂))).bind fun _ _ _ order₃ _ => ?_
      exact whole _ _ _ _ _ _ (c.mono ((order₁.trans order₂).trans order₃)) (renamed.mono order₃)
  · obtain ⟨a, c⟩ := Term.allowed_lam.mp fromLeft
    obtain ⟨_, d⟩ := Term.allowed_lam.mp fromRight
    refine (rename_sound _ _ d).bind fun _ _ _ order₁ renamed => ?_
    refine (bind_sound _ (a.mono order₁)).bind fun _ _ _ order₂ _ => ?_
    exact whole _ _ _ _ _ _ (c.mono (order₁.trans order₂)) (renamed.mono order₂)
  · obtain ⟨a, c⟩ := Term.allowed_lam.mp fromLeft
    exact (bind_sound _ a).bind fun _ s' env' order _ =>
      whole _ _ _ _ _ _ (c.mono order) (applied _ s' env' fromRight order)
  · obtain ⟨a, c⟩ := Term.allowed_lam.mp fromRight
    exact (bind_sound _ a).bind fun _ s' env' order _ =>
      whole _ _ _ _ _ _ (applied _ s' env' fromLeft order) (c.mono order)
  · split
    · exact compareTelescopes_sound whole _ Subst.allowed_empty (Term.allowed_sigma.mp fromLeft)
        (Term.allowed_sigma.mp fromRight)
    · exact .pure trivial
  · exact compareSame_sound sound _ (Term.allowed_tuple.mp fromLeft).1
      (Term.allowed_tuple.mp fromRight).1 _
  · exact compareProjections_sound sound _ _ fromRight _ (Term.allowed_tuple.mp fromLeft).1
  · exact compareProjections_sound sound _ _ fromLeft _ (Term.allowed_tuple.mp fromRight).1
  · split
    · exact sound _ _ _ _ _ _ (Term.allowed_proj.mp fromLeft) (Term.allowed_proj.mp fromRight)
    · exact .pure trivial
  · obtain ⟨f, a⟩ := Term.allowed_app.mp fromLeft
    obtain ⟨k, b⟩ := Term.allowed_app.mp fromRight
    exact compareAll_sound sound _ _ (by simp [f, a]) (by simp [k, b])
  · exact .pure trivial
  · have a := (Term.allowed_call.mp fromLeft).2
    have b := (Term.allowed_call.mp fromRight).2
    split
    · exact .pure trivial
    · exact (compareUniverses_sound _ _ _ _).ifHolds fun _ _ order =>
        compareSame_sound sound _ (Term.allowed_mono a order) (Term.allowed_mono b order) _
  · obtain ⟨_, p, a⟩ := Term.allowed_con.mp fromLeft
    obtain ⟨_, q, b⟩ := Term.allowed_con.mp fromRight
    split
    · exact .pure trivial
    · exact (compareSame_sound sound _ a b _).ifHolds fun _ _ order =>
        compareSame_sound sound _ (Term.allowed_mono p order) (Term.allowed_mono q order) _
  · have a := (Term.allowed_data.mp fromLeft).2
    have b := (Term.allowed_data.mp fromRight).2
    split
    · exact .pure trivial
    · exact (compareUniverses_sound _ _ _ _).ifHolds fun _ _ order =>
        compareSame_sound sound _ (Term.allowed_mono a order) (Term.allowed_mono b order) _
  · have a := (Term.allowed_record.mp fromLeft).2
    have b := (Term.allowed_record.mp fromRight).2
    split
    · exact .pure trivial
    · refine (compareUniverses_sound _ _ _ _).unlessFails fun _ _ order => ?_
      have a' := fun entry member => (a entry member).mono order
      have b' := fun entry member => (b entry member).mono order
      split
      · split
        · exact fixesAll_sound whole a' _ b'
        · exact .pure trivial
      · exact fixesAll_sound whole a' _ b'
      · exact fixesAll_sound whole b' _ a'
  · split
    · exact whole _ _ _ _ _ _ (Term.allowed_field.mp fromLeft).2
        (Term.allowed_field.mp fromRight).2
    · exact .pure trivial
  · exact sound _ _ _ _ _ _ (Term.allowed_new.mp fromLeft) (Term.allowed_new.mp fromRight)
  · split
    · exact compareSame_sound sound _ (Term.allowed_caseOf.mp fromLeft).1
        (Term.allowed_caseOf.mp fromRight).1 _
    · exact .pure trivial
  · exact .pure trivial

theorem compareDistinct_sound (sound : distinct.Sound g) (ours : distinct.orSame.Own) (fuel : Nat)
    {left right : Term} (fromLeft : left.Allowed (g.at s env))
    (fromRight : right.Allowed (g.at s env)) (cmp : Cmp) (span : Span) :
    Sound Orderly g s env (compareDistinct distinct fuel left right cmp span) Anything := by
  have whole := orSame_sound sound
  refine .get (.within fun within => ?_)
  have given := within.store.context
  refine .reading (fun known => compared_allowed given known fromLeft) fun left left' => ?_
  refine .reading (fun known => compared_allowed given known fromRight) fun right right' => ?_
  have put : (env.Determined → ∃ m, (Equation.mk left right cmp span).Awaits env m) →
      Sound Orderly g s env (do
        defer left right cmp span
        return true) Anything := fun blocked =>
    (defer_sound left'.1 right'.1 blocked).bind fun _ _ _ _ _ => .pure trivial
  split
  · exact .pure trivial
  · split
    · exact .pure trivial
    · split
      · rename_i m _ isHole _
        split
        · exact addEquation_sound whole ours _ (hole_of_hole? isHole left'.1) right'.1 _ _
        · exact put fun _ => ⟨m, left'.2 m isHole, .inl (Environment.reaches_of_hole? isHole)⟩
      · rename_i m isHole _
        exact addEquation_sound whole ours _ (hole_of_hole? isHole left'.1) right'.1 _ _
      · rename_i m _ isHole
        exact addEquation_sound whole ours _ (hole_of_hole? isHole right'.1) left'.1 _ _
      · have blocked : ∀ blocker : Option MetaId,
            (env.Determined → ∀ m ∈ blocker, (Equation.mk left right cmp span).Awaits env m) →
            Sound Orderly g s env (if blocker.isSome then do
              defer left right cmp span
              return true
              else compareHeads distinct left right cmp span) Anything := by
          intro blocker awaits
          split
          · rename_i blocks
            obtain ⟨m, isBlocker⟩ := Option.isSome_iff_exists.mp blocks
            exact put fun determined => ⟨m, awaits determined m isBlocker⟩
          · exact compareHeads_sound sound left'.1 right'.1 _ _
        refine .reading (fun _ => left.stuckMeta_reaches) fun stuck fromL => ?_
        cases stuck with
        | some m => exact blocked (some m) fun determined k same =>
            (fromL determined k same).imp_right .inl
        | none => exact .reading (fun _ => right.stuckMeta_reaches) fun stuck fromR =>
            blocked stuck fun determined k same => (fromR determined k same).imp_right .inr

end Heads

theorem compareDistinctWith_sound (fuel : Nat) : (compareDistinctWith fuel).Sound g := by
  induction fuel with
  | zero => exact fun _ _ _ _ _ _ _ _ => .throw
  | succ fuel ih =>
      exact fun _ _ _ _ _ _ fromLeft fromRight =>
        compareDistinct_sound ih (.inr ⟨fuel, rfl⟩) _ fromLeft fromRight _ _

theorem compare_sound : Compare.Sound g compare := fun _ _ _ _ _ env fromLeft fromRight =>
  .look (orSame_sound (compareDistinctWith_sound env.fuel) _ _ _ _ _ _ fromLeft fromRight)

theorem compare_own : Compare.Own compare := .inl rfl

end PathTheory.Unify
