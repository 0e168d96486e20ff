import PathTheory.Equation.Solution
import PathTheory.Proofs.Equation.Sound
/-!
Stores that are settled. Settling keeps to what is allowed as comparing does, and takes nothing back;
so the levels found in the end solve every constraint that the store has ever been given, or else an
error is noted. Every metavariable of the store has a solution afterwards.
-/
namespace PathTheory

namespace Problem

/-- The diagnostics that say that levels do not fit. -/
def ofLevels : Problem → Bool
  | .unsolvedLevels _ | .levelCycle _ => true
  | _ => false

theorem isWarning_of_ofLevels {p : Problem} (ofLevels : p.ofLevels = true) :
    p.isWarning = false := by
  cases p <;> first | rfl | cases ofLevels

end Problem

namespace Unify

variable {g : Ground} {s : Store} {env : Environment}

theorem solveMeta_sound {m : MetaId} (own : (g.at s env).hole m) {value : Term}
    (allowed : value.Allowed (g.at s env)) (span : Span) :
    Sound Orderly g s env (solveMeta m value span) Anything :=
  .look (solve_sound compare_sound compare_own _ own allowed _)

theorem wakeListeners_run {m : MetaId} {env₁ : Environment}
    (installed : Installed m s env s env env₁) (within : g.Holds s env₁) {n k : Nat} {x : Unit} {s' : Store} {env' : Environment}
    (done : wakeListeners m s env₁ n = .ok (((x, s'), env'), k)) :
    Orderly s env s' env' ∧ g.Holds s' env' := by
  obtain ⟨_, _, _, _, look, done⟩ := unify_bind done
  cases look
  exact wake_run compare_sound compare_own _ (Passage.start s env) installed within done

theorem solveLevels_run {n : Nat} {r : Except LevelError LevelSolution} {s' : Store}
    {env' : Environment} {m : Nat} (done : solveLevels s env n = .ok (((r, s'), env'), m)) :
    s.levels.solve.run = .ok r := by
  unfold solveLevels at done
  obtain ⟨_, _, _, _, look, done⟩ := unify_bind done
  cases look
  cases run : s.levels.solve.run with
  | error fault =>
      rw [run] at done
      cases done
  | ok r =>
      rw [run] at done
      cases done
      rfl

theorem solveLevels_sound : Sound Orderly g s env solveLevels Anything := .get (.lift _)

theorem solveProps_sound {props : List (MetaId × Span)}
    (given : ∀ p ∈ props, (g.at s env).hole p.1) :
    Sound Orderly g s env (solveProps props) Anything := by
  induction props generalizing s env with
  | nil => exact .pure trivial
  | cons entry rest ih =>
      obtain ⟨m, span⟩ := entry
      obtain ⟨own, others⟩ := List.forall_mem_cons.mp given
      have next : ∀ s' env', g.at s env ≤ g.at s' env' →
          Sound Orderly g s' env' (solveProps rest) Anything := fun _ _ order =>
        ih fun p member => order.hole _ (others p member)
      unfold solveProps
      refine .look (.within fun within => ?_)
      split
      · exact (solveMeta_sound own Term.allowed_univ _).bind fun _ _ _ order _ => next _ _ order
      · rename_i solution found
        refine (compare_sound _ _ _ _ _ _ (within.known.solution own found)
          Term.allowed_univ).bind fun _ _ _ order₁ _ => ?_
        split
        · exact (reportMismatch_sound _ _ _).bind fun _ _ _ order₂ _ =>
            next _ _ (order₁.trans order₂)
        · exact next _ _ order₁

/-- What cannot be solved otherwise is solved by an error once an error is noted. -/
theorem holds_fail {m : MetaId} {message : String} {env' : Environment}
    (error : (g.at s env).error) (solved : env.solve m (.error message none) = .ok env')
    (within : g.Holds s env) : g.Holds s env' :=
  holds_solve within (Term.allowed_note.mpr error) solved

theorem solveInstance_sound {m : MetaId} {entry : MetaEntry} {ofClass : DefId}
    (own : (g.at s env).hole m) (isClass : g.definition ofClass) :
    Sound Orderly g s env (solveInstance m entry ofClass) Anything := by
  refine .readingAny fun carrier => .look (.within fun within => ?_)
  split
  · rename_i i found
    obtain ⟨data, _, found⟩ := Option.bind_eq_some_iff.mp found
    have named : i.ofClass = ofClass := by
      have both := List.find?_some found
      simp only [Bool.and_eq_true, beq_iff_eq] at both
      exact both.1
    have value : g.definition i.value :=
      within.known.instances i (List.mem_of_find?_eq_some found) (named ▸ isClass)
    refine (solveMeta_sound own (Term.allowed_call.mpr ⟨value, List.forall_mem_nil _⟩) _).bind ?_
    exact fun _ _ _ _ _ => .pure trivial
  · intro within n x s' env' k done
    obtain ⟨_, s₁, env₁, _, told, rest⟩ := unify_bind done
    obtain ⟨noted, within₁, error⟩ := report_error _ rfl within _ _ _ _ _ told
    have same : env₁ = env := by
      cases told
      rfl
    subst same
    cases solved : env₁.solve m (.error "missing instance" none) with
    | ok env₂ =>
        rw [solved] at rest
        obtain ⟨_, _, _, _, put, rest⟩ := unify_bind rest
        cases put
        obtain ⟨after, within'⟩ :=
          wakeListeners_run (.fail solved) (holds_fail error solved within₁) rest
        exact ⟨Passage.trans noted after, within', trivial⟩
    | error _ =>
        rw [solved] at rest
        obtain ⟨_, _, _, _, kept, rest⟩ := unify_bind rest
        cases kept
        obtain ⟨after, within'⟩ := wakeListeners_run .nothing within₁ rest
        exact ⟨Passage.trans noted after, within', trivial⟩

theorem solveInstances_sound {ms : List MetaId} (given : ∀ m ∈ ms, (g.at s env).hole m) :
    Sound Orderly g s env (solveInstances ms) Anything := by
  induction ms generalizing s env with
  | nil => exact .pure trivial
  | cons m rest ih =>
      obtain ⟨own, others⟩ := List.forall_mem_cons.mp given
      have next : ∀ s' env', g.at s env ≤ g.at s' env' →
          Sound Orderly g s' env' (solveInstances rest) Anything := fun _ _ order =>
        ih fun m member => order.hole m (others m member)
      unfold solveInstances
      refine .look (.within fun within => ?_)
      split
      · rename_i entry found
        split
        · rename_i isKind
          exact (solveInstance_sound own ((within.known.metas m entry own found).kind _ isKind)).bind
            fun _ _ _ order _ => next _ _ order
        · exact next _ _ le_rfl
      · exact next _ _ le_rfl

section Records

theorem commonFields_sound (span : Span) {others fields : List (DefId × Term)}
    (fromOthers : ∀ entry ∈ others, entry.2.Allowed (g.at s env))
    (fromFields : ∀ entry ∈ fields, entry.2.Allowed (g.at s env)) :
    Sound Orderly g s env (commonFields span others fields) fun A merged =>
      ∀ common ∈ merged, ∀ entry ∈ common, entry.2.Allowed A := by
  induction fields generalizing s env with
  | nil =>
      refine .pure fun common isEmpty => ?_
      cases isEmpty
      exact List.forall_mem_nil _
  | cons entry rest ih =>
      obtain ⟨f, value⟩ := entry
      obtain ⟨here, fromRest⟩ := List.forall_mem_cons.mp fromFields
      unfold commonFields
      split
      · exact ih fromOthers fromRest
      · rename_i other found
        refine (compare_sound _ _ _ _ _ _ here (fromOthers _ (mem_of_lookup found))).bind ?_
        intro same s₁ env₁ order₁ _
        split
        · exact .pure nofun
        · refine (ih (fun entry member => (fromOthers entry member).mono order₁)
            fun entry member => (fromRest entry member).mono order₁).bind ?_
          refine fun merged s₂ env₂ order₂ fine => .pure fun common isCommon => ?_
          obtain ⟨tail, isTail, rfl⟩ := Option.map_eq_some_iff.mp isCommon
          exact List.forall_mem_cons.mpr
            ⟨(here.mono order₁).mono order₂, fine tail isTail⟩

theorem reportConflict_sound (span : Span) (first second : Term) :
    Sound Orderly g s env (reportConflict span first second) Anything :=
  (Sound.lift _).bind fun _ _ _ _ _ => (Sound.lift _).bind fun _ _ _ _ _ => report_sound _

theorem mergeRest_sound (first : Term) (ofClass : DefId) (span : Span)
    {bounds : List (Term × Span)} (given : ∀ b ∈ bounds, b.1.Allowed (g.at s env))
    {fields : List (DefId × Term)} (fromFields : ∀ entry ∈ fields, entry.2.Allowed (g.at s env))
    (us : List Universe) : Sound Orderly g s env (mergeRest first ofClass span bounds fields us)
      fun A merged => ∀ r ∈ merged, ∀ entry ∈ r.1, entry.2.Allowed A := by
  induction bounds generalizing s env fields us with
  | nil =>
      refine .pure fun r isResult => ?_
      cases isResult
      exact fromFields
  | cons bound rest ih =>
      obtain ⟨other, _⟩ := bound
      obtain ⟨here, fromRest⟩ := List.forall_mem_cons.mp given
      have refused : ∀ s env, Sound Orderly g s env (do
          reportConflict span first other
          return none : Unify (Option (List (DefId × Term) × List Universe)))
          fun A merged => ∀ r ∈ merged, ∀ entry ∈ r.1, entry.2.Allowed A := fun _ _ =>
        (reportConflict_sound _ _ _).bind fun _ _ _ _ _ => .pure nofun
      unfold mergeRest
      split
      · split
        · exact refused _ _
        · refine (commonFields_sound span (Term.allowed_record.mp here).2 fromFields).bind ?_
          intro common s₁ env₁ order fine
          split
          · exact refused _ _
          · exact ih (fun b member => (fromRest b member).mono order) (fine _ rfl) _
      · exact refused _ _

theorem mergeBounds_sound {bounds : List (Term × Span)}
    (given : ∀ b ∈ bounds, b.1.Allowed (g.at s env)) :
    Sound Orderly g s env (mergeBounds bounds) fun A merged => ∀ t ∈ merged, t.Allowed A := by
  unfold mergeBounds
  split
  · exact .pure fun t absent => by cases absent
  · rename_i first span rest
    obtain ⟨here, fromRest⟩ := List.forall_mem_cons.mp given
    split
    · rename_i c levels fields
      obtain ⟨isClass, fromFields⟩ := Term.allowed_record.mp here
      refine (mergeRest_sound _ c span fromRest fromFields _).bind fun merged s₁ env₁ _ fine => ?_
      split
      · exact .pure fun t absent => by cases absent
      · rename_i fields us
        have fine := fine _ rfl
        split
        · refine .pure fun t isResult => ?_
          cases isResult
          exact Term.allowed_record.mpr ⟨isClass, fine⟩
        · refine freshUniverse_sound.bind fun fresh s₂ env₂ order₁ _ => ?_
          refine (Sound.forIn us (fun u _ _ _ => ?_) _).bind fun _ s₃ env₃ order₂ _ => ?_
          · exact (compareUniverses_sound _ _ _ _).bind fun _ _ _ _ _ => .pure trivial
          · refine .pure fun t isResult => ?_
            cases isResult
            exact Term.allowed_record.mpr
              ⟨isClass, fun entry member => (fine entry member).mono (order₁.trans order₂)⟩
    · exact .pure fun t absent => by cases absent

/-- Every bound is one of an allowed metavariable by an allowed term. -/
def Bounds.Allowed (A : Allowance) (bounds : Bounds) : Prop :=
  ∀ b ∈ bounds, A.hole b.1 ∧ b.2.1.Allowed A

theorem Bounds.Allowed.mono {A B : Allowance} {bounds : Bounds} (allowed : bounds.Allowed A)
    (order : A ≤ B) : bounds.Allowed B := fun b member =>
  ⟨order.hole _ (allowed b member).1, (allowed b member).2.mono order⟩

theorem Bounds.mem_of {bounds : Bounds} {m : MetaId} {t : Term} {span : Span}
    (listed : (t, span) ∈ bounds.of m) : (m, t, span) ∈ bounds := by
  unfold Bounds.of at listed
  obtain ⟨⟨k, t', span'⟩, member, bounded⟩ := List.mem_filterMap.mp listed
  dsimp only at bounded
  split at bounded
  · rename_i same
    cases bounded
    exact beq_iff_eq.mp same ▸ member
  · cases bounded

theorem Bounds.along_all {P : MetaId × Term × Span → Prop} {bounds : Bounds}
    (all : ∀ b ∈ bounds, P b) (lower : MetaId) {upper : MetaId}
    (carries : ∀ b, P b → P (upper, b.2)) : ∀ b ∈ bounds.along lower upper, P b := by
  unfold Bounds.along
  have added : ∀ (fromLower : List (Term × Span)) (before : Bounds),
      (∀ b ∈ fromLower, P (upper, b)) → (∀ b ∈ before, P b) →
        ∀ b ∈ fromLower.foldl (fun bounds b => if (bounds.of upper).any (·.1 == b.1) then bounds
          else bounds ++ [(upper, b.1, b.2)]) before, P b := by
    intro fromLower
    induction fromLower with
    | nil => exact fun _ _ fine => fine
    | cons b rest ih =>
        intro before given fine
        obtain ⟨here, others⟩ := List.forall_mem_cons.mp given
        refine ih _ others ?_
        dsimp only
        split
        · exact fine
        · exact List.forall_mem_append.mpr ⟨fine, List.forall_mem_singleton.mpr here⟩
  exact added _ _ (fun b listed => carries _ (all _ (Bounds.mem_of listed))) all

theorem Bounds.pass_all {P : MetaId × Term × Span → Prop} {edges : List (MetaId × MetaId)}
    (carries : ∀ e ∈ edges, ∀ b, P b → P (e.2, b.2)) {bounds : Bounds} (all : ∀ b ∈ bounds, P b) :
    ∀ b ∈ edges.foldl (fun bounds (e : MetaId × MetaId) => bounds.along e.1 e.2) bounds, P b := by
  induction edges generalizing bounds with
  | nil => exact all
  | cons e rest ih =>
      obtain ⟨here, others⟩ := List.forall_mem_cons.mp carries
      exact ih others (Bounds.along_all all e.1 here)

/-- What bounds hand on along the edges holds of the bounds in the end. -/
theorem Bounds.propagate_all {P : MetaId × Term × Span → Prop} {edges : List (MetaId × MetaId)}
    (carries : ∀ e ∈ edges, ∀ b, P b → P (e.2, b.2)) (fuel : Nat) {bounds : Bounds}
    (all : ∀ b ∈ bounds, P b) : ∀ b ∈ Bounds.propagate edges fuel bounds, P b := by
  induction fuel generalizing bounds with
  | zero => exact all
  | succ fuel ih =>
      unfold Bounds.propagate
      dsimp only
      split
      · exact all
      · exact ih (Bounds.pass_all carries all)

theorem solveLowerBounds_sound {bounds : Bounds} (allowed : bounds.Allowed (g.at s env))
    (ms : List MetaId) : Sound Orderly g s env (solveLowerBounds bounds ms) Anything := by
  induction ms generalizing s env with
  | nil => exact .pure trivial
  | cons m rest ih =>
      unfold solveLowerBounds
      refine .look ?_
      dsimp only
      split
      · split
        · exact ih allowed
        · rename_i t span more bounded
          have given : ∀ b ∈ (t, span) :: more, (g.at s env).hole m ∧ b.1.Allowed (g.at s env) :=
            fun b listed => allowed _ (Bounds.mem_of (bounded ▸ listed))
          have own := (given _ List.mem_cons_self).1
          refine (mergeBounds_sound fun b listed => (given b listed).2).bind ?_
          intro merged _ _ order₁ fine
          split
          · refine (solveMeta_sound (order₁.hole m own) (fine _ rfl) _).bind ?_
            exact fun _ _ _ order₂ _ => ih (allowed.mono (order₁.trans order₂))
          · exact ih (allowed.mono order₁)
      · exact ih allowed

theorem checkUpperBounds_sound {bounds : List RecordBound}
    (given : ∀ b ∈ bounds, (g.at s env).hole b.hole ∧ b.record.Allowed (g.at s env)) :
    Sound Orderly g s env (checkUpperBounds bounds) Anything := by
  induction bounds generalizing s env with
  | nil => exact .pure trivial
  | cons bound rest ih =>
      obtain ⟨⟨own, record⟩, others⟩ := List.forall_mem_cons.mp given
      have next : ∀ s' env', g.at s env ≤ g.at s' env' →
          Sound Orderly g s' env' (checkUpperBounds rest) Anything := fun _ _ order =>
        ih fun b member => ⟨order.hole _ (others b member).1, (others b member).2.mono order⟩
      unfold checkUpperBounds
      refine .look (.within fun within => ?_)
      split
      · rename_i solution found
        refine (compare_sound _ _ _ _ _ _ (within.known.solution own found) record).bind ?_
        intro fits _ _ order₁ _
        split
        · exact (reportMismatch_sound _ _ _).bind fun _ _ _ order₂ _ =>
            next _ _ (order₁.trans order₂)
        · exact next _ _ order₁
      · exact (solveMeta_sound own record _).bind fun _ _ _ order _ => next _ _ order

theorem edge?_allowed {A : Allowance} {e : Equation} {edge : MetaId × MetaId}
    (found : Equation.edge? e = some edge) (allowed : e.left.Allowed A ∧ e.right.Allowed A) :
    A.hole edge.2 := by
  obtain ⟨left, isLeft, rest⟩ := Option.bind_eq_some_iff.mp found
  obtain ⟨right, isRight, last⟩ := Option.bind_eq_some_iff.mp rest
  split at last <;> cases last
  · exact hole_of_hole? isRight allowed.2
  · exact hole_of_hole? isLeft allowed.1

theorem solveRecords_sound (levels : LevelSolution) :
    Sound Orderly g s env (solveRecords levels) Anything := by
  refine .get (.within fun within => ?_)
  have store := within.store
  refine (Sound.mapM (P := fun A (b : MetaId × Term × Span) => A.hole b.1 ∧ b.2.1.Allowed A)
    (R := fun A (b : RecordBound) => A.hole b.hole ∧ b.record.Allowed A)
    (fun order own => ⟨order.hole _ own.1, own.2.mono order⟩)
    (fun order own => ⟨order.hole _ own.1, own.2.mono order⟩)
    (fun b member => store.lowerBounds b (Array.mem_toList_iff.mp member)) ?_).bind ?_
  · intro b s env own
    exact .reading (fun known => Term.zonk_allowed known.computes _ own.2) fun record fine =>
      .pure ⟨own.1, fine⟩
  · intro lower s₁ env₁ order lowers
    have edges : ∀ e ∈ s.pending.filterMap Equation.edge?, (g.at s₁ env₁).hole e.2 := by
      intro edge listed
      obtain ⟨e, member, found⟩ := List.mem_filterMap.mp listed
      exact order.hole _ (edge?_allowed found
        (store.equations e (Array.mem_iff_getElem?.mpr (Store.mem_pending.mp member))))
    refine (solveLowerBounds_sound (Bounds.propagate_all
      (fun e listed b own => ⟨edges e listed, own.2⟩) _ lowers) _).bind ?_
    exact fun _ s₂ env₂ _ _ => .get (.within fun within => checkUpperBounds_sound fun b member =>
      within.store.upperBounds b (Array.mem_toList_iff.mp member))

end Records

section Reports

/-- Levels that cannot be solved are an error. -/
theorem reportLevels_sound (e : LevelError) : Sound Orderly g s env (reportLevels e) Anything := by
  cases e with
  | unsolved c => exact (Sound.lift _).bind fun _ _ _ _ _ => report_sound _
  | cycle chain => exact (Sound.lift _).bind fun _ _ _ _ _ => report_sound _

theorem reportEquation_sound {e : Equation}
    (allowed : e.left.Allowed (g.at s env) ∧ e.right.Allowed (g.at s env)) :
    Sound Orderly g s env (reportEquation e) Anything := by
  have told : ∀ (left right : Term) s env, Sound Orderly g s env (do
      let left ← left.text
      let right ← right.text
      report ⟨e.span, .unsolvedEquation left right e.cmp⟩) Anything := fun _ _ _ _ =>
    (Sound.lift _).bind fun _ _ _ _ _ => (Sound.lift _).bind fun _ _ _ _ _ => report_sound _
  refine .reading (fun known => Term.zonk_allowed known.computes [] allowed.1) fun left left' => ?_
  refine .reading (fun known => Term.zonk_allowed known.computes [] allowed.2) fun right right' => ?_
  refine .readingAny fun stuck => ?_
  split
  · exact .pure trivial
  · refine .readingAny fun stuck => ?_
    split
    · exact .pure trivial
    · refine .look ?_
      dsimp only
      split
      · refine (compare_sound _ _ _ _ _ _ left' right').bind fun same _ _ _ _ => ?_
        split
        · exact .pure trivial
        · exact told _ _ _ _
      · exact told _ _ _ _

theorem reportHole_sound (m : MetaId) : Sound History g s env (reportHole m) Anything := by
  refine .look ?_
  split
  · rename_i entry found
    split
    · exact .pure trivial
    · intro within n x s' env' k done
      obtain ⟨_, s₁, env₁, _, told, rest⟩ := unify_bind done
      obtain ⟨noted, within₁, error⟩ := report_error _ rfl within _ _ _ _ _ told
      have noted := Passage.history noted
      obtain ⟨_, _, _, _, look, rest⟩ := unify_bind rest
      cases look
      cases solved : env₁.solve m (.error "unsolved" none) with
      | ok env₂ =>
          rw [solved] at rest
          cases rest
          exact ⟨noted.trans (.single (.fail solved)), holds_fail error solved within₁, trivial⟩
      | error _ =>
          rw [solved] at rest
          cases rest
          exact ⟨noted, within₁, trivial⟩
  · exact .pure trivial

theorem reportUnsolved_sound : Sound History g s env reportUnsolved Anything := by
  refine .get (.within fun within => .set (.single .drop) holds_drop fun order => ?_)
  have given : ∀ e ∈ s.pending, e.left.Allowed (g.at s env) ∧ e.right.Allowed (g.at s env) :=
    fun e listed => within.store.equations e (Array.mem_iff_getElem?.mpr (Store.mem_pending.mp listed))
  refine (Sound.forM (R := fun A (e : Equation) => e.left.Allowed A ∧ e.right.Allowed A)
    (fun order fine => ⟨fine.1.mono order, fine.2.mono order⟩)
    (fun e listed => ⟨(given e listed).1.mono order, (given e listed).2.mono order⟩)
    fun e _ _ fine => reportEquation_sound fine).loosen.bind fun _ _ _ _ _ => .get ?_
  exact .forM (R := fun _ _ => True) (fun _ _ => trivial) (fun _ _ => trivial) fun m _ _ _ =>
    reportHole_sound m

/-- A hole has a solution after it has been reported, and nothing else in the store has changed but
    what is reported. -/
theorem reportHole_run {m : MetaId} {n k : Nat} {x : Unit} {s' : Store} {env' : Environment}
    (done : reportHole m s env n = .ok (((x, s'), env'), k)) :
    (∃ ds, s' = { s with diagnostics := ds }) ∧ env'.metas.size = env.metas.size ∧
      (m.index < env.metas.size → (env'.solution? m).isSome) := by
  unfold reportHole at done
  obtain ⟨_, _, _, _, look, rest⟩ := unify_bind done
  cases look
  cases found : env.meta? m with
  | none =>
      rw [found] at rest
      cases rest
      refine ⟨⟨_, rfl⟩, rfl, fun bound => ?_⟩
      exact absurd bound (Nat.not_lt.mpr (Array.getElem?_eq_none_iff.mp found))
  | some entry =>
      rw [found] at rest
      dsimp only at rest
      split at rest
      · rename_i solved
        cases rest
        refine ⟨⟨_, rfl⟩, rfl, fun _ => ?_⟩
        unfold Environment.solution?
        rw [found]
        exact solved
      · rename_i unsolved
        obtain ⟨_, s₁, env₁, _, told, rest⟩ := unify_bind rest
        cases told
        obtain ⟨_, _, _, _, look, rest⟩ := unify_bind rest
        cases look
        cases solved : env.solve m (.error "unsolved" none) with
        | ok env₂ =>
            rw [solved] at rest
            cases rest
            refine ⟨⟨_, rfl⟩, Environment.solve_size solved, fun _ => ?_⟩
            rw [Environment.solve_solution? solved, if_pos rfl]
            rfl
        | error _ =>
            have missing : entry.solution = none := Option.not_isSome_iff_eq_none.mp unsolved
            unfold Environment.solve at solved
            rw [found] at solved
            dsimp only at solved
            rw [missing] at solved
            cases solved

theorem reportHoles_run {ms : List MetaId} {n k : Nat} {x : PUnit} {s' : Store}
    {env' : Environment} (done : ms.forM reportHole s env n = .ok (((x, s'), env'), k)) :
    (∃ ds, s' = { s with diagnostics := ds }) ∧ env'.metas.size = env.metas.size ∧
      ∀ m ∈ ms, m.index < env.metas.size → (env'.solution? m).isSome := by
  induction ms generalizing s env n with
  | nil =>
      cases done
      exact ⟨⟨_, rfl⟩, rfl, List.forall_mem_nil _⟩
  | cons m rest ih =>
      obtain ⟨_, s₁, env₁, _, here, others⟩ := unify_bind done
      obtain ⟨⟨_, rfl⟩, size, first⟩ := reportHole_run here
      obtain ⟨⟨ds, rfl⟩, size', solved⟩ := ih others
      refine ⟨⟨ds, rfl⟩, size'.trans size, List.forall_mem_cons.mpr ⟨fun bound => ?_, ?_⟩⟩
      · obtain ⟨t, found⟩ := Option.isSome_iff_exists.mp (first bound)
        have later := Sound.history (.forM (R := fun _ _ => True) (fun _ _ => trivial)
          (fun _ _ => trivial) fun m _ _ _ => reportHole_sound m) others
        exact Option.isSome_iff_exists.mpr ⟨t, later.grows.solution m t found⟩
      · exact fun m listed bound => solved m listed (by rwa [size])

/-- After the report every metavariable of the store has a solution. -/
theorem reportUnsolved_solves {n k : Nat} {x : Unit} {s' : Store} {env' : Environment}
    (done : reportUnsolved s env n = .ok (((x, s'), env'), k)) :
    ∀ m ∈ s'.metas, m.index < env'.metas.size → (env'.solution? m).isSome := by
  unfold reportUnsolved at done
  obtain ⟨_, _, _, _, look, rest⟩ := unify_bind done
  cases look
  obtain ⟨_, _, _, _, put, rest⟩ := unify_bind rest
  cases put
  obtain ⟨_, s₁, env₁, _, _, rest⟩ := unify_bind rest
  obtain ⟨_, _, _, _, look, holes⟩ := unify_bind rest
  cases look
  obtain ⟨⟨_, rfl⟩, size, solved⟩ := reportHoles_run holes
  rw [size]
  exact fun m listed => solved m (Array.mem_toList_iff.mpr listed)

/-- Levels that cannot be solved are noted, and nothing else happens. -/
theorem reportLevels_run {e : LevelError} {n k : Nat} {s' : Store} {env' : Environment}
    {x : PUnit} (done : reportLevels e s env n = .ok (((x, s'), env'), k)) :
    ∃ d, d.problem.ofLevels = true ∧ s' = { s with diagnostics := s.diagnostics.push d } := by
  cases e with
  | unsolved c =>
      obtain ⟨_, _, _, _, text, rest⟩ := unify_bind done
      obtain ⟨rfl, rfl, _⟩ := checked_run text
      cases rest
      exact ⟨_, rfl, rfl⟩
  | cycle chain =>
      obtain ⟨_, _, _, _, text, rest⟩ := unify_bind done
      obtain ⟨rfl, rfl, _⟩ := checked_run text
      cases rest
      exact ⟨_, rfl, rfl⟩

end Reports

/-- The levels found, or an error noted. -/
def Settled (s : Store) (levels : LevelSolution) (s' : Store) : Prop :=
  (∃ e : LevelEquations, (∀ c ∈ s.levels.constraints, c ∈ e.constraints) ∧
    e.solve.run = .ok (.ok levels)) ∨ ∃ d ∈ s'.diagnostics, d.isWarning = false

/-- The last part of settling: the levels for good and the report of what is left over. -/
def finish : Unify LevelSolution := do
  let solution ← match ← solveLevels with
    | .ok solution => pure solution
    | .error e => do
        reportLevels e
        pure .empty
  reportUnsolved
  return solution

theorem finish_sound : Sound History g s env finish Anything := by
  refine solveLevels_sound.loosen.bind fun found _ _ _ _ => ?_
  have rest : ∀ (levels : LevelSolution) (s : Store) (env : Environment), Sound History g s env (do
      reportUnsolved
      return levels : Unify LevelSolution) Anything := fun _ _ _ =>
    reportUnsolved_sound.bind fun _ _ _ _ _ => .pure trivial
  cases found with
  | ok levels => exact rest levels _ _
  | error e => exact (reportLevels_sound e).loosen.bind fun _ _ _ _ _ => rest .empty _ _

theorem finish_run {n m : Nat} {levels : LevelSolution} {s' : Store} {env' : Environment}
    (done : finish s env n = .ok (((levels, s'), env'), m)) :
    (s.levels.solve.run = .ok (.ok levels) ∨ ∃ d ∈ s'.diagnostics, d.isWarning = false) ∧
      ∀ m ∈ s'.metas, m.index < env'.metas.size → (env'.solution? m).isSome := by
  obtain ⟨found, s₁, env₁, k, ran, done⟩ := unify_bind done
  have run := solveLevels_run ran
  cases found with
  | ok solution =>
      obtain ⟨_, _, _, _, kept, done⟩ := unify_bind done
      cases kept
      obtain ⟨_, s₂, env₂, _, reported, final⟩ := unify_bind done
      cases final
      exact ⟨.inl run, reportUnsolved_solves reported⟩
  | error e =>
      obtain ⟨_, s₂, env₂, _, told, done⟩ := unify_bind done
      obtain ⟨_, _, _, _, kept, done⟩ := unify_bind done
      cases kept
      obtain ⟨_, s₃, env₃, _, reported, final⟩ := unify_bind done
      cases final
      obtain ⟨d, ofLevels, rfl⟩ := reportLevels_run told
      have later := (reportUnsolved_sound.history reported).grows
      have isError : d.isWarning = false := Problem.isWarning_of_ofLevels ofLevels
      exact ⟨.inr ⟨d, later.diagnostics d Array.mem_push_self, isError⟩,
        reportUnsolved_solves reported⟩

/-- The first part of settling, with a first look at the levels. -/
def prepare : Unify Unit := do
  solveProps (← get).props.toList
  let first ← match ← solveLevels with
    | .ok solution => pure solution
    | .error _ => pure .empty
  solveInstances (← get).metas.toList
  solveRecords first

/-- What comes before the bounds when a store is settled, with the levels found so far. -/
def opening : Unify LevelSolution := do
  solveProps (← get).props.toList
  let first ← match ← solveLevels with
    | .ok solution => pure solution
    | .error _ => pure .empty
  solveInstances (← get).metas.toList
  return first

theorem prepare_eq : prepare = opening >>= solveRecords := by
  unfold prepare opening
  simp only [bind_assoc, pure_bind]
  refine bind_congr fun _ => bind_congr fun _ => bind_congr fun found => ?_
  cases found <;> simp only [bind_assoc, pure_bind]

theorem opening_sound : Sound Orderly g s env opening Anything := by
  refine .get (.within fun within => ?_)
  refine (solveProps_sound fun p listed =>
    within.store.props p (Array.mem_toList_iff.mp listed)).bind fun _ _ _ _ _ => ?_
  refine solveLevels_sound.bind fun found s₁ env₁ _ _ => ?_
  have rest : ∀ (first : LevelSolution) (s : Store) (env : Environment), Sound Orderly g s env (do
      solveInstances (← get).metas.toList
      return first : Unify LevelSolution) Anything := fun first s env =>
    .get (.within fun within => (solveInstances_sound fun m listed =>
      within.store.metas m (Array.mem_toList_iff.mp listed)).bind fun _ _ _ _ _ => .pure trivial)
  cases found with
  | ok first => exact rest first _ _
  | error _ => exact rest .empty _ _

theorem prepare_sound : Sound Orderly g s env prepare Anything := by
  rw [prepare_eq]
  exact opening_sound.bind fun first _ _ _ _ => solveRecords_sound first

theorem settle_eq : settle = (do
    prepare
    finish) := by
  unfold settle prepare
  simp only [bind_assoc]
  refine bind_congr fun _ => bind_congr fun _ => bind_congr fun found => ?_
  cases found <;> simp only [bind_assoc] <;> rfl

theorem settle_sound : Sound History g s env settle Anything := by
  rw [settle_eq]
  exact prepare_sound.loosen.bind fun _ _ _ _ _ => finish_sound

/-- Settling a store either finds levels for all constraints that the store started with, or notes
    an error. -/
theorem settle_settled {n m : Nat} {levels : LevelSolution} {s' : Store} {env' : Environment}
    (done : settle s env n = .ok (((levels, s'), env'), m)) : History s env s' env' ∧
      Settled s levels s' ∧ ∀ m ∈ s'.metas, m.index < env'.metas.size → (env'.solution? m).isSome := by
  refine ⟨settle_sound.history done, ?_⟩
  rw [settle_eq] at done
  obtain ⟨_, s₁, env₁, _, prepared, finished⟩ := unify_bind done
  have later := (prepare_sound.history prepared).grows
  obtain ⟨settled, solved⟩ := finish_run finished
  exact ⟨settled.imp_left fun found => ⟨s₁.levels, later.constraints, found⟩, solved⟩

end Unify

end PathTheory
