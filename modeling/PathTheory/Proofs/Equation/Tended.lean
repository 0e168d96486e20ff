import PathTheory.Proofs.Equation.Settled
/-!
No equation that is put off is lost. Along a course every equation that is put off stays where a
metavariable that is still unsolved wakes it, or is on the worklist; a replay empties the worklist.
So a store that is closed while nothing is replayed finds something unsolved in every equation that
is left over, and gives up each of them for a reason.
-/
namespace PathTheory

open Relation

namespace Store

variable {s s' : Store} {m k : MetaId} {id : Nat}

theorem mem_insertNumber {n : Nat} {l : List Nat} : id ∈ insertNumber n l ↔ id = n ∨ id ∈ l := by
  induction l with
  | nil => simp [insertNumber]
  | cons j rest ih =>
      unfold insertNumber
      split
      · simp
      · split
        · rename_i same
          simp [same]
        · simp [ih, or_left_comm]

theorem mem_wake_worklist :
    id ∈ (s.wake m).worklist ↔ id ∈ s.worklist ∨ (m, id) ∈ s.listeners := by
  have inserted : ∀ (woken : List (MetaId × Nat)) (ids : List Nat),
      id ∈ woken.foldl (fun ids (entry : MetaId × Nat) => insertNumber entry.2 ids) ids ↔
        id ∈ ids ∨ ∃ entry ∈ woken, id = entry.2 := by
    intro woken
    induction woken with
    | nil => simp
    | cons entry rest ih =>
        intro ids
        rw [List.foldl_cons, ih, mem_insertNumber]
        simp only [List.mem_cons, exists_eq_or_imp]
        tauto
  unfold wake
  rw [List.partition_eq_filter_filter, inserted]
  refine or_congr_right ⟨?_, fun listed => ⟨(m, id), by simpa using listed, rfl⟩⟩
  rintro ⟨⟨k, i⟩, woken, rfl⟩
  obtain ⟨listed, same⟩ := List.mem_filter.mp woken
  exact beq_iff_eq.mp same ▸ listed

theorem mem_wake_listeners :
    (k, id) ∈ (s.wake m).listeners ↔ (k, id) ∈ s.listeners ∧ k ≠ m := by
  simp [wake, List.partition_eq_filter_filter]

theorem next?_none {ids : List Nat} (exhausted : s.next? ids = none) : ∀ id ∈ ids,
    ∀ e, s.equations[id]? ≠ some (some e) := by
  induction ids with
  | nil => exact nofun
  | cons i rest ih =>
      unfold next? at exhausted
      split at exhausted
      · cases exhausted
      · rename_i absent
        exact List.forall_mem_cons.mpr ⟨fun e found => by simp [found] at absent, ih exhausted⟩

/-- An equation is taken from its place, and the others of the worklist are still on it. -/
theorem next?_some {ids : List Nat} {e : Equation} (found : s.next? ids = some (e, s')) :
    ∃ id rest, s.equations[id]? = some (some e) ∧
      s' = { s with equations := s.equations.setIfInBounds id none, worklist := rest } ∧
      ∀ i ∈ ids, ∀ e', s.equations[i]? = some (some e') → i = id ∨ i ∈ rest := by
  induction ids with
  | nil => cases found
  | cons i rest ih =>
      unfold next? at found
      split at found
      · rename_i here
        cases found
        exact ⟨i, rest, Option.join_eq_some_iff.mp here, rfl, fun _ member _ _ =>
          List.mem_cons.mp member⟩
      · rename_i absent
        obtain ⟨id, left, here, same, others⟩ := ih found
        refine ⟨id, left, here, same, List.forall_mem_cons.mpr ⟨fun e' pending => ?_, others⟩⟩
        simp [pending] at absent

end Store

namespace Environment

variable {env env' : Environment} {t : Term} {m : MetaId}

theorem Leads.later (stays : ∀ k t, env.solution? k = some t → env'.solution? k = some t)
    {k : MetaId} (leads : env.Leads m k) : env'.Leads m k := by
  obtain ⟨t, solved, member⟩ := leads
  exact ⟨t, stays m t solved, member⟩

theorem Reaches.later (stays : ∀ k t, env.solution? k = some t → env'.solution? k = some t)
    (reached : env.Reaches t m) : env'.Reaches t m := by
  obtain ⟨k, member, way⟩ := reached
  exact ⟨k, member, ReflTransGen.mono (fun _ _ leads => leads.later stays) _ _ way⟩

/-- What is resolved has nothing left that could be solved otherwise. -/
theorem Resolved.later (stays : ∀ k t, env.solution? k = some t → env'.solution? k = some t)
    (resolved : env.Resolved m) : env'.Resolved m := by
  intro k way
  -- solutions on the way are the old ones, so the way was there before
  have before : ReflTransGen env.Leads m k := by
    induction way with
    | refl => exact .refl
    | tail _ step ih =>
        obtain ⟨t, isSolution, member⟩ := step
        obtain ⟨u, solved⟩ := Option.ne_none_iff_exists'.mp (resolved _ ih)
        cases isSolution.symm.trans (stays _ u solved)
        exact ih.tail ⟨t, solved, member⟩
  obtain ⟨u, solved⟩ := Option.ne_none_iff_exists'.mp (resolved k before)
  rw [stays k u solved]
  exact Option.some_ne_none u

end Environment

namespace Unify

variable {s s' s₁ s₂ : Store} {env env' env₁ env₂ : Environment} {put : List Equation}

theorem Grows.determined (grows : Grows s env s' env') (determined : env.Determined) :
    env'.Determined := by
  intro f fn found b isBody
  unfold Environment.function? Environment.definition? at found
  rw [grows.definitions] at found
  exact (determined f fn found b isBody).mono
    (Allowance.only_le fun _ resolved => resolved.later grows.solution)

theorem awaits_later {e : Equation} {m : MetaId} (grows : Grows s env s' env')
    (awaits : e.Awaits env m) (unsolved : env'.solution? m = none) : e.Awaits env' m :=
  ⟨unsolved, awaits.2.imp (·.later grows.solution) (·.later grows.solution)⟩

/-- Every equation that is put off is about to be taken up again, or waits for a metavariable that
    is still unsolved. -/
def Tended (s : Store) (env : Environment) : Prop := ∀ id e, s.equations[id]? = some (some e) →
  id ∈ s.worklist ∨ ∃ m, (m, id) ∈ s.listeners ∧ e.Awaits env m

theorem Tended.aside (tended : Tended s env) (grows : Grows s env s' env')
    (aside : Undisturbed s env s' env') : Tended s' env' := by
  intro id e here
  rw [aside.equations] at here
  rw [aside.worklist, aside.listeners]
  refine (tended id e here).imp_right fun ⟨m, listed, awaits⟩ => ⟨m, listed, ?_⟩
  exact awaits_later grows awaits ((aside.solution m).trans awaits.1)

theorem Tended.defer (tended : Tended s env) {e : Equation} {blockers : List MetaId}
    (blocked : ∃ m ∈ blockers, e.Awaits env m) : Tended (s.defer e blockers) env := by
  intro id e' here
  simp only [Store.defer, List.mem_append, List.mem_map]
  rw [Store.defer, Array.getElem?_push] at here
  split at here
  · rename_i last
    obtain ⟨m, member, awaits⟩ := blocked
    cases here
    exact .inr ⟨m, .inr ⟨m, member, last ▸ rfl⟩, awaits⟩
  · refine (tended id e' here).imp_right ?_
    rintro ⟨m, listed, awaits⟩
    exact ⟨m, .inl listed, awaits⟩

/-- Only the metavariable that is installed can become solved. -/
theorem Installed.spares {m k : MetaId} (installed : Installed m s env s₁ env₁ env₂)
    (differs : k ≠ m) : env₂.solution? k = env₁.solution? k := by
  cases installed with
  | nothing => rfl
  | fail solved => rw [Environment.solve_solution? solved, if_neg differs]
  | solve _ solved => rw [Environment.solve_solution? solved, if_neg differs]

theorem Installed.grows {m : MetaId} (installed : Installed m s env s₁ env₁ env₂) :
    Grows s₁ env₁ s₁ env₂ := by
  cases installed with
  | nothing => exact .refl _ _
  | fail solved => exact .of_solve solved
  | solve _ solved => exact .of_solve solved

/-- Listeners of a metavariable that becomes solved are woken, the others wait on. -/
theorem Tended.wake {m : MetaId} (tended : Tended s₁ env₁)
    (installed : Installed m s env s₁ env₁ env₂) : Tended (s₁.wake m) env₂ := by
  intro id e here
  rw [Store.mem_wake_worklist]
  rcases tended id e here with woken | ⟨k, listed, awaits⟩
  · exact .inl (.inl woken)
  · by_cases same : k = m
    · exact .inl (.inr (same ▸ listed))
    · refine .inr ⟨k, Store.mem_wake_listeners.mpr ⟨listed, same⟩, ?_⟩
      exact awaits_later installed.grows awaits ((installed.spares same).trans awaits.1)

theorem Tended.take {e : Equation} (tended : Tended s env)
    (found : s.next? s.worklist = some (e, s')) : Tended s' env := by
  obtain ⟨id, rest, _, rfl, others⟩ := Store.next?_some found
  intro i e' here
  rw [Array.getElem?_setIfInBounds] at here
  split at here
  · split at here <;> cases here
  · rename_i differs
    refine (tended i e' here).imp_left fun woken => ?_
    exact (others i woken e' here).resolve_left fun same => differs same.symm

theorem Tended.rest (tended : Tended s env) (exhausted : s.next? s.worklist = none) :
    Tended { s with worklist := [], replaying := false } env := by
  intro id e here
  refine (tended id e here).imp_left fun woken => ?_
  exact absurd here (Store.next?_none exhausted id woken e)

theorem Replayed.told {e : Equation} (replayed : Replayed e s env s₁ env₁ s₂) :
    ∃ ds, s₂ = { s₁ with diagnostics := ds } := by
  obtain ⟨_, _, _, holds, _, _, told⟩ := replayed
  cases holds with
  | true => exact ⟨s₁.diagnostics, told⟩
  | false =>
      obtain ⟨d, _, rfl⟩ := told
      exact ⟨_, rfl⟩

theorem Tended.told {e : Equation} (tended : Tended s₁ env₁)
    (replayed : Replayed e s env s₁ env₁ s₂) : Tended s₂ env₁ := by
  obtain ⟨ds, rfl⟩ := replayed.told
  exact tended

namespace Course

theorem grows (course : Course s env put s' env') : Grows s env s' env' := course.history.grows

theorem replaying (course : Course s env put s' env') : s'.replaying = s.replaying := by
  induction course with
  | start => rfl
  | quiet _ _ aside ih => exact aside.replaying.trans ih
  | defer _ _ _ _ ih => exact ih
  | within _ _ _ _ ih checked => exact checked.trans ih
  | drain _ _ _ idle _ _ ih checked _ => exact idle.symm.trans (checked.trans ih)
  | replay _ found _ replayed ih compared =>
      obtain ⟨_, rfl⟩ := replayed.told
      obtain ⟨_, _, _, rfl, _⟩ := Store.next?_some found
      exact compared.trans ih
  | close _ _ closing ih => exact closing.replaying.trans ih

/-- While nothing is replayed, nothing is woken. -/
theorem rests (course : Course s env put s' env') (start : s.replaying = false → s.worklist = [])
    (idle : s'.replaying = false) : s'.worklist = [] := by
  induction course with
  | start => exact start idle
  | quiet _ _ aside ih => exact aside.worklist.trans (ih start (aside.replaying ▸ idle))
  | defer _ _ _ _ ih => exact ih start idle
  | within _ _ _ busy => exact nomatch busy.symm.trans idle
  | drain => rfl
  | replay _ found comparing replayed ih _ =>
      obtain ⟨_, rfl⟩ := replayed.told
      have before := comparing.replaying.symm.trans idle
      obtain ⟨_, _, _, rfl, _⟩ := Store.next?_some found
      rw [ih start before] at found
      cases found
  | close _ _ closing ih => exact closing.worklist.trans (ih start (closing.replaying ▸ idle))

theorem tended (course : Course s env put s' env') (determined : env.Determined)
    (start : Tended s env) : Tended s' env' := by
  induction course with
  | start => exact start
  | quiet _ change aside ih => exact (ih determined start).aside change.grows aside
  | defer before e blockers blocked ih =>
      exact (ih determined start).defer (blocked (before.grows.determined determined))
  | within before _ installed _ ih checked =>
      exact (checked (before.grows.determined determined) (ih determined start)).wake installed
  | drain before checking installed _ _ exhausted ih checked drained =>
      have determined₁ := before.grows.determined determined
      have determined₃ := installed.grows.determined (checking.grows.determined determined₁)
      have woken := (checked determined₁ (ih determined start)).wake installed
      exact (drained determined₃ woken).rest exhausted
  | replay before found _ replayed ih compared =>
      have taken := (ih determined start).take found
      exact (compared (before.grows.determined determined) taken).told replayed
  | close _ _ closing _ =>
      -- the equations are reported and given up
      intro id e here
      rw [closing.equations] at here
      simp at here

theorem records (course : Course s env put s' env') (start : s.Records) : s'.Records := by
  induction course with
  | start => exact start
  | quiet _ _ aside ih => exact aside.records (ih start)
  | defer _ _ _ _ ih => exact ih start
  | within _ _ _ _ ih checked => exact checked (ih start)
  | drain _ _ _ _ _ _ ih checked drained => exact drained (checked (ih start))
  | replay _ found _ replayed ih compared =>
      obtain ⟨_, rfl⟩ := replayed.told
      obtain ⟨_, _, _, rfl, _⟩ := Store.next?_some found
      exact compared (ih start)
  | close _ _ closing ih => exact closing.records (ih start)

end Course

end Unify

end PathTheory
