import PathTheory.Proofs.Equation.Acyclic
import PathTheory.Proofs.Equation.Tended
/-!
What becomes of the equations that are put off. Each of them has its number for good: it is pending
until it is compared once more or the store is closed, and then its place stays empty.
-/
namespace PathTheory.Unify

variable {s s' s₁ s₂ : Store} {env env' env₁ env₂ : Environment} {put : List Equation}

/-- Why an equation that was put off is no longer pending. -/
inductive Outcome (e : Equation) (s' : Store) (env' : Environment) : Prop
  -- a mismatch is reported if the comparison fails
  | replayed {compare : Compare} {s s₁ : Store} {env env₁ : Environment} {n k : Nat} {holds : Bool}
      (own : compare.Own)
      (ran : compare e.left e.right e.cmp e.span s env n = .ok (((holds, s₁), env₁), k))
      (told : holds = false →
        ∃ d ∈ s'.diagnostics, Diagnostic.mismatch e.span e.right e.left = .ok d)
      (later : Grows s₁ env₁ s' env')
  | dropped {s : Store} {env : Environment} (vacuous : e.Vacuous env) (later : Grows s env s' env')
  | reported {s : Store} {env : Environment} {d : Diagnostic} (unsolved : e.Unsolved env d)
      (noted : d ∈ s'.diagnostics) (later : Grows s env s' env')

theorem Outcome.later {e : Equation} (outcome : Outcome e s env) (grows : Grows s env s' env') :
    Outcome e s' env' := by
  cases outcome with
  | replayed own ran told later =>
      refine .replayed own ran (fun fails => ?_) (later.trans grows)
      obtain ⟨d, noted, said⟩ := told fails
      exact ⟨d, grows.diagnostics d noted, said⟩
  | dropped vacuous later => exact .dropped vacuous (later.trans grows)
  | reported unsolved noted later =>
      exact .reported unsolved (grows.diagnostics _ noted) (later.trans grows)

theorem Replayed.outcome {e : Equation} (replayed : Replayed e s env s₁ env₁ s₂) :
    Outcome e s₂ env₁ := by
  have later := replayed.history.grows
  obtain ⟨compare, n, k, holds, own, ran, told⟩ := replayed
  refine .replayed own ran (fun fails => ?_) later
  subst fails
  obtain ⟨d, said, rfl⟩ := told
  exact ⟨d, Array.mem_push_self, said⟩

/-- What there is to say of the equation of a number: it is pending, or its place is empty for a
    reason, or it is just being compared. -/
def Fate (compared : Nat → Prop) (id : Nat) (e : Equation) (s : Store) (env : Environment) : Prop :=
  s.equations[id]? = some (some e) ∨
    s.equations[id]? = some none ∧ (Outcome e s env ∨ compared id)

/-- Every equation that has been put off is accounted for. -/
structure Accounts (compared : Nat → Prop) (put : List Equation) (s : Store) (env : Environment) :
    Prop where
  size : s.equations.size = put.length
  fate : ∀ id e, put[id]? = some e → Fate compared id e s env

namespace Accounts

variable {compared : Nat → Prop} {e : Equation}

theorem later (accounts : Accounts compared put s env) (grows : Grows s env s' env')
    (same : s'.equations = s.equations) : Accounts compared put s' env' where
  size := by rw [same, accounts.size]
  fate := fun id e listed => by
    unfold Fate
    rw [same]
    exact (accounts.fate id e listed).imp_right (And.imp_right (Or.imp_left (·.later grows)))

theorem defer (accounts : Accounts compared put s env) (e : Equation) (blockers : List MetaId) :
    Accounts compared (put ++ [e]) (s.defer e blockers) env := by
  have deferred : Change s env (s.defer e blockers) env := .defer e blockers
  refine ⟨by simp [Store.defer, accounts.size], fun id e' listed => ?_⟩
  unfold Fate Store.defer
  rw [Array.getElem?_push]
  rw [List.getElem?_append] at listed
  split at listed
  · rename_i old
    rw [if_neg (by rw [accounts.size]; exact Nat.ne_of_lt old)]
    exact (accounts.fate id e' listed).imp_right
      (And.imp_right (Or.imp_left (·.later deferred.grows)))
  · rename_i new
    obtain ⟨first, same⟩ := List.getElem?_eq_some_iff.mp listed
    rw [List.length_singleton] at first
    have last : id = s.equations.size := by rw [accounts.size]; omega
    rw [if_pos last, ← same, List.getElem_singleton]
    exact .inl rfl

/-- What is being compared has its outcome once it is compared. -/
theorem replay {e : Equation} {more : List Equation} (accounts : Accounts compared put s env)
    (found : s.next? s.worklist = some (e, s₁))
    (comparing : ∀ compared, Accounts compared put s₁ env → Accounts compared (put ++ more) s₂ env₂)
    (replayed : Replayed e s₁ env s₂ env₂ s') : Accounts compared (put ++ more) s' env₂ := by
  have taken : Change s env s₁ env := .take found
  obtain ⟨id, rest, here, rfl, _⟩ := Store.next?_some found
  have during : Accounts (fun i => compared i ∨ i = id) put
      { s with equations := s.equations.setIfInBounds id none, worklist := rest } env := by
    refine ⟨by simp [accounts.size], fun i e' listed => ?_⟩
    unfold Fate
    rw [Array.getElem?_setIfInBounds]
    split
    · rename_i same
      rw [if_pos (Array.getElem?_eq_some_iff.mp here).1]
      exact .inr ⟨rfl, .inr (.inr same.symm)⟩
    · exact (accounts.fate i e' listed).imp_right (And.imp_right
        (Or.imp (·.later taken.grows) .inl))
  have after := (comparing _ during).later replayed.history.grows (by
    obtain ⟨_, rfl⟩ := replayed.told
    rfl)
  refine ⟨after.size, fun i e' listed => (after.fate i e' listed).imp_right ?_⟩
  refine And.imp_right fun given => given.elim .inl fun isCompared => isCompared.elim .inr ?_
  rintro rfl
  -- the number is the one of the equation that was taken
  have bound : i < put.length := by
    rw [← accounts.size]
    exact (Array.getElem?_eq_some_iff.mp here).1
  rw [List.getElem?_append_left bound] at listed
  rcases accounts.fate i e' listed with pending | ⟨empty, _⟩
  · cases here.symm.trans pending
    exact .inl replayed.outcome
  · cases here.symm.trans empty

theorem close (accounts : Accounts compared put s env) (closing : Closing s env s' env') :
    Accounts compared put s' env' := by
  have grows := closing.history.grows
  refine ⟨by rw [closing.equations, Array.size_map, accounts.size], fun id e listed => .inr ?_⟩
  rw [closing.equations, Array.getElem?_map]
  rcases accounts.fate id e listed with pending | ⟨empty, given⟩
  · rw [pending]
    refine ⟨rfl, .inl ?_⟩
    rcases closing.given e (Store.mem_pending.mpr ⟨id, pending⟩) with vacuous | ⟨d, noted, unsolved⟩
    · exact .dropped vacuous grows
    · exact .reported unsolved noted grows
  · rw [empty]
    exact ⟨rfl, given.imp_left (·.later grows)⟩

end Accounts

theorem Course.accounts {before : List Equation} {compared : Nat → Prop}
    (course : Course s env put s' env') (start : Accounts compared before s env) :
    Accounts compared (before ++ put) s' env' := by
  induction course generalizing before compared with
  | start => rwa [List.append_nil]
  | quiet _ change aside ih => exact (ih start).later change.grows aside.equations
  | defer _ e blockers _ ih =>
      rw [← List.append_assoc]
      exact (ih start).defer e blockers
  | within _ _ installed _ ih checked =>
      rw [← List.append_assoc]
      exact (checked (ih start)).later { installed.grows with } rfl
  | drain _ _ installed _ _ _ ih checked drained =>
      rw [← List.append_assoc, ← List.append_assoc]
      refine (drained ?_).later { Grows.refl _ _ with } rfl
      exact (checked (ih start)).later { installed.grows with } rfl
  | replay _ found _ replayed ih again =>
      rw [← List.append_assoc]
      exact (ih start).replay found (fun _ => again) replayed
  | close _ _ closing ih => exact (ih start).close closing

section Closing

/-- An equation that waits for something is not compared once more when the store is closed: what it
    waits for is still there once the solutions are put in. -/
theorem reportEquation_run {e : Equation} (awaits : ∃ m, e.Awaits env m) {n k : Nat} {x : Unit}
    (done : reportEquation e s env n = .ok (((x, s'), env'), k)) :
    env' = env ∧ (s' = s ∧ e.Vacuous env ∨
      ∃ d, s' = { s with diagnostics := s.diagnostics.push d } ∧ e.Unsolved env d) := by
  obtain ⟨left, _, _, _, zonkLeft, rest₁⟩ := unify_bind done
  obtain ⟨rfl, rfl, toLeft⟩ := readEnv_run zonkLeft
  obtain ⟨right, _, _, _, zonkRight, rest₂⟩ := unify_bind rest₁
  obtain ⟨rfl, rfl, toRight⟩ := readEnv_run zonkRight
  obtain ⟨onLeft, _, _, _, lookLeft, rest₃⟩ := unify_bind rest₂
  obtain ⟨rfl, rfl, fromLeft⟩ := readEnv_run lookLeft
  split at rest₃
  · rename_i isError
    obtain ⟨blocker, rfl, isError⟩ := (Option.any_eq_true _ _).mp isError
    cases rest₃
    exact ⟨rfl, .inl ⟨rfl, _, _, blocker, _, _, _, _, .inl rfl, toLeft, fromLeft, isError⟩⟩
  · obtain ⟨onRight, _, _, _, lookRight, rest₄⟩ := unify_bind rest₃
    obtain ⟨rfl, rfl, fromRight⟩ := readEnv_run lookRight
    split at rest₄
    · rename_i isError
      obtain ⟨blocker, rfl, isError⟩ := (Option.any_eq_true _ _).mp isError
      cases rest₄
      exact ⟨rfl, .inl ⟨rfl, _, _, blocker, _, _, _, _, .inr rfl, toRight, fromRight, isError⟩⟩
    · obtain ⟨_, _, _, _, look, rest₅⟩ := unify_bind rest₄
      cases look
      split at rest₅
      · rename_i closed
        obtain ⟨noneLeft, noneRight⟩ := Bool.and_eq_true_iff.mp closed
        obtain ⟨m, unsolved, reached⟩ := awaits
        rcases reached with way | way
        · have found := way.mem_unsolvedIn unsolved toLeft
          rw [List.isEmpty_iff.mp noneLeft] at found
          cases found
        · have found := way.mem_unsolvedIn unsolved toRight
          rw [List.isEmpty_iff.mp noneRight] at found
          cases found
      · obtain ⟨leftText, _, _, _, textLeft, rest₆⟩ := unify_bind rest₅
        obtain ⟨rfl, rfl, rfl, saidLeft⟩ := checked_run textLeft
        obtain ⟨rightText, _, _, _, textRight, rest₇⟩ := unify_bind rest₆
        obtain ⟨rfl, rfl, rfl, saidRight⟩ := checked_run textRight
        cases rest₇
        exact ⟨rfl, .inr ⟨_, rfl, left, right, _, _, _, _, leftText, rightText, toLeft, toRight,
          saidLeft, saidRight, rfl⟩⟩

theorem reportEquations_run {es : List Equation} (awaits : ∀ e ∈ es, ∃ m, e.Awaits env m)
    {n k : Nat} {x : PUnit} (done : es.forM reportEquation s env n = .ok (((x, s'), env'), k)) :
    env' = env ∧ (∃ ds, s' = { s with diagnostics := ds }) ∧
      (∀ d ∈ s.diagnostics, d ∈ s'.diagnostics) ∧
      ∀ e ∈ es, e.Vacuous env ∨ ∃ d ∈ s'.diagnostics, e.Unsolved env d := by
  induction es generalizing s n with
  | nil =>
      cases done
      exact ⟨rfl, ⟨_, rfl⟩, fun _ noted => noted, List.forall_mem_nil _⟩
  | cons e rest ih =>
      obtain ⟨here, others⟩ := List.forall_mem_cons.mp awaits
      obtain ⟨_, s₁, env₁, _, first, next⟩ := unify_bind done
      obtain ⟨rfl, given⟩ := reportEquation_run here first
      obtain ⟨rfl, ⟨ds, same⟩, kept, rest'⟩ := ih others next
      rcases given with ⟨rfl, vacuous⟩ | ⟨d, rfl, unsolved⟩
      · exact ⟨rfl, ⟨ds, same⟩, kept, List.forall_mem_cons.mpr ⟨.inl vacuous, rest'⟩⟩
      · refine ⟨rfl, ⟨ds, same⟩, fun d' noted => kept d' (Array.mem_push.mpr (.inl noted)), ?_⟩
        exact List.forall_mem_cons.mpr ⟨.inr ⟨d, kept d Array.mem_push_self, unsolved⟩, rest'⟩

/-- A store at rest: nothing is woken, and every equation waits for something. -/
structure Resting (s : Store) (env : Environment) : Prop where
  idle : s.replaying = false
  empty : s.worklist = []
  tended : Tended s env

theorem Resting.awaits (resting : Resting s env) {id : Nat} {e : Equation}
    (here : s.equations[id]? = some (some e)) : ∃ m, (m, id) ∈ s.listeners ∧ e.Awaits env m :=
  (resting.tended id e here).resolve_left (by simp [resting.empty])

theorem Course.resting (course : Course s env put s' env') (determined : env.Determined)
    (resting : Resting s env) : Resting s' env' := by
  have idle := course.replaying.trans resting.idle
  exact ⟨idle, course.rests (fun _ => resting.empty) idle,
    course.tended determined resting.tended⟩

theorem reportUnsolved_closing (resting : Resting s env) {n k : Nat} {x : Unit}
    (done : reportUnsolved s env n = .ok (((x, s'), env'), k)) : Closing s env s' env' := by
  have history := reportUnsolved_sound.history done
  unfold reportUnsolved at done
  obtain ⟨_, _, _, _, look, rest₁⟩ := unify_bind done
  cases look
  obtain ⟨_, _, _, _, put, rest₂⟩ := unify_bind rest₁
  cases put
  obtain ⟨_, s₁, env₁, _, reported, rest₃⟩ := unify_bind rest₂
  obtain ⟨_, _, _, _, look, holes⟩ := unify_bind rest₃
  cases look
  have awaits : ∀ e ∈ s.pending, ∃ m, e.Awaits env m := by
    intro e listed
    obtain ⟨id, here⟩ := Store.mem_pending.mp listed
    obtain ⟨m, _, awaits⟩ := resting.awaits here
    exact ⟨m, awaits⟩
  obtain ⟨rfl, ⟨_, rfl⟩, _, given⟩ := reportEquations_run awaits reported
  have later := Sound.history (.forM (R := fun _ _ => True) (fun _ _ => trivial)
    (fun _ _ => trivial) fun m _ _ _ => reportHole_sound m) holes
  obtain ⟨⟨_, rfl⟩, _⟩ := reportHoles_run holes
  exact ⟨history, rfl, rfl, rfl, id, fun e listed => (given e listed).imp_right
    fun ⟨d, noted, unsolved⟩ => ⟨d, later.grows.diagnostics d noted, unsolved⟩⟩

theorem Closing.pending (closing : Closing s env s' env') : s'.pending = [] := by
  refine List.eq_nil_iff_forall_not_mem.mpr fun e listed => ?_
  obtain ⟨id, here⟩ := Store.mem_pending.mp listed
  rw [closing.equations] at here
  simp at here

/-- Settling a store at rest keeps it in order, and closes it. -/
theorem settle_course (determined : env.Determined) (resting : Resting s env) {n k : Nat}
    {levels : LevelSolution} (done : settle s env n = .ok (((levels, s'), env'), k)) :
    Orderly s env s' env' ∧ s'.pending = [] := by
  rw [settle_eq] at done
  obtain ⟨_, s₁, env₁, _, prepared, finished⟩ := unify_bind done
  obtain ⟨put, course⟩ := prepare_sound.goes prepared
  -- the levels are solved or reported, then the store is closed
  have closes : ∀ {s₂ : Store} {env₂ : Environment} {i : Nat} {x : Unit},
      Orderly s₁ env₁ s₂ env₂ → reportUnsolved s₂ env₂ i = .ok (((x, s'), env'), k) →
        Orderly s env s' env' ∧ s'.pending = [] := by
    rintro s₂ env₂ i x ⟨more, levels⟩ reported
    have whole := course.trans levels
    have resting₂ := whole.resting determined resting
    have closing := reportUnsolved_closing resting₂ reported
    exact ⟨⟨_, .close whole resting₂.idle closing⟩, closing.pending⟩
  obtain ⟨found, s₂, env₂, _, ran, rest₁⟩ := unify_bind finished
  have searched := solveLevels_sound.goes ran
  cases found with
  | ok solution =>
      obtain ⟨_, _, _, _, kept, rest₂⟩ := unify_bind rest₁
      cases kept
      obtain ⟨_, _, _, _, reported, final⟩ := unify_bind rest₂
      cases final
      exact closes searched reported
  | error e =>
      obtain ⟨_, s₃, env₃, _, told, rest₂⟩ := unify_bind rest₁
      obtain ⟨_, _, _, _, kept, rest₃⟩ := unify_bind rest₂
      cases kept
      obtain ⟨_, _, _, _, reported, final⟩ := unify_bind rest₃
      cases final
      exact closes (Passage.trans searched ((reportLevels_sound e).goes told)) reported

end Closing

section Requests

theorem Request.course {r : Request} (determined : env.Determined) (resting : Resting s env)
    {n k : Nat} {x : Unit} (done : r.run s env n = .ok (((x, s'), env'), k)) :
    Orderly s env s' env' ∧ (r = .settle → s'.pending = []) := by
  by_cases settles : r = .settle
  · subst settles
    obtain ⟨_, _, _, _, settled, final⟩ := unify_bind done
    cases final
    exact (settle_course determined resting settled).imp_right fun none _ => none
  · exact ⟨(r.orderly settles).goes done, fun isSettle => absurd isSettle settles⟩

theorem requests_course {rs : List Request} (determined : env.Determined)
    (resting : Resting s env) {n k : Nat} {x : PUnit}
    (run : rs.forM Request.run s env n = .ok (((x, s'), env'), k)) :
    Orderly s env s' env' ∧ (rs.getLast? = some .settle → s'.pending = []) := by
  induction rs generalizing s env n with
  | nil =>
      cases run
      exact ⟨Passage.start _ _, nofun⟩
  | cons r rest ih =>
      obtain ⟨_, s₁, env₁, _, first, next⟩ := unify_bind run
      obtain ⟨⟨_, course⟩, settled⟩ := Request.course determined resting first
      have determined₁ := course.grows.determined determined
      obtain ⟨after, last⟩ := ih determined₁ (course.resting determined resting) next
      refine ⟨Passage.trans ⟨_, course⟩ after, fun isSettle => ?_⟩
      cases rest with
      | nil =>
          cases next
          exact settled (Option.some.inj isSettle)
      | cons r' rest => exact last (by rwa [List.getLast?_cons_cons] at isSettle)

theorem resting_empty (env : Environment) : Resting .empty env :=
  ⟨rfl, rfl, fun _ _ here => nomatch here⟩

section Applications

open Library

end Applications

end Requests

end PathTheory.Unify
