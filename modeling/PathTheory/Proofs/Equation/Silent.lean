import PathTheory.Proofs.Equation.Settled
/-!
Histories on which nothing is noted. What goes wrong is noted and stays noted, so where nothing is
noted in the end every check on the way has gone through: a metavariable that is to be solved by a
record type has a solution, which is that term or has been compared with it, and levels have been
found.
-/
namespace PathTheory.Unify

variable {s s₁ s₂ s' : Store} {env env₁ env₂ env' : Environment}

/-- What is recorded and noted stays in its place. -/
structure Extends (s s' : Store) : Prop where
  lower : s.lowerBounds.toList <+: s'.lowerBounds.toList
  upper : s.upperBounds.toList <+: s'.upperBounds.toList
  diagnostics : s.diagnostics.toList <+: s'.diagnostics.toList

namespace Extends

theorem refl (s : Store) : Extends s s :=
  ⟨List.prefix_rfl, List.prefix_rfl, List.prefix_rfl⟩

theorem trans (first : Extends s s₁) (next : Extends s₁ s₂) : Extends s s₂ :=
  ⟨first.lower.trans next.lower, first.upper.trans next.upper,
    first.diagnostics.trans next.diagnostics⟩

/-- If nothing is noted in all, nothing is noted in between. -/
theorem silent (first : Extends s s₁) (next : Extends s₁ s₂)
    (silent : s₂.diagnostics = s.diagnostics) :
    s₁.diagnostics = s.diagnostics ∧ s₂.diagnostics = s₁.diagnostics := by
  have length := next.diagnostics.length_le
  rw [silent] at length
  have same := Array.toList_inj.mp (first.diagnostics.eq_of_length_le length)
  exact ⟨same.symm, silent.trans same⟩

end Extends

theorem Change.extends (change : Change s env s' env') : Extends s s' := by
  cases change with
  | report d => exact { Extends.refl s with diagnostics := by simp }
  | lower b => exact { Extends.refl s with lower := by simp }
  | upper b => exact { Extends.refl s with upper := by simp }
  | take found =>
      obtain ⟨_, _, _, rfl⟩ := next?_equation found
      exact { Extends.refl s with }
  | _ => exact { Extends.refl s with }

theorem History.extends (history : History s env s' env') : Extends s s' := by
  induction history with
  | start => exact .refl _
  | change _ change ih => exact ih.trans change.extends
  | solve _ _ _ _ ih checked => exact ih.trans checked

/-- What has happened at some moment between two states. -/
def Sometime (way : Way) : Way := fun s env s' env' =>
  ∃ s₁ env₁ s₂ env₂, History s env s₁ env₁ ∧ way s₁ env₁ s₂ env₂ ∧ History s₂ env₂ s' env'

namespace Sometime

variable {way : Way}

theorem now (happened : way s env s' env') : Sometime way s env s' env' :=
  ⟨s, env, s', env', .start, happened, .start⟩

theorem within (before : History s env s₁ env₁) (happened : Sometime way s₁ env₁ s₂ env₂)
    (after : History s₂ env₂ s' env') : Sometime way s env s' env' := by
  obtain ⟨_, _, _, _, start, here, goOn⟩ := happened
  exact ⟨_, _, _, _, before.trans start, here, goOn.trans after⟩

end Sometime

/-- A comparison is made, with this answer. -/
def Answered (left right : Term) (cmp : Cmp) (answer : Bool) : Way :=
  Sometime fun s env s' env' =>
    ∃ span n k, compare left right cmp span s env n = .ok (((answer, s'), env'), k)

/-- A term is put to a metavariable that has this solution in the end: either the term, with what is
    known at that moment put in, becomes the solution, or a solution that is found before that is
    compared with it, with this answer. -/
def PutTo (solution t : Term) (answer : Bool) : Way :=
  Sometime fun s env s' env' => ∃ t', (t' = t ∨ ∃ n k, t.zonk env [] n = .ok (t', k)) ∧
    (solution = t' ∧ answer = true ∨ Answered solution t' .eq answer s env s' env')

theorem answered_run {left right : Term} {cmp : Cmp} {span : Span} {n k : Nat} {answer : Bool}
    (done : compare left right cmp span s env n = .ok (((answer, s'), env'), k)) :
    History s env s' env' ∧ Answered left right cmp answer s env s' env' := by
  have free := Ground.free_at s env
  have sound := compare_sound (g := .free) left right cmp span s env (left.allowed_of_free free)
    (right.allowed_of_free free)
  exact ⟨sound.history done, .now ⟨span, n, k, done⟩⟩

theorem solveMeta_history {m : MetaId} {value : Term} {span : Span} {n k : Nat} {answer : Bool}
    (done : solveMeta m value span s env n = .ok (((answer, s'), env'), k)) :
    History s env s' env' := by
  have free := Ground.free_at s env
  exact (solveMeta_sound (free.hole m) (value.allowed_of_free free) span).history done

section Solving

/-- Solutions are put into a record type without changing it into something else. -/
theorem zonk_record {t t' : Term} (isRecord : t.isRecord = true) {levels : List (LevelVar × Level)}
    {n k : Nat} (zonked : t.zonk env levels n = .ok (t', k)) : t'.isRecord = true := by
  cases t <;> cases isRecord
  unfold Term.zonk Subst.apply Term.substWith at zonked
  split at zonked
  · cases zonked
    rfl
  · obtain ⟨_, _, _, rest⟩ := fresh_bind zonked
    obtain ⟨_, _, _, final⟩ := fresh_bind rest
    cases final
    rfl

/-- Whatever is noted in between is there in the end. -/
theorem noted_between {d : Diagnostic} (before : Extends s s₁)
    (after : Extends { s₁ with diagnostics := s₁.diagnostics.push d } s')
    (silent : s'.diagnostics = s.diagnostics) : False := by
  have first := before.diagnostics.length_le
  have last := after.diagnostics.length_le
  simp only [silent, Array.length_toList, Array.size_push] at first last
  omega

/-- The last part of a solution that has passed the checks gives the metavariable this solution, or
    compares it with the one found meanwhile. -/
theorem install_solves {m : MetaId} {t : Term} {fuel : Nat} {span : Span}
    (made : m.index < env.metas.size) {n k : Nat} {answer : Bool}
    (done : (do
      match (← Unify.env).solve m t with
      | .ok env => do
          set env
          wake compare fuel m
          return true
      | .error _ =>
          match (← Unify.env).solution? m with
          | some existing => compare existing t .eq span
          | none => return false : Unify Bool) s env n = .ok (((answer, s'), env'), k)) :
    ∃ u, env'.solution? m = some u ∧
      (u = t ∧ answer = true ∨ Answered u t .eq answer s env s' env') := by
  obtain ⟨_, _, _, _, look, rest⟩ := unify_bind done
  cases look
  cases solved : env.solve m t with
  | ok env₁ =>
      rw [solved] at rest
      obtain ⟨_, _, _, _, put, rest⟩ := unify_bind rest
      cases put
      obtain ⟨_, _, _, _, woken, final⟩ := unify_bind rest
      cases final
      obtain ⟨after, _⟩ := wake_run compare_sound compare_own fuel (Passage.start s env₁)
        .nothing (Ground.free_holds s env₁) woken
      have known : env₁.solution? m = some t := by
        rw [Environment.solve_solution? solved, if_pos rfl]
      exact ⟨t, (Passage.history after).grows.solution m t known, .inl ⟨rfl, rfl⟩⟩
  | error e =>
      rw [solved] at rest
      obtain ⟨_, _, _, _, look, rest⟩ := unify_bind rest
      cases look
      cases existing : env.solution? m with
      | some u =>
          rw [existing] at rest
          obtain ⟨after, answered⟩ := answered_run rest
          exact ⟨u, after.grows.solution m u existing, .inr answered⟩
      | none =>
          -- there is nothing that keeps an unsolved metavariable from being solved
          have here : env.meta? m = some env.metas[m.index] := Array.getElem?_eq_getElem made
          have unsolved : env.metas[m.index].solution = none := by
            rwa [Environment.solution?, here] at existing
          simp [Environment.solve, here, unsolved] at solved

theorem reportMismatch_noted {span : Span} {expected actual : Term} {n k : Nat} {x : Unit}
    (before : History s env s₁ env₁)
    (done : reportMismatch span expected actual s₁ env₁ n = .ok (((x, s₂), env₂), k))
    (after : History s₂ env₂ s' env') (silent : s'.diagnostics = s.diagnostics) : False := by
  obtain ⟨d, _, _, _, said, noted⟩ := unify_bind done
  obtain ⟨rfl, rfl, _⟩ := checked_run said
  cases noted
  exact noted_between before.extends after.extends silent

/-- An unsolved metavariable that is to be solved by a record type has a solution afterwards: if none
    of the checks had gone through, a problem would have been noted. -/
theorem solve_unsolved_run {m : MetaId} {t : Term} (isRecord : t.isRecord = true)
    (unsolved : env.solution? m = none) (made : m.index < env.metas.size) {fuel : Nat} {span : Span}
    {n k : Nat} {answer : Bool}
    (done : solve compare fuel m t span s env n = .ok (((answer, s'), env'), k))
    (silent : s'.diagnostics = s.diagnostics) :
    ∃ u, env'.solution? m = some u ∧ ∃ same, PutTo u t same s env s' env' := by
  obtain ⟨_, _, _, _, look, rest₁⟩ := unify_bind done
  cases look
  rw [unsolved] at rest₁
  obtain ⟨_, _, _, _, look, rest₂⟩ := unify_bind rest₁
  cases look
  have here : env.meta? m = some env.metas[m.index] := Array.getElem?_eq_getElem made
  rw [here] at rest₂
  obtain ⟨t', s₀, env₀, _, zonk, rest₃⟩ := unify_bind rest₂
  obtain ⟨rfl, rfl, zonked⟩ := readEnv_run zonk
  have isRecord' := zonk_record isRecord zonked
  have free := fun s env => Ground.free_at s env
  split at rest₃
  · rename_i isHole
    cases t' <;> cases isRecord'
    cases isHole
  · -- a problem is noted before the error is recorded in place of the solution
    have refused : ∀ (d : Diagnostic) (s₁ : Store) (env₁ : Environment) (i : Nat),
        History s₀ env₀ s₁ env₁ → (do
          report d
          match (← Unify.env).solve m (.error "ill-typed solution" none) with
          | .ok env => do
              set env
              wake compare fuel m
              return false
          | .error _ =>
              match (← Unify.env).solution? m with
              | some existing => compare existing (.error "ill-typed solution" none) .eq span
              | none => return false : Unify Bool) s₁ env₁ i = .ok (((answer, s'), env'), k) →
        False := by
      intro d s₁ env₁ i before run
      obtain ⟨_, s₂, env₂, _, told, rest⟩ := unify_bind run
      cases told
      obtain ⟨after, _⟩ := install_run compare_sound compare_own fuel span false
        ((free _ _).hole m) (Term.allowed_of_free (free _ _) _) (Passage.start _ _)
        (fun _ solved => .fail solved) (Ground.free_holds _ _) rest
      exact noted_between before.extends (Passage.history after).extends silent
    obtain ⟨refusal, s₁, env₁, i, checked, rest₄⟩ := unify_bind rest₃
    obtain ⟨rfl, rfl, _⟩ := scopeProblem_run checked
    cases refusal with
    | some d =>
        obtain ⟨_, _, _, _, kept, rest₅⟩ := unify_bind rest₄
        cases kept
        exact (refused d _ _ _ .start rest₅).elim
    | none =>
        obtain ⟨problem, s₂, env₂, j, typed, rest₅⟩ := unify_bind rest₄
        have before : History s₁ env₁ s₂ env₂ := (typeProblem_sound compare_sound
          (Term.allowed_of_free (free _ _) _) (Term.allowed_of_free (free _ _) _) span).history typed
        cases problem with
        | some d => exact (refused d _ _ _ before rest₅).elim
        | none =>
            obtain ⟨u, solved, outcome⟩ :=
              install_solves (Nat.lt_of_lt_of_le made before.grows.size) rest₅
            exact ⟨u, solved, _, .now ⟨t', .inr ⟨_, _, zonked⟩,
              outcome.imp_right fun answered => answered.within before .start⟩⟩

theorem solveMeta_run {m : MetaId} {t : Term} (isRecord : t.isRecord = true)
    (made : m.index < env.metas.size) {span : Span} {n k : Nat} {answer : Bool}
    (done : solveMeta m t span s env n = .ok (((answer, s'), env'), k))
    (silent : s'.diagnostics = s.diagnostics) :
    ∃ u, env'.solution? m = some u ∧ ∃ same, PutTo u t same s env s' env' := by
  obtain ⟨_, _, _, _, look, solving⟩ := unify_bind done
  cases look
  cases existing : env.solution? m with
  | some u =>
      obtain ⟨_, _, _, _, look, rest⟩ := unify_bind solving
      cases look
      rw [existing] at rest
      obtain ⟨history, answered⟩ := answered_run rest
      exact ⟨u, history.grows.solution m u existing, _, .now ⟨t, .inl rfl, .inr answered⟩⟩
  | none => exact solve_unsolved_run isRecord existing made solving silent

end Solving

section Levels

/-- If nothing is noted in the end, then the levels have been found. -/
theorem finish_silent {n k : Nat} {levels : LevelSolution}
    (done : finish s env n = .ok (((levels, s'), env'), k))
    (silent : s'.diagnostics = s.diagnostics) : s.levels.solve.run = .ok (.ok levels) := by
  obtain ⟨found, s₁, env₁, _, ran, rest₁⟩ := unify_bind done
  have run := solveLevels_run ran
  have searched := solveLevels_sound.history ran
  cases found with
  | ok solution =>
      obtain ⟨_, _, _, _, kept, rest₂⟩ := unify_bind rest₁
      cases kept
      obtain ⟨_, _, _, _, _, final⟩ := unify_bind rest₂
      cases final
      exact run
  | error e =>
      obtain ⟨_, s₂, env₂, _, told, rest₂⟩ := unify_bind rest₁
      obtain ⟨_, _, _, _, kept, rest₃⟩ := unify_bind rest₂
      cases kept
      obtain ⟨_, _, _, _, reported, final⟩ := unify_bind rest₃
      cases final
      obtain ⟨d, _, rfl⟩ := reportLevels_run told
      have later := (reportUnsolved_sound.history reported).extends
      exact (noted_between searched.extends later silent).elim

end Levels

end PathTheory.Unify
