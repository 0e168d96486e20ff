import PathTheory.Level.Solver
/-!
The solver stops only where a level leaves the 32-bit integers: its rounds are bounded by
recursion, and no fuel can run dry.
-/
namespace PathTheory

/-- The computation has a value unless an addition or a subtraction overflows. -/
def OnlyOverflows {α : Type} (a : Checked α) : Prop :=
  ∀ fault, a = .error fault → fault = .addOverflow ∨ fault = .subOverflow

namespace OnlyOverflows

variable {α β : Type}

theorem ok (x : α) : OnlyOverflows (.ok x : Checked α) := by
  intro fault impossible
  cases impossible

theorem bind {a : Checked α} {f : α → Checked β} (first : OnlyOverflows a)
    (next : ∀ x, OnlyOverflows (f x)) : OnlyOverflows (a >>= f) := by
  intro fault failed
  cases a with
  | error other =>
      cases failed
      exact first _ rfl
  | ok x => exact next x fault failed

theorem map {a : Checked α} (f : α → β) (first : OnlyOverflows a) : OnlyOverflows (f <$> a) := by
  intro fault failed
  cases a with
  | error other =>
      cases failed
      exact first _ rfl
  | ok x => cases failed

theorem add (a b : Int) : OnlyOverflows (Bounded.add a b) := by
  intro fault failed
  unfold Bounded.add at failed
  split at failed
  · cases failed
  · cases failed
    exact .inl rfl

theorem sub (a b : Int) : OnlyOverflows (Bounded.sub a b) := by
  intro fault failed
  unfold Bounded.sub at failed
  split at failed
  · cases failed
  · cases failed
    exact .inr rfl

end OnlyOverflows

section Levels

open OnlyOverflows

theorem make_overflows (x : LevelVar) (c : Int) (m : Option Int) :
    OnlyOverflows (Level.make x c m) := by
  cases m with
  | none => exact ok _
  | some m => exact (add _ _).bind fun _ => ok _

theorem toLevel_overflows (k : LevelKind) (v : LevelValue) : OnlyOverflows (v.toLevel k) := by
  cases v with
  | infinite => exact ok _
  | finite based free =>
      cases based with
      | none => exact ok _
      | some b =>
          simp only [LevelValue.toLevel]
          exact make_overflows _ _ _

theorem subst_overflows (f : LevelVar → Option Level) (a : Level) :
    OnlyOverflows (a.subst f) := by
  cases a with
  | const c => exact ok _
  | infinity => exact ok _
  | shift x c m =>
      simp only [Level.subst]
      cases f x with
      | none => exact ok _
      | some r =>
          cases r with
          | infinity => exact ok _
          | const d => exact (add _ _).bind fun _ => ok _
          | shift y d n =>
              cases n with
              | none => exact (ok none).bind fun _ => (add _ _).bind fun _ => make_overflows _ _ _
              | some n =>
                  exact ((add _ _).map some).bind fun _ =>
                    (add _ _).bind fun _ => make_overflows _ _ _

theorem valueAt_overflows (n : Int) (a : Level) : OnlyOverflows (a.valueAt n) := by
  cases a with
  | const c => exact ok _
  | infinity => exact ok _
  | shift x c m => cases m <;> exact (add _ _).bind fun _ => ok _

theorem closedLe_overflows (a b : Level) : OnlyOverflows (Level.closedLe a b) := by
  unfold Level.closedLe
  split
  · exact ok _
  · split
    · exact ok _
    · refine (valueAt_overflows _ a).bind fun u => (valueAt_overflows _ b).bind fun v => ?_
      cases u with
      | none => exact (ok _).bind fun _ => ok _
      | some u => cases v <;> exact (ok _).bind fun _ => ok _

theorem holds_overflows (a b : Level) : OnlyOverflows (a.holds b .le) := by
  have compared : OnlyOverflows (Level.compareLe a b) := by
    unfold Level.compareLe
    split
    · exact ok _
    · split
      · exact ok _
      · exact ok _
      · split
        · exact ok _
        · exact (closedLe_overflows a b).map _
  refine compared.bind fun verdict => ?_
  cases verdict <;> exact ok _

theorem satisfies_overflows (s : LevelSolution) (c : LevelConstraint) :
    OnlyOverflows (s.satisfies c) :=
  (subst_overflows _ _).bind fun _ => (subst_overflows _ _).bind fun _ => holds_overflows _ _

theorem demand_overflows (left : Level) (offset : Int) (cap : Option Int)
    (values : List (LevelVar × LevelValue)) :
    OnlyOverflows (LevelConstraint.demand left offset cap values) := by
  cases left with
  | infinity => exact ok _
  | const c =>
      simp only [LevelConstraint.demand]
      split
      · exact (sub _ _).bind fun _ => ok _
      · exact ok _
  | shift x c m =>
      have capped : OnlyOverflows (LevelConstraint.capDemand m cap offset) := by
        unfold LevelConstraint.capDemand
        split
        · exact (sub _ _).map some
        · exact ok _
      refine capped.bind fun capped => ?_
      cases x with
      | param k => exact (sub _ _).bind fun _ => ok _
      | infer id k =>
          simp only
          split
          · exact ok _
          · exact ok _
          · rename_i based free _
            have moved : OnlyOverflows (LevelConstraint.basedDemand based c offset) := by
              unfold LevelConstraint.basedDemand
              split
              · exact (add _ _).bind fun _ => (sub _ _).bind fun _ => ok _
              · exact ok _
            refine moved.bind fun _ => (add _ _).bind fun _ => ?_
            split
            · exact (sub _ _).bind fun _ => ok _
            · exact ok _

theorem relax_overflows (c : LevelConstraint) (phase : SolvePhase)
    (values : List (LevelVar × LevelValue)) : OnlyOverflows (c.relax phase values) := by
  unfold LevelConstraint.relax
  split
  · split
    · exact ok _
    · split
      · exact ok _
      · exact ok _
      · exact (demand_overflows _ _ _ _).bind fun _ => ok _
  · exact ok _

theorem relaxAll_overflows (phase : SolvePhase) (constraints : List LevelConstraint)
    (progress : LevelProgress) : OnlyOverflows (relaxAll phase constraints progress) := by
  induction constraints generalizing progress with
  | nil => exact ok _
  | cons c rest ih =>
      refine (relax_overflows c phase progress.values).bind fun r => ?_
      cases r with
      | none => exact ih progress
      | some raise => exact (ih _).bind fun _ => ok _

theorem settle_overflows (phase : SolvePhase) (constraints : List LevelConstraint) (rounds : Nat)
    (progress : LevelProgress) : OnlyOverflows (settle phase constraints rounds progress) := by
  induction rounds generalizing progress with
  | zero => exact ok _
  | succ rounds ih =>
      refine (relaxAll_overflows phase constraints progress).bind fun step => ?_
      obtain ⟨after, raised⟩ := step
      cases raised with
      | nil => exact ok _
      | cons x others =>
          simp only
          split
          · exact ok _
          · exact ih after

end Levels

namespace LevelEquations

open OnlyOverflows

theorem solving_overflows {α β : Type} {a : Solving α} {f : α → Solving β}
    (first : OnlyOverflows a.run) (next : ∀ x, OnlyOverflows (f x).run) :
    OnlyOverflows (a >>= f).run := by
  refine OnlyOverflows.bind (a := a.run) first fun s => ?_
  cases s with
  | error e => exact ok _
  | ok x => exact next x

theorem lift_overflows {α : Type} {a : Checked α} (first : OnlyOverflows a) :
    OnlyOverflows (liftM a : Solving α).run := first.bind fun _ => ok _

theorem settlePhase_overflows (phase : SolvePhase) (constraints : List LevelConstraint)
    (progress : LevelProgress) : OnlyOverflows (settlePhase phase constraints progress).run := by
  refine solving_overflows (lift_overflows (settle_overflows _ _ _ _)) fun step => ?_
  obtain ⟨after, left⟩ := step
  cases left <;> exact ok _

theorem solveKind_overflows (e : LevelEquations) (kind : LevelKind) :
    OnlyOverflows (e.solveKind kind).run := by
  refine solving_overflows (settlePhase_overflows _ _ _) fun based =>
    solving_overflows (settlePhase_overflows _ _ _) fun final => ?_
  cases kind == .predicative with
  | false => exact ok _
  | true =>
      simp only [if_true]
      split <;> exact ok _

theorem entries_overflow (all : List (LevelVar × LevelValue)) (xs : List LevelVar) :
    OnlyOverflows (xs.filterMapM (entry all)).run := by
  induction xs with
  | nil => exact ok _
  | cons y rest ih =>
      have first : OnlyOverflows (entry all y).run := by
        unfold entry
        cases all.lookup y with
        | none => exact ok _
        | some v => exact solving_overflows (lift_overflows (toLevel_overflows _ v)) fun _ => ok _
      rw [List.filterMapM_cons]
      refine solving_overflows first fun found => ?_
      cases found with
      | none => exact ih
      | some level => exact solving_overflows ih fun _ => ok _

theorem firstUnsatisfied_overflows (s : LevelSolution) (constraints : List LevelConstraint) :
    OnlyOverflows (firstUnsatisfied s constraints) := by
  induction constraints with
  | nil => exact ok _
  | cons c rest ih =>
      refine (satisfies_overflows s c).bind fun met => ?_
      cases met with
      | false => exact ok _
      | true => exact ih

theorem solve_overflows (e : LevelEquations) : OnlyOverflows e.solve.run := by
  refine solving_overflows (solveKind_overflows e _) fun homotopy =>
    solving_overflows (solveKind_overflows e _) fun predicative =>
    solving_overflows (entries_overflow _ _) fun entries =>
    solving_overflows (lift_overflows (firstUnsatisfied_overflows _ _)) fun failed => ?_
  cases failed <;> exact ok _

end LevelEquations

end PathTheory
