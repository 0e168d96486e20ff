import PathTheory.Level.Solver
import Mathlib.Algebra.Order.Monoid.Unbundled.WithTop
import Mathlib.Data.Int.ConditionallyCompleteOrder
import Mathlib.Order.WithBot
import Mathlib.Tactic.NormNum
/-!
What levels denote. A level has a value once its variable has one; infinity is above every
number. Building and substituting levels keeps these values, and the closed comparison decides
the order of the values at all level parameters.
-/
namespace PathTheory

namespace Level

/-- A value with a cap under it. -/
def capped (n : WithTop Int) : Option Int → WithTop Int
  | none => n
  | some m => max n m

def value (ν : LevelVar → WithTop Int) : Level → WithTop Int
  | const c => c
  | shift x c m => capped (ν x + c) m
  | infinity => ⊤

/-- The value when the level parameters are natural numbers. -/
def under (p : LevelKind → Nat) (a : Level) : WithTop Int :=
  a.value fun x => ((p x.kind : Int) : WithTop Int)

theorem add_ok_value {a b c : Int} (sum : Bounded.add a b = .ok c) :
    (c : WithTop Int) = (a : WithTop Int) + (b : WithTop Int) := by
  rw [Bounded.add_ok sum]
  norm_cast

theorem capped_mono {n k : WithTop Int} (below : n ≤ k) (m : Option Int) :
    capped n m ≤ capped k m := by
  cases m with
  | none => exact below
  | some m => exact max_le_max_right _ below

theorem capped_maxCap (n : WithTop Int) (m k : Option Int) :
    capped n (maxCap m k) = max (capped n m) (capped n k) := by
  cases m with
  | none =>
      cases k with
      | none => simp [maxCap, capped]
      | some k => simp [maxCap, capped]
  | some m =>
      cases k with
      | none => simp [maxCap, capped]
      | some k =>
          simp only [maxCap, capped]
          rw [max_max_max_comm, max_self]
          norm_cast

/-- A cap that is left out was never above the rest. -/
theorem make_value {x : LevelVar} {c : Int} {m : Option Int} {a : Level}
    {ν : LevelVar → WithTop Int} (floor : (x.floor : WithTop Int) ≤ ν x)
    (made : make x c m = .ok a) : a.value ν = capped (ν x + c) m := by
  cases m with
  | none =>
      cases made
      rfl
  | some m =>
      simp only [make, bind, Except.bind] at made
      cases sum : Bounded.add x.floor c with
      | error fault => simp [sum] at made
      | ok least =>
          simp only [sum, pure, Except.pure, Except.ok.injEq] at made
          subst made
          split
          · rfl
          · rename_i above
            have bound : (m : WithTop Int) ≤ ν x + c := calc
              (m : WithTop Int) ≤ (least : WithTop Int) := by
                exact_mod_cast Int.not_lt.mp above
              _ = (x.floor : WithTop Int) + (c : WithTop Int) := add_ok_value sum
              _ ≤ ν x + c := by gcongr
            simp [value, capped, bound]

/-- The valuation that gives every replaced variable the value of its replacement. -/
def substituted (f : LevelVar → Option Level) (ν : LevelVar → WithTop Int) (x : LevelVar) :
    WithTop Int :=
  match f x with
  | some a => a.value ν
  | none => ν x

/-- An offset moves the cap of the replacement along. -/
theorem moved_value {y : LevelVar} {c d : Int} {m n : Option Int} {b : Level}
    {ν : LevelVar → WithTop Int} (floor : (y.floor : WithTop Int) ≤ ν y)
    (done : (do
      let shifted ← match n with
        | some n => some <$> Bounded.add n c
        | none => pure none
      make y (← Bounded.add d c) (maxCap shifted m)) = .ok b) :
    b.value ν = capped (capped (ν y + d) n + c) m := by
  cases n with
  | none =>
      simp only [bind, Except.bind, pure, Except.pure] at done
      cases sum : Bounded.add d c with
      | error fault => simp [sum] at done
      | ok k =>
          simp only [sum] at done
          rw [make_value floor done, add_ok_value sum]
          simp [capped, maxCap, add_assoc]
  | some n =>
      simp only [bind, Except.bind, Functor.map, Except.map] at done
      cases moved : Bounded.add n c with
      | error fault => simp [moved] at done
      | ok n' =>
          simp only [moved] at done
          cases sum : Bounded.add d c with
          | error fault => simp [sum] at done
          | ok k =>
              simp only [sum] at done
              rw [make_value floor done, add_ok_value sum, capped_maxCap]
              have both : capped (ν y + ((d : WithTop Int) + (c : WithTop Int))) (some n') =
                  capped (ν y + d) (some n) + c := by
                simp only [capped, add_ok_value moved]
                rw [max_add, add_assoc]
              have above : ν y + ((d : WithTop Int) + (c : WithTop Int)) ≤
                  capped (ν y + d) (some n) + c := by
                rw [← add_assoc]
                gcongr
                exact le_max_left _ _
              rw [both]
              cases m with
              | none => exact max_eq_left above
              | some m =>
                  simp only [capped] at above ⊢
                  rw [max_comm, max_assoc, max_left_comm, max_eq_right above, max_comm]

theorem subst_value {f : LevelVar → Option Level} {a b : Level} {ν : LevelVar → WithTop Int}
    (floor : ∀ x : LevelVar, (x.floor : WithTop Int) ≤ ν x) (done : a.subst f = .ok b) :
    b.value ν = a.value (substituted f ν) := by
  cases a with
  | const c =>
      cases done
      rfl
  | infinity =>
      cases done
      rfl
  | shift x c m =>
      simp only [subst] at done
      cases replaced : f x with
      | none =>
          simp only [replaced] at done
          cases done
          simp [value, substituted, replaced]
      | some r =>
          simp only [replaced] at done
          cases r with
          | infinity =>
              cases done
              cases m <;> simp [value, substituted, replaced, capped]
          | const d =>
              simp only [bind, Except.bind] at done
              cases sum : Bounded.add d c with
              | error fault => simp [sum] at done
              | ok n =>
                  simp only [sum, pure, Except.pure, Except.ok.injEq] at done
                  subst done
                  have same := add_ok_value sum
                  cases m with
                  | none => simp [value, substituted, replaced, capped, same]
                  | some m => simp [value, substituted, replaced, capped, ← same, max_comm]
          | shift y d n =>
              have moved := moved_value (floor y) done
              simpa [value, substituted, replaced] using moved

/-- Capping a number. -/
def cappedInt (n : Int) : Option Int → Int
  | none => n
  | some m => max n m

theorem capped_coe (n : Int) (m : Option Int) :
    capped (n : WithTop Int) m = (cappedInt n m : WithTop Int) := by
  cases m with
  | none => rfl
  | some m => simp [capped, cappedInt]

/-- Two lines of slope one compare everywhere if their offsets do and they do at zero. -/
theorem lines_le_iff (c d : Int) (m n : Option Int) :
    (∀ t : Nat, cappedInt (t + c) m ≤ cappedInt (t + d) n) ↔
      c ≤ d ∧ cappedInt c m ≤ cappedInt d n := by
  constructor
  · intro everywhere
    refine ⟨?_, by simpa using everywhere 0⟩
    by_contra steeper
    cases n with
    | none =>
        have far := everywhere 0
        cases m <;> simp only [cappedInt] at far <;> omega
    | some n =>
        have far := everywhere (n - c + 1).toNat
        cases m <;> simp only [cappedInt] at far <;> omega
  · rintro ⟨slope, least⟩ t
    cases m <;> cases n <;> simp only [cappedInt] at least ⊢ <;> omega

theorem constant_le_iff (c d : Int) (n : Option Int) :
    (∀ t : Nat, c ≤ cappedInt (t + d) n) ↔ c ≤ cappedInt d n := by
  constructor
  · intro everywhere
    simpa using everywhere 0
  · intro least t
    cases n <;> simp only [cappedInt] at least ⊢ <;> omega

theorem line_exceeds (c d : Int) (m : Option Int) : ∃ t : Nat, d < cappedInt (t + c) m := by
  refine ⟨(d - c + 1).toNat, ?_⟩
  cases m <;> simp only [cappedInt] <;> omega

theorem under_shift (p : LevelKind → Nat) (x : LevelVar) (c : Int) (m : Option Int) :
    (shift x c m).under p = (cappedInt (p x.kind + c) m : WithTop Int) := by
  rw [← capped_coe]
  simp [under, value]

theorem valueAt_shift {n : Int} {x : LevelVar} {c : Int} {m : Option Int} {r : Option Int}
    (done : valueAt n (shift x c m) = .ok r) : r = some (cappedInt (n + c) m) := by
  cases m with
  | none =>
      simp only [valueAt, bind, Except.bind] at done
      cases sum : Bounded.add n c with
      | error fault => simp [sum] at done
      | ok k =>
          simp only [sum, pure, Except.pure, Except.ok.injEq] at done
          rw [← done, Bounded.add_ok sum, cappedInt]
  | some m =>
      simp only [valueAt, bind, Except.bind] at done
      cases sum : Bounded.add n c with
      | error fault => simp [sum] at done
      | ok k =>
          simp only [sum, pure, Except.pure, Except.ok.injEq] at done
          rw [← done, Bounded.add_ok sum, cappedInt, max_comm]

theorem valueAt_const (n c : Int) : valueAt n (const c) = .ok (some c) := rfl

theorem under_const (p : LevelKind → Nat) (c : Int) : (const c).under p = (c : WithTop Int) := rfl

theorem closedLe_const_const {c d : Int} {r : Bool}
    (done : closedLe (const c) (const d) = .ok r) : r = true ↔ c ≤ d := by
  have known : decide (c ≤ d) = r := by
    simpa [closedLe, var?, valueAt_const, bind, Except.bind, pure, Except.pure] using done
  simp [← known]

theorem closedLe_const_shift {c d : Int} {k : LevelKind} {n : Option Int} {r : Bool}
    (done : closedLe (const c) (shift (.param k) d n) = .ok r) :
    r = true ↔ c ≤ cappedInt d n := by
  cases right : valueAt 0 (shift (.param k) d n) with
  | error fault =>
      simp [closedLe, var?, LevelVar.floor, valueAt_const, right, bind, Except.bind] at done
  | ok v =>
      have rightKnown := valueAt_shift right
      subst rightKnown
      have known : decide (c ≤ cappedInt d n) = r := by
        simpa [closedLe, var?, LevelVar.floor, valueAt_const, right, bind, Except.bind, pure,
          Except.pure] using done
      simp [← known]

theorem closedLe_shift_shift {c d : Int} {k : LevelKind} {m n : Option Int} {r : Bool}
    (done : closedLe (shift (.param k) c m) (shift (.param k) d n) = .ok r) :
    r = true ↔ c ≤ d ∧ cappedInt c m ≤ cappedInt d n := by
  cases left : valueAt 0 (shift (.param k) c m) with
  | error fault => simp [closedLe, var?, LevelVar.floor, left, bind, Except.bind] at done
  | ok u =>
      cases right : valueAt 0 (shift (.param k) d n) with
      | error fault =>
          simp [closedLe, var?, LevelVar.floor, left, right, bind, Except.bind] at done
      | ok v =>
          have leftKnown := valueAt_shift left
          have rightKnown := valueAt_shift right
          subst leftKnown rightKnown
          have known : (decide (c ≤ d) && decide (cappedInt c m ≤ cappedInt d n)) = r := by
            simpa [closedLe, var?, LevelVar.floor, left, right, bind, Except.bind, pure,
              Except.pure, constant?] using done
          simp [← known]

/-- The comparison of finite levels without inferred variables decides the order of their values at
    all level parameters. -/
theorem closedLe_iff {a b : Level} {r : Bool} (left : a.hasInference = false)
    (right : b.hasInference = false) (finite : a ≠ infinity) (bounded : b ≠ infinity)
    (done : closedLe a b = .ok r) : r = true ↔ ∀ p, a.under p ≤ b.under p := by
  cases a with
  | infinity => exact absurd rfl finite
  | const c =>
      cases b with
      | infinity => exact absurd rfl bounded
      | const d =>
          rw [closedLe_const_const done]
          simp [under_const]
      | shift y d n =>
          cases y with
          | infer id k => cases right
          | param k =>
              rw [closedLe_const_shift done, ← constant_le_iff]
              simp only [under_shift, under_const, WithTop.coe_le_coe]
              constructor
              · intro everywhere p
                exact everywhere (p k)
              · intro everywhere t
                exact everywhere fun _ => t
  | shift x c m =>
      cases x with
      | infer id k => cases left
      | param k =>
          cases b with
          | infinity => exact absurd rfl bounded
          | const d =>
              cases done
              obtain ⟨t, exceeds⟩ := line_exceeds c d m
              have fails : ¬ ∀ p, (shift (.param k) c m).under p ≤ (const d).under p := by
                intro everywhere
                have far := everywhere fun _ => t
                rw [under_shift, under_const, WithTop.coe_le_coe] at far
                omega
              simp [fails]
          | shift y d n =>
              cases y with
              | infer id l => cases right
              | param l =>
                  by_cases same : k = l
                  · subst same
                    rw [closedLe_shift_shift done, ← lines_le_iff]
                    simp only [under_shift, WithTop.coe_le_coe]
                    constructor
                    · intro everywhere p
                      exact everywhere (p k)
                    · intro everywhere t
                      exact everywhere fun _ => t
                  · have apart : r = false := by
                      simpa [closedLe, var?, same] using done.symm
                    obtain ⟨t, exceeds⟩ := line_exceeds c (cappedInt d n) m
                    have fails : ¬ ∀ p, (shift (.param k) c m).under p ≤
                        (shift (.param l) d n).under p := by
                      intro everywhere
                      have far := everywhere fun i => if i = k then t else 0
                      simp only [under_shift, LevelVar.kind, Ne.symm same, if_true, if_false,
                        WithTop.coe_le_coe, Nat.cast_zero, zero_add] at far
                      omega
                    simp [apart, fails]

theorem finite_under {a : Level} (finite : a ≠ infinity) (p : LevelKind → Nat) :
    a.under p ≠ ⊤ := by
  cases a with
  | infinity => exact absurd rfl finite
  | const c => simp [under_const]
  | shift x c m => simp [under_shift]

theorem holds_finite {a b : Level} (left : a.hasInference = false)
    (right : b.hasInference = false) (apart : a ≠ b) (finite : a ≠ infinity)
    (bounded : b ≠ infinity) : a.holds b .le = closedLe a b := by
  have compared : compareLe a b = Verdict.decided <$> closedLe a b := by
    cases a <;> cases b <;> simp_all [compareLe]
  simp only [holds, compare, compared]
  cases closedLe a b <;> rfl

/-- Without inferred variables, a comparison that refuses every demand decides the order of the
    values at all level parameters. -/
theorem holds_iff {a b : Level} {r : Bool} (left : a.hasInference = false)
    (right : b.hasInference = false) (done : a.holds b .le = .ok r) :
    r = true ↔ ∀ p, a.under p ≤ b.under p := by
  by_cases same : a = b
  · subst same
    have always : r = true := by
      simpa [holds, compare, compareLe, bind, Except.bind, pure, Except.pure] using done.symm
    simp [always]
  by_cases top : b = infinity
  · subst top
    have always : r = true := by
      simpa [holds, compare, compareLe, same, bind, Except.bind, pure, Except.pure]
        using done.symm
    simp [always, under, value]
  by_cases infinite : a = infinity
  · subst infinite
    have never : r = false := by
      cases b <;> simp_all [holds, compare, compareLe, bind, Except.bind, pure, Except.pure]
    have fails : ¬ ∀ p, infinity.under p ≤ b.under p := by
      intro everywhere
      exact finite_under top (fun _ => 0) (top_le_iff.mp (everywhere fun _ => 0))
    simp [never, fails]
  rw [holds_finite left right same infinite top] at done
  exact closedLe_iff left right infinite top done

end Level

end PathTheory
