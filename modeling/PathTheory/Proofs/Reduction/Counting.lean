import PathTheory.Proofs.Run
import PathTheory.Library
/-!
Numbers under substitution and reduction. A numeral mentions no variables and no levels, so nothing
is put into it. A term that reduces to a number, one constructor after the other, has the numeral as
its normal form; so it is enough to know how the calls of a function reduce at zero and at a
successor, whatever else its arguments are.
-/
namespace PathTheory

open Library

section Substitution

variable (rule : HoleRule) (s : Subst)

theorem Subst.sort_set0 : s.sort .set0 = .ok .set0 := by
  unfold Subst.sort
  split <;> rfl

theorem natType_substWith : natType.substWith rule s = pure natType := by
  unfold natType Term.substWith
  split
  · rfl
  · simp only [Subst.sort_set0, substTerms]
    rfl

theorem numeral_substWith (k : Nat) : (numeral k).substWith rule s = pure (numeral k) := by
  induction k with
  | zero =>
      unfold numeral zeroTerm constant Term.substWith
      split
      · rfl
      · simp only [Subst.sort_set0, substTerms]
        rfl
  | succ k ih =>
      unfold numeral sucOf constant Term.substWith
      split
      · rfl
      · simp only [Subst.sort_set0, substTerms, ih]
        rfl

end Substitution

/-- With that much fuel, reduction finds that many successors one below the other and zero below
    them, and makes no variables. -/
def Counts (env : Environment) (fuel : Nat) : Nat → Term → Prop
  | 0, t => ∀ k n, whnfWith env (fuel + k) t n = .ok (zeroTerm, n)
  | m + 1, t => ∃ u, (∀ k n, whnfWith env (fuel + k) t n = .ok (sucOf u, n)) ∧ Counts env fuel m u

namespace Counts

variable {env : Environment} {fuel m : Nat} {t t' : Term}

theorem more (counts : Counts env fuel m t) (extra : Nat) : Counts env (fuel + extra) m t := by
  induction m generalizing t with
  | zero =>
      intro k n
      rw [Nat.add_assoc]
      exact counts (extra + k) n
  | succ m ih =>
      obtain ⟨u, reduced, below⟩ := counts
      refine ⟨u, fun k n => ?_, ih below⟩
      rw [Nat.add_assoc]
      exact reduced (extra + k) n

/-- A term counts like the one that it reduces to first. -/
theorem step (first : ∀ k n, whnfWith env (k + 2) t n = whnfWith env (k + 1) t' n)
    (counts : Counts env (fuel + 1) m t') : Counts env (fuel + 2) m t := by
  have same : ∀ k n, whnfWith env (fuel + 2 + k) t n = whnfWith env (fuel + 1 + k) t' n := by
    intro k n
    rw [Nat.add_right_comm fuel 2 k, first, Nat.add_right_comm fuel 1 k]
  cases m with
  | zero => exact fun k n => (same k n).trans (counts k n)
  | succ m =>
      obtain ⟨u, reduced, below⟩ := counts
      exact ⟨u, fun k n => (same k n).trans (reduced k n), below.more 1⟩

theorem of_numeral (env : Environment) (m : Nat) : Counts env 1 m (numeral m) := by
  have still : ∀ (c : DefId) (args : List Term) (k n : Nat),
      whnfWith env (1 + k) (constant c args) n = .ok (constant c args, n) := by
    intro c args k n
    rw [Nat.add_comm]
    rfl
  induction m with
  | zero => exact still zero []
  | succ m ih => exact ⟨_, still suc _, ih⟩

/-- What counts up to a number has its numeral as the normal form. -/
theorem nf (counts : Counts env fuel m t) (enough : fuel ≤ env.fuel) (k n : Nat) :
    nfWith env (m + 1 + k) t n = .ok (numeral m, n) := by
  have reduces : ∀ {t u : Term}, (∀ k n, whnfWith env (fuel + k) t n = .ok (u, n)) →
      t.whnf env n = .ok (u, n) := by
    intro t u reduced
    obtain ⟨extra, isFuel⟩ := Nat.le.dest enough
    unfold Term.whnf
    rw [← isFuel]
    exact reduced extra n
  -- every constructor takes one call of the normaliser, and each reduces with all fuel there is
  induction m generalizing t with
  | zero =>
      rw [Nat.add_comm]
      exact fresh_then (reduces counts) rfl
  | succ m ih =>
      obtain ⟨u, reduced, below⟩ := counts
      rw [Nat.add_right_comm (m + 1) 1 k]
      refine fresh_then (reduces reduced) ?_
      have parts : [u].mapM (nfWith env (m + 1 + k)) n = .ok ([numeral m], n) := by
        rw [List.mapM_cons, List.mapM_nil]
        exact fresh_then (ih below) rfl
      exact fresh_then (x := []) rfl (fresh_then parts rfl)

end Counts

section Recursion

variable {env : Environment} {plus times : Term → Term → Term} {fuel m : Nat} {t : Term}

/-- Sums reduce by recursion on the second summand. -/
structure Environment.Adds (env : Environment) (plus : Term → Term → Term) : Prop where
  zero : ∀ t k n, whnfWith env (k + 2) (plus t zeroTerm) n = whnfWith env (k + 1) t n
  suc : ∀ t u k n, whnfWith env (k + 2) (plus t (sucOf u)) n = .ok (sucOf (plus t u), n)

/-- Products reduce by recursion on the second factor, to sums with another product in them. -/
structure Environment.Multiplies (env : Environment) (plus times : Term → Term → Term) : Prop where
  zero : ∀ t k n, whnfWith env (k + 2) (times t zeroTerm) n = .ok (zeroTerm, n)
  suc : ∀ t u k n, whnfWith env (k + 2) (times t (sucOf u)) n =
    whnfWith env (k + 1) (plus (times t u) t) n

/-- The first summand is not reduced before the second one is used up. -/
theorem Environment.Adds.counts (adds : env.Adds plus) (counts : Counts env (fuel + 1) m t)
    (b : Nat) : Counts env (fuel + 2) (m + b) (plus t (numeral b)) := by
  induction b with
  | zero => exact counts.step (adds.zero t)
  | succ b ih =>
      refine ⟨plus t (numeral b), fun k n => ?_, ih⟩
      rw [Nat.add_right_comm fuel 2 k]
      exact adds.suc t (numeral b) (fuel + k) n

/-- Every factor takes one more product apart before there is a constructor. -/
theorem Environment.Multiplies.counts (adds : env.Adds plus) (multiplies : env.Multiplies plus times)
    (a b : Nat) : Counts env (2 * b + 2) (a * b) (times (numeral a) (numeral b)) := by
  induction b with
  | zero =>
      intro k n
      rw [Nat.add_comm]
      exact multiplies.zero (numeral a) k n
  | succ b ih => exact (adds.counts ih a).step (multiplies.suc (numeral a) (numeral b))

end Recursion

end PathTheory
