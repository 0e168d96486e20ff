import PathTheory.Proofs.Level.Relaxation
/-!
Raised variables and where they were raised from. Every variable points back to the one that raised
it last, with the difference that was added on the way. Ranks bound what is added up along the
pointers, so a pointer that is set because its variable has to be raised closes only cycles that add
up to something positive, and replacing a pointer leaves no other cycles.
-/
namespace PathTheory

open Rank

/-- The variable that each one was raised from, and the difference. -/
abbrev Parents := LevelVar → Option (LevelVar × Int)

namespace Parents

/-- Pointers that lead from one variable to another one, and the sum of their differences. -/
inductive Leads (parent : Parents) : LevelVar → LevelVar → Int → Prop where
  | here (x : LevelVar) : Leads parent x x 0
  | step {x y z : LevelVar} {w n : Int} (next : parent x = some (y, w)) (rest : Leads parent y z n) :
      Leads parent x z (w + n)

/-- Every cycle adds up to something positive. -/
def Positive (parent : Parents) : Prop :=
  ∀ x y w n, parent x = some (y, w) → parent.Leads y x n → 0 < w + n

/-- A variable is at most the difference above the one that it was raised from. -/
def Bounded (parent : Parents) (ρ : LevelVar → Rank) : Prop :=
  ∀ x y w, parent x = some (y, w) → ρ x ≤ ρ y + ofInt w

variable {parent : Parents} {ρ : LevelVar → Rank} {x y z u v : LevelVar} {w n m : Int}

theorem Leads.append (first : parent.Leads x y n) (second : parent.Leads y z m) :
    parent.Leads x z (n + m) := by
  induction first with
  | here x => rwa [zero_add]
  | step next _ ih =>
      rw [add_assoc]
      exact .step next (ih second)

theorem Leads.bounded (bounded : parent.Bounded ρ) (leads : parent.Leads x y n) :
    ρ x ≤ ρ y + ofInt n := by
  induction leads with
  | here x => exact (add_zero _).ge
  | @step x y z w n next _ ih =>
      calc ρ x ≤ ρ y + ofInt w := bounded x y w next
        _ ≤ ρ z + ofInt n + ofInt w := by gcongr
        _ = ρ z + ofInt (w + n) := by rw [add_assoc, ← ofInt_add, Int.add_comm]

/-- A variable that has to be raised is not led back to without a gain. -/
theorem Leads.gain (bounded : parent.Bounded ρ) (leads : parent.Leads y x n)
    (unmet : ρ x < ρ y + ofInt w) : 0 < w + n := by
  have more : ρ x < ρ x + ofInt (w + n) := by
    calc ρ x < ρ y + ofInt w := unmet
      _ ≤ ρ x + ofInt n + ofInt w := by
        gcongr
        exact leads.bounded bounded
      _ = ρ x + ofInt (w + n) := by rw [add_assoc, ← ofInt_add, Int.add_comm]
  by_contra none
  have less : ρ x + ofInt (w + n) ≤ ρ x + ofInt 0 := by
    gcongr
    exact ofInt_le.mpr (not_lt.mp none)
  exact absurd (more.trans_le less) (add_zero (ρ x)).not_gt

section Update

variable (gain : ∀ n, parent.Leads y x n → 0 < w + n)
include gain

/-- With a pointer replaced, what is led to is led to as before or by way of that pointer. -/
theorem Leads.replaced (leads : Leads (Function.update parent x (some (y, w))) u v n) :
    parent.Leads u v n ∨
      ∃ a b, parent.Leads u x a ∧ parent.Leads y v b ∧ a + w + b ≤ n := by
  induction leads with
  | here u => exact .inl (.here u)
  | @step u t v w' n next _ ih =>
      by_cases same : u = x
      · subst same
        rw [Function.update_self] at next
        cases next
        rcases ih with old | ⟨a, b, back, onward, sum⟩
        · exact .inr ⟨0, n, .here u, old, by omega⟩
        · have positive := gain a back
          exact .inr ⟨0, b, .here u, onward, by omega⟩
      · rw [Function.update_of_ne same] at next
        rcases ih with old | ⟨a, b, back, onward, sum⟩
        · exact .inl (.step next old)
        · exact .inr ⟨w' + a, b, .step next back, onward, by omega⟩

/-- **Replacing a pointer closes no other cycles than positive ones,** if none of those through the
    new pointer are. -/
theorem Positive.replaced (positive : parent.Positive) :
    Positive (Function.update parent x (some (y, w))) := by
  intro u t w' n next leads
  by_cases same : u = x
  · subst same
    rw [Function.update_self] at next
    cases next
    rcases leads.replaced gain with old | ⟨a, b, back, onward, sum⟩
    · exact gain n old
    · have first := gain a back
      have second := gain b onward
      omega
  · rw [Function.update_of_ne same] at next
    rcases leads.replaced gain with old | ⟨a, b, back, onward, sum⟩
    · exact positive u t w' n next old
    · have around := gain _ (onward.append (.step next back))
      omega

end Update

end Parents

end PathTheory
