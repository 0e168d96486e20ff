import PathTheory.Proofs.Equation.Accounts
import PathTheory.Proofs.Equation.Silent
import PathTheory.Proofs.Level.Solution
/-!
Level solutions that are final. After the second look at the levels there is only the report of what
is left over, and it records nothing: an equation that is still pending waits for a metavariable, so
it is said and not compared. So the constraints that have been solved are those that there are.
-/
namespace PathTheory

namespace LevelSolution

end LevelSolution

namespace Unify

variable {s s' s₁ : Store} {env env' env₁ : Environment}

section Universes

open Library

end Universes

/-- What is answered to a request: the other requests than comparisons are just met. -/
def Request.answer : Request → Unify Bool
  | .compare left right cmp span => Unify.compare left right cmp span
  | r => do
      r.run
      return true

namespace Transport

open Library

def place : Var := ⟨30, "i"⟩

def other : Var := ⟨31, "j"⟩

def family : Var := ⟨32, "P"⟩

def start : Var := ⟨33, "a"⟩

def sections : List (Var × Term) :=
  [(place, intervalType), (other, intervalType),
    (family, .pi .explicit ⟨29, "k"⟩ intervalType (.univ .set0)),
    (start, .app (.ref family) leftTerm)]

/-- A transport along a family whose body is a metavariable that may mention the place. -/
def transported : Term := coeOf (.lam .explicit place intervalType (.hole ⟨0⟩)) (.ref start)
  (.ref other)

/-- The transport is compared with where it starts before it is known that the family is not
    constant. -/
def constantEarly : List Request :=
  sections.map (fun x => .bind x.1 x.2) ++
    [.freshMeta "m" (.univ .set0) (sections.map (·.1)) .expression .none,
      .compare transported (.ref start) .eq .none,
      .compare (.hole ⟨0⟩) (.app (.ref family) (.ref place)) .eq .none]

/-- Equations need not be final as levels are. All of them are accepted and nothing is noted, but
    with everything put in the sides of the first one are not equal in a store of its own. -/
theorem constantEarly_unequal : ∃ s env n levels s' env' l transported' k r,
    constantEarly.allM Request.answer .empty (Library.environment 20) 34 =
      .ok (((true, s), env), n) ∧
      settle s env n = .ok (((levels, s'), env'), l) ∧ s'.diagnostics.isEmpty ∧
      s'.lowerBounds.isEmpty ∧ s'.upperBounds.isEmpty ∧
      transported.zonk env' levels.values l = .ok (transported', k) ∧
      compare transported' (.ref start) .eq .none { Store.empty with context := s'.context } env' k =
        .ok r ∧
      r.1.1.1 = false := by
  have ends : endsIn (constantEarly.allM Request.answer) .empty (Library.environment 20) 34
      (fun all s env n => all && endsIn settle s env n fun levels s' env' l =>
        s'.diagnostics.isEmpty && s'.lowerBounds.isEmpty && s'.upperBounds.isEmpty &&
          endsIn (reading (transported.zonk · levels.values)) s' env' l fun transported' _ _ k =>
            endsIn (compare transported' (.ref start) .eq .none)
              { Store.empty with context := s'.context } env' k fun equal _ _ _ => !equal) = true := by
    decide +kernel
  obtain ⟨all, s, env, n, run, ends⟩ := endsIn_run ends
  obtain ⟨rfl, ends⟩ := Bool.and_eq_true_iff.mp ends
  obtain ⟨levels, s', env', l, settled, ends⟩ := endsIn_run ends
  simp only [Bool.and_eq_true] at ends
  obtain ⟨⟨⟨silent, lower⟩, upper⟩, ends⟩ := ends
  obtain ⟨transported', _, _, k, zonked, ends⟩ := endsIn_run ends
  obtain ⟨_, _, zonked⟩ := readEnv_run zonked
  obtain ⟨_, _, _, _, compared, unequal⟩ := endsIn_run ends
  exact ⟨s, env, n, levels, s', env', l, transported', k, _, run, settled, silent, lower, upper,
    zonked, compared, by simpa using unequal⟩

end Transport

end Unify

end PathTheory
