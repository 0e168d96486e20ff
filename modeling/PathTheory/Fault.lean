/-!
Computations that stop. Level constants are 32-bit integers; an operation whose result leaves
that range has no value, and neither has a universe whose predicative level is infinite.
Reduction and unification run on fuel, and running dry is a fault of its own, so no answer is
ever made up.
-/
namespace PathTheory

inductive Fault where
  | addOverflow
  | subOverflow
  | negOverflow
  | infinitePredicative
  | outOfFuel
deriving DecidableEq, Repr

def Fault.message : Fault → String
  | .addOverflow => "attempt to add with overflow"
  | .subOverflow => "attempt to subtract with overflow"
  | .negOverflow => "attempt to negate with overflow"
  | .infinitePredicative => "infinite predicative level"
  | .outOfFuel => "out of fuel"

abbrev Checked := Except Fault

namespace Bounded

def least : Int := -2147483648

def greatest : Int := 2147483647

def fits (n : Int) : Bool := least ≤ n && n ≤ greatest

def add (a b : Int) : Checked Int :=
  if fits (a + b) then .ok (a + b) else .error .addOverflow

def sub (a b : Int) : Checked Int :=
  if fits (a - b) then .ok (a - b) else .error .subOverflow

def neg (a : Int) : Checked Int :=
  if fits (-a) then .ok (-a) else .error .negOverflow

/-- The 32-bit integer that agrees with a number modulo 2 ^ 32. -/
def wrap (n : Int) : Int := n.bmod 4294967296

theorem add_ok {a b c : Int} (h : add a b = .ok c) : c = a + b := by
  simp only [add] at h
  split at h <;> simp_all

theorem sub_ok {a b c : Int} (h : sub a b = .ok c) : c = a - b := by
  simp only [sub] at h
  split at h <;> simp_all

theorem neg_ok {a c : Int} (h : neg a = .ok c) : c = -a := by
  simp only [neg] at h
  split at h <;> simp_all

end Bounded

end PathTheory
