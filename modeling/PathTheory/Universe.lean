import PathTheory.Level.Order
/-!
Universes. A universe is a pair of levels: the predicative level measures size and must be
finite, the homotopy level bounds the dimension. The propositions form one universe whatever
the predicative level says.
-/
namespace PathTheory

structure Universe where
  p : Level
  h : Level
deriving DecidableEq, Repr, Inhabited

namespace Universe

def set0 : Universe := ⟨.const 0, .const 0⟩

def make (p h : Level) : Checked Universe :=
  if p.isInfinity then .error .infinitePredicative else .ok ⟨p, h⟩

def prop : Universe := ⟨.const 0, .prop⟩

def set (n : Int) : Universe := ⟨.const n, .const 0⟩

/-- The universe over the level parameters of the definition at hand. -/
def std : Universe := ⟨.ofVar (.param .predicative), .ofVar (.param .homotopy)⟩

def isProp (u : Universe) : Bool := u.h.isProp

def isOmega (u : Universe) : Bool := u.h.isInfinity

def isClosed (u : Universe) : Bool := u.p.isClosed && (u.h.isClosed || u.h.isInfinity)

/-- The universe that this one is an element of. -/
def succ (u : Universe) : Checked Universe := do
  if u.isProp then return set 0
  make (← u.p.succ) (← u.h.succ)

def max? (u v : Universe) : Checked (Option Universe) := do
  if u.isProp then return some v
  if v.isProp then return some u
  match ← u.p.max? v.p with
  | none => return none
  | some p => match ← u.h.max? v.h with
    | none => return none
    | some h => return some (← make p h)

/-- A function type lives in the predicative maximum of its parts and in the homotopy level of its
    codomain; into a proposition it is a proposition. -/
def ofPi? (domain codomain : Universe) : Checked (Option Universe) := do
  if codomain.isProp then return some prop
  match ← domain.p.max? codomain.p with
  | none => return none
  | some p => return some (← make p codomain.h)

def subst (f : LevelVar → Option Level) (u : Universe) : Checked Universe := do
  make (← u.p.subst f) (← u.h.subst f)

/-- What a comparison says when demands are accepted or refused: the answer, and the demands
    accepted on the way to it. -/
structure Comparison where
  holds : Bool
  demands : List Demand
deriving DecidableEq, Repr

def Comparison.of (accept : Bool) : Verdict → Comparison
  | .decided answer => ⟨answer, []⟩
  | .demanded d => if accept then ⟨true, [d]⟩ else ⟨false, []⟩

/-- The second comparison is made only if the first one holds. -/
def Comparison.andThen (first : Comparison) (second : Checked Comparison) : Checked Comparison :=
  if first.holds then do
    let second ← second
    return ⟨second.holds, first.demands ++ second.demands⟩
  else .ok first

def compareUp (accept : Bool) (u v : Universe) (cmp : Cmp) : Checked Comparison := do
  if u.isProp then
    if cmp == .le || v.isProp then return ⟨true, []⟩
    return .of accept (← v.h.compare .prop .eq)
  if v.isProp then return .of accept (← u.h.compare .prop .le)
  let first := Comparison.of accept (← u.p.compare v.p cmp)
  first.andThen (Comparison.of accept <$> u.h.compare v.h cmp)

def compare (accept : Bool) (u v : Universe) : Cmp → Checked Comparison
  | .ge => compareUp accept v u .le
  | cmp => compareUp accept u v cmp

/-- The comparison with every demand refused. -/
def holds (u v : Universe) (cmp : Cmp) : Checked Bool := do
  return (← compare false u v cmp).holds

def text (u : Universe) : Checked String :=
  if u.isProp then .ok "\\Prop" else
  match u.p, u.h with
  | .const p, .const 0 => .ok ("\\Set" ++ toString p)
  | p, .infinity => return "\\oo-Type (" ++ (← p.text) ++ ")"
  | p, h => return "\\Type (" ++ (← p.text) ++ ") (" ++ (← h.text) ++ ")"

end Universe

end PathTheory
