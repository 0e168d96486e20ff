import PathTheory.Level.Order
/-!
Solving level constraints. Each constraint asks that one level is at most another one, with an
inferred variable in at least one of them. The solution is found from below: every variable
starts at its floor and is raised as far as the constraints demand, first by multiples of the
level parameters, then by constants. Constraints that go on raising each other form a cycle.
-/
namespace PathTheory

structure LevelConstraint where
  left : Level
  right : Level
  span : Span
deriving DecidableEq, Repr, Inhabited

namespace LevelConstraint

def vars (c : LevelConstraint) : List LevelVar := c.left.var?.toList ++ c.right.var?.toList

def inferred (c : LevelConstraint) : List LevelVar := c.vars.filter LevelVar.isInference

/-- Homotopy and predicative levels are solved apart; the first inferred variable decides. -/
def kind? (c : LevelConstraint) : Option LevelKind := c.inferred.head?.map LevelVar.kind

def text (c : LevelConstraint) : Checked String :=
  return (← c.left.text) ++ " <= " ++ (← c.right.text)

def chainText (chain : List LevelConstraint) : Checked String :=
  return ", ".intercalate (← chain.mapM text)

end LevelConstraint

inductive LevelError where
  | unsolved (c : LevelConstraint)
  -- constraints that keep raising each other, in the order in which they do
  | cycle (chain : List LevelConstraint)

structure LevelSolution where
  -- in the order of the variables, each one once
  values : List (LevelVar × Level)
deriving DecidableEq

namespace LevelSolution

def empty : LevelSolution := ⟨[]⟩

def get? (s : LevelSolution) (x : LevelVar) : Option Level := s.values.lookup x

def level (s : LevelSolution) (a : Level) : Checked Level := a.subst s.get?

def satisfies (s : LevelSolution) (c : LevelConstraint) : Checked Bool := do
  (← s.level c.left).holds (← s.level c.right) .le

/-- Variables whose value is not the same in both solutions. -/
def changes (s t : LevelSolution) : List LevelVar :=
  LevelVar.ordered ((s.values ++ t.values).map (·.1) |>.filter fun x => s.get? x != t.get? x)

end LevelSolution

/-- The value of a variable while solving: max(parameter + based, free). -/
inductive LevelValue where
  | finite (based : Option Int) (free : Int)
  | infinite
deriving DecidableEq, Repr

def LevelValue.toLevel (kind : LevelKind) : LevelValue → Checked Level
  | infinite => .ok .infinity
  | finite none free => .ok (.const free)
  | finite (some k) free => Level.make (.param kind) k (some free)

inductive SolvePhase where
  | based
  | free
deriving DecidableEq

/-- A finite value raised to what is demanded; no demand at all stands for infinity. -/
def LevelValue.raised (phase : SolvePhase) (based : Option Int) (free : Int) :
    Option (Option Int × Option Int) → LevelValue
  | none => .infinite
  | some (needBased, needFree) => match phase with
      | .based => .finite (Level.maxCap based needBased) free
      | .free => .finite based (match needFree with | some n => max free n | none => free)

structure LevelProgress where
  values : List (LevelVar × LevelValue)
  -- the constraint that raised a variable last
  reasons : List (LevelVar × LevelConstraint)

namespace LevelConstraint

/-- A lower bound matters only above the cap of the right side. -/
def overCap (cap : Option Int) (n : Int) : Bool :=
  match cap with
  | some c => n > c
  | none => true

/-- What a cap on the left demands as a constant. -/
def capDemand (m cap : Option Int) (offset : Int) : Checked (Option Int) :=
  match m.filter (overCap cap) with
  | some m => some <$> Bounded.sub m offset
  | none => return none

/-- What the offset of a variable on the left demands as an offset. -/
def basedDemand (based : Option Int) (c offset : Int) : Checked (Option Int) :=
  match based with
  | some b => do return some (← Bounded.sub (← Bounded.add b c) offset)
  | none => return none

/-- What the left side demands of the variable on the right, as an offset from the parameter and as
    a constant; none if it demands infinity. -/
def demand (left : Level) (offset : Int) (cap : Option Int)
    (values : List (LevelVar × LevelValue)) : Checked (Option (Option Int × Option Int)) :=
  match left with
  | .infinity => .ok none
  | .const c => do
      if overCap cap c then return some (none, some (← Bounded.sub c offset))
      return some (none, none)
  | .shift x c m => do
      let capped ← capDemand m cap offset
      match x with
      | .param _ => return some (some (← Bounded.sub c offset), capped)
      | .infer _ _ => match values.lookup x with
        | none => return some (none, capped)
        | some .infinite => return none
        | some (.finite based free) => do
            let based ← basedDemand based c offset
            let value ← Bounded.add free c
            if overCap cap value then
              return some (based, Level.maxCap capped (some (← Bounded.sub value offset)))
            return some (based, capped)

/-- The variable on the right with its new value, if the constraint raises it. -/
def relax (c : LevelConstraint) (phase : SolvePhase) (values : List (LevelVar × LevelValue)) :
    Checked (Option (LevelVar × LevelValue)) :=
  match c.right with
  | .shift target offset cap =>
      if !target.isInference then .ok none else
      match values.lookup target with
      | none | some .infinite => .ok none
      | some (.finite based free) => do
          let value := LevelValue.raised phase based free (← demand c.left offset cap values)
          return if value = .finite based free then none else some (target, value)
  | _ => .ok none

end LevelConstraint

def replaceValue (x : LevelVar) (value : LevelValue) :
    List (LevelVar × LevelValue) → List (LevelVar × LevelValue)
  | [] => []
  | (y, old) :: rest =>
      if x = y then (y, value) :: rest else (y, old) :: replaceValue x value rest

/-- Every constraint once, in order; also says which variables were raised. -/
def relaxAll (phase : SolvePhase) : List LevelConstraint → LevelProgress →
    Checked (LevelProgress × List LevelVar)
  | [], progress => .ok (progress, [])
  | c :: rest, progress => do
      match ← c.relax phase progress.values with
      | none => relaxAll phase rest progress
      | some (x, value) => do
          let (progress, raised) ← relaxAll phase rest
            ⟨replaceValue x value progress.values, (x, c) :: progress.reasons⟩
          return (progress, x :: raised)

/-- Rounds until nothing changes. If the last round still raises something, the variable that it
    raises first is given. -/
def settle (phase : SolvePhase) (constraints : List LevelConstraint) : Nat → LevelProgress →
    Checked (LevelProgress × Option LevelVar)
  | 0, progress => .ok (progress, none)
  | rounds + 1, progress => do
      match ← relaxAll phase constraints progress with
      | (progress, []) => return (progress, none)
      | (progress, x :: _) =>
          if rounds = 0 then return (progress, some x) else settle phase constraints rounds progress

/-- Follows the constraints that raised a variable last back from it. The fuel is more than the
    number of variables, and none is met twice. -/
def raisingChain (reasons : List (LevelVar × LevelConstraint)) : Nat → List LevelVar →
    LevelVar → List LevelConstraint → List LevelConstraint
  | 0, _, _, chain => chain
  | fuel + 1, seen, x, chain =>
      if seen.contains x then chain else
      match reasons.lookup x with
      | none => chain
      | some c => match c.left.var? with
        | some y =>
            if y.isInference then raisingChain reasons fuel (x :: seen) y (c :: chain)
            else c :: chain
        | none => c :: chain

structure LevelEquations where
  constraints : Array LevelConstraint
  -- where the next constraint comes from
  span : Span

namespace LevelEquations

def empty : LevelEquations := ⟨#[], .none⟩

def push (e : LevelEquations) (left right : Level) : LevelEquations :=
  { e with constraints := e.constraints.push ⟨left, right, e.span⟩ }

/-- An equation is recorded as two constraints. -/
def record (e : LevelEquations) (d : Demand) : LevelEquations :=
  match d.cmp with
  | .le => e.push d.left d.right
  | .ge => e.push d.right d.left
  | .eq => (e.push d.left d.right).push d.right d.left

def recordAll (e : LevelEquations) (ds : List Demand) : LevelEquations := ds.foldl record e

def initialValues (constraints : List LevelConstraint) : List (LevelVar × LevelValue) :=
  (LevelVar.ordered (constraints.flatMap LevelConstraint.inferred)).map fun x =>
    (x, .finite none x.floor)

abbrev Solving := ExceptT LevelError Checked

def settlePhase (phase : SolvePhase) (constraints : List LevelConstraint)
    (progress : LevelProgress) : Solving LevelProgress := do
  let unknowns := progress.values.length
  match ← settle phase constraints (unknowns + 2) progress with
  | (progress, none) => return progress
  | (progress, some x) =>
      throw (.cycle (raisingChain progress.reasons (unknowns + 1) [] x []))

def solveKind (e : LevelEquations) (kind : LevelKind) :
    Solving (List (LevelVar × LevelValue)) := do
  let constraints := e.constraints.toList.filter (·.kind? == some kind)
  let start : LevelProgress := ⟨initialValues constraints, []⟩
  let based ← settlePhase .based constraints start
  let ⟨values, _⟩ ← settlePhase .free constraints based
  if kind == .predicative then
    let infinite (c : LevelConstraint) := c.vars.any fun x => values.lookup x == some .infinite
    if let some c := constraints.find? infinite then throw (.unsolved c)
  return values

def firstUnsatisfied (s : LevelSolution) : List LevelConstraint → Checked (Option LevelConstraint)
  | [] => .ok none
  | c :: rest => do
      if ← s.satisfies c then firstUnsatisfied s rest else return some c

/-- What the solution says of a variable. -/
def entry (all : List (LevelVar × LevelValue)) (x : LevelVar) :
    Solving (Option (LevelVar × Level)) :=
  match all.lookup x with
  | some value => return some (x, ← (value.toLevel x.kind : Checked Level))
  | none => return none

/-- The least solution of all constraints recorded so far. -/
def solve (e : LevelEquations) : Solving LevelSolution := do
  let homotopy ← e.solveKind .homotopy
  let predicative ← e.solveKind .predicative
  let all := predicative ++ homotopy
  let unknowns := LevelVar.ordered (all.map (·.1))
  let values ← unknowns.filterMapM (entry all)
  let solution : LevelSolution := ⟨values⟩
  match ← firstUnsatisfied solution e.constraints.toList with
  | some c => throw (.unsolved c)
  | none => return solution

end LevelEquations

end PathTheory
