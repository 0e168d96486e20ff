import PathTheory.Level.Basic
/-!
The order of levels. A comparison is decided on the spot when no variable of inference takes
part; otherwise it comes down to one demand on such variables, which the caller may accept
and record, or refuse.
-/
namespace PathTheory

/-- A comparison that only a choice of the inferred levels can settle. -/
structure Demand where
  left : Level
  right : Level
  cmp : Cmp
deriving DecidableEq, Repr, Inhabited

def Demand.text (d : Demand) : Checked String :=
  return (← d.left.text) ++ " " ++ d.cmp.text ++ " " ++ (← d.right.text)

inductive Verdict where
  | decided (holds : Bool)
  | demanded (d : Demand)
deriving DecidableEq, Repr

namespace Level

/-- Two lines of slope zero or one compare everywhere if they do at the floor and the left one does
    not end up above: its offset is no greater. -/
def closedLe (a b : Level) : Checked Bool :=
  match a.var?, b.var? with
  | some _, none => .ok false
  | x, y =>
      if x.isSome && y.isSome && x != y then .ok false else do
        let floor := ((x <|> y).map LevelVar.floor).getD 0
        let slope := match x, a.constant?, b.constant? with
          | some _, some c, some d => decide (c ≤ d)
          | _, _, _ => true
        let least ← match ← a.valueAt floor, ← b.valueAt floor with
          | some u, some v => pure (decide (u ≤ v))
          | _, _ => pure false
        return slope && least

def compareLe (a b : Level) : Checked Verdict :=
  if a = b then .ok (.decided true) else
  match a, b with
  | _, infinity => .ok (.decided true)
  | infinity, b =>
      .ok (if b.hasInference then .demanded ⟨infinity, b, .le⟩ else .decided false)
  | a, b =>
      if a.hasInference || b.hasInference then .ok (.demanded ⟨a, b, .le⟩)
      else .decided <$> closedLe a b

def compare (a b : Level) : Cmp → Checked Verdict
  | .le => compareLe a b
  | .ge => compareLe b a
  | .eq =>
      if a = b then .ok (.decided true)
      else if a.hasInference || b.hasInference then .ok (.demanded ⟨a, b, .eq⟩)
      else do
        match ← compareLe a b with
        | .decided true => compareLe b a
        | verdict => return verdict

/-- The comparison with every demand refused. -/
def holds (a b : Level) (cmp : Cmp) : Checked Bool := do
  match ← compare a b cmp with
  | .decided answer => return answer
  | .demanded _ => return false

end Level

end PathTheory
