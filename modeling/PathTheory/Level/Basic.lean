import PathTheory.Fault
import PathTheory.Name
/-!
Levels of universes. A level is a constant, infinity, or max(x + offset, cap) over one
variable x. The cap is kept only when it can matter, that is when it is above the value the
rest has at the least value of x, so equal levels are written in one way.
-/
namespace PathTheory

inductive LevelKind where
  | predicative
  | homotopy
deriving DecidableEq, Repr, Inhabited

inductive LevelVar where
  -- a level parameter of the definition at hand
  | param (kind : LevelKind)
  -- a level that inference has to find
  | infer (id : Nat) (kind : LevelKind)
deriving DecidableEq, Repr, Inhabited

namespace LevelVar

def kind : LevelVar → LevelKind
  | param k => k
  | infer _ k => k

def isInference : LevelVar → Bool
  | param _ => false
  | infer _ _ => true

/-- Inferred homotopy levels may go down to the propositions; a level parameter starts at
    the sets. -/
def floor : LevelVar → Int
  | infer _ .homotopy => -1
  | _ => 0

def text : LevelVar → String
  | param .predicative => "\\lp"
  | param .homotopy => "\\lh"
  | infer id .predicative => "?p" ++ toString id
  | infer id .homotopy => "?h" ++ toString id

/-- Parameters come first, then inferred variables by number; predicative before homotopy. -/
def key : LevelVar → Nat × Nat × Nat
  | param .predicative => (0, 0, 0)
  | param .homotopy => (0, 0, 1)
  | infer id .predicative => (1, id, 0)
  | infer id .homotopy => (1, id, 1)

def before (x y : LevelVar) : Bool :=
  let (a, b, c) := x.key
  let (a', b', c') := y.key
  a < a' || a == a' && (b < b' || b == b' && c < c')

/-- Sorted insertion; an element that is there already is not added again. -/
def insertOrdered (x : LevelVar) : List LevelVar → List LevelVar
  | [] => [x]
  | y :: rest =>
      if x == y then y :: rest
      else if x.before y then x :: y :: rest
      else y :: insertOrdered x rest

def ordered (xs : List LevelVar) : List LevelVar := xs.foldr insertOrdered []

end LevelVar

inductive Level where
  | const (c : Int)
  | shift (x : LevelVar) (offset : Int) (cap : Option Int)
  | infinity
deriving DecidableEq, Repr, Inhabited

namespace Level

/-- max(x + offset, cap), with a cap that never matters left out. -/
def make (x : LevelVar) (offset : Int) : Option Int → Checked Level
  | none => .ok (shift x offset none)
  | some m => do
      let least ← Bounded.add x.floor offset
      return shift x offset (if m > least then some m else none)

def ofVar (x : LevelVar) : Level := shift x 0 none

def prop : Level := const (-1)

def isInfinity : Level → Bool
  | infinity => true
  | _ => false

def isClosed : Level → Bool
  | const _ => true
  | _ => false

def isProp : Level → Bool
  | const c => c == -1
  | _ => false

def var? : Level → Option LevelVar
  | shift x _ _ => some x
  | _ => none

def constant? : Level → Option Int
  | const c => some c
  | shift _ c _ => some c
  | infinity => none

def cap? : Level → Option Int
  | shift _ _ m => m
  | _ => none

def hasInference : Level → Bool
  | shift x _ _ => x.isInference
  | _ => false

def add : Level → Int → Checked Level
  | const c, n => return const (← Bounded.add c n)
  | shift x c none, n => do make x (← Bounded.add c n) none
  | shift x c (some m), n => do
      let c ← Bounded.add c n
      make x c (some (← Bounded.add m n))
  | infinity, _ => .ok infinity

def succ (a : Level) : Checked Level := a.add 1

/-- The greater of two caps; no cap is below every cap. -/
def maxCap : Option Int → Option Int → Option Int
  | some a, some b => some (max a b)
  | some a, none => some a
  | none, b => b

/-- The value at x, which is the value of the level's variable if it has one. -/
def valueAt (x : Int) : Level → Checked (Option Int)
  | const c => .ok (some c)
  | shift _ c none => return some (← Bounded.add x c)
  | shift _ c (some m) => return some (max m (← Bounded.add x c))
  | infinity => .ok none

/-- The least upper bound, if one variable is enough to write it. -/
def max? : Level → Level → Checked (Option Level)
  | infinity, _ => .ok (some infinity)
  | _, infinity => .ok (some infinity)
  | const a, const b => .ok (some (const (max a b)))
  | shift x c m, const k => return some (← make x c (maxCap m (some k)))
  | const k, shift x c m => return some (← make x c (maxCap m (some k)))
  | shift x c m, shift y d n =>
      if x = y then return some (← make x (max c d) (maxCap m n)) else .ok none

/-- The level with its variable replaced; an offset moves the cap of the replacement along. -/
def subst (f : LevelVar → Option Level) : Level → Checked Level
  | shift x c m => match f x with
    | none => .ok (shift x c m)
    | some infinity => .ok infinity
    | some (const d) => do
        let value ← Bounded.add d c
        return const (match m with | some m => max m value | none => value)
    | some (shift y d n) => do
        let shifted ← match n with
          | some n => some <$> Bounded.add n c
          | none => pure none
        make y (← Bounded.add d c) (maxCap shifted m)
  | a => .ok a

def text : Level → Checked String
  | infinity => .ok "\\oo"
  | const c => .ok (toString c)
  | shift x c m => do
      let base ←
        if c = 0 then pure x.text
        else if c > 0 then pure (x.text ++ " + " ++ toString c)
        else do
          let minus ← Bounded.neg c
          pure (x.text ++ " - " ++ toString minus)
      return match m with
        | some m => "max(" ++ base ++ ", " ++ toString m ++ ")"
        | none => base

end Level

end PathTheory
