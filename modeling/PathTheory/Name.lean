/-!
Names of things: bound variables, definitions and metavariables, with the modes of binders and
the directions of a comparison. Identity is the number; the text beside it is only for display.
-/
namespace PathTheory

/-- Source offsets (start, end) of the text a term or clause came from. -/
structure Span where
  first : Nat
  last : Nat
deriving DecidableEq, Repr, Inhabited

def Span.none : Span := ⟨0, 0⟩

structure Var where
  id : Nat
  name : String
deriving DecidableEq, Repr, Inhabited

structure DefId where
  index : Nat
  name : String
deriving DecidableEq, Repr, Inhabited

structure MetaId where
  index : Nat
deriving DecidableEq, Repr, Inhabited

def MetaId.text (m : MetaId) : String := "?" ++ toString m.index

inductive Mode where
  | explicit
  | implicit
deriving DecidableEq, Repr, Inhabited

def Mode.text : Mode → String
  | .explicit => "Explicit"
  | .implicit => "Implicit"

/-- The relation a comparison asks for; le reads "left is a subtype of right". -/
inductive Cmp where
  | le
  | eq
  | ge
deriving DecidableEq, Repr, Inhabited

def Cmp.flip : Cmp → Cmp
  | .le => .ge
  | .eq => .eq
  | .ge => .le

def Cmp.text : Cmp → String
  | .le => "<="
  | .eq => "=="
  | .ge => ">="

theorem Cmp.flip_flip (c : Cmp) : c.flip.flip = c := by cases c <;> rfl

end PathTheory
