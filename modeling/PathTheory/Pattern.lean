import PathTheory.Term.Basic
/-!
Patterns of a clause: a variable, a constructor or a tuple with patterns for its components, or
the absurd pattern, which claims that the type has no value.
-/
namespace PathTheory

inductive Pattern where
  | binding (x : Var)
  | shaped (shape : Shape) (args : List Pattern)
  | absurd
deriving Repr, Inhabited

namespace Pattern

def ofCon (c : DefId) (args : List Pattern) : Pattern := shaped (.con c) args

def ofTuple (args : List Pattern) : Pattern := shaped (.tuple args.length) args

def isBinding : Pattern → Bool
  | binding _ => true
  | _ => false

def constructor? : Pattern → Option DefId
  | shaped (.con c) _ => some c
  | _ => none

mutual

/-- Variables from left to right. -/
def vars : Pattern → List Var
  | binding x => [x]
  | shaped _ args => rowVars args
  | absurd => []

def rowVars : List Pattern → List Var
  | [] => []
  | p :: rest => p.vars ++ rowVars rest

end

mutual

/-- How many constructors and tuples a pattern takes apart. -/
def splits : Pattern → Nat
  | binding _ => 0
  | shaped _ args => rowSplits args + 1
  | absurd => 0

def rowSplits : List Pattern → Nat
  | [] => 0
  | p :: rest => p.splits + rowSplits rest

end

def isAtomic : Pattern → Bool
  | binding _ | absurd => true
  | shaped (.tuple _) _ => true
  | shaped (.con _) args => args.isEmpty

mutual

def text : Pattern → String
  | binding x => x.name
  | absurd => "()"
  | shaped (.tuple _) args => "(" ++ ", ".intercalate (texts args) ++ ")"
  | shaped (.con c) args => c.name ++ argumentsText args

def texts : List Pattern → List String
  | [] => []
  | p :: rest => p.text :: texts rest

def argumentsText : List Pattern → String
  | [] => ""
  | p :: rest =>
      (if p.isAtomic then " " ++ p.text else " (" ++ p.text ++ ")") ++ argumentsText rest

end

/-- A row the way a clause is written, with a comma between columns. -/
def rowText (row : List Pattern) : String := ", ".intercalate (row.map text)

end Pattern

end PathTheory
