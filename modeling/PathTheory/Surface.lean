import PathTheory.Environment
/-!
Expressions and declarations as the user means them, with names resolved: local names are
variables, global ones are definitions that the environment has a place for.
-/
namespace PathTheory.Surface

/-- Patterns as they are written. A number stands for that many successors of zero. -/
inductive Pat where
  | var (x : Var)
  | con (span : Span) (c : DefId) (args : List Pat)
  | tuple (span : Span) (args : List Pat)
  | absurd (span : Span)
  | number (span : Span) (n : Nat)

/-- A variable has no place of its own. -/
def Pat.withSpan (s : Span) : Pat → Pat
  | var x => var x
  | con _ c args => con s c args
  | tuple _ args => tuple s args
  | absurd _ => absurd s
  | number _ n => number s n

structure ClauseOf (ε : Type) where
  span : Span
  patterns : List Pat
  -- absent for a clause with an absurd pattern
  body : Option ε

/-- A scrutinee, with a name and a type for the result to depend on. -/
structure ScrutineeOf (ε : Type) where
  value : ε
  name : Option Var
  type : Option ε

inductive Expr where
  | var (span : Span) (x : Var)
  | const (span : Span) (d : DefId)
  | app (span : Span) (head : Expr) (args : List (Mode × Expr))
  -- without a type the domain of a binder is inferred
  | lam (span : Span) (params : List (Binding (Option Expr))) (body : Expr)
  | pi (span : Span) (params : List (Binding Expr)) (codomain : Expr)
  | sigma (span : Span) (params : List (Binding Expr))
  | tuple (span : Span) (components : List Expr)
  | proj (span : Span) (whole : Expr) (index : Nat)
  -- without a sort the universe of the definition in a signature, and any universe elsewhere
  | univ (span : Span) (sort : Option Universe)
  | hole (span : Span)
  | number (span : Span) (n : Nat)
  | caseOf (span : Span) (args : List (ScrutineeOf Expr)) (result : Option Expr)
      (clauses : List (ClauseOf Expr))
  | record (span : Span) (c : DefId) (fields : List (DefId × Expr))
  | new (span : Span) (c : DefId) (fields : List (DefId × Expr))

abbrev Clause := ClauseOf Expr

abbrev Scrutinee := ScrutineeOf Expr

namespace Expr

def span : Expr → Span
  | var s _ | const s _ | app s _ _ | lam s _ _ | pi s _ _ | sigma s _ | tuple s _ | proj s _ _
  | univ s _ | hole s | number s _ | caseOf s _ _ _ | record s _ _ | new s _ _ => s

def withSpan (s : Span) : Expr → Expr
  | var _ x => var s x
  | const _ d => const s d
  | app _ head args => app s head args
  | lam _ params body => lam s params body
  | pi _ params codomain => pi s params codomain
  | sigma _ params => sigma s params
  | tuple _ components => tuple s components
  | proj _ whole index => proj s whole index
  | univ _ sort => univ s sort
  | hole _ => hole s
  | number _ n => number s n
  | caseOf _ args result clauses => caseOf s args result clauses
  | record _ c fields => record s c fields
  | new _ c fields => new s c fields

/-- An application reaches from its head to its last argument. -/
def apply (head : Expr) (args : List (Mode × Expr)) : Expr :=
  let span := match args.getLast? with
    | some (_, last) => ⟨head.span.first, last.span.last⟩
    | none => head.span
  app span head args

/-- A function type that does not depend on its argument, which still has a name. -/
def arrow (domain codomain : Expr) (x : Var) : Expr :=
  pi ⟨domain.span.first, codomain.span.last⟩ [⟨.explicit, x, domain⟩] codomain

end Expr

inductive BodyExpr where
  | term (e : Expr)
  -- without a list of parameters to eliminate every explicit one is matched
  | clauses (eliminated : Option (List Var)) (clauses : List Clause)
  | abstract

structure FunctionDecl where
  span : Span
  id : DefId
  params : List (Binding Expr)
  result : Option Expr
  body : BodyExpr

structure ConstructorDecl where
  span : Span
  id : DefId
  params : List (Binding Expr)

structure DataDecl where
  span : Span
  id : DefId
  params : List (Binding Expr)
  sort : Option Universe
  truncated : Bool
  constructors : List ConstructorDecl

structure FieldDecl where
  id : DefId
  type : Expr

/-- Types of fields may mention earlier fields of the instance. -/
structure ClassDecl where
  span : Span
  id : DefId
  this : Var
  fields : List FieldDecl
  classifying : Option DefId
  sort : Option Universe

inductive Declaration where
  | function (d : FunctionDecl)
  | data (d : DataDecl)
  | cls (d : ClassDecl)
  -- a function without parameters whose result is a record type
  | inst (f : DefId)

def Declaration.id : Declaration → DefId
  | function d => d.id
  | data d => d.id
  | cls d => d.id
  | inst f => f

end PathTheory.Surface
