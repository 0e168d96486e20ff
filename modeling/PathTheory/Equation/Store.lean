import PathTheory.Typing
import PathTheory.Diagnostic
import PathTheory.Level.Solver
/-!
The equation store: what unification still owes. An equation that a metavariable blocks waits
until that metavariable is solved; class types bound a metavariable from below or from above;
constraints on levels are kept until the end. What went wrong on the way is noted.
-/
namespace PathTheory

structure Equation where
  left : Term
  right : Term
  cmp : Cmp
  span : Span

/-- A record type on one side of a metavariable. -/
structure RecordBound where
  hole : MetaId
  record : Term
  span : Span

structure Store where
  -- by number; an equation leaves its place when it is taken up again
  equations : Array (Option Equation)
  -- which equations wait for which metavariables
  listeners : List (MetaId × Nat)
  -- numbers of equations to take up again, in order, each one once
  worklist : List Nat
  replaying : Bool
  -- metavariables that have to become the universe of propositions or an element of it
  props : Array (MetaId × Span)
  lowerBounds : Array RecordBound
  upperBounds : Array RecordBound
  levels : LevelEquations
  -- metavariables made through the store
  metas : Array MetaId
  -- types of the variables met under binders
  context : Context
  diagnostics : Array Diagnostic

def Store.empty : Store := ⟨#[], [], [], false, #[], #[], #[], .empty, #[], [], #[]⟩

/-- Computations on the store, the environment and fresh variables. -/
abbrev Unify := StateT Store (StateT Environment Fresh)

namespace Unify

def env : Unify Environment := getThe Environment

/-- A computation that only reads the environment. -/
def reading {α : Type} (f : Environment → Fresh α) : Unify α := do f (← env)

def report (d : Diagnostic) : Unify Unit :=
  modify fun s => { s with diagnostics := s.diagnostics.push d }

def reportMismatch (span : Span) (expected actual : Term) : Unify Unit := do
  report (← Diagnostic.mismatch span expected actual)

/-- The diagnostics noted so far, which are forgotten by the store. -/
def takeDiagnostics : Unify (List Diagnostic) := do
  let s ← get
  set { s with diagnostics := #[] }
  return s.diagnostics.toList

def bind (x : Var) (type : Term) : Unify Unit :=
  modify fun s => { s with context := (x, type) :: s.context }

def freshUniverse : Unify Universe := do
  let (u, env) := (← env).freshUniverse
  set env
  return u

def freshMeta (name : String) (type : Term) (scope : List Var) (kind : MetaKind) (span : Span) :
    Unify Term := do
  let (m, env) := (← env).freshMeta name type scope kind span
  set env
  modify fun s => { s with metas := s.metas.push m }
  return .hole m

def recordDemands (span : Span) (ds : List Demand) : Unify Unit :=
  modify fun s => { s with levels := ({ s.levels with span } : LevelEquations).recordAll ds }

/-- Compares universes; what inference has to see to is recorded. -/
def compareUniverses (u v : Universe) (cmp : Cmp) (span : Span) : Unify Bool := do
  let c ← Universe.compare true u v cmp
  recordDemands span c.demands
  return c.holds

end Unify

namespace Store

def pending (s : Store) : List Equation := s.equations.toList.filterMap id

def insertNumber (n : Nat) : List Nat → List Nat
  | [] => [n]
  | k :: rest => if n < k then n :: k :: rest else if n = k then k :: rest else k :: insertNumber n rest

/-- Puts the equations that wait for a metavariable on the worklist. -/
def wake (s : Store) (m : MetaId) : Store :=
  let (woken, waiting) := s.listeners.partition (·.1 == m)
  { s with
    listeners := waiting
    worklist := woken.foldl (fun ids (_, id) => insertNumber id ids) s.worklist }

/-- The first equation of the worklist that is still there. -/
def next? (s : Store) : List Nat → Option (Equation × Store)
  | [] => none
  | id :: rest => match s.equations[id]?.join with
    | some e => some (e, { s with
        equations := s.equations.setIfInBounds id none, worklist := rest })
    | none => s.next? rest

def defer (s : Store) (e : Equation) (blockers : List MetaId) : Store :=
  let id := s.equations.size
  { s with
    equations := s.equations.push (some e)
    listeners := s.listeners ++ blockers.map fun m => (m, id) }

def isPropForced (s : Store) (m : MetaId) : Bool := s.props.any (·.1 == m)

end Store

/-- Keeps an equation until one of the metavariables that block it is solved; if none blocks it at
    the head, until one that occurs in it is solved. -/
def Unify.defer (left right : Term) (cmp : Cmp) (span : Span) : Unify Unit := do
  let l ← reading left.stuckMeta
  let r ← reading right.stuckMeta
  let heads := l.toList ++ r.toList
  let env ← env
  let blockers := if heads.isEmpty then env.unsolvedIn left ++ env.unsolvedIn right else heads
  modify fun s => s.defer ⟨left, right, cmp, span⟩ blockers.eraseDups

end PathTheory
