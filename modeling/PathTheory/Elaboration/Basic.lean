import PathTheory.Surface
import PathTheory.Matching
import PathTheory.Equation.Solution
/-!
What elaboration keeps track of beside the equation store: whether it is in a signature, which
class it is in, and the diagnostics reported so far. Contexts of local variables are lists, the
latest variable first.
-/
namespace PathTheory

structure ElaborationState where
  -- in a signature a universe without a sort is the one of the definition
  inSignature : Bool
  -- the class whose fields are at hand
  currentClass : Option DefId
  -- in order
  reported : Array Diagnostic

def ElaborationState.start : ElaborationState := ⟨false, none, #[]⟩

abbrev Elaborate := ReaderT Config (StateT ElaborationState Unify)

namespace Elaborate

def reading {α : Type} (f : Environment → Fresh α) : Elaborate α := do Unify.reading f

def env : Elaborate Environment := do Unify.env

def setDefinition (id : DefId) (d : Definition) : Elaborate Unit := do
  let env ← env
  set (env.set id d)

def whnf (t : Term) : Elaborate Term := reading t.whnf

def subst (s : Subst) (t : Term) : Elaborate Term := reading (s.apply · t)

def report (d : Diagnostic) : Elaborate Unit :=
  modify fun st => { st with reported := st.reported.push d }

def errorCount : Elaborate Nat := return Diagnostic.errorCount (← get).reported.toList

/-- The term that stands where something went wrong. -/
def fail (d : Diagnostic) : Elaborate Term := do
  report d
  return .error d.problem.text none

def failBoth (d : Diagnostic) : Elaborate (Term × Term) := do
  let t ← fail d
  return (t, t)

def mismatch (span : Span) (expected actual : Term) : Elaborate Diagnostic := do
  let expected ← reading (expected.zonk · [])
  let actual ← reading (actual.zonk · [])
  Diagnostic.mismatch span expected actual

/-- A note that stands in for a term in a report. -/
def note (message : String) : Term := .error message none

def compare (left right : Term) (cmp : Cmp) (span : Span) : Elaborate Bool := do
  Unify.compare left right cmp span

/-- The local context with a further variable, which the store learns about too. -/
def bind (Γ : Context) (x : Var) (type : Term) : Elaborate Context := do
  Unify.bind x type
  return (x, type) :: Γ

def freshMeta (Γ : Context) (name : String) (type : Term) (span : Span) : Elaborate Term := do
  Unify.freshMeta name type (Γ.map (·.1)) .expression span

def freshUniverse : Elaborate Universe := do Unify.freshUniverse

def unknownType (Γ : Context) (span : Span) : Elaborate Term := do
  freshMeta Γ "T" (.univ (← freshUniverse)) span

/-- An implicit argument; one of a class that has a classifying field is left to instance search. -/
def implicitValue (Γ : Context) (x : Var) (type : Term) (span : Span) : Elaborate Term := do
  let env ← env
  let kind := match ← whnf type with
    | .record c _ _ =>
        if ((env.cls? c).bind ClassDef.classifying).isSome then .instanceOf c else .expression
    | _ => MetaKind.expression
  Unify.freshMeta x.name type (Γ.map (·.1)) kind span

def demandBelow (span : Span) (u v : Universe) : Elaborate Bool := do
  Unify.compareUniverses u v .le span

def universeFor (sort : Option Universe) : Elaborate Universe := do
  match sort with
  | some u => return u
  | none => if (← get).inSignature then return .std else freshUniverse

def directMax : Universe → List Universe → Checked (Option Universe)
  | u, [] => .ok (some u)
  | u, v :: rest => do
      match ← u.max? v with
      | some w => directMax w rest
      | none => return none

/-- The least universe above all, through a fresh one if the maximum needs two variables. -/
def sortAbove (us : List Universe) (span : Span) : Elaborate Universe := do
  match ← directMax .prop us with
  | some u => return u
  | none => do
      let fresh ← freshUniverse
      Unify.recordDemands span []
      for u in us do
        let _ ← demandBelow span u fresh
      return fresh

def sortOfPi (domain codomain : Universe) (span : Span) : Elaborate Universe := do
  match ← Universe.ofPi? domain codomain with
  | some u => return u
  | none => sortAbove [← Universe.make domain.p codomain.h, codomain] span

/-- The universe of a type over the variables known to the store. -/
def sortOf (type : Term) : Elaborate (Option Universe) := do
  let Γ := (← (get : Unify Store)).context
  reading fun env => (type.sortOf? env Γ).run

def isIntervalType (type : Term) : Elaborate Bool := do
  let env ← env
  match ← whnf type with
  | .data d _ _ => return (env.data? d).any DataDef.interval
  | _ => return false

/-- Settles the store and reports what it has noted. -/
def finish : Elaborate LevelSolution := do
  let solution ← Unify.settle
  for d in ← Unify.takeDiagnostics do
    report d
  return solution

def compile (span : Span) (params : Telescope) (clauses : List Matching.Clause)
    (sort : Option Universe) (inCase : Bool) : Elaborate (Option CaseTree) := do
  let setting : Matching.Setting := ⟨← env, ← read, true, inCase, sort⟩
  let outcome ← (Matching.compile setting span params clauses : Fresh Matching.Outcome)
  let levels := (← (get : Unify Store)).levels
  (modify fun s => { s with levels := levels.recordAll outcome.demands } : Unify Unit)
  for d in outcome.diagnostics do
    report d
  return outcome.tree

end Elaborate

end PathTheory
