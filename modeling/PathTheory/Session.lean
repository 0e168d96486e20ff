import PathTheory.Elaboration.Declaration
/-!
Sessions: an environment that begins with the library, into which declarations are elaborated
one at a time, and in which expressions are evaluated. Names are reserved before declarations
mention them. What is reported is kept with the session.
-/
namespace PathTheory

open Surface (Expr Declaration)

structure Session where
  env : Environment
  nextVar : Nat
  config : Config
  -- everything reported so far, in order
  diagnostics : List Diagnostic

namespace Session

/-- More than any computation that comes to an end in practice is nested. -/
def ampleFuel : Nat := 1000000000

def start (config : Config) (fuel : Nat) : Session :=
  ⟨Library.environment fuel, Library.firstFresh, config, []⟩

/-- Elaborates with a store of its own. -/
def elaborate {α : Type} (e : Elaborate α) : StateT Session Checked α := do
  let s ← get
  let ((((a, state), _), env), nextVar) ← (e s.config).run .start |>.run .empty |>.run s.env
    |>.run s.nextVar
  set { s with env, nextVar, diagnostics := s.diagnostics ++ state.reported.toList }
  return a

def add (s : Session) (name : String) (d : Definition) : DefId × Session :=
  let (id, env) := s.env.add name d
  (id, { s with env })

def addAll (d : Definition) : Session → List String → List DefId × Session
  | s, [] => ([], s)
  | s, name :: rest =>
      let (id, s) := s.add name d
      let (ids, s) := addAll d s rest
      (id :: ids, s)

def replace (s : Session) (id : DefId) (d : Definition) : Session := { s with env := s.env.set id d }

/-- Stands for a type that is not known yet. -/
def declared : Term := .error "declared" none

def reserveFunction (s : Session) (name : String) : DefId × Session :=
  s.add name (.function ⟨[], declared, none, false, .inProgress⟩)

def reserveData (s : Session) (name : String) (constructors : List String) :
    DefId × List DefId × Session :=
  let header (constructors : List DefId) := Definition.data ⟨[], .set0, constructors, false, false⟩
  let (data, s) := s.add name (header [])
  let (ids, s) := s.addAll (.constructor ⟨data, [], 0⟩) constructors
  (data, ids, s.replace data (header ids))

def reserveClass (s : Session) (name : String) (fields : List String) :
    DefId × List DefId × Session :=
  let header (fields : List DefId) := Definition.cls ⟨fields, none, .set0⟩
  let (ofClass, s) := s.add name (header [])
  let this : Var := ⟨s.nextVar, "this"⟩
  let s := { s with nextVar := s.nextVar + 1 }
  let (ids, s) := s.addAll (.field ⟨ofClass, this, declared⟩) fields
  (ofClass, ids, s.replace ofClass (header ids))

def declare (d : Declaration) : StateT Session Checked (Except Failure DefId) :=
  elaborate d.elaborate

/-- Declarations in order up to the first one that fails, which is told. -/
def load : List Declaration → StateT Session Checked (Except (DefId × Failure) Unit)
  | [] => return .ok ()
  | d :: rest => do
      match ← declare d with
      | .ok _ => load rest
      | .error failure => return .error (d.id, failure)

/-- The normal form of an expression. -/
def evaluate (e : Expr) : StateT Session Checked (Except Failure Term) := do
  match ← elaborate (e.elaborate none) with
  | .error failure => return .error failure
  | .ok (term, _) => do
      let s ← get
      let (value, nextVar) ← term.nf s.env s.nextVar
      set { s with nextVar }
      return .ok value

end Session

end PathTheory
