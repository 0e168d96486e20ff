import PathTheory.Definition
import PathTheory.Term.Occurrence
/-!
The environment: definitions in the order they were made, instances, and metavariables with
their solutions. A metavariable is solved at most once. Fresh variables are numbered by a
counter of their own, so that computing with terms can make new names and change nothing else.
-/
namespace PathTheory

/-- Computations that may need fresh variables; the state is the next free number. -/
abbrev Fresh := StateT Nat Checked

def Fresh.var (name : String) : Fresh Var := fun n => .ok (⟨n, name⟩, n + 1)

/-- A variable with the same name and a new identity. -/
def Var.renamed (x : Var) : Fresh Var := Fresh.var x.name

/-- A function type that does not depend on its argument. -/
def Term.arrow (domain codomain : Term) : Fresh Term := do
  return .pi .explicit (← Fresh.var "_") domain codomain

inductive MetaKind where
  | expression
  -- an instance of the class, found through the instance table
  | instanceOf (c : DefId)
deriving DecidableEq

structure MetaEntry where
  name : String
  type : Term
  -- variables that a solution may mention
  scope : List Var
  kind : MetaKind
  solution : Option Term
  span : Span

inductive MetaError where
  | alreadySolved (m : MetaId)
  | unknown (m : MetaId)
deriving DecidableEq

def MetaError.text : MetaError → String
  | .alreadySolved m => m.text ++ " is already solved"
  | .unknown m => m.text ++ " does not exist"

structure Environment where
  definitions : Array Definition
  names : Array String
  -- the latest one first
  instances : List Instance
  metas : Array MetaEntry
  -- number of inferred level variables made so far
  levels : Nat
  -- how deep reduction, comparison and elaboration may be nested before they give up
  fuel : Nat

namespace Environment

def empty (fuel : Nat) : Environment := ⟨#[], #[], [], #[], 0, fuel⟩

def definition? (env : Environment) (d : DefId) : Option Definition := env.definitions[d.index]?

def function? (env : Environment) (d : DefId) : Option FunctionDef :=
  env.definition? d >>= Definition.function?

def data? (env : Environment) (d : DefId) : Option DataDef :=
  env.definition? d >>= Definition.data?

def constructor? (env : Environment) (d : DefId) : Option ConstructorDef :=
  env.definition? d >>= Definition.constructor?

def cls? (env : Environment) (d : DefId) : Option ClassDef :=
  env.definition? d >>= Definition.cls?

def field? (env : Environment) (d : DefId) : Option FieldDef :=
  env.definition? d >>= Definition.field?

def add (env : Environment) (name : String) (d : Definition) : DefId × Environment :=
  (⟨env.definitions.size, name⟩,
    { env with definitions := env.definitions.push d, names := env.names.push name })

def set (env : Environment) (id : DefId) (d : Definition) : Environment :=
  { env with definitions := env.definitions.setIfInBounds id.index d }

/-- The latest definition of that name. -/
def lookup (env : Environment) (name : String) : Option DefId :=
  (env.names.reverse.findIdx? (· == name)).map fun back =>
    ⟨env.names.size - 1 - back, name⟩

def addInstance (env : Environment) (i : Instance) : Environment :=
  { env with instances := i :: env.instances }

/-- The latest instance registered for a class at a data type. -/
def findInstance (env : Environment) (ofClass data : DefId) : Option Instance :=
  env.instances.find? fun i => i.ofClass == ofClass && i.data == data

def meta? (env : Environment) (m : MetaId) : Option MetaEntry := env.metas[m.index]?

def solution? (env : Environment) (m : MetaId) : Option Term :=
  env.meta? m >>= MetaEntry.solution

def freshMeta (env : Environment) (name : String) (type : Term) (scope : List Var)
    (kind : MetaKind) (span : Span) : MetaId × Environment :=
  (⟨env.metas.size⟩, { env with metas := env.metas.push ⟨name, type, scope, kind, none, span⟩ })

def solve (env : Environment) (m : MetaId) (value : Term) : Except MetaError Environment :=
  match env.meta? m with
  | none => .error (.unknown m)
  | some entry => match entry.solution with
    | some _ => .error (.alreadySolved m)
    | none => .ok { env with
        metas := env.metas.setIfInBounds m.index { entry with solution := some value } }

def freshLevel (env : Environment) (kind : LevelKind) : LevelVar × Environment :=
  (.infer env.levels kind, { env with levels := env.levels + 1 })

/-- A universe that inference has to find. -/
def freshUniverse (env : Environment) : Universe × Environment :=
  let (p, env) := env.freshLevel .predicative
  let (h, env) := env.freshLevel .homotopy
  (⟨.ofVar p, .ofVar h⟩, env)

def unsolved (env : Environment) : List MetaId :=
  (List.range env.metas.size).filterMap fun i =>
    if (env.solution? ⟨i⟩).isNone then some ⟨i⟩ else none

/-- Walks solved metavariables through their solutions, each one once. The fuel bounds how deep
    solutions lead into one another; a new one is entered at each level, so it never runs out before
    the metavariables do. -/
def collectHoles (env : Environment) : Nat → List MetaId → List MetaId × List MetaId →
    List MetaId × List MetaId
  | 0, _, found => found
  | fuel + 1, holes, found => holes.foldl (fun (seen, unsolved) m =>
      if seen.contains m then (seen, unsolved) else
      match env.solution? m with
      | some t => env.collectHoles fuel t.holes (m :: seen, unsolved)
      | none => (m :: seen, m :: unsolved)) found

/-- Unsolved metavariables in the order they are first met, solutions of solved ones included. -/
def unsolvedIn (env : Environment) (t : Term) : List MetaId :=
  (env.collectHoles (env.metas.size + 1) t.holes ([], [])).2.reverse

def occurs (env : Environment) (m : MetaId) (t : Term) : Bool := (env.unsolvedIn t).contains m

end Environment

end PathTheory
