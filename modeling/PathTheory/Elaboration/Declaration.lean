import PathTheory.Elaboration.Expr
/-!
Elaboration of declarations. The header goes into the environment before the rest is looked at,
so that a definition may mention itself; once the equations are settled, the definition is stored
with every metavariable and level replaced by its solution, whether or not there were errors.
-/
namespace PathTheory

namespace Elaborate

def zonk (levels : LevelSolution) (t : Term) : Elaborate Term := reading (t.zonk · levels.values)

def zonkTelescope (levels : LevelSolution) (params : Telescope) : Elaborate Telescope := do
  let s := Subst.zonking.withLevels levels.values
  return (← reading (s.applyTelescope · params)).1

def zonkBody (levels : LevelSolution) : Body → Elaborate Body
  | .term t => return .term (← zonk levels t)
  | .tree tree => do
      let s := Subst.zonking.withLevels levels.values
      return .tree (← reading (s.applyTree · tree))

def inSignature (b : Bool) : Elaborate Unit := modify ({ · with inSignature := b })

def inClass (c : Option DefId) : Elaborate Unit := modify ({ · with currentClass := c })

/-- A declaration is accepted if no error has been reported for it. -/
def conclude {α : Type} (name : String) (a : α) : Elaborate (Except Failure α) := do
  let errors ← errorCount
  return if errors = 0 then .ok a else .error (.definition name errors)

/-- Without truncation a data type is at least as large as what its constructors store. -/
def checkSizes (span : Span) (sort : Universe) : List Universe → Elaborate Unit
  | [] => return
  | u :: rest => do
      if !(← demandBelow span u sort) then
        report (← mismatch span (.univ sort) (.univ u))
      checkSizes span sort rest

/-- The class and the data type that a record type makes a function an instance for. -/
def instanceKey? (env : Environment) : Term → Fresh (Option (DefId × DefId))
  | .record c _ fields => do
      let some f := (env.cls? c).bind ClassDef.classifying | return none
      let some value := fields.lookup f | return none
      match ← value.whnf env with
      | .data d _ _ => return some (c, d)
      | _ => return none
  | _ => return none

/-- Makes a function without parameters an instance of its result class. -/
def makeInstance (f : DefId) : Elaborate (Except Failure DefId) := do
  let env ← env
  let result ← whnf (((env.function? f).map FunctionDef.result).getD (note "not a function"))
  match ← reading (instanceKey? · result) with
  | some (ofClass, data) => do
      set (env.addInstance ⟨ofClass, data, f⟩)
      return .ok f
  | none => return .error (.diagnostic ⟨.none, .instanceNotFound (← result.text) f.name⟩)

end Elaborate

namespace Surface

open Elaborate

/-- Clauses are compiled only if nothing has gone wrong before. -/
def BodyExpr.elaborate (j : Judge) (Γ : Context) (span : Span) (params : Telescope)
    (result : Term) : BodyExpr → Elaborate (Option Body)
  | .term e => return some (.term (← j.check Γ e result))
  | .clauses eliminated written => do
      let checked ← checkClauses j Γ span params eliminated written result
      let sort ← sortOf result
      if (← errorCount) ≠ 0 then return none
      return (← compile span params checked sort false).map .tree
  | .abstract => return none

def FunctionDecl.elaborate (d : FunctionDecl) : Elaborate (Except Failure DefId) := do
  let j ← judge
  inSignature true
  let (params, Γ, _) ← checkBinders j [] d.params
  let declared ← d.result.mapM fun e => return (← inferType j Γ e).1
  inSignature false
  let result ← match declared with
    | some result => pure result
    | none => unknownType Γ d.span
  setDefinition d.id (.function ⟨params, result, none, false, .inProgress⟩)
  let body ← d.body.elaborate j Γ d.span params result
  let levels ← finish
  let params ← zonkTelescope levels params
  let result ← zonk levels result
  let body ← body.mapM (zonkBody levels)
  let status := if (← errorCount) = 0 then Status.done else .hasErrors
  setDefinition d.id (.function ⟨params, result, body, false, status⟩)
  conclude d.id.name d.id

/-- The parameters of a constructor and the number of its interval dimensions. -/
def ConstructorDecl.elaborate (j : Judge) (Γ : Context) (truncated : Bool) (sort : Universe)
    (c : ConstructorDecl) : Elaborate (DefId × Telescope × Nat) := do
  let (params, _, us) ← checkBinders j Γ c.params
  if !truncated then checkSizes c.span sort us
  let intervals ← params.filterM fun b => isIntervalType b.type
  return (c.id, params, intervals.length)

def DataDecl.elaborate (d : DataDecl) : Elaborate (Except Failure DefId) := do
  let j ← judge
  inSignature true
  let (params, Γ, _) ← checkBinders j [] d.params
  let sort ← match d.sort with
    | some sort => pure sort
    | none => freshUniverse
  let constructors := d.constructors.map (·.id)
  setDefinition d.id (.data ⟨params, sort, constructors, d.truncated, false⟩)
  -- several constructors make at least a set
  if d.sort.isNone && constructors.length > 1 then
    let _ ← demandBelow d.span .set0 sort
  let elaborated ← d.constructors.mapM (ConstructorDecl.elaborate j Γ d.truncated sort)
  inSignature false
  let levels ← finish
  let params ← zonkTelescope levels params
  let sort ← sort.subst levels.get?
  for (c, conParams, intervals) in elaborated do
    let conParams ← zonkTelescope levels conParams
    setDefinition c (.constructor ⟨d.id, conParams, intervals⟩)
  setDefinition d.id (.data ⟨params, sort, constructors, d.truncated, false⟩)
  conclude d.id.name d.id

/-- The type of a field may mention the fields before it through the instance. -/
def FieldDecl.elaborate (j : Judge) (Γ : Context) (ofClass : DefId) (this : Var) (f : FieldDecl) :
    Elaborate Universe := do
  let (type, u) ← inferType j Γ f.type
  setDefinition f.id (.field ⟨ofClass, this, type⟩)
  return u

def ClassDecl.elaborate (d : ClassDecl) : Elaborate (Except Failure DefId) := do
  let j ← judge
  inClass (some d.id)
  inSignature true
  let fields := d.fields.map (·.id)
  setDefinition d.id (.cls ⟨fields, d.classifying, d.sort.getD .std⟩)
  let Γ ← bind [] d.this (.record d.id .std [])
  let us ← d.fields.mapM (FieldDecl.elaborate j Γ d.id d.this)
  inSignature false
  inClass none
  let sort ← match d.sort with
    | some sort => pure sort
    | none => sortAbove us d.span
  let levels ← finish
  for f in fields do
    if let some field := (← env).field? f then
      setDefinition f (.field ⟨d.id, d.this, ← zonk levels field.type⟩)
  let sort ← sort.subst levels.get?
  setDefinition d.id (.cls ⟨fields, d.classifying, sort⟩)
  conclude d.id.name d.id

def Declaration.elaborate : Declaration → Elaborate (Except Failure DefId)
  | .function d => d.elaborate
  | .data d => d.elaborate
  | .cls d => d.elaborate
  | .inst f => makeInstance f

/-- An expression by itself, against a type if there is one, and its type. -/
def Expr.elaborate (e : Expr) (expected : Option Expr) :
    Elaborate (Except Failure (Term × Term)) := do
  let j ← judge
  let (term, type) ← match expected with
    | some expected => do
        let (type, _) ← inferType j [] expected
        pure (← j.check [] e type, type)
    | none => j.infer [] e
  let levels ← finish
  let term ← zonk levels term
  let type ← zonk levels type
  conclude "expression" (term, type)

end Surface

end PathTheory
