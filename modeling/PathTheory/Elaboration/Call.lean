import PathTheory.Elaboration.Judge
/-!
Calls of definitions. A definition is called at a level argument, which is inferred if the
definition mentions its level parameters, and with all of its parameters: implicit ones are
inferred, and missing ones turn the call into a function of them. Record types fix fields of a
class one after the other.
-/
namespace PathTheory

open Surface (Expr)

/-- What is called: its parameters, the universe for its level parameters, its result type over the
    parameters, and the call itself once there is an argument for each of them. -/
structure Callee where
  params : Telescope
  levels : Universe
  result : Term
  make : List Term → Term

/-- How far the arguments of a call go: parameters without an argument, arguments left over, and the
    values for the parameters before. -/
structure Filling where
  params : Telescope
  args : List (Mode × Expr)
  subst : Subst
  values : List Term

namespace Elaborate

/-- A fresh universe if level parameters are mentioned; otherwise it makes no difference. -/
def levelArgument (terms : List Term) (us : List Universe) : Elaborate Universe := do
  let own := us.flatMap fun u => u.p.var?.toList ++ u.h.var?.toList
  let mentioned := terms.any fun t => t.levelVars.any (!·.isInference)
  if mentioned || own.any (!·.isInference) then freshUniverse else return .set0

/-- A class is called at its own level parameters while its fields are elaborated. -/
def classLevelArgument (c : DefId) (terms : List Term) (sort : Universe) : Elaborate Universe := do
  if (← get).currentClass == some c then return .std else levelArgument terms [sort]

/-- Values for the parameters in order, or the error that stands for the call. -/
def fill (j : Judge) (Γ : Context) (span : Span) :
    Telescope → List (Mode × Expr) → Subst → List Term → Elaborate (Except Term Filling)
  | [], args, s, values => return .ok ⟨[], args, s, values⟩
  | ⟨mode, x, type⟩ :: rest, args, s, values => do
      let type' ← subst s type
      match mode, args with
      | .implicit, (.implicit, arg) :: others | .explicit, (.explicit, arg) :: others => do
          let value ← j.check Γ arg type'
          fill j Γ span rest others (s.add x value) (values ++ [value])
      | .implicit, (.explicit, _) :: _ => do
          let value ← implicitValue Γ x type' span
          fill j Γ span rest args (s.add x value) (values ++ [value])
      | .explicit, (.implicit, arg) :: _ => do
          let expected := note "an explicit argument"
          return .error (← fail (← mismatch arg.span expected (note "an implicit argument")))
      | .implicit, [] => do
          if rest.all (·.mode == .implicit) then
            let value ← implicitValue Γ x type' span
            fill j Γ span rest args (s.add x value) (values ++ [value])
          else return .ok ⟨⟨mode, x, type⟩ :: rest, [], s, values⟩
      | .explicit, [] => return .ok ⟨⟨mode, x, type⟩ :: rest, [], s, values⟩

/-- Binders of their own for the parameters without an argument. -/
def abstractRest : Telescope → Subst → List Term → Elaborate (Telescope × Subst × List Term)
  | [], s, values => return ([], s, values)
  | ⟨mode, x, type⟩ :: rest, s, values => do
      let type ← subst s type
      let y ← reading fun _ => x.renamed
      Unify.bind y type
      let (binders, s, values) ← abstractRest rest (s.add x (.ref y)) (values ++ [.ref y])
      return (⟨mode, y, type⟩ :: binders, s, values)

def call (j : Judge) (Γ : Context) (span : Span) (callee : Callee) (args : List (Mode × Expr)) :
    Elaborate (Term × Term) := do
  match ← fill j Γ span callee.params args (.std callee.levels) [] with
  | .error t => return (t, t)
  | .ok filling => do
      let (binders, s, values) ← abstractRest filling.params filling.subst filling.values
      let term := callee.make values
      let type ← subst s callee.result
      if binders.isEmpty then apply j Γ span term type filling.args
      else return (.lamOver binders term, .piOver binders type)

def notInferred (span : Span) (name reason : String) : Diagnostic :=
  ⟨span, .argumentNotInferred name reason⟩

def inferCall (j : Judge) (Γ : Context) (span : Span) (id : DefId) (args : List (Mode × Expr)) :
    Elaborate (Term × Term) := do
  let env ← env
  match env.definition? id with
  | none => failBoth (notInferred span id.name "not defined")
  | some (.function f) => do
      let levels ← levelArgument (f.params.map (·.type) ++ [f.result]) []
      call j Γ span ⟨f.params, levels, f.result, .call id levels⟩ args
  | some (.data d) => do
      let levels ← levelArgument (d.params.map (·.type)) [d.sort]
      call j Γ span ⟨d.params, levels, .univ d.sort, .data id levels⟩ args
  | some (.constructor c) => do
      -- parameters of the data type come first and are implicit
      let some d := env.data? c.data
        | failBoth (notInferred span id.name "constructor without data type")
      let levels ← levelArgument ((d.params ++ c.params).map (·.type)) [d.sort]
      let params := d.params.map fun b => { b with mode := .implicit }
      let arity := params.length
      let result := Term.data c.data .std (d.params.vars.map .ref)
      let make (values : List Term) := Term.con id levels (values.take arity) (values.drop arity)
      call j Γ span ⟨params ++ c.params, levels, result, make⟩ args
  | some (.field f) => do
      let some c := env.cls? f.ofClass | failBoth (notInferred span id.name "field without class")
      let levels ← classLevelArgument f.ofClass [f.type] c.sort
      let params := Telescope.ofPairs [(f.this, .record f.ofClass .std [])]
      let make (values : List Term) := Term.field id levels (values.headD (note "no instance"))
      call j Γ span ⟨params, levels, f.type, make⟩ args
  | some (.cls c) => do
      let levels ← classLevelArgument id [] c.sort
      let sort ← (Subst.std levels).sort c.sort
      apply j Γ span (.record id levels []) (.univ sort) args

/-- Values for fields of a class, in the order of the class. A field is checked at the instance that
    fixes the ones before it. -/
def fixFields (j : Judge) (Γ : Context) (c : DefId) (levels : Universe)
    (given : List (DefId × Expr)) :
    List DefId → List (DefId × Term) → Elaborate (List (DefId × Term))
  | [], done => return done
  | f :: rest, done => do
      match given.lookup f, (← env).field? f with
      | some e, some field => do
          let this := Term.new (.record c levels done)
          let type ← subst ((Subst.single field.this this).addStd levels) field.type
          let value ← j.check Γ e type
          fixFields j Γ c levels given rest (done ++ [(f, value)])
      | _, _ => fixFields j Γ c levels given rest done

/-- A record type: a class with some fields fixed. -/
def inferRecord (j : Judge) (Γ : Context) (span : Span) (c : DefId)
    (given : List (DefId × Expr)) : Elaborate (Term × Term) := do
  let some cls := (← env).cls? c | failBoth (notInferred span c.name "not a class")
  let levels ← classLevelArgument c [] cls.sort
  match given.find? (!cls.fields.contains ·.1) with
  | some (f, e) =>
      failBoth (← mismatch e.span (note ("a field of " ++ c.name)) (note f.name))
  | none => do
      let fields ← fixFields j Γ c levels given cls.fields []
      let fields := fields.mergeSort fun a b => a.1.index ≤ b.1.index
      let sort ← (Subst.std levels).sort cls.sort
      return (.record c levels fields, .univ sort)

end Elaborate

end PathTheory
