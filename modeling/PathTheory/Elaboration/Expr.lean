import PathTheory.Elaboration.Clauses
/-!
Elaboration of expressions: an expression is checked against a type where the type says
something about it (functions, tuples, holes, case expressions), and otherwise its type is
inferred and compared with the one that is asked for.
-/
namespace PathTheory

open Surface (Expr)

namespace Elaborate

def compareOrFail (term actual expected : Term) (span : Span) : Elaborate Term := do
  if ← compare actual expected .le span then return term
  fail (← mismatch span expected actual)

/-- Binders of a function whose type is not known; a missing domain becomes a metavariable. -/
def inferDomains (j : Judge) (span : Span) : Context → List (Binding (Option Expr)) →
    Elaborate (Telescope × Context)
  | Γ, [] => return ([], Γ)
  | Γ, ⟨mode, x, written⟩ :: rest => do
      let domain ← match written with
        | some e => pure (← inferType j Γ e).1
        | none => unknownType Γ span
      let Γ ← bind Γ x domain
      let (binders, Γ) ← inferDomains j span Γ rest
      return (⟨mode, x, domain⟩ :: binders, Γ)

def inferLambda (j : Judge) (Γ : Context) (span : Span) (params : List (Binding (Option Expr)))
    (body : Expr) : Elaborate (Term × Term) := do
  let (binders, inner) ← inferDomains j span Γ params
  let (body, type) ← j.infer inner body
  return (.lamOver binders body, .piOver binders type)

/-- A function against the type of a function: an explicit binder passes over implicit arguments,
    which get binders of their own. -/
def checkLambda (j : Judge) (span : Span) (body : Expr) :
    Nat → Context → List (Binding (Option Expr)) → Term → Elaborate Term
  | 0, _, _, _ => throw .outOfFuel
  | _, Γ, [], expected => j.check Γ body expected
  | fuel + 1, Γ, param :: rest, expected => do
      let type ← whnf expected
      match type with
      | .pi mode x domain codomain => do
          if mode = .implicit && param.mode = .explicit then
            let y ← reading fun _ => x.renamed
            let inner ← bind Γ y domain
            let codomain ← subst (.single x (.ref y)) codomain
            let body ← checkLambda j span body fuel inner (param :: rest) codomain
            return .lam .implicit y domain body
          if mode ≠ param.mode then
            return ← fail (← mismatch span type (note (param.mode.text ++ " lambda")))
          if let some e := param.type then
            let (written, _) ← inferType j Γ e
            if !(← compare domain written .eq span) then
              return ← fail (← mismatch span domain written)
          let inner ← bind Γ param.var domain
          let codomain ← subst (.single x (.ref param.var)) codomain
          let body ← checkLambda j span body fuel inner rest codomain
          return .lam mode param.var domain body
      | .error _ _ => return type
      | _ => do
          let (term, actual) ← inferLambda j Γ span (param :: rest) body
          compareOrFail term actual type span

def checkComponents (j : Judge) (Γ : Context) :
    List Expr → Telescope → Subst → Elaborate (List Term)
  | e :: es, b :: rest, s => do
      let value ← j.check Γ e (← subst s b.type)
      return value :: (← checkComponents j Γ es rest (s.add b.var value))
  | _, _, _ => return []

def checkTuple (j : Judge) (Γ : Context) (span : Span) (components : List Expr)
    (params : Telescope) : Elaborate Term := do
  if components.length ≠ params.length then
    let actual := note ("a tuple of " ++ toString components.length ++ " fields")
    return ← fail (← mismatch span (.sigma params) actual)
  return .tuple (← checkComponents j Γ components params .empty) (.sigma params)

/-- Components whose types do not depend on one another. -/
def inferComponents (j : Judge) (Γ : Context) : List Expr → Elaborate (List Term × Telescope)
  | [] => return ([], [])
  | e :: es => do
      let (value, type) ← j.infer Γ e
      let x ← reading fun _ => Fresh.var "_"
      let (values, params) ← inferComponents j Γ es
      return (value :: values, ⟨.explicit, x, type⟩ :: params)

/-- A function type is as large as its parts; binders are added from the innermost one outwards. -/
def sortOfPis (span : Span) (u : Universe) : List Universe → Elaborate Universe
  | [] => return u
  | domain :: rest => do sortOfPi domain (← sortOfPis span u rest) span

def inferProjection (Γ : Context) (j : Judge) (span : Span) (whole : Expr) (index : Nat) :
    Elaborate (Term × Term) := do
  let (term, type) ← j.infer Γ whole
  let head ← whnf type
  let missing : Elaborate (Term × Term) := do
    failBoth (← mismatch span (note ("a tuple with field " ++ toString index)) head)
  match head with
  | .sigma params => do
      match ← reading fun env => (componentType? env term index 0 params .empty).run with
      | some type => return (.proj term index, type)
      | none => missing
  | _ => missing

def inferStep (j : Judge) (Γ : Context) : Expr → Elaborate (Term × Term)
  | .var span x => match Γ.lookup x with
      | some type => return (.ref x, type)
      | none => failBoth (notInferred span x.name "not bound here")
  | .const span d => inferCall j Γ span d []
  | .app span (.const _ d) args => inferCall j Γ span d args
  | .app span head args => do
      let (fn, type) ← j.infer Γ head
      apply j Γ span fn type args
  | .lam span params body => inferLambda j Γ span params body
  | .pi span params codomain => do
      let (params, inner, us) ← checkBinders j Γ params
      let (codomain, u) ← inferType j inner codomain
      return (.piOver params codomain, .univ (← sortOfPis span u us))
  | .sigma span params => do
      let (params, _, us) ← checkBinders j Γ params
      return (.sigma params, .univ (← sortAbove us span))
  | .tuple _ components => do
      let (values, params) ← inferComponents j Γ components
      return (.tuple values (.sigma params), .sigma params)
  | .proj span whole index => inferProjection Γ j span whole index
  | .univ _ sort => do
      let u ← universeFor sort
      return (.univ u, .univ (← u.succ))
  | .hole span => do
      let type ← unknownType Γ span
      return (← freshMeta Γ "_" type span, type)
  | .number _ n => return (Library.numeral n, Library.natType)
  | .caseOf span args result clauses => inferCase j Γ span args result clauses none
  | .record span c fields => inferRecord j Γ span c fields
  | .new span c fields => do
      let (record, _) ← inferRecord j Γ span c fields
      return if record.isError then (record, record) else (.new record, record)

def checkStep (j : Judge) (Γ : Context) (e : Expr) (expected : Term) : Elaborate Term := do
  let type ← whnf expected
  match e, type with
  | .lam span params body, .pi _ _ _ _ => checkLambda j span body (← env).fuel Γ params type
  | .tuple span components, .sigma params => checkTuple j Γ span components params
  | .hole span, _ => freshMeta Γ "_" expected span
  | .caseOf span args result clauses, _ =>
      return (← inferCase j Γ span args result clauses (some expected)).1
  | e, type => do
      let (term, actual) ← j.infer Γ e
      let (term, actual) ← match type with
        | .pi .implicit _ _ _ => pure (term, actual)
        | _ => supplyImplicits Γ e.span (← env).fuel term actual
      compareOrFail term actual expected e.span

/-- Every rule is applied to smaller expressions, or turns a check into an inference. -/
def judgeWith : Nat → Judge
  | 0 => ⟨fun _ _ _ => throw .outOfFuel, fun _ _ => throw .outOfFuel⟩
  | fuel + 1 =>
      ⟨fun Γ e expected => checkStep (judgeWith fuel) Γ e expected,
        fun Γ e => inferStep (judgeWith fuel) Γ e⟩

def judge : Elaborate Judge := return judgeWith (← env).fuel

end Elaborate

end PathTheory
