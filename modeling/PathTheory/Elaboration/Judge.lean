import PathTheory.Elaboration.Basic
/-!
The two judgements of elaboration as the rules for larger expressions use them: an expression is
checked against a type, or its type is inferred. The rules take the judgements for smaller
expressions as an argument. Here are the rules that both judgements share: types and binders,
implicit arguments, and application.
-/
namespace PathTheory

open Surface (Expr)

structure Judge where
  check : Context → Expr → Term → Elaborate Term
  -- the term and its type
  infer : Context → Expr → Elaborate (Term × Term)

namespace Elaborate

/-- An expression that has to be a type, and the universe that it is in. -/
def inferType (j : Judge) (Γ : Context) (e : Expr) : Elaborate (Term × Universe) := do
  let (term, type) ← j.infer Γ e
  let type ← whnf type
  if let some u := type.universe? then return (term, u)
  if type.isError then return (term, .set0)
  let u ← freshUniverse
  if ← compare type (.univ u) .le e.span then return (term, u)
  return (← fail (← mismatch e.span (.univ u) type), u)

/-- Binders in order, each one in scope of the later ones, with the context inside of them all. -/
def checkBinders (j : Judge) : Context → List (Binding Expr) →
    Elaborate (Telescope × Context × List Universe)
  | Γ, [] => return ([], Γ, [])
  | Γ, ⟨mode, x, e⟩ :: rest => do
      let (type, u) ← inferType j Γ e
      let Γ ← bind Γ x type
      let (params, Γ, us) ← checkBinders j Γ rest
      return (⟨mode, x, type⟩ :: params, Γ, u :: us)

/-- Applies a term to metavariables as long as its type asks for implicit arguments. -/
def supplyImplicits (Γ : Context) (span : Span) : Nat → Term → Term → Elaborate (Term × Term)
  | 0, _, _ => throw .outOfFuel
  | fuel + 1, term, type => do
      match ← whnf type with
      | .pi .implicit x domain codomain => do
          let arg ← implicitValue Γ x domain span
          supplyImplicits Γ span fuel (.app term arg) (← subst (.single x arg) codomain)
      | _ => return (term, type)

/-- One argument, behind the implicit ones that have to be inferred before it. There is an error
    instead of the application if the type of the function does not take the argument. -/
def applyOne (j : Judge) (Γ : Context) (span : Span) (mode : Mode) (arg : Expr) :
    Nat → Term → Term → Elaborate (Except Term (Term × Term))
  | 0, _, _ => throw .outOfFuel
  | fuel + 1, fn, type => do
      let head ← whnf type
      let refuse : Elaborate (Except Term (Term × Term)) := do
        if head.isError then return .error head
        return .error (← fail (← mismatch arg.span (note "a function type") head))
      match head with
      | .pi piMode x domain codomain => do
          if piMode = .implicit && mode = .explicit then
            let value ← implicitValue Γ x domain span
            let codomain ← subst (.single x value) codomain
            applyOne j Γ span mode arg fuel (.app fn value) codomain
          else if piMode = mode then
            let value ← j.check Γ arg domain
            return .ok (.app fn value, ← subst (.single x value) codomain)
          else refuse
      | _ => refuse

/-- A term of the given type applied to arguments. -/
def apply (j : Judge) (Γ : Context) (span : Span) :
    Term → Term → List (Mode × Expr) → Elaborate (Term × Term)
  | fn, type, [] => return (fn, type)
  | fn, type, (mode, arg) :: rest => do
      match ← applyOne j Γ span mode arg (← env).fuel fn type with
      | .ok (fn, type) => apply j Γ span fn type rest
      | .error t => return (t, t)

end Elaborate

end PathTheory
