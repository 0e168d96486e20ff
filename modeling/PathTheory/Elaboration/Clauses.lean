import PathTheory.Elaboration.Call
import PathTheory.Library
/-!
Clauses: patterns are typed against the types of what they match, which gives every pattern
variable its type and every pattern a term; the body of a clause is checked against the result
type at these terms. Case expressions are clauses over scrutinees of their own.
-/
namespace PathTheory

open Surface (Expr Pat Scrutinee)

/-- A typed pattern: the context with its variables, the pattern, and the term that it
    stands for. -/
abbrev PatternCheck := Context → Term → Elaborate (Option (Context × Pattern × Term))

namespace Elaborate

/-- Components of a pattern in order, each type over the components before it. -/
def checkParts : Telescope → List PatternCheck → Subst → Context →
    Elaborate (Option (Context × List Pattern × List Term))
  | b :: rest, part :: parts, s, Γ => do
      let type ← subst s b.type
      match ← part Γ type with
      | none => return none
      | some (Γ, pattern, term) => do
          match ← checkParts rest parts (s.add b.var term) Γ with
          | none => return none
          | some (Γ, patterns, terms) => return some (Γ, pattern :: patterns, term :: terms)
  | _, _, _, Γ => return some (Γ, [], [])

def reportNothing {α : Type} (span : Span) (problem : Problem) : Elaborate (Option α) := do
  report ⟨span, problem⟩
  return none

def checkCon (span : Span) (c : DefId) (parts : List PatternCheck) : PatternCheck := fun Γ type => do
  let env ← env
  let head ← whnf type
  let foreign : Elaborate (Option (Context × Pattern × Term)) := do
    reportNothing span (.expectedConstructor c.name (← head.text))
  match head, env.constructor? c with
  | .data d levels params, some con => do
      let some data := env.data? d | foreign
      if con.data ≠ d then return ← foreign
      let arity := con.params.length
      if parts.length < arity then return ← reportNothing span (.notEnoughPatterns arity)
      if parts.length > arity then return ← reportNothing span (.tooManyPatterns arity)
      let s := (Subst.instantiate data.params params).addStd levels
      match ← checkParts con.params parts s Γ with
      | none => return none
      | some (Γ, patterns, terms) =>
          return some (Γ, .ofCon c patterns, .con c levels params terms)
  | _, _ => foreign

def checkTuplePattern (span : Span) (parts : List PatternCheck) : PatternCheck := fun Γ type => do
  let head ← whnf type
  let foreign : Elaborate (Option (Context × Pattern × Term)) := do
    let pattern := "tuple of " ++ toString parts.length ++ " fields"
    reportNothing span (.expectedConstructor pattern (← head.text))
  match head with
  | .sigma params => do
      if params.length ≠ parts.length then return ← foreign
      match ← checkParts params parts .empty Γ with
      | none => return none
      | some (Γ, patterns, terms) => return some (Γ, .ofTuple patterns, .tuple terms head)
  | _ => foreign

def checkNumber (span : Span) : Nat → PatternCheck
  | 0 => checkCon span Library.zero []
  | n + 1 => checkCon span Library.suc [checkNumber span n]

mutual

def checkPattern : Pat → PatternCheck
  | .var x => fun Γ type => return some (← bind Γ x type, .binding x, .ref x)
  | .absurd _ => fun Γ _ => return some (Γ, .absurd, note "absurd")
  | .number span n => checkNumber span n
  | .con span c args => checkCon span c (checkPatterns args)
  | .tuple span args => checkTuplePattern span (checkPatterns args)

def checkPatterns : List Pat → List PatternCheck
  | [] => []
  | p :: rest => checkPattern p :: checkPatterns rest

end

/-- The first variable that is no parameter, or does not come after the one before it. -/
def outOfOrder? (params : Telescope) : Option Nat → List Var → Option Var
  | _, [] => none
  | last, x :: rest => match params.vars.findIdx? (· == x) with
    | none => some x
    | some p => if last.any (p ≤ ·) then some x else outOfOrder? params (some p) rest

/-- Patterns for the parameters that are matched; each other one is bound by its own variable. -/
def checkRow : Telescope → (Binding Term → Bool) → List Pat → Subst → Context →
    Elaborate (Option (Context × List Pattern × Subst))
  | [], _, _, s, Γ => return some (Γ, [], s)
  | b :: rest, isMatched, pats, s, Γ => do
      let type ← subst s b.type
      let (pat, pats) := match isMatched b, pats with
        | true, pat :: pats => (pat, pats)
        | _, pats => (.var b.var, pats)
      match ← checkPattern pat Γ type with
      | none => return none
      | some (Γ, pattern, term) => do
          match ← checkRow rest isMatched pats (s.add b.var term) Γ with
          | none => return none
          | some (Γ, patterns, s) => return some (Γ, pattern :: patterns, s)

/-- The clause with typed patterns and its body, if the patterns can be typed. -/
def checkClause (j : Judge) (Γ : Context) (params : Telescope) (isMatched : Binding Term → Bool)
    (result : Term) (clause : Surface.Clause) : Elaborate (Option Matching.Clause) := do
  let expected := (params.filter isMatched).length
  if clause.patterns.length < expected then
    return ← reportNothing clause.span (.notEnoughPatterns expected)
  if clause.patterns.length > expected then
    return ← reportNothing clause.span (.tooManyPatterns expected)
  match ← checkRow params isMatched clause.patterns .empty Γ with
  | none => return none
  | some (Γ, patterns, s) => do
      let type ← subst s result
      let body ← clause.body.mapM fun e => j.check Γ e type
      return some ⟨clause.span, patterns, body⟩

/-- All clauses whose patterns can be typed. Without a list of parameters to eliminate the explicit
    ones are matched. -/
def checkClauses (j : Judge) (Γ : Context) (span : Span) (params : Telescope)
    (eliminated : Option (List Var)) (clauses : List Surface.Clause) (result : Term) :
    Elaborate (List Matching.Clause) := do
  match eliminated.bind (outOfOrder? params none) with
  | some x => do
      report ⟨span, .eliminationOrder x.name⟩
      return []
  | none => do
      let isMatched (b : Binding Term) : Bool := match eliminated with
        | some xs => xs.contains b.var
        | none => b.mode == .explicit
      clauses.filterMapM (checkClause j Γ params isMatched result)

/-- Scrutinees with their values; the later types and the result may depend on their names. -/
def checkScrutinees (j : Judge) (outer : Context) : List Scrutinee → Context → Subst →
    Elaborate (List Term × Telescope × Context × Subst)
  | [], Γ, s => return ([], [], Γ, s)
  | arg :: rest, Γ, s => do
      let (value, type) ← match arg.type with
        | some e => do
            let (type, _) ← inferType j Γ e
            let here ← subst s type
            pure (← j.check outer arg.value here, type)
        | none => j.infer outer arg.value
      let x ← match arg.name with
        | some x => pure x
        | none => reading fun _ => Fresh.var "x"
      let Γ ← bind Γ x type
      let (values, params, Γ, s) ← checkScrutinees j outer rest Γ (s.add x value)
      return (value :: values, ⟨.explicit, x, type⟩ :: params, Γ, s)

def inferCase (j : Judge) (Γ : Context) (span : Span) (args : List Scrutinee)
    (result : Option Expr) (clauses : List Surface.Clause) (expected : Option Term) :
    Elaborate (Term × Term) := do
  let (values, params, inner, s) ← checkScrutinees j Γ args Γ .empty
  let result ← match result, expected with
    | some e, _ => pure (← inferType j inner e).1
    | none, some type => pure type
    | none, none => unknownType Γ span
  let sort ← sortOf result
  let clauses ← checkClauses j Γ span params none clauses result
  match ← compile span params clauses sort true with
  | none => return (note "case", note "case")
  | some tree => do
      let type ← subst s result
      return (.caseOf values params result tree, type)

end Elaborate

end PathTheory
