import PathTheory.Term.Basic
/-!
What occurs in a term: its free variables, its subterms, the metavariables and the level
variables it mentions. The main statement is that listing the subterms in front of a list leaves
that list as it is.
-/
namespace PathTheory

mutual

/-- Free variables from left to right, one for each occurrence. -/
def Term.freeVars : Term → List Var
  | .ref x => [x]
  | .lam _ x domain body => domain.freeVars ++ body.freeVars.filter (· != x)
  | .pi _ x domain codomain => domain.freeVars ++ codomain.freeVars.filter (· != x)
  | .sigma params => telescopeFree params []
  | .tuple components type => termsFree components ++ type.freeVars
  | .proj whole _ => whole.freeVars
  | .univ _ => []
  | .app fn arg => fn.freeVars ++ arg.freeVars
  | .call _ _ args => termsFree args
  | .con _ _ params args => termsFree params ++ termsFree args
  | .data _ _ args => termsFree args
  | .record _ _ fields => fieldsFree fields
  | .field _ _ arg => arg.freeVars
  | .new r => r.freeVars
  | .caseOf args params result tree =>
      termsFree args ++ telescopeFree params result.freeVars ++ tree.freeVars
  | .hole _ => []
  | .error _ term => optionFree term

def termsFree : List Term → List Var
  | [] => []
  | a :: rest => a.freeVars ++ termsFree rest

def optionFree : Option Term → List Var
  | none => []
  | some a => a.freeVars

def fieldsFree : List (DefId × Term) → List Var
  | [] => []
  | (_, a) :: rest => a.freeVars ++ fieldsFree rest

/-- Free variables of a telescope and of what stands in its scope. -/
def telescopeFree : List (Binding Term) → List Var → List Var
  | [], inner => inner
  | ⟨_, x, type⟩ :: rest, inner =>
      type.freeVars ++ (telescopeFree rest inner).filter (· != x)

def CaseTree.freeVars : CaseTree → List Var
  | .leaf params body => telescopeFree params body.freeVars
  | .branch params children => telescopeFree params (childrenFree children)
  | .interval params ends rest => telescopeFree params (endsFree ends) ++ restFree rest

def childrenFree : List (Shape × CaseTree) → List Var
  | [] => []
  | (_, child) :: others => child.freeVars ++ childrenFree others

def endsFree : List (Ends Term) → List Var
  | [] => []
  | ⟨left, right⟩ :: others => optionFree left ++ optionFree right ++ endsFree others

def restFree : Option CaseTree → List Var
  | none => []
  | some tree => tree.freeVars

end

mutual

/-- The term and everything below it in front of a list, parents before children, children from left
    to right. Nothing is copied, however deep the term is. -/
def Term.subtermsOnto : Term → List Term → List Term
  | .ref x, tail => .ref x :: tail
  | .lam m x domain body, tail =>
      .lam m x domain body :: domain.subtermsOnto (body.subtermsOnto tail)
  | .pi m x domain codomain, tail =>
      .pi m x domain codomain :: domain.subtermsOnto (codomain.subtermsOnto tail)
  | .sigma params, tail => .sigma params :: telescopeSubterms params tail
  | .tuple components type, tail =>
      .tuple components type :: termsSubterms components (type.subtermsOnto tail)
  | .proj whole index, tail => .proj whole index :: whole.subtermsOnto tail
  | .univ u, tail => .univ u :: tail
  | .app fn arg, tail => .app fn arg :: fn.subtermsOnto (arg.subtermsOnto tail)
  | .call f levels args, tail => .call f levels args :: termsSubterms args tail
  | .con c levels params args, tail =>
      .con c levels params args :: termsSubterms params (termsSubterms args tail)
  | .data d levels args, tail => .data d levels args :: termsSubterms args tail
  | .record c levels fields, tail => .record c levels fields :: fieldsSubterms fields tail
  | .field f levels arg, tail => .field f levels arg :: arg.subtermsOnto tail
  | .new r, tail => .new r :: r.subtermsOnto tail
  | .caseOf args params result tree, tail =>
      .caseOf args params result tree :: termsSubterms args
        (telescopeSubterms params (result.subtermsOnto (tree.subtermsOnto tail)))
  | .hole m, tail => .hole m :: tail
  | .error message term, tail => .error message term :: optionSubterms term tail
termination_by structural t => t

def termsSubterms : List Term → List Term → List Term
  | [], tail => tail
  | a :: rest, tail => a.subtermsOnto (termsSubterms rest tail)
termination_by structural t => t

def optionSubterms : Option Term → List Term → List Term
  | none, tail => tail
  | some a, tail => a.subtermsOnto tail
termination_by structural t => t

def fieldsSubterms : List (DefId × Term) → List Term → List Term
  | [], tail => tail
  | (_, a) :: rest, tail => a.subtermsOnto (fieldsSubterms rest tail)
termination_by structural t => t

def telescopeSubterms : List (Binding Term) → List Term → List Term
  | [], tail => tail
  | ⟨_, _, type⟩ :: rest, tail => type.subtermsOnto (telescopeSubterms rest tail)
termination_by structural t => t

def CaseTree.subtermsOnto : CaseTree → List Term → List Term
  | .leaf params body, tail => telescopeSubterms params (body.subtermsOnto tail)
  | .branch params children, tail => telescopeSubterms params (childrenSubterms children tail)
  | .interval params ends rest, tail =>
      telescopeSubterms params (endsSubterms ends (restSubterms rest tail))
termination_by structural t => t

def childrenSubterms : List (Shape × CaseTree) → List Term → List Term
  | [], tail => tail
  | (_, child) :: others, tail => child.subtermsOnto (childrenSubterms others tail)
termination_by structural t => t

def endsSubterms : List (Ends Term) → List Term → List Term
  | [], tail => tail
  | ⟨left, right⟩ :: others, tail =>
      optionSubterms left (optionSubterms right (endsSubterms others tail))
termination_by structural t => t

def restSubterms : Option CaseTree → List Term → List Term
  | none, tail => tail
  | some tree, tail => tree.subtermsOnto tail
termination_by structural t => t

end

/-- The term and everything below it. -/
def Term.subterms (t : Term) : List Term := t.subtermsOnto []

mutual

theorem Term.subtermsOnto_append : ∀ (t : Term) (r s : List Term),
    t.subtermsOnto (r ++ s) = t.subtermsOnto r ++ s
  | .ref _, _, _ | .univ _, _, _ | .hole _, _, _ => by simp [Term.subtermsOnto]
  | .lam _ _ a b, r, s | .pi _ _ a b, r, s | .app a b, r, s => by
      simp [Term.subtermsOnto, b.subtermsOnto_append, a.subtermsOnto_append]
  | .sigma p, r, s => by simp [Term.subtermsOnto, telescopeSubterms_append p]
  | .tuple c t, r, s => by
      simp [Term.subtermsOnto, t.subtermsOnto_append, termsSubterms_append c]
  | .proj a _, r, s | .field _ _ a, r, s | .new a, r, s => by
      simp [Term.subtermsOnto, a.subtermsOnto_append]
  | .call _ _ a, r, s | .data _ _ a, r, s => by
      simp [Term.subtermsOnto, termsSubterms_append a]
  | .con _ _ p a, r, s => by
      simp [Term.subtermsOnto, termsSubterms_append p, termsSubterms_append a]
  | .record _ _ f, r, s => by simp [Term.subtermsOnto, fieldsSubterms_append f]
  | .caseOf a p t tree, r, s => by
      simp [Term.subtermsOnto, termsSubterms_append a, telescopeSubterms_append p,
        t.subtermsOnto_append, tree.subtermsOnto_append]
  | .error _ t, r, s => by simp [Term.subtermsOnto, optionSubterms_append t]

theorem termsSubterms_append : ∀ (l : List Term) (r s : List Term),
    termsSubterms l (r ++ s) = termsSubterms l r ++ s
  | [], _, _ => by simp [termsSubterms]
  | a :: rest, r, s => by
      simp [termsSubterms, termsSubterms_append rest, a.subtermsOnto_append]

theorem optionSubterms_append : ∀ (o : Option Term) (r s : List Term),
    optionSubterms o (r ++ s) = optionSubterms o r ++ s
  | none, _, _ => by simp [optionSubterms]
  | some a, r, s => by simp [optionSubterms, a.subtermsOnto_append]

theorem fieldsSubterms_append : ∀ (l : List (DefId × Term)) (r s : List Term),
    fieldsSubterms l (r ++ s) = fieldsSubterms l r ++ s
  | [], _, _ => by simp [fieldsSubterms]
  | (_, a) :: rest, r, s => by
      simp [fieldsSubterms, fieldsSubterms_append rest, a.subtermsOnto_append]

theorem telescopeSubterms_append : ∀ (l : List (Binding Term)) (r s : List Term),
    telescopeSubterms l (r ++ s) = telescopeSubterms l r ++ s
  | [], _, _ => by simp [telescopeSubterms]
  | ⟨_, _, a⟩ :: rest, r, s => by
      simp [telescopeSubterms, telescopeSubterms_append rest, a.subtermsOnto_append]

theorem CaseTree.subtermsOnto_append : ∀ (t : CaseTree) (r s : List Term),
    t.subtermsOnto (r ++ s) = t.subtermsOnto r ++ s
  | .leaf p t, r, s => by
      simp [CaseTree.subtermsOnto, telescopeSubterms_append p, t.subtermsOnto_append]
  | .branch p c, r, s => by
      simp [CaseTree.subtermsOnto, telescopeSubterms_append p, childrenSubterms_append c]
  | .interval p e t, r, s => by
      simp [CaseTree.subtermsOnto, telescopeSubterms_append p, endsSubterms_append e,
        restSubterms_append t]

theorem childrenSubterms_append : ∀ (l : List (Shape × CaseTree)) (r s : List Term),
    childrenSubterms l (r ++ s) = childrenSubterms l r ++ s
  | [], _, _ => by simp [childrenSubterms]
  | (_, t) :: rest, r, s => by
      simp [childrenSubterms, childrenSubterms_append rest, t.subtermsOnto_append]

theorem endsSubterms_append : ∀ (l : List (Ends Term)) (r s : List Term),
    endsSubterms l (r ++ s) = endsSubterms l r ++ s
  | [], _, _ => by simp [endsSubterms]
  | ⟨a, b⟩ :: rest, r, s => by
      simp [endsSubterms, endsSubterms_append rest, optionSubterms_append a,
        optionSubterms_append b]

theorem restSubterms_append : ∀ (t : Option CaseTree) (r s : List Term),
    restSubterms t (r ++ s) = restSubterms t r ++ s
  | none, _, _ => by simp [restSubterms]
  | some t, r, s => by simp [restSubterms, t.subtermsOnto_append]

end

theorem Term.subtermsOnto_eq (t : Term) (tail : List Term) :
    t.subtermsOnto tail = t.subterms ++ tail := t.subtermsOnto_append [] tail

mutual

/-- The terms that stand in a tree, in no particular scope. -/
def CaseTree.terms : CaseTree → List Term
  | .leaf params body => params.map Binding.type ++ [body]
  | .branch params children => params.map Binding.type ++ childrenTerms children
  | .interval params ends rest =>
      params.map Binding.type ++ ends.flatMap (fun e => e.left.toList ++ e.right.toList)
        ++ restTerms rest

def childrenTerms : List (Shape × CaseTree) → List Term
  | [] => []
  | (_, child) :: others => child.terms ++ childrenTerms others

def restTerms : Option CaseTree → List Term
  | none => []
  | some tree => tree.terms

end

namespace Term

/-- Immediate subterms, the types of binders among them, ignoring scope. -/
def children : Term → List Term
  | ref _ | univ _ | hole _ => []
  | lam _ _ domain body => [domain, body]
  | pi _ _ domain codomain => [domain, codomain]
  | sigma params => params.map Binding.type
  | tuple components type => components ++ [type]
  | proj whole _ => [whole]
  | app fn arg => [fn, arg]
  | call _ _ args | data _ _ args => args
  | con _ _ params args => params ++ args
  | record _ _ fields => fields.map (·.2)
  | field _ _ arg => [arg]
  | new r => [r]
  | caseOf args params result tree => args ++ params.map Binding.type ++ [result] ++ tree.terms
  | error _ term => term.toList

/-- Metavariables from left to right, one for each occurrence. -/
def holes (t : Term) : List MetaId := t.subterms.filterMap hole?

/-- The level arguments at the head of a term. -/
def ownLevels : Term → Option Universe
  | univ u => some u
  | call _ levels _ | con _ levels _ _ | data _ levels _ | record _ levels _
  | field _ levels _ => some levels
  | _ => none

/-- Level variables in order, each one once. -/
def levelVars (t : Term) : List LevelVar :=
  LevelVar.ordered <| t.subterms.flatMap fun s => match s.ownLevels with
    | some u => u.p.var?.toList ++ u.h.var?.toList
    | none => []

end Term

end PathTheory
