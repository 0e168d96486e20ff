import PathTheory.Substitution
/-!
Terms and case trees as plain trees with scopes. A node has a label and parts from left to right,
and a binder among the parts holds from its place to the last one. What would have to be said of
every constructor of terms is said of one kind of node here: free variables and substitution of a
term are those of its tree.
-/
namespace PathTheory

/-- What a node says besides its parts. -/
inductive Label where
  | lam
  | pi
  | sigma
  | tuple
  | proj (index : Nat)
  | univ (u : Universe)
  | app
  | call (f : DefId) (levels : Universe)
  | con (c : DefId) (levels : Universe)
  | data (d : DefId) (levels : Universe)
  | record (c : DefId) (levels : Universe)
  | field (f : DefId) (levels : Universe)
  | new
  | caseOf
  | error (message : String)
  -- what a value says of its type: the parameters of a data type, or the type of a tuple
  | ofType
  -- the value of a field of a record
  | slot (f : DefId)
  -- the parameters of a case expression with its result in their scope
  | motive
  | given
  | absent
  | leaf
  | branch
  | child (shape : Shape)
  | interval
  -- the parameters of an interval node with its ends in their scope
  | ends
deriving DecidableEq

namespace Label

def mapM (f : Universe → Checked Universe) : Label → Checked Label
  | univ u => return univ (← f u)
  | call g u => return call g (← f u)
  | con c u => return con c (← f u)
  | data d u => return data d (← f u)
  | record c u => return record c (← f u)
  | field g u => return field g (← f u)
  | l => return l

def map (f : Universe → Universe) : Label → Label
  | univ u => univ (f u)
  | call g u => call g (f u)
  | con c u => con c (f u)
  | data d u => data d (f u)
  | record c u => record c (f u)
  | field g u => field g (f u)
  | l => l

/-- The labels at the root of a term, where an empty substitution stops at once. -/
def isTerm : Label → Bool
  | ofType | slot _ | motive | given | absent | leaf | branch | child _ | interval | ends => false
  | _ => true

end Label

mutual

inductive Scoped where
  | var (x : Var)
  | hole (m : MetaId)
  | node (label : Label) (parts : Parts)

inductive Parts where
  | nil
  | part (t : Scoped) (rest : Parts)
  | binder (mode : Mode) (x : Var) (rest : Parts)

end

def Parts.one (t : Scoped) : Parts := .part t .nil

mutual

def Term.toScoped : Term → Scoped
  | .ref x => .var x
  | .lam mode x domain body =>
      .node .lam (.part domain.toScoped (.binder mode x (.one body.toScoped)))
  | .pi mode x domain codomain =>
      .node .pi (.part domain.toScoped (.binder mode x (.one codomain.toScoped)))
  | .sigma params => .node .sigma (telescopeParts params .nil)
  | .tuple components type => .node .tuple (termsParts components
      (.one (.node .ofType (.one type.toScoped))))
  | .proj whole index => .node (.proj index) (.one whole.toScoped)
  | .univ u => .node (.univ u) .nil
  | .app fn arg => .node .app (.part fn.toScoped (.one arg.toScoped))
  | .call f levels args => .node (.call f levels) (termsParts args .nil)
  | .con c levels params args => .node (.con c levels)
      (.part (.node .ofType (termsParts params .nil)) (termsParts args .nil))
  | .data d levels args => .node (.data d levels) (termsParts args .nil)
  | .record c levels fields => .node (.record c levels) (fieldsParts fields)
  | .field f levels arg => .node (.field f levels) (.one arg.toScoped)
  | .new r => .node .new (.one r.toScoped)
  | .caseOf args params result tree => .node .caseOf (termsParts args
      (.part (.node .motive (telescopeParts params (.one result.toScoped))) (.one tree.toScoped)))
  | .hole m => .hole m
  | .error message term => .node (.error message) (.one (optionScoped term))

def termsParts : List Term → Parts → Parts
  | [], rest => rest
  | a :: others, rest => .part a.toScoped (termsParts others rest)

def optionScoped : Option Term → Scoped
  | none => .node .absent .nil
  | some a => .node .given (.one a.toScoped)

def fieldsParts : List (DefId × Term) → Parts
  | [] => .nil
  | (f, a) :: others => .part (.node (.slot f) (.one a.toScoped)) (fieldsParts others)

def telescopeParts : List (Binding Term) → Parts → Parts
  | [], rest => rest
  | ⟨mode, x, type⟩ :: others, rest =>
      .part type.toScoped (.binder mode x (telescopeParts others rest))

def CaseTree.toScoped : CaseTree → Scoped
  | .leaf params body => .node .leaf (telescopeParts params (.one body.toScoped))
  | .branch params children => .node .branch (telescopeParts params (childrenParts children))
  | .interval params ends rest => .node .interval
      (.part (.node .ends (telescopeParts params (endsParts ends))) (.one (restScoped rest)))

def childrenParts : List (Shape × CaseTree) → Parts
  | [] => .nil
  | (k, child) :: others => .part (.node (.child k) (.one child.toScoped)) (childrenParts others)

def endsParts : List (Ends Term) → Parts
  | [] => .nil
  | ⟨left, right⟩ :: others =>
      .part (optionScoped left) (.part (optionScoped right) (endsParts others))

def restScoped : Option CaseTree → Scoped
  | none => .node .absent .nil
  | some tree => .node .given (.one tree.toScoped)

end

mutual

/-- Free variables from left to right, one for each occurrence. -/
def Scoped.freeVars : Scoped → List Var
  | .var x => [x]
  | .hole _ => []
  | .node _ parts => parts.freeVars

def Parts.freeVars : Parts → List Var
  | .nil => []
  | .part t rest => t.freeVars ++ rest.freeVars
  | .binder _ x rest => rest.freeVars.filter (· != x)

end

theorem Parts.one_freeVars (t : Scoped) : (Parts.one t).freeVars = t.freeVars := by
  simp [Parts.one, Parts.freeVars]

mutual

theorem Term.toScoped_freeVars : ∀ t : Term, t.toScoped.freeVars = t.freeVars
  | .ref _ | .univ _ | .hole _ => by
      simp [Term.toScoped, Scoped.freeVars, Parts.freeVars, Term.freeVars]
  | .lam _ _ a b | .pi _ _ a b | .app a b => by
      simp [Term.toScoped, Scoped.freeVars, Parts.freeVars, Parts.one_freeVars, Term.freeVars,
        a.toScoped_freeVars, b.toScoped_freeVars]
  | .sigma params => by
      simp [Term.toScoped, Scoped.freeVars, Parts.freeVars, Term.freeVars,
        telescopeParts_freeVars params]
  | .tuple components type => by
      simp [Term.toScoped, Scoped.freeVars, Parts.one_freeVars, Term.freeVars,
        termsParts_freeVars components, type.toScoped_freeVars]
  | .proj a _ | .field _ _ a | .new a => by
      simp [Term.toScoped, Scoped.freeVars, Parts.one_freeVars, Term.freeVars, a.toScoped_freeVars]
  | .call _ _ args | .data _ _ args => by
      simp [Term.toScoped, Scoped.freeVars, Parts.freeVars, Term.freeVars, termsParts_freeVars args]
  | .con _ _ params args => by
      simp [Term.toScoped, Scoped.freeVars, Parts.freeVars, Term.freeVars,
        termsParts_freeVars params, termsParts_freeVars args]
  | .record _ _ fields => by
      simp [Term.toScoped, Scoped.freeVars, Term.freeVars, fieldsParts_freeVars fields]
  | .caseOf args params result tree => by
      simp [Term.toScoped, Scoped.freeVars, Parts.freeVars, Parts.one_freeVars, Term.freeVars,
        termsParts_freeVars args, telescopeParts_freeVars params, result.toScoped_freeVars,
        tree.toScoped_freeVars]
  | .error _ a => by
      simp [Term.toScoped, Scoped.freeVars, Parts.one_freeVars, Term.freeVars,
        optionScoped_freeVars a]

theorem termsParts_freeVars : ∀ (l : List Term) (rest : Parts),
    (termsParts l rest).freeVars = termsFree l ++ rest.freeVars
  | [], rest => by simp [termsParts, termsFree]
  | a :: others, rest => by
      simp [termsParts, termsFree, Parts.freeVars, a.toScoped_freeVars, termsParts_freeVars others]

theorem optionScoped_freeVars : ∀ a : Option Term, (optionScoped a).freeVars = optionFree a
  | none => by simp [optionScoped, optionFree, Scoped.freeVars, Parts.freeVars]
  | some a => by
      simp [optionScoped, optionFree, Scoped.freeVars, Parts.one_freeVars, a.toScoped_freeVars]

theorem fieldsParts_freeVars : ∀ l : List (DefId × Term), (fieldsParts l).freeVars = fieldsFree l
  | [] => by simp [fieldsParts, fieldsFree, Parts.freeVars]
  | (_, a) :: others => by
      simp [fieldsParts, fieldsFree, Scoped.freeVars, Parts.freeVars, Parts.one_freeVars,
        a.toScoped_freeVars, fieldsParts_freeVars others]

theorem telescopeParts_freeVars : ∀ (l : List (Binding Term)) (rest : Parts),
    (telescopeParts l rest).freeVars = telescopeFree l rest.freeVars
  | [], rest => by simp [telescopeParts, telescopeFree]
  | ⟨_, _, a⟩ :: others, rest => by
      simp [telescopeParts, telescopeFree, Parts.freeVars, a.toScoped_freeVars,
        telescopeParts_freeVars others]

theorem CaseTree.toScoped_freeVars : ∀ t : CaseTree, t.toScoped.freeVars = t.freeVars
  | .leaf params body => by
      simp [CaseTree.toScoped, Scoped.freeVars, Parts.one_freeVars, CaseTree.freeVars,
        telescopeParts_freeVars params, body.toScoped_freeVars]
  | .branch params children => by
      simp [CaseTree.toScoped, Scoped.freeVars, CaseTree.freeVars, telescopeParts_freeVars params,
        childrenParts_freeVars children]
  | .interval params ends rest => by
      simp [CaseTree.toScoped, Scoped.freeVars, Parts.freeVars, Parts.one_freeVars,
        CaseTree.freeVars, telescopeParts_freeVars params, endsParts_freeVars ends,
        restScoped_freeVars rest]

theorem childrenParts_freeVars : ∀ l : List (Shape × CaseTree),
    (childrenParts l).freeVars = childrenFree l
  | [] => by simp [childrenParts, childrenFree, Parts.freeVars]
  | (_, t) :: others => by
      simp [childrenParts, childrenFree, Scoped.freeVars, Parts.freeVars, Parts.one_freeVars,
        t.toScoped_freeVars, childrenParts_freeVars others]

theorem endsParts_freeVars : ∀ l : List (Ends Term), (endsParts l).freeVars = endsFree l
  | [] => by simp [endsParts, endsFree, Parts.freeVars]
  | ⟨a, b⟩ :: others => by
      simp [endsParts, endsFree, Parts.freeVars, optionScoped_freeVars a,
        optionScoped_freeVars b, endsParts_freeVars others]

theorem restScoped_freeVars : ∀ t : Option CaseTree, (restScoped t).freeVars = restFree t
  | none => by simp [restScoped, restFree, Scoped.freeVars, Parts.freeVars]
  | some t => by
      simp [restScoped, restFree, Scoped.freeVars, Parts.one_freeVars, t.toScoped_freeVars]

end

mutual

def Scoped.subst (rule : HoleRule) (s : Subst) : Scoped → Fresh Scoped
  | .var x => return ((s.get? x).getD (.ref x)).toScoped
  | .hole m => if s.isEmpty then return .hole m else return (← rule s m).toScoped
  | .node label parts =>
      if s.isEmpty && label.isTerm then return .node label parts else do
        let label ← (label.mapM s.sort : Checked Label)
        return .node label (← parts.subst rule s)

def Parts.subst (rule : HoleRule) (s : Subst) : Parts → Fresh Parts
  | .nil => return .nil
  | .part t rest => return .part (← t.subst rule s) (← rest.subst rule s)
  | .binder mode x rest => do
      let (y, inner) ← s.under x
      return .binder mode y (← rest.subst rule inner)

end

section Commute

variable (rule : HoleRule)

theorem Subst.get?_of_isEmpty {s : Subst} (idle : s.isEmpty = true) (x : Var) :
    s.get? x = none := by
  have noTerms : s.terms = [] := by
    simp_all [Subst.isEmpty]
  simp [Subst.get?, noTerms]

theorem Parts.one_subst (t : Scoped) (s : Subst) :
    (Parts.one t).subst rule s = Parts.one <$> t.subst rule s := by
  simp [Parts.one, Parts.subst]
  rfl

mutual

/-- Substitution in a term is substitution in its tree. -/
theorem Term.toScoped_subst : ∀ (t : Term) (s : Subst),
    t.toScoped.subst rule s = Term.toScoped <$> t.substWith rule s
  | .ref x, s => by
      by_cases idle : s.isEmpty
      · simp [Term.toScoped, Scoped.subst, Term.substWith, idle, Subst.get?_of_isEmpty]
      · simp [Term.toScoped, Scoped.subst, Term.substWith, idle]
  | .hole m, s => by
      by_cases idle : s.isEmpty <;> simp [Term.toScoped, Scoped.subst, Term.substWith, idle]
  | .univ u, s => by
      by_cases idle : s.isEmpty <;>
        simp [Term.toScoped, Scoped.subst, Parts.subst, Term.substWith, idle, Label.isTerm,
          Label.mapM]
  | .lam _ _ a b, s | .pi _ _ a b, s | .app a b, s => by
      by_cases idle : s.isEmpty
      · simp [Term.toScoped, Scoped.subst, Term.substWith, idle, Label.isTerm]
      · simp [Term.toScoped, Scoped.subst, Parts.subst, Parts.one_subst, Term.substWith, idle,
          Label.mapM, a.toScoped_subst, b.toScoped_subst]
  | .sigma params, s => by
      by_cases idle : s.isEmpty
      · simp [Term.toScoped, Scoped.subst, Term.substWith, idle, Label.isTerm]
      · simp [Term.toScoped, Scoped.subst, Parts.subst, Term.substWith, idle, Label.mapM,
          telescopeParts_subst params]
  | .tuple components type, s => by
      by_cases idle : s.isEmpty
      · simp [Term.toScoped, Scoped.subst, Term.substWith, idle, Label.isTerm]
      · simp [Term.toScoped, Scoped.subst, Parts.one_subst, Term.substWith, idle, Label.mapM,
          Label.isTerm, termsParts_subst components, type.toScoped_subst]
  | .proj a _, s | .field _ _ a, s | .new a, s => by
      by_cases idle : s.isEmpty
      · simp [Term.toScoped, Scoped.subst, Term.substWith, idle, Label.isTerm]
      · simp [Term.toScoped, Scoped.subst, Parts.one_subst, Term.substWith, idle, Label.mapM,
          a.toScoped_subst]
  | .call _ _ args, s | .data _ _ args, s => by
      by_cases idle : s.isEmpty
      · simp [Term.toScoped, Scoped.subst, Term.substWith, idle, Label.isTerm]
      · simp [Term.toScoped, Scoped.subst, Parts.subst, Term.substWith, idle, Label.mapM,
          termsParts_subst args]
  | .con _ _ params args, s => by
      by_cases idle : s.isEmpty
      · simp [Term.toScoped, Scoped.subst, Term.substWith, idle, Label.isTerm]
      · simp [Term.toScoped, Scoped.subst, Parts.subst, Term.substWith, idle, Label.mapM,
          Label.isTerm, termsParts_subst params, termsParts_subst args]
  | .record _ _ fields, s => by
      by_cases idle : s.isEmpty
      · simp [Term.toScoped, Scoped.subst, Term.substWith, idle, Label.isTerm]
      · simp [Term.toScoped, Scoped.subst, Term.substWith, idle, Label.mapM,
          fieldsParts_subst fields]
  | .caseOf args params result tree, s => by
      by_cases idle : s.isEmpty
      · simp [Term.toScoped, Scoped.subst, Term.substWith, idle, Label.isTerm]
      · simp [Term.toScoped, Scoped.subst, Parts.subst, Parts.one_subst, Term.substWith, idle,
          Label.mapM, Label.isTerm, termsParts_subst args, telescopeParts_subst params,
          result.toScoped_subst, tree.toScoped_subst]
  | .error _ a, s => by
      by_cases idle : s.isEmpty
      · simp [Term.toScoped, Scoped.subst, Term.substWith, idle, Label.isTerm]
      · simp [Term.toScoped, Scoped.subst, Parts.one_subst, Term.substWith, idle, Label.mapM,
          optionScoped_subst a]

theorem termsParts_subst : ∀ (l : List Term) (rest : Parts) (s : Subst),
    (termsParts l rest).subst rule s = do
      let l ← substTerms rule s l
      return termsParts l (← rest.subst rule s)
  | [], rest, s => by simp [termsParts, substTerms]
  | a :: others, rest, s => by
      simp [termsParts, substTerms, Parts.subst, a.toScoped_subst, termsParts_subst others]

theorem optionScoped_subst : ∀ (a : Option Term) (s : Subst),
    (optionScoped a).subst rule s = optionScoped <$> substOption rule s a
  | none, s => by
      simp [optionScoped, substOption, Scoped.subst, Parts.subst, Label.isTerm, Label.mapM]
  | some a, s => by
      simp [optionScoped, substOption, Scoped.subst, Parts.one_subst, Label.isTerm, Label.mapM,
        a.toScoped_subst]

theorem fieldsParts_subst : ∀ (l : List (DefId × Term)) (s : Subst),
    (fieldsParts l).subst rule s = fieldsParts <$> substFields rule s l
  | [], s => by simp [fieldsParts, substFields, Parts.subst]
  | (_, a) :: others, s => by
      simp [fieldsParts, substFields, Parts.subst, Parts.one_subst, Scoped.subst, Label.isTerm,
        Label.mapM, a.toScoped_subst, fieldsParts_subst others]

theorem telescopeParts_subst : ∀ (l : List (Binding Term)) (rest : Parts) (s : Subst),
    (telescopeParts l rest).subst rule s = do
      let (l, inner) ← substTelescope rule s l
      return telescopeParts l (← rest.subst rule inner)
  | [], rest, s => by simp [telescopeParts, substTelescope]
  | ⟨_, _, a⟩ :: others, rest, s => by
      simp [telescopeParts, substTelescope, Parts.subst, a.toScoped_subst,
        telescopeParts_subst others]

theorem CaseTree.toScoped_subst : ∀ (t : CaseTree) (s : Subst),
    t.toScoped.subst rule s = CaseTree.toScoped <$> t.substWith rule s
  | .leaf params body, s => by
      simp [CaseTree.toScoped, CaseTree.substWith, Scoped.subst, Parts.one_subst, Label.isTerm,
        Label.mapM, telescopeParts_subst params, body.toScoped_subst]
  | .branch params children, s => by
      simp [CaseTree.toScoped, CaseTree.substWith, Scoped.subst, Label.isTerm, Label.mapM,
        telescopeParts_subst params, childrenParts_subst children]
  | .interval params ends rest, s => by
      simp [CaseTree.toScoped, CaseTree.substWith, Scoped.subst, Parts.subst, Parts.one_subst,
        Label.isTerm, Label.mapM, telescopeParts_subst params, endsParts_subst ends,
        restScoped_subst rest]

theorem childrenParts_subst : ∀ (l : List (Shape × CaseTree)) (s : Subst),
    (childrenParts l).subst rule s = childrenParts <$> substChildren rule s l
  | [], s => by simp [childrenParts, substChildren, Parts.subst]
  | (_, t) :: others, s => by
      simp [childrenParts, substChildren, Parts.subst, Parts.one_subst, Scoped.subst,
        Label.isTerm, Label.mapM, t.toScoped_subst, childrenParts_subst others]

theorem endsParts_subst : ∀ (l : List (Ends Term)) (s : Subst),
    (endsParts l).subst rule s = endsParts <$> substEnds rule s l
  | [], s => by simp [endsParts, substEnds, Parts.subst]
  | ⟨a, b⟩ :: others, s => by
      simp [endsParts, substEnds, Parts.subst, optionScoped_subst a, optionScoped_subst b,
        endsParts_subst others]

theorem restScoped_subst : ∀ (t : Option CaseTree) (s : Subst),
    (restScoped t).subst rule s = restScoped <$> substRest rule s t
  | none, s => by
      simp [restScoped, substRest, Scoped.subst, Parts.subst, Label.isTerm, Label.mapM]
  | some t, s => by
      simp [restScoped, substRest, Scoped.subst, Parts.one_subst, Label.isTerm, Label.mapM,
        t.toScoped_subst]

end

end Commute

end PathTheory
