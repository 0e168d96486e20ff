import PathTheory.Proofs.Syntax.Scoped
import PathTheory.Term.Occurrence
/-!
What can be read off the subterms of a term one by one can be gathered from the nodes of its tree.
-/
namespace PathTheory

section Gathering

variable {α : Type}

mutual

/-- What is read off the nodes of a tree, from left to right. -/
def Scoped.gather (node : Label → List α) (hole : MetaId → List α) : Scoped → List α
  | .var _ => []
  | .hole m => hole m
  | .node label parts => node label ++ parts.gather node hole

def Parts.gather (node : Label → List α) (hole : MetaId → List α) : Parts → List α
  | .nil => []
  | .part t rest => t.gather node hole ++ rest.gather node hole
  | .binder _ _ rest => rest.gather node hole

end

def Scoped.root (node : Label → List α) (hole : MetaId → List α) : Scoped → List α
  | .var _ => []
  | .hole m => hole m
  | .node label _ => node label

/-- What is read off a term is read off its root, and nothing is read off the nodes between a term
    and its parts. -/
structure Reads (read : Term → List α) (node : Label → List α) (hole : MetaId → List α) :
    Prop where
  root : ∀ t : Term, read t = t.toScoped.root node hole
  inner : ∀ l : Label, l.isTerm = false → node l = []

variable {read : Term → List α} {node : Label → List α} {hole : MetaId → List α}

@[simp]
theorem Parts.gather_one (t : Scoped) : (Parts.one t).gather node hole = t.gather node hole := by
  simp [Parts.one, Parts.gather]

@[simp]
theorem gather_termsParts (l : List Term) (rest : Parts) : (termsParts l rest).gather node hole =
    l.flatMap (·.toScoped.gather node hole) ++ rest.gather node hole := by
  induction l with
  | nil => rfl
  | cons a others ih => simp [termsParts, Parts.gather, ih]

@[simp]
theorem gather_telescopeParts (l : Telescope) (rest : Parts) :
    (telescopeParts l rest).gather node hole =
      l.flatMap (·.type.toScoped.gather node hole) ++ rest.gather node hole := by
  induction l with
  | nil => rfl
  | cons b others ih => simp [telescopeParts, Parts.gather, ih]

namespace Reads

mutual

theorem gathers (reads : Reads read node hole) : ∀ (t : Term) (tail : List Term),
    (t.subtermsOnto tail).flatMap read = t.toScoped.gather node hole ++ tail.flatMap read
  | .ref _, tail | .univ _, tail | .hole _, tail => by
      simp [Term.subtermsOnto, reads.root, Scoped.root, Term.toScoped, Scoped.gather, Parts.gather]
  | .lam _ _ a b, tail | .pi _ _ a b, tail | .app a b, tail => by
      simp [Term.subtermsOnto, reads.root (.lam ..), reads.root (.pi ..), reads.root (.app ..),
        Scoped.root, Term.toScoped, Scoped.gather, Parts.gather, reads.gathers a, reads.gathers b]
  | .sigma params, tail => by
      simp [Term.subtermsOnto, reads.root (.sigma _), Scoped.root, Term.toScoped, Scoped.gather,
        Parts.gather, reads.telescope params]
  | .tuple components type, tail => by
      simp [Term.subtermsOnto, reads.root (.tuple ..), Scoped.root, Term.toScoped, Scoped.gather,
        reads.inner .ofType rfl, reads.terms components, reads.gathers type]
  | .proj a _, tail | .field _ _ a, tail | .new a, tail => by
      simp [Term.subtermsOnto, reads.root (.proj ..), reads.root (.field ..), reads.root (.new _),
        Scoped.root, Term.toScoped, Scoped.gather, reads.gathers a]
  | .call _ _ args, tail | .data _ _ args, tail => by
      simp [Term.subtermsOnto, reads.root (.call ..), reads.root (.data ..), Scoped.root,
        Term.toScoped, Scoped.gather, Parts.gather, reads.terms args]
  | .con _ _ params args, tail => by
      simp [Term.subtermsOnto, reads.root (.con ..), Scoped.root, Term.toScoped, Scoped.gather,
        Parts.gather, reads.inner .ofType rfl, reads.terms params, reads.terms args]
  | .record _ _ fields, tail => by
      simp [Term.subtermsOnto, reads.root (.record ..), Scoped.root, Term.toScoped, Scoped.gather,
        reads.fields fields]
  | .caseOf args params result tree, tail => by
      simp [Term.subtermsOnto, reads.root (.caseOf ..), Scoped.root, Term.toScoped, Scoped.gather,
        Parts.gather, reads.inner .motive rfl, reads.terms args, reads.telescope params,
        reads.gathers result, reads.tree tree]
  | .error _ a, tail => by
      simp [Term.subtermsOnto, reads.root (.error ..), Scoped.root, Term.toScoped, Scoped.gather,
        reads.option a]

theorem terms (reads : Reads read node hole) : ∀ (l : List Term) (tail : List Term),
    (termsSubterms l tail).flatMap read =
      l.flatMap (·.toScoped.gather node hole) ++ tail.flatMap read
  | [], _ => by simp [termsSubterms]
  | a :: others, tail => by simp [termsSubterms, reads.gathers a, reads.terms others]

theorem option (reads : Reads read node hole) : ∀ (a : Option Term) (tail : List Term),
    (optionSubterms a tail).flatMap read =
      (optionScoped a).gather node hole ++ tail.flatMap read
  | none, _ => by
      simp [optionSubterms, optionScoped, Scoped.gather, Parts.gather, reads.inner .absent rfl]
  | some a, tail => by
      simp [optionSubterms, optionScoped, Scoped.gather, reads.inner .given rfl, reads.gathers a]

theorem fields (reads : Reads read node hole) : ∀ (l : List (DefId × Term)) (tail : List Term),
    (fieldsSubterms l tail).flatMap read = (fieldsParts l).gather node hole ++ tail.flatMap read
  | [], _ => by simp [fieldsSubterms, fieldsParts, Parts.gather]
  | (f, a) :: others, tail => by
      simp [fieldsSubterms, fieldsParts, Parts.gather, Scoped.gather, reads.inner (.slot f) rfl,
        reads.gathers a, reads.fields others]

theorem telescope (reads : Reads read node hole) : ∀ (l : List (Binding Term)) (tail : List Term),
    (telescopeSubterms l tail).flatMap read =
      l.flatMap (·.type.toScoped.gather node hole) ++ tail.flatMap read
  | [], _ => by simp [telescopeSubterms]
  | ⟨_, _, a⟩ :: others, tail => by
      simp [telescopeSubterms, reads.gathers a, reads.telescope others]

theorem tree (reads : Reads read node hole) : ∀ (t : CaseTree) (tail : List Term),
    (t.subtermsOnto tail).flatMap read = t.toScoped.gather node hole ++ tail.flatMap read
  | .leaf params body, tail => by
      simp [CaseTree.subtermsOnto, CaseTree.toScoped, Scoped.gather, reads.inner .leaf rfl,
        reads.telescope params, reads.gathers body]
  | .branch params children, tail => by
      simp [CaseTree.subtermsOnto, CaseTree.toScoped, Scoped.gather, reads.inner .branch rfl,
        reads.telescope params, reads.children children]
  | .interval params ends rest, tail => by
      simp [CaseTree.subtermsOnto, CaseTree.toScoped, Scoped.gather, Parts.gather,
        reads.inner .interval rfl, reads.inner .ends rfl, reads.telescope params, reads.ends ends,
        reads.rest rest]

theorem children (reads : Reads read node hole) :
    ∀ (l : List (Shape × CaseTree)) (tail : List Term), (childrenSubterms l tail).flatMap read =
      (childrenParts l).gather node hole ++ tail.flatMap read
  | [], _ => by simp [childrenSubterms, childrenParts, Parts.gather]
  | (k, t) :: others, tail => by
      simp [childrenSubterms, childrenParts, Parts.gather, Scoped.gather,
        reads.inner (.child k) rfl, reads.tree t, reads.children others]

theorem ends (reads : Reads read node hole) : ∀ (l : List (Ends Term)) (tail : List Term),
    (endsSubterms l tail).flatMap read = (endsParts l).gather node hole ++ tail.flatMap read
  | [], _ => by simp [endsSubterms, endsParts, Parts.gather]
  | ⟨a, b⟩ :: others, tail => by
      simp [endsSubterms, endsParts, Parts.gather, reads.option a, reads.option b,
        reads.ends others]

theorem rest (reads : Reads read node hole) : ∀ (t : Option CaseTree) (tail : List Term),
    (restSubterms t tail).flatMap read = (restScoped t).gather node hole ++ tail.flatMap read
  | none, _ => by
      simp [restSubterms, restScoped, Scoped.gather, Parts.gather, reads.inner .absent rfl]
  | some t, tail => by
      simp [restSubterms, restScoped, Scoped.gather, reads.inner .given rfl, reads.tree t]

end

/-- What is read off all subterms is what the tree of the term says. -/
theorem subterms (reads : Reads read node hole) (t : Term) :
    t.subterms.flatMap read = t.toScoped.gather node hole := by
  rw [Term.subterms, reads.gathers]
  exact List.append_nil _

end Reads

section Trees

-- nothing is read off the nodes between a term and its parts
variable (inner : ∀ l : Label, l.isTerm = false → node l = [])
include inner

theorem gather_optionScoped (a : Option Term) : (optionScoped a).gather node hole =
    a.toList.flatMap (·.toScoped.gather node hole) := by
  cases a with
  | none => simp [optionScoped, Scoped.gather, Parts.gather, inner .absent rfl]
  | some a => simp [optionScoped, Scoped.gather, inner .given rfl]

theorem gather_endsParts (l : List (Ends Term)) : (endsParts l).gather node hole =
    (l.flatMap fun e => e.left.toList ++ e.right.toList).flatMap
      (·.toScoped.gather node hole) := by
  induction l with
  | nil => rfl
  | cons e others ih =>
      obtain ⟨a, b⟩ := e
      simp [endsParts, Parts.gather, gather_optionScoped inner, ih]

mutual

/-- What is read off a case tree is read off the terms that stand in it. -/
theorem CaseTree.gather_terms :
    ∀ t : CaseTree, t.toScoped.gather node hole = t.terms.flatMap (·.toScoped.gather node hole)
  | .leaf params body => by
      simp [CaseTree.toScoped, CaseTree.terms, Scoped.gather, inner .leaf rfl, List.flatMap_map]
  | .branch params children => by
      simp [CaseTree.toScoped, CaseTree.terms, Scoped.gather, inner .branch rfl, List.flatMap_map,
        gather_childrenTerms children]
  | .interval params ends rest => by
      simp [CaseTree.toScoped, CaseTree.terms, Scoped.gather, Parts.gather, inner .interval rfl,
        inner .ends rfl, List.flatMap_map, gather_endsParts inner ends, gather_restTerms rest]

theorem gather_childrenTerms :
    ∀ l : List (Shape × CaseTree), (childrenParts l).gather node hole =
      (childrenTerms l).flatMap (·.toScoped.gather node hole)
  | [] => rfl
  | (k, t) :: others => by
      simp [childrenParts, childrenTerms, Parts.gather, Scoped.gather, inner (.child k) rfl,
        t.gather_terms, gather_childrenTerms others]

theorem gather_restTerms :
    ∀ t : Option CaseTree, (restScoped t).gather node hole =
      (restTerms t).flatMap (·.toScoped.gather node hole)
  | none => by simp [restScoped, restTerms, Scoped.gather, Parts.gather, inner .absent rfl]
  | some t => by
      simp [restScoped, restTerms, Scoped.gather, inner .given rfl, t.gather_terms]

end

end Trees

end Gathering

end PathTheory
