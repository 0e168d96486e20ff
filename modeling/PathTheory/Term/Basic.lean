import PathTheory.Universe
/-!
Terms of the type theory, with the case trees that pattern matching compiles to. Binders are
named; a variable belongs to the innermost binder with its identity. The main statement is that
the syntactic comparison of terms decides equality.
-/
namespace PathTheory

structure Binding (α : Type) where
  mode : Mode
  var : Var
  type : α
deriving Repr

/-- What a value looks like to a match: its constructor, or its number of components. -/
inductive Shape where
  | con (c : DefId)
  | tuple (arity : Nat)
deriving DecidableEq, Repr, Inhabited

/-- The one shape of a tuple type matches whatever arity is written. -/
def Shape.matches : Shape → Shape → Bool
  | .tuple _, .tuple _ => true
  | s, t => s == t

def Shape.text : Shape → String
  | .con c => c.name
  | .tuple n => "tuple/" ++ toString n

inductive Endpoint where
  | left
  | right
deriving DecidableEq, Repr, Inhabited

def Endpoint.text : Endpoint → String
  | .left => "left"
  | .right => "right"

/-- What is known at the two ends of an interval variable. -/
structure Ends (α : Type) where
  left : Option α
  right : Option α
deriving Repr

def Ends.at? {α : Type} (ends : Ends α) : Endpoint → Option α
  | .left => ends.left
  | .right => ends.right

def Ends.isEmpty {α : Type} (ends : Ends α) : Bool := ends.left.isNone && ends.right.isNone

mutual

inductive Term where
  | ref (x : Var)
  | lam (mode : Mode) (x : Var) (domain body : Term)
  | pi (mode : Mode) (x : Var) (domain codomain : Term)
  | sigma (params : List (Binding Term))
  | tuple (components : List Term) (type : Term)
  | proj (whole : Term) (index : Nat)
  | univ (u : Universe)
  | app (fn arg : Term)
  | call (f : DefId) (levels : Universe) (args : List Term)
  | con (c : DefId) (levels : Universe) (params args : List Term)
  | data (d : DefId) (levels : Universe) (args : List Term)
  -- a class with some of its fields fixed, sorted by field
  | record (c : DefId) (levels : Universe) (fields : List (DefId × Term))
  | field (f : DefId) (levels : Universe) (arg : Term)
  | new (record : Term)
  | caseOf (args : List Term) (params : List (Binding Term)) (result : Term) (tree : CaseTree)
  | hole (m : MetaId)
  | error (message : String) (term : Option Term)

/-- The parameters of a node bind the next arguments in order; a branch then inspects one more and
    puts its components in its place. Interval nodes stand at a root only: their ends belong to the
    last parameters, and the rest is tried on the same arguments from scratch. -/
inductive CaseTree where
  | leaf (params : List (Binding Term)) (body : Term)
  | branch (params : List (Binding Term)) (children : List (Shape × CaseTree))
  | interval (params : List (Binding Term)) (ends : List (Ends Term)) (rest : Option CaseTree)

end

abbrev Telescope := List (Binding Term)

instance : Inhabited Term := ⟨.tuple [] (.sigma [])⟩

instance : Inhabited CaseTree := ⟨.branch [] []⟩

mutual

def Term.same : Term → Term → Bool
  | .ref x, .ref y => x == y
  | .lam m x a b, .lam m' x' a' b' => m == m' && x == x' && a.same a' && b.same b'
  | .pi m x a b, .pi m' x' a' b' => m == m' && x == x' && a.same a' && b.same b'
  | .sigma p, .sigma p' => sameTelescope p p'
  | .tuple c t, .tuple c' t' => sameTerms c c' && t.same t'
  | .proj t i, .proj t' i' => i == i' && t.same t'
  | .univ u, .univ u' => u == u'
  | .app f a, .app f' a' => f.same f' && a.same a'
  | .call f l a, .call f' l' a' => f == f' && l == l' && sameTerms a a'
  | .con c l p a, .con c' l' p' a' => c == c' && l == l' && sameTerms p p' && sameTerms a a'
  | .data d l a, .data d' l' a' => d == d' && l == l' && sameTerms a a'
  | .record c l f, .record c' l' f' => c == c' && l == l' && sameFields f f'
  | .field f l a, .field f' l' a' => f == f' && l == l' && a.same a'
  | .new r, .new r' => r.same r'
  | .caseOf a p r t, .caseOf a' p' r' t' =>
      sameTerms a a' && sameTelescope p p' && r.same r' && t.same t'
  | .hole m, .hole m' => m == m'
  | .error s t, .error s' t' => s == s' && sameOption t t'
  | _, _ => false
termination_by structural a => a

def sameTerms : List Term → List Term → Bool
  | [], [] => true
  | a :: r, b :: s => a.same b && sameTerms r s
  | _, _ => false
termination_by structural a => a

def sameOption : Option Term → Option Term → Bool
  | none, none => true
  | some a, some b => a.same b
  | _, _ => false
termination_by structural a => a

def sameTelescope : List (Binding Term) → List (Binding Term) → Bool
  | [], [] => true
  | ⟨m, x, a⟩ :: r, ⟨n, y, b⟩ :: s => m == n && x == y && a.same b && sameTelescope r s
  | _, _ => false
termination_by structural a => a

def sameFields : List (DefId × Term) → List (DefId × Term) → Bool
  | [], [] => true
  | (f, a) :: r, (g, b) :: s => f == g && a.same b && sameFields r s
  | _, _ => false
termination_by structural a => a

def CaseTree.same : CaseTree → CaseTree → Bool
  | .leaf p b, .leaf p' b' => sameTelescope p p' && b.same b'
  | .branch p c, .branch p' c' => sameTelescope p p' && sameChildren c c'
  | .interval p e r, .interval p' e' r' => sameTelescope p p' && sameEnds e e' && sameRest r r'
  | _, _ => false
termination_by structural a => a

def sameChildren : List (Shape × CaseTree) → List (Shape × CaseTree) → Bool
  | [], [] => true
  | (k, a) :: r, (l, b) :: s => k == l && a.same b && sameChildren r s
  | _, _ => false
termination_by structural a => a

def sameEnds : List (Ends Term) → List (Ends Term) → Bool
  | [], [] => true
  | ⟨a, b⟩ :: r, ⟨c, d⟩ :: s => sameOption a c && sameOption b d && sameEnds r s
  | _, _ => false
termination_by structural a => a

def sameRest : Option CaseTree → Option CaseTree → Bool
  | none, none => true
  | some a, some b => a.same b
  | _, _ => false
termination_by structural a => a

end

mutual

theorem Term.same_iff : ∀ a b : Term, a.same b = true ↔ a = b
  | .ref _, b => by cases b <;> simp [Term.same]
  | .lam _ _ c d, b => by
      cases b <;> simp [Term.same, Term.same_iff c, Term.same_iff d, and_assoc]
  | .pi _ _ c d, b => by
      cases b <;> simp [Term.same, Term.same_iff c, Term.same_iff d, and_assoc]
  | .sigma p, b => by cases b <;> simp [Term.same, sameTelescope_iff p]
  | .tuple c t, b => by
      cases b <;> simp [Term.same, sameTerms_iff c, Term.same_iff t]
  | .proj t _, b => by cases b <;> simp [Term.same, Term.same_iff t, and_comm]
  | .univ _, b => by cases b <;> simp [Term.same]
  | .app f a, b => by cases b <;> simp [Term.same, Term.same_iff f, Term.same_iff a]
  | .call _ _ a, b => by cases b <;> simp [Term.same, sameTerms_iff a, and_assoc]
  | .con _ _ p a, b => by
      cases b <;> simp [Term.same, sameTerms_iff p, sameTerms_iff a, and_assoc]
  | .data _ _ a, b => by cases b <;> simp [Term.same, sameTerms_iff a, and_assoc]
  | .record _ _ f, b => by cases b <;> simp [Term.same, sameFields_iff f, and_assoc]
  | .field _ _ a, b => by cases b <;> simp [Term.same, Term.same_iff a, and_assoc]
  | .new r, b => by cases b <;> simp [Term.same, Term.same_iff r]
  | .caseOf a p r t, b => by
      cases b <;> simp [Term.same, sameTerms_iff a, sameTelescope_iff p, Term.same_iff r,
        CaseTree.same_iff t, and_assoc]
  | .hole _, b => by cases b <;> simp [Term.same]
  | .error _ t, b => by cases b <;> simp [Term.same, sameOption_iff t]

theorem sameTerms_iff : ∀ a b : List Term, sameTerms a b = true ↔ a = b
  | [], b => by cases b <;> simp [sameTerms]
  | a :: r, b => by cases b <;> simp [sameTerms, Term.same_iff a, sameTerms_iff r]

theorem sameOption_iff : ∀ a b : Option Term, sameOption a b = true ↔ a = b
  | none, b => by cases b <;> simp [sameOption]
  | some a, b => by cases b <;> simp [sameOption, Term.same_iff a]

theorem sameTelescope_iff : ∀ a b : List (Binding Term), sameTelescope a b = true ↔ a = b
  | [], b => by cases b <;> simp [sameTelescope]
  | ⟨m, x, a⟩ :: r, b => by
      cases b with
      | nil => simp [sameTelescope]
      | cons head tail =>
          cases head
          simp [sameTelescope, Term.same_iff a, sameTelescope_iff r, and_assoc]

theorem sameFields_iff : ∀ a b : List (DefId × Term), sameFields a b = true ↔ a = b
  | [], b => by cases b <;> simp [sameFields]
  | (f, a) :: r, b => by
      cases b with
      | nil => simp [sameFields]
      | cons head tail =>
          cases head
          simp [sameFields, Term.same_iff a, sameFields_iff r, and_assoc]

theorem CaseTree.same_iff : ∀ a b : CaseTree, a.same b = true ↔ a = b
  | .leaf p t, b => by cases b <;> simp [CaseTree.same, sameTelescope_iff p, Term.same_iff t]
  | .branch p c, b => by
      cases b <;> simp [CaseTree.same, sameTelescope_iff p, sameChildren_iff c]
  | .interval p e r, b => by
      cases b <;> simp [CaseTree.same, sameTelescope_iff p, sameEnds_iff e, sameRest_iff r,
        and_assoc]

theorem sameChildren_iff : ∀ a b : List (Shape × CaseTree), sameChildren a b = true ↔ a = b
  | [], b => by cases b <;> simp [sameChildren]
  | (k, a) :: r, b => by
      cases b with
      | nil => simp [sameChildren]
      | cons head tail =>
          cases head
          simp [sameChildren, CaseTree.same_iff a, sameChildren_iff r, and_assoc]

theorem sameEnds_iff : ∀ a b : List (Ends Term), sameEnds a b = true ↔ a = b
  | [], b => by cases b <;> simp [sameEnds]
  | ⟨a, c⟩ :: r, b => by
      cases b with
      | nil => simp [sameEnds]
      | cons head tail =>
          cases head
          simp [sameEnds, sameOption_iff a, sameOption_iff c, sameEnds_iff r]

theorem sameRest_iff : ∀ a b : Option CaseTree, sameRest a b = true ↔ a = b
  | none, b => by cases b <;> simp [sameRest]
  | some a, b => by cases b <;> simp [sameRest, CaseTree.same_iff a]

end

instance : DecidableEq Term := fun a b => decidable_of_iff _ (Term.same_iff a b)

instance : DecidableEq CaseTree := fun a b => decidable_of_iff _ (CaseTree.same_iff a b)

namespace Term

def ofVar (x : Var) : Term := ref x

def isError : Term → Bool
  | error _ _ => true
  | _ => false

def hole? : Term → Option MetaId
  | hole m => some m
  | _ => none

def universe? : Term → Option Universe
  | univ u => some u
  | _ => none

/-- Terms that are in weak head normal form whatever the definitions say. -/
def isValue : Term → Bool
  | lam _ _ _ _ | pi _ _ _ _ | sigma _ | tuple _ _ | univ _ | con _ _ _ _ | data _ _ _
  | record _ _ _ | new _ | error _ _ => true
  | _ => false

def isRecord : Term → Bool
  | record _ _ _ => true
  | _ => false

/-- The value that a record type fixes for one of its fields. -/
def fixed? : Term → DefId → Option Term
  | record _ _ fields, f => fields.lookup f
  | _, _ => none

/-- Function types over the bindings, the first one outermost. -/
def piOver (params : Telescope) (result : Term) : Term :=
  params.foldr (fun b codomain => pi b.mode b.var b.type codomain) result

/-- Functions over the bindings, the first one outermost. -/
def lamOver (params : Telescope) (body : Term) : Term :=
  params.foldr (fun b body => lam b.mode b.var b.type body) body

def applyAll (fn : Term) (args : List Term) : Term := args.foldl app fn

end Term

namespace Telescope

def vars (params : Telescope) : List Var := params.map Binding.var

/-- Explicit bindings in order. -/
def ofPairs (params : List (Var × Term)) : Telescope :=
  params.map fun (x, type) => ⟨.explicit, x, type⟩

end Telescope

namespace CaseTree

def params : CaseTree → Telescope
  | leaf params _ => params
  | branch params _ => params
  | interval params _ _ => params

def child? : CaseTree → Shape → Option CaseTree
  | branch _ children, shape => (children.find? fun (k, _) => k.matches shape).map (·.2)
  | _, _ => none

def shapes : CaseTree → List Shape
  | branch _ children => children.map (·.1)
  | _ => []

def isInterval : CaseTree → Bool
  | interval _ _ _ => true
  | _ => false

end CaseTree

end PathTheory
