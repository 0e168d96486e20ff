import PathTheory.Proofs.Matching.Value
/-!
What clauses mean. A row of patterns matches values or does not, and the variables of a row that
matches stand for parts of the values. A tree looks at the values in an order of its own; its
openings say which of their parts it has looked into.
-/
namespace PathTheory

/-- The components of a value; nothing else has any. -/
def Term.components (v : Term) : List Term := (v.shape?.map Prod.snd).getD []

/-- How far a value is looked into. -/
inductive Opening where
  | kept
  | opened (parts : List Opening)

namespace Opening

def isKept : Opening → Bool
  | kept => true
  | opened _ => false

def parts : Opening → List Opening
  | kept => []
  | opened parts => parts

/-- At most the outermost shape is looked at. -/
def Shallow (o : Opening) : Prop := ∀ part ∈ o.parts, part.isKept = true

end Opening

def allKept (args : List Term) : List Opening := args.map fun _ => .kept

mutual

/-- How far each argument is looked into on its way to a leaf; arguments are values or are left
    alone. -/
def CaseTree.openings : CaseTree → List Term → List Opening
  | .leaf _ _, args => allKept args
  | .branch params children, args =>
      allKept (args.take params.length) ++ match args.drop params.length with
        | [] => []
        | v :: others => match v.shape? with
          | none => .kept :: allKept others
          | some (shape, components) =>
              let inner := childrenOpenings shape children (components ++ others)
              .opened (inner.take components.length) :: inner.drop components.length
  | .interval _ _ rest, args => restOpenings rest args

def childrenOpenings (shape : Shape) : List (Shape × CaseTree) → List Term → List Opening
  | [], args => allKept args
  | (k, child) :: others, args =>
      if k.matches shape then child.openings args else childrenOpenings shape others args

def restOpenings : Option CaseTree → List Term → List Opening
  | none, args => allKept args
  | some tree, args => tree.openings args

end

namespace Pattern

mutual

/-- Whether a value has the shape that the pattern asks for. -/
def fits : Pattern → Term → Bool
  | binding _, _ => true
  | shaped k args, v => match v.shape? with
      | some (shape, components) => decide (k = shape) && rowFits args components
      | none => false
  | absurd, _ => false

def rowFits : List Pattern → List Term → Bool
  | [], [] => true
  | p :: row, v :: values => p.fits v && rowFits row values
  | _, _ => false

end

section Places

variable {α : Type} (parts : α → List α) (x : Var)

mutual

/-- The part at the place of a variable; what parts there are is a parameter. -/
def at? : Pattern → α → Option α
  | binding y, a => if x = y then some a else none
  | shaped _ args, a => rowAt? args (parts a)
  | absurd, _ => none

def rowAt? : List Pattern → List α → Option α
  | [], _ => none
  | p :: row, l => match l with
      | [] => none
      | a :: l => (p.at? a).or (rowAt? row l)

end

end Places

/-- What a variable stands for when the row matches the values. -/
def matched (row : List Pattern) (values : List Term) (x : Var) : Nameless :=
  ((rowAt? Term.components x row values).getD (.ref x)).reading

section Rows

theorem rowVars_append (row others : List Pattern) :
    rowVars (row ++ others) = rowVars row ++ rowVars others := by
  induction row with
  | nil => rfl
  | cons p row ih => simp [rowVars, ih]

theorem rowVars_bindings {β : Type} (f : β → Var) (l : List β) :
    rowVars (l.map fun b => binding (f b)) = l.map f := by
  induction l with
  | nil => rfl
  | cons b l ih => simp [rowVars, vars, ih]

theorem rowFits_append {row others : List Pattern} {values rest : List Term}
    (length : row.length = values.length) :
    rowFits (row ++ others) (values ++ rest) = (rowFits row values && rowFits others rest) := by
  induction row generalizing values with
  | nil =>
      obtain rfl := List.length_eq_zero_iff.mp length.symm
      simp [rowFits]
  | cons p row ih =>
      cases values with
      | nil => cases length
      | cons v values =>
          simp [rowFits, ih (Nat.succ.inj length), Bool.and_assoc]

theorem rowFits_bindings {row : List Pattern} (bound : ∀ p ∈ row, p.isBinding = true)
    {values : List Term} (length : row.length = values.length) : rowFits row values = true := by
  induction row generalizing values with
  | nil =>
      obtain rfl := List.length_eq_zero_iff.mp length.symm
      rfl
  | cons p row ih =>
      cases values with
      | nil => cases length
      | cons v values =>
          obtain ⟨here, later⟩ := List.forall_mem_cons.mp bound
          cases p with
          | binding x => simpa [rowFits, fits] using ih later (Nat.succ.inj length)
          | _ => cases here

variable {α : Type} {parts : α → List α} {x : Var}

theorem rowAt?_append {row others : List Pattern} {l rest : List α} (length : row.length = l.length) :
    rowAt? parts x (row ++ others) (l ++ rest) =
      (rowAt? parts x row l).or (rowAt? parts x others rest) := by
  induction row generalizing l with
  | nil =>
      obtain rfl := List.length_eq_zero_iff.mp length.symm
      simp [rowAt?]
  | cons p row ih =>
      cases l with
      | nil => cases length
      | cons a l =>
          simp [rowAt?, ih (Nat.succ.inj length), Option.or_assoc]

mutual

/-- Only the variables of a pattern have places in it. -/
theorem at?_none : ∀ {p : Pattern} {a : α}, x ∉ p.vars → p.at? parts x a = none
  | binding y, a, outside => by
      have apart : x ≠ y := by
        simpa [vars] using outside
      simp [at?, apart]
  | shaped _ args, a, outside => rowAt?_none outside
  | absurd, _, _ => rfl

theorem rowAt?_none : ∀ {row : List Pattern} {l : List α}, x ∉ rowVars row →
    rowAt? parts x row l = none
  | [], _, _ => rfl
  | _ :: _, [], _ => rfl
  | p :: row, a :: l, outside => by
      simp only [rowVars, List.mem_append, not_or] at outside
      simp [rowAt?, at?_none outside.1, rowAt?_none outside.2]

end

theorem components_free {v a : Term} (member : a ∈ v.components) {z : Var} (free : z ∈ a.freeVars) :
    z ∈ v.freeVars := by
  cases v with
  | con c u params args => exact List.mem_append_right _ (mem_termsFree.mpr ⟨a, member, free⟩)
  | tuple components type => exact List.mem_append_left _ (mem_termsFree.mpr ⟨a, member, free⟩)
  | _ => cases member

mutual

/-- What stands at a place has only variables of the value. -/
theorem at?_free {z : Var} : ∀ {p : Pattern} {v w : Term},
    p.at? Term.components x v = some w → z ∈ w.freeVars → z ∈ v.freeVars
  | binding y, v, w, found, free => by
      unfold at? at found
      split at found
      · cases found
        exact free
      · cases found
  | shaped _ args, v, w, found, free => by
      obtain ⟨a, member, inside⟩ := rowAt?_free found free
      exact components_free member inside
  | absurd, _, _, found, _ => by cases found

theorem rowAt?_free {z : Var} : ∀ {row : List Pattern} {values : List Term} {w : Term},
    rowAt? Term.components x row values = some w → z ∈ w.freeVars → ∃ v ∈ values, z ∈ v.freeVars
  | [], _, _, found, _ => by cases found
  | _ :: _, [], _, found, _ => by cases found
  | p :: row, v :: values, w, found, free => by
      rcases Option.or_eq_some_iff.mp found with here | ⟨_, later⟩
      · exact ⟨v, List.mem_cons_self, at?_free here free⟩
      · obtain ⟨a, member, inside⟩ := rowAt?_free later free
        exact ⟨a, List.mem_cons_of_mem _ member, inside⟩

end

end Rows

end Pattern

section Openings

open Pattern

theorem allKept_length (args : List Term) : (allKept args).length = args.length :=
  List.length_map ..

theorem mem_allKept {args : List Term} {o : Opening} (member : o ∈ allKept args) : o = .kept := by
  obtain ⟨_, _, rfl⟩ := List.mem_map.mp member
  rfl

/-- Only values are opened. -/
def Opens (v : Term) (o : Opening) : Prop := o.isKept = true ∨ v.shape?.isSome = true

theorem allKept_opens (args : List Term) : List.Forall₂ Opens args (allKept args) := by
  induction args with
  | nil => exact .nil
  | cons v args ih => exact .cons (.inl rfl) ih

mutual

theorem CaseTree.openings_opens : ∀ (tree : CaseTree) (args : List Term),
    List.Forall₂ Opens args (tree.openings args)
  | .leaf _ _, args => allKept_opens args
  | .branch params children, args => by
      unfold CaseTree.openings
      have split := List.take_append_drop params.length args
      nth_rewrite 1 [← split]
      refine List.rel_append (allKept_opens _) ?_
      cases args.drop params.length with
      | nil => exact .nil
      | cons v others =>
          dsimp only
          cases shown : v.shape? with
          | none => exact .cons (.inl rfl) (allKept_opens others)
          | some entry =>
              obtain ⟨shape, components⟩ := entry
              refine .cons (.inr (by rw [shown]; rfl)) ?_
              have inner := childrenOpenings_opens shape children (components ++ others)
              have later := List.forall₂_drop components.length inner
              rwa [List.drop_left] at later
  | .interval _ _ rest, args => restOpenings_opens rest args

theorem childrenOpenings_opens (shape : Shape) : ∀ (children : List (Shape × CaseTree))
    (args : List Term), List.Forall₂ Opens args (childrenOpenings shape children args)
  | [], args => allKept_opens args
  | (k, child) :: others, args => by
      unfold childrenOpenings
      split
      · exact child.openings_opens args
      · exact childrenOpenings_opens shape others args

theorem restOpenings_opens : ∀ (rest : Option CaseTree) (args : List Term),
    List.Forall₂ Opens args (restOpenings rest args)
  | none, args => allKept_opens args
  | some tree, args => tree.openings_opens args

end

theorem CaseTree.openings_branch {params : Telescope} {children : List (Shape × CaseTree)}
    {first others components : List Term} {v : Term} {shape : Shape}
    (length : first.length = params.length) (shown : v.shape? = some (shape, components)) :
    (CaseTree.branch params children).openings (first ++ v :: others) = allKept first ++
      .opened ((childrenOpenings shape children (components ++ others)).take components.length) ::
        (childrenOpenings shape children (components ++ others)).drop components.length := by
  unfold openings
  rw [← length, List.take_left, List.drop_left]
  simp [shown]

end Openings

end PathTheory
