import PathTheory.Proofs.Matching.Nodes
import PathTheory.Proofs.Matching.Later
import Mathlib.Algebra.GroupWithZero.Nat
import Mathlib.Algebra.Order.BigOperators.Group.List
import Mathlib.Algebra.Order.Group.Nat
/-!
Splitting uses patterns up. What a column is split for stands in a row as a constructor or a tuple,
and in every branch it is gone: its row is left out, or goes on with the parts of the pattern. Rows
with a variable there get variables only, however many components there are. So the number of such
patterns in all rows goes down with every split, whatever the types of the columns are.
-/
namespace PathTheory

mutual

/-- The shapes that are seen on the ways from the root: to a leaf, to a node without children, or to
    the ends of an interval node. -/
def CaseTree.ways : CaseTree → List (List Shape)
  | .leaf _ _ => [[]]
  | .branch _ children => if children.isEmpty then [[]] else childrenWays children
  | .interval _ _ rest => [] :: restWays rest

def childrenWays : List (Shape × CaseTree) → List (List Shape)
  | [] => []
  | (k, child) :: others => child.ways.map (k :: ·) ++ childrenWays others

def restWays : Option CaseTree → List (List Shape)
  | none => []
  | some tree => tree.ways

end

/-- No way has more nodes with children than that. -/
def CaseTree.NoDeeper (bound : Nat) (tree : CaseTree) : Prop := ∀ way ∈ tree.ways, way.length ≤ bound

namespace CaseTree.NoDeeper

variable {bound : Nat} {tree : CaseTree}

theorem mono {larger : Nat} (shallow : tree.NoDeeper bound) (le : bound ≤ larger) :
    tree.NoDeeper larger := fun way isWay => (shallow way isWay).trans le

theorem leaf (params : Telescope) (body : Term) : (CaseTree.leaf params body).NoDeeper bound := by
  unfold NoDeeper ways
  exact List.forall_mem_singleton.mpr (Nat.zero_le bound)

theorem nil (params : Telescope) : (CaseTree.branch params []).NoDeeper bound := by
  unfold NoDeeper ways
  exact List.forall_mem_singleton.mpr (Nat.zero_le bound)

theorem children {l : List (Shape × CaseTree)} (each : ∀ entry ∈ l, entry.2.NoDeeper bound) :
    ∀ way ∈ childrenWays l, way.length ≤ bound + 1 := by
  induction l with
  | nil =>
      unfold childrenWays
      exact List.forall_mem_nil _
  | cons entry l ih =>
      obtain ⟨here, others⟩ := List.forall_mem_cons.mp each
      unfold childrenWays
      refine List.forall_mem_append.mpr ⟨List.forall_mem_map.mpr fun way isWay => ?_, ih others⟩
      exact Nat.succ_le_succ (here way isWay)

theorem branch {l : List (Shape × CaseTree)} (each : ∀ entry ∈ l, entry.2.NoDeeper bound)
    (params : Telescope) : (CaseTree.branch params l).NoDeeper (bound + 1) := by
  unfold NoDeeper ways
  split
  · exact List.forall_mem_singleton.mpr (Nat.zero_le _)
  · exact children each

theorem interval {rest : Option CaseTree} (below : ∀ tree ∈ rest, tree.NoDeeper bound)
    (params : Telescope) (ends : List (Ends Term)) :
    (CaseTree.interval params ends rest).NoDeeper bound := by
  unfold NoDeeper ways
  refine List.forall_mem_cons.mpr ⟨Nat.zero_le bound, ?_⟩
  cases rest with
  | none => exact List.forall_mem_nil _
  | some tree => exact below tree rfl

end CaseTree.NoDeeper

namespace Pattern

theorem rowSplits_append (row others : List Pattern) :
    rowSplits (row ++ others) = rowSplits row + rowSplits others := by
  induction row with
  | nil => exact (Nat.zero_add _).symm
  | cons p row ih => rw [List.cons_append, rowSplits, rowSplits, ih, Nat.add_assoc]

theorem rowSplits_drop (row : List Pattern) (k : Nat) : rowSplits (row.drop k) ≤ rowSplits row := by
  conv_rhs => rw [← List.take_append_drop k row, rowSplits_append]
  exact Nat.le_add_left _ _

end Pattern

namespace Matching

open Pattern

section Measure

/-- How many constructors and tuples the rows still take apart. -/
def remaining (rows : List Row) : Nat := (rows.map fun row => rowSplits row.patterns).sum

theorem remaining_sublist {rows others : List Row} (fewer : rows.Sublist others) :
    remaining rows ≤ remaining others := (fewer.map _).sum_le_sum fun _ _ => Nat.zero_le _

theorem remaining_numbered (clauses : List Clause) :
    remaining (numbered clauses) = (clauses.map fun c => rowSplits c.patterns).sum := by
  conv_rhs => rw [← List.zipIdx_map_fst 0 clauses]
  rw [remaining, numbered, List.map_map, List.map_map]
  rfl

/-- The fuel that rows are given is one more. -/
theorem remaining_fuel (rows : List Row) :
    rows.foldr (fun r total => rowSplits r.patterns + total) 1 = remaining rows + 1 := by
  induction rows with
  | nil => rfl
  | cons row rows ih =>
      rw [List.foldr_cons, ih, ← Nat.add_assoc]
      rfl

theorem remaining_pass (rows : List Row) (before : List Column) :
    remaining (rows.map (·.pass before)) ≤ remaining rows := by
  rw [remaining, List.map_map]
  exact List.sum_le_sum fun row _ => rowSplits_drop row.patterns before.length

/-- Rows that are left out count for nothing. -/
theorem remaining_filterMap (f : Row → Option Row) (rows : List Row) :
    remaining (rows.filterMap f) =
      (rows.map fun row => ((f row).map fun inner => rowSplits inner.patterns).getD 0).sum := by
  induction rows with
  | nil => rfl
  | cons row rows ih =>
      rw [List.map_cons, List.sum_cons, ← ih]
      cases into : f row with
      | none => rw [List.filterMap_cons_none into, Option.map_none, Option.getD_none, Nat.zero_add]
      | some inner =>
          rw [List.filterMap_cons_some into, remaining, List.map_cons, List.sum_cons]
          rfl

variable {shape : Shape} {value : Term} {fields : List Column}

/-- A variable becomes variables, and a shape becomes the parts of the pattern or is left out with
    its row. -/
theorem enter_splits (row : Row) :
    let after := ((row.enter shape value fields).map fun inner => rowSplits inner.patterns).getD 0
    after ≤ rowSplits row.patterns ∧
      ∀ k args, row.patterns.head? = some (.shaped k args) → after < rowSplits row.patterns := by
  cases entered : row.enter shape value fields with
  | none =>
      refine ⟨Nat.zero_le _, fun k args starts => ?_⟩
      obtain ⟨rest, isRow⟩ := List.head?_eq_some_iff.mp starts
      rw [isRow, rowSplits, splits, Option.map_none, Option.getD_none]
      omega
  | some inner =>
      simp only [Option.map_some, Option.getD_some]
      rcases enter_cases entered with ⟨args, rest, starts, rfl⟩ | ⟨x, rest, starts, rfl⟩
      · have less : rowSplits (args ++ rest) < rowSplits row.patterns := by
          rw [starts, rowSplits_append, rowSplits, splits]
          omega
        exact ⟨Nat.le_of_lt less, fun _ _ _ => less⟩
      · -- a row that starts with a variable gets variables, which count for nothing
        have allVars : (fields.map fun f => Pattern.binding f.1).all isBinding = true := by
          simp [isBinding]
        refine ⟨?_, fun k args isShaped => ?_⟩
        · rw [starts, rowSplits_append, rowSplits_bindings allVars, rowSplits, splits]
        · rw [starts] at isShaped
          cases isShaped

/-- The inspected column has a constructor or a tuple in some row. -/
def TakenApart (rows : List Row) : Prop :=
  ∃ row ∈ rows, ∃ k args, row.patterns.head? = some (.shaped k args)

theorem remaining_enter {rows : List Row} (apart : TakenApart rows) :
    remaining (rows.filterMap (·.enter shape value fields)) < remaining rows := by
  rw [remaining_filterMap]
  refine List.sum_lt_sum _ _ (fun row _ => (enter_splits row).1) ?_
  obtain ⟨row, isRow, k, args, starts⟩ := apart
  exact ⟨row, isRow, (enter_splits row).2 k args starts⟩

/-- At least one is gone in every branch. -/
theorem remaining_branches {rows : List Row} {before : List Column}
    (apart : TakenApart (rows.map (·.pass before))) : ∃ bound, remaining rows = bound + 1 ∧
      ∀ shape value fields, remaining ((rows.map (·.pass before)).filterMap
        (·.enter shape value fields)) ≤ bound := by
  have less : ∀ shape value fields, remaining ((rows.map (·.pass before)).filterMap
      (·.enter shape value fields)) < remaining rows := fun _ _ _ =>
    (remaining_enter apart).trans_le (remaining_pass rows before)
  obtain ⟨bound, isBound⟩ := Nat.exists_eq_add_one.mpr
    ((Nat.zero_le _).trans_lt (less (.tuple 0) (.tuple [] (.sigma [])) []))
  refine ⟨bound, isBound, fun k value fields => ?_⟩
  have fewer := less k value fields
  omega

end Measure

end Matching

end PathTheory
