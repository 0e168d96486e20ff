import PathTheory.Proofs.Syntax.Substitution
import PathTheory.Reduction
/-!
Variables and the counter. Every variable of a term, and of the definitions it may use, was made
before the counter reached its value; reduction keeps this, so the names that it makes are new.
-/
namespace PathTheory

variable {n m : Nat}

theorem Parts.below_nil : Parts.nil.Below n := by
  intro x member
  cases member

theorem Parts.below_one {t : Scoped} : (Parts.one t).Below n ↔ t.Below n := by
  rw [Parts.one, Parts.below_part]
  exact and_iff_left Parts.below_nil

theorem Scoped.below_node {l : Label} {parts : Parts} :
    (Scoped.node l parts).Below n ↔ parts.Below n := Iff.rfl

def Telescope.Below (n : Nat) (params : Telescope) : Prop :=
  ∀ b ∈ params, b.var.id < n ∧ b.type.Below n

theorem termsParts_below {l : List Term} {rest : Parts} :
    (termsParts l rest).Below n ↔ (∀ a ∈ l, a.Below n) ∧ rest.Below n := by
  induction l with
  | nil => simp [termsParts]
  | cons a others ih =>
      rw [termsParts, Parts.below_part, ih, List.forall_mem_cons, and_assoc]
      exact Iff.rfl

theorem telescopeParts_below {l : Telescope} {rest : Parts} :
    (telescopeParts l rest).Below n ↔ Telescope.Below n l ∧ rest.Below n := by
  induction l with
  | nil => simp [telescopeParts, Telescope.Below]
  | cons b others ih =>
      have split : Telescope.Below n (b :: others) ↔
          (b.var.id < n ∧ b.type.Below n) ∧ Telescope.Below n others := List.forall_mem_cons
      rw [telescopeParts, Parts.below_part, Parts.below_binder, ih, split]
      constructor
      · rintro ⟨type, isOld, others, rest⟩
        exact ⟨⟨⟨isOld, type⟩, others⟩, rest⟩
      · rintro ⟨⟨⟨isOld, type⟩, others⟩, rest⟩
        exact ⟨type, isOld, others, rest⟩

theorem fieldsParts_below {l : List (DefId × Term)} :
    (fieldsParts l).Below n ↔ ∀ entry ∈ l, entry.2.Below n := by
  induction l with
  | nil => simp [fieldsParts, Parts.below_nil]
  | cons entry others ih =>
      rw [fieldsParts, Parts.below_part, ih, List.forall_mem_cons, Scoped.below_node,
        Parts.below_one]
      exact Iff.rfl

theorem childrenParts_below {l : List (Shape × CaseTree)} :
    (childrenParts l).Below n ↔ ∀ entry ∈ l, entry.2.Below n := by
  induction l with
  | nil => simp [childrenParts, Parts.below_nil]
  | cons entry others ih =>
      rw [childrenParts, Parts.below_part, ih, List.forall_mem_cons, Scoped.below_node,
        Parts.below_one]
      exact Iff.rfl

theorem optionScoped_below {a : Option Term} :
    (optionScoped a).Below n ↔ ∀ t ∈ a, t.Below n := by
  cases a with
  | none => simp [optionScoped, Scoped.below_node, Parts.below_nil]
  | some t =>
      rw [optionScoped, Scoped.below_node, Parts.below_one]
      simp [Term.Below]

theorem endsParts_below {l : List (Ends Term)} :
    (endsParts l).Below n ↔ ∀ e ∈ l, (∀ t ∈ e.left, t.Below n) ∧ ∀ t ∈ e.right, t.Below n := by
  induction l with
  | nil => simp [endsParts, Parts.below_nil]
  | cons e others ih =>
      rw [endsParts, Parts.below_part, Parts.below_part, ih, List.forall_mem_cons,
        optionScoped_below, optionScoped_below, and_assoc]

namespace Term

theorem below_ref {x : Var} : (ref x).Below n ↔ x.id < n := by
  simp [Below, Scoped.Below, toScoped, Scoped.ids]

theorem below_lam {mode : Mode} {x : Var} {a b : Term} :
    (lam mode x a b).Below n ↔ a.Below n ∧ x.id < n ∧ b.Below n := by
  rw [Below, toScoped, Scoped.below_node, Parts.below_part, Parts.below_binder, Parts.below_one]
  exact Iff.rfl

theorem below_pi {mode : Mode} {x : Var} {a b : Term} :
    (pi mode x a b).Below n ↔ a.Below n ∧ x.id < n ∧ b.Below n := by
  rw [Below, toScoped, Scoped.below_node, Parts.below_part, Parts.below_binder, Parts.below_one]
  exact Iff.rfl

theorem below_sigma {params : Telescope} : (sigma params).Below n ↔ Telescope.Below n params := by
  rw [Below, toScoped, Scoped.below_node, telescopeParts_below]
  exact and_iff_left Parts.below_nil

theorem below_tuple {components : List Term} {type : Term} :
    (tuple components type).Below n ↔ (∀ a ∈ components, a.Below n) ∧ type.Below n := by
  rw [Below, toScoped, Scoped.below_node, termsParts_below, Parts.below_one, Scoped.below_node,
    Parts.below_one]
  exact Iff.rfl

theorem below_proj {whole : Term} {i : Nat} : (proj whole i).Below n ↔ whole.Below n := by
  rw [Below, toScoped, Scoped.below_node, Parts.below_one]
  exact Iff.rfl

theorem below_app {fn arg : Term} : (app fn arg).Below n ↔ fn.Below n ∧ arg.Below n := by
  rw [Below, toScoped, Scoped.below_node, Parts.below_part, Parts.below_one]
  exact Iff.rfl

theorem below_call {f : DefId} {u : Universe} {args : List Term} :
    (call f u args).Below n ↔ ∀ a ∈ args, a.Below n := by
  rw [Below, toScoped, Scoped.below_node, termsParts_below]
  exact and_iff_left Parts.below_nil

theorem below_con {c : DefId} {u : Universe} {params args : List Term} :
    (con c u params args).Below n ↔ (∀ a ∈ params, a.Below n) ∧ ∀ a ∈ args, a.Below n := by
  rw [Below, toScoped, Scoped.below_node, Parts.below_part, Scoped.below_node, termsParts_below,
    termsParts_below, and_iff_left Parts.below_nil, and_iff_left Parts.below_nil]

theorem below_data {d : DefId} {u : Universe} {args : List Term} :
    (data d u args).Below n ↔ ∀ a ∈ args, a.Below n := by
  rw [Below, toScoped, Scoped.below_node, termsParts_below]
  exact and_iff_left Parts.below_nil

theorem below_record {c : DefId} {u : Universe} {fields : List (DefId × Term)} :
    (record c u fields).Below n ↔ ∀ entry ∈ fields, entry.2.Below n := by
  rw [Below, toScoped, Scoped.below_node, fieldsParts_below]

theorem below_field {f : DefId} {u : Universe} {arg : Term} :
    (field f u arg).Below n ↔ arg.Below n := by
  rw [Below, toScoped, Scoped.below_node, Parts.below_one]
  exact Iff.rfl

theorem below_new {r : Term} : (new r).Below n ↔ r.Below n := by
  rw [Below, toScoped, Scoped.below_node, Parts.below_one]
  exact Iff.rfl

theorem below_caseOf {args : List Term} {params : Telescope} {result : Term} {tree : CaseTree} :
    (caseOf args params result tree).Below n ↔ (∀ a ∈ args, a.Below n) ∧
      (Telescope.Below n params ∧ result.Below n) ∧ tree.Below n := by
  rw [Below, toScoped, Scoped.below_node, termsParts_below, Parts.below_part, Scoped.below_node,
    telescopeParts_below, Parts.below_one, Parts.below_one]
  exact Iff.rfl

end Term

namespace CaseTree

theorem below_leaf {params : Telescope} {body : Term} :
    (leaf params body).Below n ↔ Telescope.Below n params ∧ body.Below n := by
  rw [Below, toScoped, Scoped.below_node, telescopeParts_below, Parts.below_one]
  exact Iff.rfl

theorem below_branch {params : Telescope} {children : List (Shape × CaseTree)} :
    (branch params children).Below n ↔
      Telescope.Below n params ∧ ∀ entry ∈ children, entry.2.Below n := by
  rw [Below, toScoped, Scoped.below_node, telescopeParts_below, childrenParts_below]

theorem below_interval {params : Telescope} {ends : List (Ends Term)} {rest : Option CaseTree} :
    (interval params ends rest).Below n ↔ (Telescope.Below n params ∧
      ∀ e ∈ ends, (∀ t ∈ e.left, t.Below n) ∧ ∀ t ∈ e.right, t.Below n) ∧
        ∀ t ∈ rest, t.Below n := by
  rw [Below, toScoped, Scoped.below_node, Parts.below_part, Scoped.below_node, telescopeParts_below,
    endsParts_below, Parts.below_one]
  cases rest with
  | none => simp [restScoped, Scoped.below_node, Parts.below_nil]
  | some t =>
      rw [restScoped, Scoped.below_node, Parts.below_one]
      simp [Below]

end CaseTree

end PathTheory
