import PathTheory.Proofs.Syntax.Below
/-!
Terms within a scope. The variables of such a term are older than the counter, and its free
variables are among those that the scope allows; both are asked of it together because computations
keep both for the same reason. Substitution leads from the scope that it reaches into the scope of
what it puts in.
-/
namespace PathTheory

/-- If the computation ends, the counter has not gone down and the result has the property. -/
def Yields {α : Type} (a : Fresh α) (n : Nat) (P : α → Nat → Prop) : Prop :=
  ∀ x m, a n = .ok (x, m) → n ≤ m ∧ P x m

namespace Yields

variable {α β : Type} {n : Nat}

theorem pure {x : α} {P : α → Nat → Prop} (holds : P x n) : Yields (pure x) n P := by
  intro y m done
  cases fresh_pure done
  exact ⟨Nat.le_refl n, holds⟩

theorem bind {a : Fresh α} {f : α → Fresh β} {P : α → Nat → Prop} {Q : β → Nat → Prop}
    (first : Yields a n P) (next : ∀ x m, n ≤ m → P x m → Yields (f x) m Q) :
    Yields (a >>= f) n Q := by
  intro y k done
  obtain ⟨x, m, start, rest⟩ := fresh_bind done
  obtain ⟨order, holds⟩ := first x m start
  obtain ⟨later, final⟩ := next x m order holds y k rest
  exact ⟨order.trans later, final⟩

theorem weaken {a : Fresh α} {P Q : α → Nat → Prop} (first : Yields a n P)
    (holds : ∀ x m, P x m → Q x m) : Yields a n Q := by
  intro x m done
  obtain ⟨order, known⟩ := first x m done
  exact ⟨order, holds x m known⟩

theorem throw {fault : Fault} {P : α → Nat → Prop} :
    Yields (throw fault : Fresh α) n P := by
  intro x m impossible
  cases impossible

end Yields

theorem mem_termsFree {x : Var} {l : List Term} : x ∈ termsFree l ↔ ∃ a ∈ l, x ∈ a.freeVars := by
  induction l with
  | nil => simp [termsFree]
  | cons a others ih => simp [termsFree, ih]

theorem mem_fieldsFree {x : Var} {l : List (DefId × Term)} :
    x ∈ fieldsFree l ↔ ∃ entry ∈ l, x ∈ entry.2.freeVars := by
  induction l with
  | nil => simp [fieldsFree]
  | cons entry others ih => simp [fieldsFree, ih]

theorem mem_childrenFree {x : Var} {l : List (Shape × CaseTree)} :
    x ∈ childrenFree l ↔ ∃ entry ∈ l, x ∈ entry.2.freeVars := by
  induction l with
  | nil => simp [childrenFree]
  | cons entry others ih => simp [childrenFree, ih]

theorem mem_optionFree {x : Var} {a : Option Term} :
    x ∈ optionFree a ↔ ∃ t ∈ a, x ∈ t.freeVars := by
  cases a <;> simp [optionFree]

theorem mem_endsFree {x : Var} {l : List (Ends Term)} :
    x ∈ endsFree l ↔ ∃ e ∈ l, (∃ t ∈ e.left, x ∈ t.freeVars) ∨ ∃ t ∈ e.right, x ∈ t.freeVars := by
  induction l with
  | nil => simp [endsFree]
  | cons e others ih => simp [endsFree, ih, mem_optionFree, or_assoc]

/-- A variable in the scope of a telescope is bound by it or free beside it. -/
theorem mem_telescopeFree {x : Var} {params : Telescope} {inner : List Var} (member : x ∈ inner) :
    x ∈ telescopeFree params inner ∨ x ∈ params.vars := by
  induction params with
  | nil => exact .inl (by simpa [telescopeFree] using member)
  | cons b others ih =>
      by_cases same : x = b.var
      · exact .inr (by simp [Telescope.vars, same])
      · rcases ih with free | bound
        · exact .inl (by simp [telescopeFree, free, same])
        · exact .inr (List.mem_cons_of_mem _ bound)

/-- All variables are old, and the free ones are allowed. -/
structure Term.Within (V : Var → Prop) (n : Nat) (t : Term) : Prop where
  below : t.Below n
  free : ∀ x ∈ t.freeVars, V x

structure CaseTree.Within (V : Var → Prop) (n : Nat) (t : CaseTree) : Prop where
  below : t.Below n
  free : ∀ x ∈ t.freeVars, V x

section Scopes

variable {V W : Var → Prop} {n m : Nat}

theorem CaseTree.Below.mono {t : CaseTree} (below : t.Below n) (order : n ≤ m) :
    t.Below m := Scoped.Below.mono below order

theorem Telescope.Below.mono {params : Telescope} (below : Telescope.Below n params)
    (order : n ≤ m) : Telescope.Below m params := fun b member =>
  ⟨(below b member).1.trans_le order, (below b member).2.mono order⟩

theorem Term.Within.mono {t : Term} (within : t.Within V n) (order : n ≤ m) : t.Within V m :=
  ⟨within.below.mono order, within.free⟩

theorem Term.Within.widen {t : Term} (within : t.Within V n) (wider : ∀ x, V x → W x) :
    t.Within W n :=
  ⟨within.below, fun x member => wider x (within.free x member)⟩

theorem CaseTree.Within.mono {t : CaseTree} (within : t.Within V n) (order : n ≤ m) :
    t.Within V m :=
  ⟨within.below.mono order, within.free⟩

theorem CaseTree.Within.widen {t : CaseTree} (within : t.Within V n) (wider : ∀ x, V x → W x) :
    t.Within W n :=
  ⟨within.below, fun x member => wider x (within.free x member)⟩

theorem within_later {l : List Term} (within : ∀ a ∈ l, a.Within V n) (order : n ≤ m) :
    ∀ a ∈ l, a.Within V m := fun a member => (within a member).mono order

theorem below_later {l : List Term} (below : ∀ a ∈ l, a.Below n) (order : n ≤ m) :
    ∀ a ∈ l, a.Below m := fun a member => (below a member).mono order

theorem entries_later {α : Type} {l : List (α × Term)} (within : ∀ e ∈ l, e.2.Within V n)
    (order : n ≤ m) : ∀ e ∈ l, e.2.Within V m := fun e member => (within e member).mono order

theorem entries_below_later {α : Type} {l : List (α × Term)} (below : ∀ e ∈ l, e.2.Below n)
    (order : n ≤ m) : ∀ e ∈ l, e.2.Below m := fun e member => (below e member).mono order

theorem within_drop {k : Nat} {l : List Term} (within : ∀ a ∈ l, a.Within V n) :
    ∀ a ∈ l.drop k, a.Within V n := fun a member => within a (List.mem_of_mem_drop member)

theorem terms_within {l : List Term} :
    (∀ a ∈ l, a.Within V n) ↔ (∀ a ∈ l, a.Below n) ∧ ∀ x ∈ termsFree l, V x := by
  constructor
  · intro within
    refine ⟨fun a member => (within a member).below, fun x member => ?_⟩
    obtain ⟨a, inList, occurs⟩ := mem_termsFree.mp member
    exact (within a inList).free x occurs
  · rintro ⟨below, free⟩ a member
    exact ⟨below a member, fun x occurs => free x (mem_termsFree.mpr ⟨a, member, occurs⟩)⟩

namespace Term

theorem within_app {fn arg : Term} :
    (app fn arg).Within V n ↔ fn.Within V n ∧ arg.Within V n := by
  constructor
  · rintro ⟨below, free⟩
    obtain ⟨fnBelow, argBelow⟩ := below_app.mp below
    simp only [freeVars, List.mem_append] at free
    exact ⟨⟨fnBelow, fun x member => free x (.inl member)⟩,
      ⟨argBelow, fun x member => free x (.inr member)⟩⟩
  · rintro ⟨fn, arg⟩
    refine ⟨below_app.mpr ⟨fn.below, arg.below⟩, fun x member => ?_⟩
    rcases List.mem_append.mp member with inFn | inArg
    · exact fn.free x inFn
    · exact arg.free x inArg

theorem Within.lam_body {mode : Mode} {x : Var} {a b : Term} (within : (lam mode x a b).Within V n) :
    b.Within (fun z => V z ∨ z = x) n := by
  refine ⟨(below_lam.mp within.below).2.2, fun z member => ?_⟩
  by_cases same : z = x
  · exact .inr same
  · exact .inl (within.free z (by simp [freeVars, member, same]))

theorem Within.components {components : List Term} {type : Term}
    (within : (tuple components type).Within V n) : ∀ a ∈ components, a.Within V n := by
  refine terms_within.mpr ⟨(below_tuple.mp within.below).1, fun x member => ?_⟩
  exact within.free x (by simp [freeVars, member])

theorem Within.conArgs {c : DefId} {u : Universe} {params args : List Term}
    (within : (con c u params args).Within V n) : ∀ a ∈ args, a.Within V n := by
  refine terms_within.mpr ⟨(below_con.mp within.below).2, fun x member => ?_⟩
  exact within.free x (by simp [freeVars, member])

theorem within_proj {whole : Term} {i : Nat} :
    (proj whole i).Within V n ↔ whole.Within V n := by
  constructor <;> rintro ⟨below, free⟩
  · exact ⟨below_proj.mp below, free⟩
  · exact ⟨below_proj.mpr below, free⟩

theorem within_field {f : DefId} {u : Universe} {arg : Term} :
    (field f u arg).Within V n ↔ arg.Within V n := by
  constructor <;> rintro ⟨below, free⟩
  · exact ⟨below_field.mp below, free⟩
  · exact ⟨below_field.mpr below, free⟩

theorem within_call {f : DefId} {u : Universe} {args : List Term} :
    (call f u args).Within V n ↔ ∀ a ∈ args, a.Within V n := by
  rw [terms_within, ← below_call (f := f) (u := u)]
  exact ⟨fun ⟨below, free⟩ => ⟨below, free⟩, fun ⟨below, free⟩ => ⟨below, free⟩⟩

theorem within_data {d : DefId} {u : Universe} {args : List Term} :
    (data d u args).Within V n ↔ ∀ a ∈ args, a.Within V n := by
  rw [terms_within, ← below_data (d := d) (u := u)]
  exact ⟨fun ⟨below, free⟩ => ⟨below, free⟩, fun ⟨below, free⟩ => ⟨below, free⟩⟩

theorem Within.fixed {c f : DefId} {u : Universe} {fields : List (DefId × Term)} {t : Term}
    (within : (new (record c u fields)).Within V n) (found : fields.lookup f = some t) :
    t.Within V n := by
  have member := mem_of_lookup found
  refine ⟨below_record.mp (below_new.mp within.below) _ member, fun x occurs => ?_⟩
  exact within.free x (mem_fieldsFree.mpr ⟨_, member, occurs⟩)

theorem Within.caseArgs {args : List Term} {params : Telescope} {result : Term} {tree : CaseTree}
    (within : (caseOf args params result tree).Within V n) : ∀ a ∈ args, a.Within V n := by
  refine terms_within.mpr ⟨(below_caseOf.mp within.below).1, fun x member => ?_⟩
  exact within.free x (by simp [freeVars, member])

theorem Within.caseTree {args : List Term} {params : Telescope} {result : Term} {tree : CaseTree}
    (within : (caseOf args params result tree).Within V n) : tree.Within V n :=
  ⟨(below_caseOf.mp within.below).2.2, fun x member => within.free x (by simp [freeVars, member])⟩

theorem Within.applyAll {fn : Term} {args : List Term} (fnWithin : fn.Within V n)
    (argsWithin : ∀ a ∈ args, a.Within V n) : (fn.applyAll args).Within V n := by
  induction args generalizing fn with
  | nil => exact fnWithin
  | cons a others ih =>
      obtain ⟨head, tail⟩ := List.forall_mem_cons.mp argsWithin
      exact ih (within_app.mpr ⟨fnWithin, head⟩) tail

theorem Within.shown {t : Term} {shape : Shape} {components : List Term} (within : t.Within V n)
    (seen : t.shape? = some (shape, components)) : ∀ a ∈ components, a.Within V n := by
  cases t <;> simp only [Term.shape?, Option.some.injEq, Prod.mk.injEq, reduceCtorEq] at seen
  · obtain ⟨_, rfl⟩ := seen
    exact within.components
  · obtain ⟨_, rfl⟩ := seen
    exact within.conArgs

end Term

/-- The scope inside a telescope. -/
def Telescope.Scope (params : Telescope) (V : Var → Prop) (x : Var) : Prop := V x ∨ x ∈ params.vars

namespace CaseTree

theorem Within.leaf_body {params : Telescope} {body : Term}
    (within : (leaf params body).Within V n) : body.Within (params.Scope V) n := by
  refine ⟨(below_leaf.mp within.below).2, fun x member => ?_⟩
  exact (mem_telescopeFree member).imp (within.free x) id

theorem Within.children {params : Telescope} {children : List (Shape × CaseTree)}
    (within : (branch params children).Within V n) :
    ∀ entry ∈ children, entry.2.Within (params.Scope V) n := by
  intro entry member
  refine ⟨(below_branch.mp within.below).2 entry member, fun x occurs => ?_⟩
  exact (mem_telescopeFree (mem_childrenFree.mpr ⟨entry, member, occurs⟩)).imp (within.free x) id

theorem Within.ends {params : Telescope} {ends : List (Ends Term)} {rest : Option CaseTree}
    (within : (interval params ends rest).Within V n) : ∀ e ∈ ends,
      (∀ t ∈ e.left, t.Within (params.Scope V) n) ∧ ∀ t ∈ e.right, t.Within (params.Scope V) n := by
  intro e member
  have free : ∀ x ∈ telescopeFree params (endsFree ends), V x := by
    intro x occurs
    exact within.free x (by simp [freeVars, occurs])
  have inScope : ∀ x ∈ endsFree ends, params.Scope V x := fun x occurs =>
    (mem_telescopeFree occurs).imp (free x) id
  obtain ⟨left, right⟩ := (below_interval.mp within.below).1.2 e member
  refine ⟨fun t is => ⟨left t is, fun x occurs => inScope x ?_⟩,
    fun t is => ⟨right t is, fun x occurs => inScope x ?_⟩⟩
  · exact mem_endsFree.mpr ⟨e, member, .inl ⟨t, is, occurs⟩⟩
  · exact mem_endsFree.mpr ⟨e, member, .inr ⟨t, is, occurs⟩⟩

theorem Within.rest {params : Telescope} {ends : List (Ends Term)} {rest : Option CaseTree}
    (within : (interval params ends rest).Within V n) : ∀ t ∈ rest, t.Within V n := by
  intro t is
  refine ⟨(below_interval.mp within.below).2 t is, fun x occurs => within.free x ?_⟩
  cases is
  simp [freeVars, restFree, occurs]

end CaseTree

end Scopes

namespace Subst

variable {s : Subst} {V : Var → Prop} {n m : Nat}

/-- What universes become; the value where they become nothing does not matter. -/
def onUniverse (s : Subst) (u : Universe) : Universe :=
  match s.sort u with
  | .ok v => v
  | .error _ => u

theorem onUniverse_eq {u v : Universe} (done : s.sort u = .ok v) : s.onUniverse u = v := by
  simp [onUniverse, done]

/-- A substitution without solutions that puts in terms within the scope. -/
structure Within (s : Subst) (V : Var → Prop) (n : Nat) : Prop extends s.Covered n where
  still : s.zonks = false
  free : ∀ x t, s.get? x = some t → ∀ w ∈ t.freeVars, V w

/-- The scope that the substitution leads out of. -/
def Reach (s : Subst) (V : Var → Prop) (x : Var) : Prop := V x ∨ (s.get? x).isSome

theorem Within.mono (within : s.Within V n) (order : n ≤ m) : s.Within V m where
  range := within.range
  below x t known := (within.below x t known).mono order
  still := within.still
  free := within.free

theorem within_empty : empty.Within V n where
  range x t known := by cases known
  below x t known := by cases known
  still := rfl
  free x t known := by cases known

theorem Within.add (within : s.Within V n) {x : Var} {t : Term} (inScope : t.Within V n) :
    (s.add x t).Within V n where
  range := by
    intro z u known w member
    rw [get?_add] at known
    split at known
    · cases known
      exact List.mem_append_left _ member
    · exact List.mem_append_right _ (within.range z u known w member)
  below := by
    intro z u known
    rw [get?_add] at known
    split at known
    · cases known
      exact inScope.below
    · exact within.below z u known
  still := within.still
  free := by
    intro z u known
    rw [get?_add] at known
    split at known
    · cases known
      exact inScope.free
    · exact within.free z u known

theorem Within.addStd (within : s.Within V n) (u : Universe) : (s.addStd u).Within V n :=
  ⟨⟨within.range, within.below⟩, within.still, within.free⟩

theorem Within.bind (within : s.Within V n) (params : Telescope) {args : List Term}
    (inScope : ∀ a ∈ args, a.Within V n) : (s.bind params args).Within V n := by
  unfold Subst.bind
  induction params generalizing s args with
  | nil => exact within
  | cons b others ih =>
      cases args with
      | nil => exact within
      | cons a rest =>
          obtain ⟨head, tail⟩ := List.forall_mem_cons.mp inScope
          exact ih (within.add head) tail

theorem bind_nil (s : Subst) (params : Telescope) : s.bind params [] = s := by
  simp [bind]

theorem bind_cons (s : Subst) (b : Binding Term) (params : Telescope) (a : Term)
    (args : List Term) : s.bind (b :: params) (a :: args) = (s.add b.var a).bind params args := rfl

theorem bind_levels (s : Subst) (params : Telescope) (args : List Term) :
    (s.bind params args).levels = s.levels := by
  induction params generalizing s args with
  | nil => rfl
  | cons b others ih =>
      cases args with
      | nil => rw [bind_nil]
      | cons a rest => exact ih (s.add b.var a) rest

theorem Simple.bind (simple : s.Simple) (params : Telescope)
    (args : List Term) : (s.bind params args).Simple := by
  induction params generalizing s args with
  | nil => exact simple
  | cons b params ih =>
      cases args with
      | nil => rwa [bind_nil]
      | cons a args => exact ih (simple.add b.var a) args

theorem Reach.add {x z : Var} {t : Term} (reach : s.Reach V z) : (s.add x t).Reach V z := by
  refine reach.imp id fun known => ?_
  rw [get?_add]
  split
  · rfl
  · exact known

/-- Enough arguments lead out of the scope of the telescope. -/
theorem Reach.bind {params : Telescope} {args : List Term} (enough : params.length ≤ args.length)
    {z : Var} (reach : params.Scope (s.Reach V) z) : (s.bind params args).Reach V z := by
  induction params generalizing s args with
  | nil => exact reach.resolve_right (by simp [Telescope.vars])
  | cons b others ih =>
      cases args with
      | nil => cases enough
      | cons a rest =>
          rw [bind_cons]
          apply ih (Nat.le_of_succ_le_succ enough)
          rcases reach with outer | bound
          · exact .inl outer.add
          · rcases List.mem_cons.mp bound with rfl | later
            · exact .inl (.inr (by simp [get?_add]))
            · exact .inr later

/-- What is free in the instance of a reading comes from the scope of what was put in. -/
theorem Within.free_inst (within : s.Within V n) {f : Universe → Universe} {t : Nameless}
    (inReach : ∀ x ∈ t.freeVars, s.Reach V x) :
    ∀ x ∈ (t.inst f fun z => (s.image z).reading).freeVars, V x := by
  intro x member
  obtain ⟨z, occurs, becomes⟩ := t.mem_inst_freeVars.mp member
  rw [Term.mem_reading_freeVars] at becomes
  cases known : s.get? z with
  | none =>
      have same : x = z := by
        simpa [image, known, Term.freeVars] using becomes
      subst same
      simpa [Reach, known] using inReach x occurs
  | some t =>
      have inImage : x ∈ t.freeVars := by
        simpa [image, known] using becomes
      exact within.free z t known x inImage

/-- A substitution of terms only leaves universes alone. -/
theorem Within.simple_reading (within : s.Within V n) (simple : s.Simple) {env : Environment}
    {t t' : Term} (below : t.Below n) (done : s.apply env t n = .ok (t', m)) : n ≤ m ∧ t'.Below m ∧
      t'.reading = t.reading.inst id fun z => (s.image z).reading := by
  refine within.apply_reading within.still (fun u v sorted => ?_) below done
  simpa [sort, simple.levels] using sorted

/-- Substitution leads from its reach into the scope, and the reading is the instance. -/
theorem Within.yields (within : s.Within V n) {env : Environment} {t : Term}
    (inReach : t.Within (s.Reach V) n) : Yields (s.apply env t) n fun t' m =>
      t'.Within V m ∧ t'.reading = t.reading.inst s.onUniverse fun z => (s.image z).reading := by
  intro t' m done
  obtain ⟨order, below, reading⟩ := within.apply_reading within.still
    (fun _ _ => onUniverse_eq) inReach.below done
  refine ⟨order, ⟨below, fun x member => ?_⟩, reading⟩
  rw [← Term.mem_reading_freeVars, reading] at member
  exact within.free_inst (fun z occurs => inReach.free z (Term.mem_reading_freeVars.mp occurs))
    x member

theorem Within.yields_tree (within : s.Within V n) {env : Environment} {t : CaseTree}
    (inReach : t.Within (s.Reach V) n) : Yields (s.applyTree env t) n fun t' m =>
      t'.Within V m ∧ t'.reading = t.reading.inst s.onUniverse fun z => (s.image z).reading := by
  intro t' m done
  obtain ⟨order, below, reading⟩ := within.applyTree_reading within.still
    (fun _ _ => onUniverse_eq) inReach.below done
  refine ⟨order, ⟨below, fun x member => ?_⟩, reading⟩
  rw [← CaseTree.mem_reading_freeVars, reading] at member
  exact within.free_inst (fun z occurs => inReach.free z (CaseTree.mem_reading_freeVars.mp occurs))
    x member

end Subst

end PathTheory
