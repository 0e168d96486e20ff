import PathTheory.Proofs.Syntax.Solving
import PathTheory.Reduction
/-!
What terms may mention: which metavariables, which definitions and data types, and whether errors.
The main statement is that substitution goes from one allowance to another if what it puts in does;
putting in the solutions of solved metavariables is the case where fewer of them are left.
-/
namespace PathTheory

/-- Whatever a computation ends with has the property. -/
def Fresh.Always {α : Type} (a : Fresh α) (P : α → Prop) : Prop :=
  ∀ n x m, a n = .ok (x, m) → P x

namespace Fresh.Always

variable {α β : Type} {P Q : α → Prop} {R : β → Prop}

theorem pure {x : α} (holds : P x) : Fresh.Always (pure x) P := by
  intro n y m done
  cases fresh_pure done
  exact holds

theorem bind {a : Fresh α} {f : α → Fresh β} (first : a.Always P)
    (next : ∀ x, P x → (f x).Always R) : Fresh.Always (a >>= f) R := by
  intro n y m done
  obtain ⟨x, k, start, rest⟩ := fresh_bind done
  exact next x (first n x k start) k y m rest

theorem map {a : Fresh α} {f : α → β} (first : a.Always fun x => R (f x)) :
    Fresh.Always (f <$> a) R := by
  intro n y m done
  obtain ⟨x, k, start, same⟩ := fresh_map done
  cases same
  exact first n x _ start

theorem weaken {a : Fresh α} (first : a.Always P) (weaker : ∀ x, P x → Q x) : a.Always Q :=
  fun n x m done => weaker x (first n x m done)

theorem anything {a : Fresh α} : a.Always fun _ => True := fun _ _ _ _ => trivial

theorem throw {fault : Fault} : Fresh.Always (throw fault : Fresh α) P := by
  intro n x m impossible
  cases impossible

theorem lift {a : Checked α} (holds : ∀ x, a = .ok x → P x) : Fresh.Always (liftM a) P := by
  intro n x m done
  obtain ⟨y, run, same⟩ := fresh_lift done
  cases same
  exact holds _ run

theorem mapM {γ : Type} {f : γ → Fresh α} {l : List γ} (each : ∀ c ∈ l, (f c).Always P) :
    Fresh.Always (l.mapM f) fun r => ∀ x ∈ r, P x := by
  induction l with
  | nil =>
      rw [List.mapM_nil]
      exact .pure (List.forall_mem_nil _)
  | cons c l ih =>
      rw [List.mapM_cons]
      obtain ⟨here, others⟩ := List.forall_mem_cons.mp each
      refine .bind here fun x holds => .bind (ih others) fun r rest => .pure ?_
      exact List.forall_mem_cons.mpr ⟨holds, rest⟩

end Fresh.Always

/-- What terms may mention. -/
structure Allowance where
  hole : MetaId → Prop
  -- whether something may be missing
  error : Prop
  definition : DefId → Prop
  -- heads of types that have constructors
  data : DefId → Prop

/-- Everything that the first one allows is allowed by the second one. -/
structure Allowance.Le (A B : Allowance) : Prop where
  hole : ∀ m, A.hole m → B.hole m
  error : A.error → B.error
  definition : ∀ d, A.definition d → B.definition d
  data : ∀ d, A.data d → B.data d

instance : Preorder Allowance where
  le := Allowance.Le
  le_refl _ := ⟨fun _ => id, id, fun _ => id, fun _ => id⟩
  le_trans _ _ _ first next := ⟨fun m h => next.hole m (first.hole m h),
    fun h => next.error (first.error h), fun d h => next.definition d (first.definition d h),
    fun d h => next.data d (first.data d h)⟩

/-- What a node mentions by itself. -/
def Label.Allowed (A : Allowance) : Label → Prop
  | .call f _ => A.definition f
  | .con c _ => A.definition c
  | .data d _ => A.data d
  | .record c _ => A.definition c
  | .field f _ => A.definition f
  | .error _ => A.error
  | _ => True

mutual

def Scoped.Allowed (A : Allowance) : Scoped → Prop
  | .var _ => True
  | .hole m => A.hole m
  | .node label parts => label.Allowed A ∧ parts.Allowed A

def Parts.Allowed (A : Allowance) : Parts → Prop
  | .nil => True
  | .part t rest => t.Allowed A ∧ rest.Allowed A
  | .binder _ _ rest => rest.Allowed A

end

def Term.Allowed (A : Allowance) (t : Term) : Prop := t.toScoped.Allowed A

def CaseTree.Allowed (A : Allowance) (t : CaseTree) : Prop := t.toScoped.Allowed A

def Telescope.Allowed (A : Allowance) (params : Telescope) : Prop :=
  ∀ b ∈ params, b.type.Allowed A

def Ends.Allowed (A : Allowance) (e : Ends Term) : Prop :=
  (∀ t ∈ e.left, t.Allowed A) ∧ ∀ t ∈ e.right, t.Allowed A

section Constructors

variable {A B : Allowance}

@[simp]
theorem Parts.one_allowed {t : Scoped} : (Parts.one t).Allowed A ↔ t.Allowed A := by
  simp [Parts.one, Parts.Allowed]

@[simp]
theorem termsParts_allowed {l : List Term} {rest : Parts} :
    (termsParts l rest).Allowed A ↔ (∀ a ∈ l, a.Allowed A) ∧ rest.Allowed A := by
  induction l with
  | nil => simp [termsParts]
  | cons a others ih => simp [termsParts, Parts.Allowed, ih, and_assoc, Term.Allowed]

@[simp]
theorem telescopeParts_allowed {l : Telescope} {rest : Parts} :
    (telescopeParts l rest).Allowed A ↔ Telescope.Allowed A l ∧ rest.Allowed A := by
  induction l with
  | nil => simp [telescopeParts, Telescope.Allowed]
  | cons b others ih =>
      have split : Telescope.Allowed A (b :: others) ↔
          b.type.Allowed A ∧ Telescope.Allowed A others := List.forall_mem_cons
      rw [telescopeParts, Parts.Allowed, Parts.Allowed, ih, split, and_assoc]
      exact Iff.rfl

@[simp]
theorem fieldsParts_allowed {l : List (DefId × Term)} :
    (fieldsParts l).Allowed A ↔ ∀ entry ∈ l, entry.2.Allowed A := by
  induction l with
  | nil => simp [fieldsParts, Parts.Allowed]
  | cons entry others ih =>
      simp [fieldsParts, Parts.Allowed, Scoped.Allowed, Label.Allowed, ih, Term.Allowed]

@[simp]
theorem childrenParts_allowed {l : List (Shape × CaseTree)} :
    (childrenParts l).Allowed A ↔ ∀ entry ∈ l, entry.2.Allowed A := by
  induction l with
  | nil => simp [childrenParts, Parts.Allowed]
  | cons entry others ih =>
      simp [childrenParts, Parts.Allowed, Scoped.Allowed, Label.Allowed, ih, CaseTree.Allowed]

@[simp]
theorem optionScoped_allowed {a : Option Term} :
    (optionScoped a).Allowed A ↔ ∀ t ∈ a, t.Allowed A := by
  cases a <;>
    simp [optionScoped, Scoped.Allowed, Parts.Allowed, Label.Allowed, Term.Allowed]

@[simp]
theorem endsParts_allowed {l : List (Ends Term)} :
    (endsParts l).Allowed A ↔ ∀ e ∈ l, e.Allowed A := by
  induction l with
  | nil => simp [endsParts, Parts.Allowed]
  | cons e others ih => simp [endsParts, Parts.Allowed, ih, Ends.Allowed, and_assoc]

@[simp]
theorem restScoped_allowed {t : Option CaseTree} :
    (restScoped t).Allowed A ↔ ∀ tree ∈ t, tree.Allowed A := by
  cases t <;>
    simp [restScoped, Scoped.Allowed, Parts.Allowed, Label.Allowed, CaseTree.Allowed]

namespace Term

@[simp]
theorem allowed_ref {x : Var} : (ref x).Allowed A := trivial

@[simp]
theorem allowed_lam {mode : Mode} {x : Var} {a b : Term} :
    (lam mode x a b).Allowed A ↔ a.Allowed A ∧ b.Allowed A := by
  simp [Allowed, toScoped, Scoped.Allowed, Parts.Allowed, Label.Allowed]

@[simp]
theorem allowed_pi {mode : Mode} {x : Var} {a b : Term} :
    (pi mode x a b).Allowed A ↔ a.Allowed A ∧ b.Allowed A := by
  simp [Allowed, toScoped, Scoped.Allowed, Parts.Allowed, Label.Allowed]

@[simp]
theorem allowed_sigma {params : Telescope} :
    (sigma params).Allowed A ↔ Telescope.Allowed A params := by
  simp [Allowed, toScoped, Scoped.Allowed, Parts.Allowed, Label.Allowed]

@[simp]
theorem allowed_tuple {components : List Term} {type : Term} :
    (tuple components type).Allowed A ↔ (∀ a ∈ components, a.Allowed A) ∧ type.Allowed A := by
  simp [Allowed, toScoped, Scoped.Allowed, Label.Allowed]

@[simp]
theorem allowed_proj {whole : Term} {i : Nat} : (proj whole i).Allowed A ↔ whole.Allowed A := by
  simp [Allowed, toScoped, Scoped.Allowed, Label.Allowed]

@[simp]
theorem allowed_univ {u : Universe} : (univ u).Allowed A := ⟨trivial, trivial⟩

@[simp]
theorem allowed_app {fn arg : Term} : (app fn arg).Allowed A ↔ fn.Allowed A ∧ arg.Allowed A := by
  simp [Allowed, toScoped, Scoped.Allowed, Parts.Allowed, Label.Allowed]

@[simp]
theorem allowed_call {f : DefId} {u : Universe} {args : List Term} :
    (call f u args).Allowed A ↔ A.definition f ∧ ∀ a ∈ args, a.Allowed A := by
  simp [Allowed, toScoped, Scoped.Allowed, Parts.Allowed, Label.Allowed]

@[simp]
theorem allowed_con {c : DefId} {u : Universe} {params args : List Term} :
    (con c u params args).Allowed A ↔
      A.definition c ∧ (∀ a ∈ params, a.Allowed A) ∧ ∀ a ∈ args, a.Allowed A := by
  simp [Allowed, toScoped, Scoped.Allowed, Parts.Allowed, Label.Allowed]

@[simp]
theorem allowed_data {d : DefId} {u : Universe} {args : List Term} :
    (data d u args).Allowed A ↔ A.data d ∧ ∀ a ∈ args, a.Allowed A := by
  simp [Allowed, toScoped, Scoped.Allowed, Parts.Allowed, Label.Allowed]

@[simp]
theorem allowed_record {c : DefId} {u : Universe} {fields : List (DefId × Term)} :
    (record c u fields).Allowed A ↔
      A.definition c ∧ ∀ entry ∈ fields, entry.2.Allowed A := by
  simp [Allowed, toScoped, Scoped.Allowed, Label.Allowed]

@[simp]
theorem allowed_field {f : DefId} {u : Universe} {arg : Term} :
    (field f u arg).Allowed A ↔ A.definition f ∧ arg.Allowed A := by
  simp [Allowed, toScoped, Scoped.Allowed, Label.Allowed]

@[simp]
theorem allowed_new {r : Term} : (new r).Allowed A ↔ r.Allowed A := by
  simp [Allowed, toScoped, Scoped.Allowed, Label.Allowed]

@[simp]
theorem allowed_caseOf {args : List Term} {params : Telescope} {result : Term}
    {tree : CaseTree} : (caseOf args params result tree).Allowed A ↔
      (∀ a ∈ args, a.Allowed A) ∧ (Telescope.Allowed A params ∧ result.Allowed A) ∧
        tree.Allowed A := by
  simp [Allowed, CaseTree.Allowed, toScoped, Scoped.Allowed, Parts.Allowed, Label.Allowed]

@[simp]
theorem allowed_hole {m : MetaId} : (hole m).Allowed A ↔ A.hole m := Iff.rfl

@[simp]
theorem allowed_error {message : String} {t : Option Term} :
    (error message t).Allowed A ↔ A.error ∧ ∀ a ∈ t, a.Allowed A := by
  simp [Allowed, toScoped, Scoped.Allowed, Label.Allowed]

theorem allowed_note {message : String} : (error message none).Allowed A ↔ A.error := by simp

end Term

namespace CaseTree

@[simp]
theorem allowed_leaf {params : Telescope} {body : Term} :
    (leaf params body).Allowed A ↔ Telescope.Allowed A params ∧ body.Allowed A := by
  simp [Allowed, Term.Allowed, toScoped, Scoped.Allowed, Label.Allowed]

@[simp]
theorem allowed_branch {params : Telescope} {children : List (Shape × CaseTree)} :
    (branch params children).Allowed A ↔
      Telescope.Allowed A params ∧ ∀ entry ∈ children, entry.2.Allowed A := by
  simp [Allowed, toScoped, Scoped.Allowed, Label.Allowed]

@[simp]
theorem allowed_interval {params : Telescope} {ends : List (Ends Term)}
    {rest : Option CaseTree} : (interval params ends rest).Allowed A ↔
      (Telescope.Allowed A params ∧ ∀ e ∈ ends, e.Allowed A) ∧ ∀ t ∈ rest, t.Allowed A := by
  simp [Allowed, toScoped, Scoped.Allowed, Parts.Allowed, Label.Allowed]

end CaseTree

@[simp]
theorem Telescope.allowed_nil : Telescope.Allowed A [] := List.forall_mem_nil _

@[simp]
theorem Telescope.allowed_cons {b : Binding Term} {params : Telescope} :
    Telescope.Allowed A (b :: params) ↔ b.type.Allowed A ∧ Telescope.Allowed A params :=
  List.forall_mem_cons

theorem Telescope.Allowed.drop {params : Telescope} (allowed : Telescope.Allowed A params)
    (k : Nat) : Telescope.Allowed A (params.drop k) := fun b member =>
  allowed b (List.mem_of_mem_drop member)

theorem Telescope.Allowed.append {first second : Telescope} (one : Telescope.Allowed A first)
    (other : Telescope.Allowed A second) : Telescope.Allowed A (first ++ second) :=
  List.forall_mem_append.mpr ⟨one, other⟩

theorem Term.allowed_applyAll {fn : Term} {args : List Term} (head : fn.Allowed A)
    (given : ∀ a ∈ args, a.Allowed A) : (fn.applyAll args).Allowed A := by
  induction args generalizing fn with
  | nil => exact head
  | cons a args ih =>
      obtain ⟨here, others⟩ := List.forall_mem_cons.mp given
      exact ih (Term.allowed_app.mpr ⟨head, here⟩) others

@[simp]
theorem Term.allowed_piOver {params : Telescope} {result : Term} :
    (Term.piOver params result).Allowed A ↔
      Telescope.Allowed A params ∧ result.Allowed A := by
  induction params with
  | nil => simp [Term.piOver]
  | cons b params ih =>
      have step : Term.piOver (b :: params) result =
          .pi b.mode b.var b.type (Term.piOver params result) := rfl
      rw [step, Term.allowed_pi, ih, Telescope.allowed_cons, and_assoc]

@[simp]
theorem Term.allowed_lamOver {params : Telescope} {body : Term} :
    (Term.lamOver params body).Allowed A ↔ Telescope.Allowed A params ∧ body.Allowed A := by
  induction params with
  | nil => simp [Term.lamOver]
  | cons b params ih =>
      have step : Term.lamOver (b :: params) body =
          .lam b.mode b.var b.type (Term.lamOver params body) := rfl
      rw [step, Term.allowed_lam, ih, Telescope.allowed_cons, and_assoc]

/-- The components that a match gets from a value are parts of it. -/
theorem Term.Allowed.shown {t : Term} {shape : Shape} {components : List Term}
    (allowed : t.Allowed A) (shows : t.shape? = some (shape, components)) :
    ∀ a ∈ components, a.Allowed A := by
  unfold Term.shape? at shows
  split at shows
  · cases shows
    exact (Term.allowed_con.mp allowed).2.2
  · cases shows
    exact (Term.allowed_tuple.mp allowed).1
  · cases shows

theorem Term.Allowed.fixed {t value : Term} {f : DefId} (allowed : t.Allowed A)
    (found : t.fixed? f = some value) : value.Allowed A := by
  unfold Term.fixed? at found
  split at found
  · exact (Term.allowed_record.mp allowed).2 _ (mem_of_lookup found)
  · cases found

theorem Ends.Allowed.at {e : Ends Term} {side : Endpoint} {t : Term} (allowed : e.Allowed A)
    (found : e.at? side = some t) : t.Allowed A := by
  cases side with
  | left => exact allowed.1 t found
  | right => exact allowed.2 t found

end Constructors

section Order

variable {A B : Allowance}

theorem Label.Allowed.mono {l : Label} (allowed : l.Allowed A)
    (error : A.error → B.error) (definition : ∀ d, A.definition d → B.definition d)
    (data : ∀ d, A.data d → B.data d) : l.Allowed B := by
  cases l <;> first
    | exact definition _ allowed
    | exact data _ allowed
    | exact error allowed
    | trivial

mutual

theorem Scoped.Allowed.mono (order : A ≤ B) : ∀ t : Scoped, t.Allowed A → t.Allowed B
  | .var _, _ => trivial
  | .hole m, allowed => order.hole m allowed
  | .node _ parts, ⟨own, inside⟩ =>
      ⟨own.mono order.error order.definition order.data, Parts.Allowed.mono order parts inside⟩

theorem Parts.Allowed.mono (order : A ≤ B) : ∀ t : Parts, t.Allowed A → t.Allowed B
  | .nil, _ => trivial
  | .part t rest, ⟨head, tail⟩ =>
      ⟨Scoped.Allowed.mono order t head, Parts.Allowed.mono order rest tail⟩
  | .binder _ _ rest, inside => Parts.Allowed.mono order rest inside

end

theorem Term.Allowed.mono {t : Term} (allowed : t.Allowed A) (order : A ≤ B) : t.Allowed B :=
  Scoped.Allowed.mono order _ allowed

theorem CaseTree.Allowed.mono {t : CaseTree} (allowed : t.Allowed A) (order : A ≤ B) :
    t.Allowed B := Scoped.Allowed.mono order _ allowed

theorem Telescope.Allowed.mono {params : Telescope} (allowed : Telescope.Allowed A params)
    (order : A ≤ B) : Telescope.Allowed B params := fun b member =>
  (allowed b member).mono order

theorem Term.allowed_mono {l : List Term} (allowed : ∀ a ∈ l, a.Allowed A) (order : A ≤ B) :
    ∀ a ∈ l, a.Allowed B := fun a member => (allowed a member).mono order

mutual

theorem Scoped.Allowed.hole {m : MetaId} : ∀ t : Scoped, t.Allowed A → m ∈ t.holes → A.hole m
  | .var _, _, member => nomatch member
  | .hole _, allowed, member => List.mem_singleton.mp member ▸ allowed
  | .node _ parts, allowed, member => Parts.Allowed.hole parts allowed.2 member

theorem Parts.Allowed.hole {m : MetaId} : ∀ t : Parts, t.Allowed A → m ∈ t.holes → A.hole m
  | .nil, _, member => nomatch member
  | .part t rest, allowed, member => (List.mem_append.mp member).elim
      (Scoped.Allowed.hole t allowed.1) (Parts.Allowed.hole rest allowed.2)
  | .binder _ _ rest, allowed, member => Parts.Allowed.hole rest allowed member

end

theorem Term.Allowed.hole {t : Term} (allowed : t.Allowed A) {m : MetaId} (member : m ∈ t.holes) :
    A.hole m := by
  rw [← t.toScoped_holes] at member
  exact Scoped.Allowed.hole t.toScoped allowed member

def Label.faults : Label → List Unit
  | .error _ => [()]
  | _ => []

mutual

theorem Scoped.Allowed.noFault (strict : ¬ A.error) : ∀ t : Scoped, t.Allowed A →
    t.gather Label.faults (fun _ => []) = []
  | .var _, _ | .hole _, _ => rfl
  | .node l parts, ⟨own, inside⟩ => by
      have none : l.faults = [] := by
        cases l <;> first | rfl | exact absurd own strict
      rw [Scoped.gather, none, List.nil_append]
      exact Parts.Allowed.noFault strict parts inside

theorem Parts.Allowed.noFault (strict : ¬ A.error) : ∀ t : Parts, t.Allowed A →
    t.gather Label.faults (fun _ => []) = []
  | .nil, _ => rfl
  | .part t rest, ⟨head, tail⟩ => by
      rw [Parts.gather, Scoped.Allowed.noFault strict t head,
        Parts.Allowed.noFault strict rest tail, List.nil_append]
  | .binder _ _ rest, inside => Parts.Allowed.noFault strict rest inside

end

/-- Where nothing may be missing, no error stands in for anything. -/
theorem Term.noError_of_gather {t : Term}
    (none : t.toScoped.gather Label.faults (fun _ => []) = []) :
    ∀ part ∈ t.subterms, part.isError = false := by
  have reads : Reads (fun t : Term => if t.isError then [()] else []) Label.faults fun _ => [] :=
    ⟨fun t => by cases t <;> rfl, fun l inner => by cases l <;> first | rfl | cases inner⟩
  rw [← reads.subterms, List.flatMap_eq_nil_iff] at none
  intro part member
  simpa using none part member

/-- Every allowance that excludes nothing. -/
structure Allowance.Free (A : Allowance) : Prop where
  hole : ∀ m, A.hole m
  error : A.error
  definition : ∀ d, A.definition d
  data : ∀ d, A.data d

theorem Label.allowed_of_free (free : A.Free) (l : Label) : l.Allowed A := by
  cases l <;> first
    | exact free.definition _
    | exact free.data _
    | exact free.error
    | trivial

mutual

theorem Scoped.allowed_of_free (free : A.Free) : ∀ t : Scoped, t.Allowed A
  | .var _ => trivial
  | .hole m => free.hole m
  | .node l parts => ⟨l.allowed_of_free free, parts.allowed_of_free free⟩

theorem Parts.allowed_of_free (free : A.Free) : ∀ t : Parts, t.Allowed A
  | .nil => trivial
  | .part t rest => ⟨t.allowed_of_free free, rest.allowed_of_free free⟩
  | .binder _ _ rest => rest.allowed_of_free free

end

theorem Term.allowed_of_free (free : A.Free) (t : Term) : t.Allowed A :=
  t.toScoped.allowed_of_free free

theorem CaseTree.allowed_of_free (free : A.Free) (t : CaseTree) : t.Allowed A :=
  t.toScoped.allowed_of_free free

end Order

section Substitution

variable {A B : Allowance}

/-- What is put in for variables is allowed. -/
def Subst.Allowed (A : Allowance) (s : Subst) : Prop := ∀ entry ∈ s.terms, entry.2.Allowed A

namespace Subst

variable {s : Subst}

theorem Allowed.get? (images : s.Allowed A) {x : Var} {t : Term} (found : s.get? x = some t) :
    t.Allowed A := images _ (mem_of_lookup found)

theorem Allowed.mono (images : s.Allowed A) (order : A ≤ B) : s.Allowed B :=
  fun entry member => (images entry member).mono order

@[simp]
theorem allowed_empty : Subst.empty.Allowed A := List.forall_mem_nil _

@[simp]
theorem allowed_zonking {levels : List (LevelVar × Level)} :
    (Subst.zonking.withLevels levels).Allowed A := List.forall_mem_nil _

@[simp]
theorem allowed_std {u : Universe} : (Subst.std u).Allowed A := List.forall_mem_nil _

@[simp]
theorem allowed_addStd {u : Universe} : (s.addStd u).Allowed A ↔ s.Allowed A := Iff.rfl

@[simp]
theorem allowed_add {x : Var} {t : Term} :
    (s.add x t).Allowed A ↔ t.Allowed A ∧ s.Allowed A := List.forall_mem_cons

@[simp]
theorem allowed_single {x : Var} {t : Term} : (Subst.single x t).Allowed A ↔ t.Allowed A := by
  simp [Subst.single]

theorem Allowed.remove (images : s.Allowed A) (x : Var) : (s.remove x).Allowed A :=
  fun entry member => images entry (List.mem_filter.mp member).1

theorem Allowed.bind (images : s.Allowed A) {params : Telescope} {args : List Term}
    (given : ∀ a ∈ args, a.Allowed A) :
    (s.bind params args).Allowed A ∧ (s.bind params args).zonks = s.zonks := by
  unfold Subst.bind
  induction params generalizing s args with
  | nil => exact ⟨images, rfl⟩
  | cons b params ih =>
      cases args with
      | nil => exact ⟨images, rfl⟩
      | cons a args =>
          obtain ⟨here, others⟩ := List.forall_mem_cons.mp given
          exact ih (s := s.add b.var a) (allowed_add.mpr ⟨here, images⟩) others

theorem allowed_instantiate {params : Telescope} {args : List Term}
    (given : ∀ a ∈ args, a.Allowed A) : (Subst.instantiate params args).Allowed A :=
  (allowed_empty.bind given).1

/-- Behind a binder what is put in is allowed as before. -/
theorem Allowed.under (images : s.Allowed A) (x : Var) :
    (s.under x).Always fun r => r.2.Allowed A ∧ r.2.zonks = s.zonks := by
  unfold Subst.under
  split
  · refine .bind .anything fun y _ => .pure ⟨?_, rfl⟩
    exact allowed_add.mpr ⟨Term.allowed_ref, images⟩
  · refine .pure ?_
    split
    · exact ⟨images.remove x, rfl⟩
    · exact ⟨images, rfl⟩

end Subst

theorem Label.Allowed.mapM {f : Universe → Checked Universe} {l l' : Label}
    (allowed : l.Allowed A) (done : l.mapM f = .ok l') : l'.Allowed A := by
  cases l <;> first
    | (obtain ⟨_, _, same⟩ := bind_ok done; cases same; exact allowed)
    | (cases done; exact allowed)

/-- How metavariables pass from one allowance to another under substitutions that zonk or do not. -/
structure HoleRule.Carries (rule : HoleRule) (A B : Allowance) (zonks : Bool) : Prop where
  error : A.error → B.error
  definition : ∀ d, A.definition d → B.definition d
  data : ∀ d, A.data d → B.data d
  -- a substitution that does not zonk may do nothing at all
  idle : zonks = false → ∀ m, A.hole m → B.hole m
  hole : ∀ (s : Subst) (m : MetaId), s.zonks = zonks → s.Allowed B → A.hole m →
    (rule s m).Always (·.Allowed B)

variable {rule : HoleRule} {zonks : Bool}

theorem HoleRule.Carries.order (carries : rule.Carries A B zonks) {s : Subst}
    (kind : s.zonks = zonks) (idle : s.isEmpty = true) : A ≤ B := by
  have still : zonks = false := by
    rw [← kind]
    simp_all [Subst.isEmpty]
  exact ⟨carries.idle still, carries.error, carries.definition, carries.data⟩

mutual

theorem Scoped.subst_allowed (carries : rule.Carries A B zonks) : ∀ (t : Scoped) (s : Subst),
    s.zonks = zonks → s.Allowed B → t.Allowed A → (t.subst rule s).Always (·.Allowed B)
  | .var x, s, _, images, _ => by
      refine .pure ?_
      cases found : s.get? x with
      | none => trivial
      | some t => exact images.get? found
  | .hole m, s, kind, images, allowed => by
      unfold Scoped.subst
      split
      · rename_i idle
        exact .pure ((carries.order kind idle).hole m allowed)
      · exact .bind (carries.hole s m kind images allowed) fun _ given => .pure given
  | .node label parts, s, kind, images, ⟨own, inside⟩ => by
      unfold Scoped.subst
      split
      · rename_i idle
        have order := carries.order kind (Bool.and_eq_true_iff.mp idle).1
        exact .pure (Scoped.Allowed.mono order (.node label parts) ⟨own, inside⟩)
      · refine .bind (.lift fun label' done => own.mapM done) fun label' own' => ?_
        refine .bind (parts.subst_allowed carries s kind images inside) fun _ inside' => .pure ?_
        exact ⟨own'.mono carries.error carries.definition carries.data, inside'⟩

theorem Parts.subst_allowed (carries : rule.Carries A B zonks) : ∀ (t : Parts) (s : Subst),
    s.zonks = zonks → s.Allowed B → t.Allowed A → (t.subst rule s).Always (·.Allowed B)
  | .nil, _, _, _, _ => .pure trivial
  | .part t rest, s, kind, images, ⟨head, tail⟩ =>
      .bind (t.subst_allowed carries s kind images head) fun _ head' =>
        .bind (rest.subst_allowed carries s kind images tail) fun _ tail' => .pure ⟨head', tail'⟩
  | .binder _ x rest, _, kind, images, inside =>
      .bind (images.under x) fun r ⟨images', kind'⟩ =>
        .bind (rest.subst_allowed carries r.2 (kind'.trans kind) images' inside)
          fun _ inside' => .pure inside'

end

variable {s : Subst}

theorem Term.substWith_allowed (carries : rule.Carries A B zonks) (kind : s.zonks = zonks)
    (images : s.Allowed B) {t : Term} (allowed : t.Allowed A) :
    (t.substWith rule s).Always (·.Allowed B) := by
  intro n r m done
  have tree := fresh_map_of_ok done Term.toScoped
  rw [← Term.toScoped_subst] at tree
  exact t.toScoped.subst_allowed carries s kind images allowed n _ m tree

theorem CaseTree.substWith_allowed (carries : rule.Carries A B zonks) (kind : s.zonks = zonks)
    (images : s.Allowed B) {t : CaseTree} (allowed : t.Allowed A) :
    (t.substWith rule s).Always (·.Allowed B) := by
  intro n r m done
  have tree := fresh_map_of_ok done CaseTree.toScoped
  rw [← CaseTree.toScoped_subst] at tree
  exact t.toScoped.subst_allowed carries s kind images allowed n _ m tree

theorem substTelescope_allowed (carries : rule.Carries A B zonks) {params : Telescope}
    (kind : s.zonks = zonks) (images : s.Allowed B) (allowed : Telescope.Allowed A params) :
    (substTelescope rule s params).Always fun r =>
      Telescope.Allowed B r.1 ∧ r.2.Allowed B ∧ r.2.zonks = zonks := by
  induction params generalizing s with
  | nil => exact .pure ⟨Telescope.allowed_nil, images, kind⟩
  | cons b params ih =>
      obtain ⟨mode, x, type⟩ := b
      obtain ⟨head, tail⟩ := Telescope.allowed_cons.mp allowed
      refine .bind (Term.substWith_allowed carries kind images head) fun type' head' => ?_
      refine .bind (images.under x) fun r ⟨images', kind'⟩ => ?_
      refine .bind (ih (kind'.trans kind) images' tail) fun r' ⟨tail', scope⟩ => .pure ?_
      exact ⟨Telescope.allowed_cons.mpr ⟨head', tail'⟩, scope⟩

end Substitution

section Solutions

variable {env : Environment} {A B : Allowance} {zonks : Bool}

/-- Solutions that a term can bring in are allowed where it stands, and where solutions are put in
    only unsolved metavariables have to be allowed afterwards. -/
structure Environment.Carries (env : Environment) (A B : Allowance) (zonks : Bool) : Prop where
  error : A.error → B.error
  definition : ∀ d, A.definition d → B.definition d
  data : ∀ d, A.data d → B.data d
  hole : ∀ m, A.hole m → (zonks = true → env.solution? m = none) → B.hole m
  solution : ∀ m, A.hole m → ∀ t ∈ env.solution? m, t.Allowed A

theorem Environment.Carries.holeRule (carries : env.Carries A B zonks) (fuel : Nat) :
    HoleRule.Carries (Subst.holeRule env fuel) A B zonks := by
  induction fuel with
  | zero =>
      refine ⟨carries.error, carries.definition, carries.data, ?_, ?_⟩
      · exact fun still m allowed => carries.hole m allowed fun zonking => by simp_all
      · intro _ m kind images allowed
        unfold Subst.holeRule
        split
        · split
          · rename_i unsolved
            exact .pure (carries.hole m allowed fun _ => unsolved)
          · exact .throw
        · rename_i still
          exact .pure (carries.hole m allowed fun zonking => by simp_all)
  | succ fuel ih =>
      refine ⟨carries.error, carries.definition, carries.data, ih.idle, ?_⟩
      intro s m kind images allowed
      unfold Subst.holeRule
      split
      · split
        · rename_i unsolved
          exact .pure (carries.hole m allowed fun _ => unsolved)
        · rename_i t solved
          exact Term.substWith_allowed ih kind images (carries.solution m allowed t solved)
      · rename_i still
        exact .pure (carries.hole m allowed fun zonking => by simp_all)

theorem Environment.Carries.rule (carries : env.Carries A B zonks) :
    HoleRule.Carries (Subst.rule env) A B zonks := carries.holeRule _

end Solutions

end PathTheory
