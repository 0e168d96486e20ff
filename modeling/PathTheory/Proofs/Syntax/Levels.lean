import PathTheory.Proofs.Level.Solution
import PathTheory.Proofs.Syntax.Allowed
/-!
Level variables where levels and solutions are put in. Substitution moves the levels of a term
through one function on universes, solutions included, so what cannot come out of that function is
not mentioned afterwards.
-/
namespace PathTheory

def Universe.vars (u : Universe) : List LevelVar := u.p.var?.toList ++ u.h.var?.toList

def Label.levelVars : Label → List LevelVar
  | .univ u | .call _ u | .con _ u | .data _ u | .record _ u | .field _ u => u.vars
  | _ => []

theorem levels_read : Reads (fun t : Term => match t.ownLevels with
    | some u => u.p.var?.toList ++ u.h.var?.toList
    | none => []) Label.levelVars fun _ => [] :=
  ⟨fun t => by cases t <;> rfl, fun l inner => by cases l <;> first | rfl | cases inner⟩

theorem Term.mem_levelVars {t : Term} {v : LevelVar} :
    v ∈ t.levelVars ↔ v ∈ t.toScoped.gather Label.levelVars fun _ => [] := by
  rw [← levels_read.subterms]
  exact LevelVar.mem_ordered

section Leveled

variable {P : LevelVar → Prop}

/-- Every level variable in the tree has the property. -/
def Scoped.Leveled (P : LevelVar → Prop) (t : Scoped) : Prop :=
  ∀ v ∈ t.gather Label.levelVars fun _ => [], P v

def Parts.Leveled (P : LevelVar → Prop) (t : Parts) : Prop :=
  ∀ v ∈ t.gather Label.levelVars fun _ => [], P v

/-- A substitution that puts solutions in and after which every level variable has the property. -/
structure Subst.Levels (P : LevelVar → Prop) (s : Subst) : Prop where
  images : ∀ entry ∈ s.terms, entry.2.toScoped.Leveled P
  sorts : ∀ u u', s.sort u = .ok u' → ∀ v ∈ u'.vars, P v
  zonks : s.zonks = true

theorem Subst.Levels.busy {s : Subst} (levels : s.Levels P) : s.isEmpty = false := by
  unfold Subst.isEmpty
  rw [levels.zonks]
  simp

theorem Subst.Levels.under {s : Subst} (levels : s.Levels P) (x : Var) :
    (s.under x).Always fun r => r.2.Levels P := by
  unfold Subst.under
  split
  · refine .bind .anything fun y _ => .pure ⟨?_, levels.sorts, levels.zonks⟩
    exact List.forall_mem_cons.mpr ⟨List.forall_mem_nil _, levels.images⟩
  · refine .pure ?_
    split
    · exact ⟨fun entry member => levels.images entry (List.mem_filter.mp member).1, levels.sorts,
        levels.zonks⟩
    · exact levels

theorem Label.mapM_levels {f : Universe → Checked Universe} {l l' : Label}
    (sorts : ∀ u u', f u = .ok u' → ∀ v ∈ u'.vars, P v) (done : l.mapM f = .ok l') :
    ∀ v ∈ l'.levelVars, P v := by
  cases l <;> first
    | (obtain ⟨u', found, same⟩ := bind_ok done; cases same; exact sorts _ u' found)
    | (cases done; exact List.forall_mem_nil _)

/-- What becomes of metavariables keeps to the property as well. -/
def HoleRule.Leveled (rule : HoleRule) (P : LevelVar → Prop) : Prop :=
  ∀ (s : Subst) (m : MetaId), s.Levels P → (rule s m).Always fun t => t.toScoped.Leveled P

variable {rule : HoleRule}

mutual

theorem Scoped.subst_leveled (leveled : rule.Leveled P) : ∀ (t : Scoped) (s : Subst),
    s.Levels P → (t.subst rule s).Always (·.Leveled P)
  | .var x, s, levels => by
      refine .pure ?_
      cases found : s.get? x with
      | none => exact List.forall_mem_nil _
      | some t => exact levels.images _ (mem_of_lookup found)
  | .hole m, s, levels => by
      unfold Scoped.subst
      rw [levels.busy]
      exact .bind (leveled s m levels) fun _ given => .pure given
  | .node label parts, s, levels => by
      unfold Scoped.subst
      rw [levels.busy]
      refine .bind (.lift fun label' done => Label.mapM_levels levels.sorts done)
        fun label' own => .bind (parts.subst_leveled leveled s levels) fun _ inside => .pure ?_
      exact List.forall_mem_append.mpr ⟨own, inside⟩

theorem Parts.subst_leveled (leveled : rule.Leveled P) : ∀ (t : Parts) (s : Subst),
    s.Levels P → (t.subst rule s).Always (·.Leveled P)
  | .nil, _, _ => .pure (List.forall_mem_nil _)
  | .part t rest, s, levels =>
      .bind (t.subst_leveled leveled s levels) fun _ head =>
        .bind (rest.subst_leveled leveled s levels) fun _ tail =>
          .pure (List.forall_mem_append.mpr ⟨head, tail⟩)
  | .binder _ x rest, _, levels =>
      .bind (levels.under x) fun r levels' =>
        .bind (rest.subst_leveled leveled r.2 levels') fun _ inside => .pure inside

end

variable {s : Subst}

theorem Term.substWith_leveled (leveled : rule.Leveled P) (levels : s.Levels P) (t : Term) :
    (t.substWith rule s).Always fun r => r.toScoped.Leveled P := by
  intro n r m done
  have tree := fresh_map_of_ok done Term.toScoped
  rw [← Term.toScoped_subst] at tree
  exact t.toScoped.subst_leveled leveled s levels n _ m tree

theorem CaseTree.substWith_leveled (leveled : rule.Leveled P) (levels : s.Levels P)
    (t : CaseTree) : (t.substWith rule s).Always fun r => r.toScoped.Leveled P := by
  intro n r m done
  have tree := fresh_map_of_ok done CaseTree.toScoped
  rw [← CaseTree.toScoped_subst] at tree
  exact t.toScoped.subst_leveled leveled s levels n _ m tree

theorem substTelescope_leveled (leveled : rule.Leveled P) (params : Telescope)
    (levels : s.Levels P) : (substTelescope rule s params).Always fun r =>
      ∀ b ∈ r.1, b.type.toScoped.Leveled P := by
  induction params generalizing s with
  | nil => exact .pure (List.forall_mem_nil _)
  | cons b params ih =>
      obtain ⟨mode, x, type⟩ := b
      refine .bind (Term.substWith_leveled leveled levels type) fun type' head => ?_
      refine .bind (levels.under x) fun r levels' => .bind (ih levels') fun r' tail => .pure ?_
      exact List.forall_mem_cons.mpr ⟨head, tail⟩

/-- Solutions go through the same substitution, however deep they are nested. -/
theorem Subst.rule_leveled (env : Environment) : (Subst.rule env).Leveled P := by
  have deep : ∀ fuel, (Subst.holeRule env fuel).Leveled P := by
    intro fuel
    induction fuel with
    | zero =>
        intro s m levels
        unfold Subst.holeRule
        rw [levels.zonks, if_pos rfl]
        split
        · exact .pure (List.forall_mem_nil _)
        · exact .throw
    | succ fuel ih =>
        intro s m levels
        unfold Subst.holeRule
        rw [levels.zonks, if_pos rfl]
        split
        · exact .pure (List.forall_mem_nil _)
        · exact Term.substWith_leveled ih levels _
  exact deep _

end Leveled

namespace LevelSolution

/-- No value mentions a level that is still to be inferred. -/
def Closed (s : LevelSolution) : Prop := ∀ x a, s.get? x = some a → a.hasInference = false

/-- The level variables that may be left: those that are no inferred ones, and those without a
    value. -/
def Leaves (s : LevelSolution) (v : LevelVar) : Prop := v.isInference = true → s.get? v = none

variable {s : LevelSolution}

theorem Closed.level_leaves (closed : s.Closed) {a b : Level} (done : a.subst s.get? = .ok b) :
    ∀ v ∈ b.var?, s.Leaves v := by
  intro v isVar inferred
  have origin := Level.subst_origin done
  cases a with
  | const c => cases isVar.symm.trans origin.1
  | infinity => cases isVar.symm.trans origin.1
  | shift x c m =>
      have same := isVar.symm.trans origin.1
      cases found : s.get? x with
      | none =>
          rw [found] at same
          cases same
          exact found
      | some r =>
          rw [found, Option.getD_some] at same
          have noInference := closed x r found
          cases r with
          | shift y d n =>
              cases same
              exact absurd inferred (Bool.eq_false_iff.mp noInference)
          | const _ | infinity => cases same

theorem Closed.sort_leaves (closed : s.Closed) {u u' : Universe} (done : u.subst s.get? = .ok u') :
    ∀ v ∈ u'.vars, s.Leaves v := by
  obtain ⟨p, first, next⟩ := bind_ok done
  obtain ⟨h, second, made⟩ := bind_ok next
  unfold Universe.make at made
  split at made
  · cases made
  · cases made
    intro v member
    rcases List.mem_append.mp member with inP | inH
    · exact closed.level_leaves first v (Option.mem_toList.mp inP)
    · exact closed.level_leaves second v (Option.mem_toList.mp inH)

theorem Closed.zonking (closed : s.Closed) :
    (Subst.zonking.withLevels s.values).Levels s.Leaves where
  images := List.forall_mem_nil _
  sorts := fun u u' done v member => by
    unfold Subst.sort Subst.zonking Subst.withLevels at done
    split at done
    · rename_i noLevels
      intro _
      have none : s.values = [] := by simpa using noLevels
      unfold get?
      rw [none]
      rfl
    · rw [List.append_nil] at done
      exact closed.sort_leaves done v member
  zonks := rfl

end LevelSolution

namespace LevelEquations

/-- The solver gives a value to every inferred variable that a constraint mentions. -/
theorem solve_closed {e : LevelEquations} {s : LevelSolution} (done : e.solve.run = .ok (.ok s)) :
    s.Closed ∧ ∀ c ∈ e.constraints.toList, ∀ x ∈ c.inferred, (s.get? x).isSome := by
  rcases solve_steps done with ⟨_, _, _, impossible⟩ | ⟨values, found, t, levels, final⟩
  · cases impossible
  rcases final with ⟨same, _⟩ | ⟨_, _, _, impossible⟩
  · cases same
    constructor
    · intro x a assigned
      have spec := levels x
      split at spec
      · cases spec.symm.trans assigned
      · obtain ⟨b, made, isValue⟩ := spec
        cases isValue.symm.trans assigned
        exact (LevelValue.toLevel_shape made).1
    · intro c listed x inferred
      have known : ((values .predicative ++ values .homotopy).lookup x).isSome := by
        obtain ⟨kind, isKind⟩ : ∃ kind, c.kind? = some kind := by
          cases first : c.inferred with
          | nil => simp [first] at inferred
          | cons y rest => exact ⟨y.kind, by simp [LevelConstraint.kind?, first]⟩
        have inKind : c ∈ e.ofKind kind := List.mem_filter.mpr ⟨listed, by simp [isKind]⟩
        have isKey := ((found kind).keys x).mpr (List.mem_flatMap.mpr ⟨c, inKind, inferred⟩)
        rw [lookup_isSome_iff] at isKey ⊢
        rw [List.map_append, List.mem_append]
        cases kind with
        | predicative => exact .inl isKey
        | homotopy => exact .inr isKey
      have spec := levels x
      split at spec
      · rename_i missing
        rw [missing] at known
        cases known
      · obtain ⟨a, _, isValue⟩ := spec
        exact Option.isSome_of_eq_some isValue
  · cases impossible

end LevelEquations

end PathTheory
