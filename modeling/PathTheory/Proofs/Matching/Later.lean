import PathTheory.Proofs.Reduction.Later
import PathTheory.Proofs.Matching.Rows
import PathTheory.Proofs.Matching.Noted
/-!
The pieces of a compilation with the counter ahead. Columns and rows have their variables renamed,
patterns included; clauses stay as they are, because their bodies have old variables only. What the
compiler decides about levels and intervals does not depend on the counter at all.
-/
namespace PathTheory

mutual

def Pattern.mapVars (ρ : Var → Var) : Pattern → Pattern
  | .binding x => .binding (ρ x)
  | .shaped k args => .shaped k (mapPatterns ρ args)
  | .absurd => .absurd

def mapPatterns (ρ : Var → Var) : List Pattern → List Pattern
  | [] => []
  | p :: rest => p.mapVars ρ :: mapPatterns ρ rest

end

namespace Pattern

variable {ρ : Var → Var}

theorem mapPatterns_eq (row : List Pattern) : mapPatterns ρ row = row.map (Pattern.mapVars ρ) := by
  induction row with
  | nil => rfl
  | cons p row ih => rw [mapPatterns, ih, List.map_cons]

theorem isBinding_mapVars (p : Pattern) : (p.mapVars ρ).isBinding = p.isBinding := by
  cases p <;> rfl

theorem constructor?_mapVars (p : Pattern) : (p.mapVars ρ).constructor? = p.constructor? := by
  cases p with
  | shaped k args => cases k <;> rfl
  | _ => rfl

theorem all_isBinding_mapVars (row : List Pattern) :
    (row.map (mapVars ρ)).all isBinding = row.all isBinding := by
  rw [List.all_map]
  congr 1
  funext p
  exact p.isBinding_mapVars

mutual

/-- Patterns of old variables are not changed if these keep their names. -/
theorem mapVars_below {n : Nat} (old : FixesBelow ρ n) : ∀ p : Pattern, (∀ x ∈ p.vars, x.id < n) →
    p.mapVars ρ = p
  | .binding x, below => by rw [mapVars, old x (below x (List.mem_singleton.mpr rfl))]
  | .shaped k args, below => by rw [mapVars, mapPatterns_below old args below]
  | .absurd, _ => rfl

theorem mapPatterns_below {n : Nat} (old : FixesBelow ρ n) : ∀ row : List Pattern,
    (∀ x ∈ rowVars row, x.id < n) → mapPatterns ρ row = row
  | [], _ => rfl
  | p :: row, below => by
      obtain ⟨here, rest⟩ := List.forall_mem_append.mp below
      rw [mapPatterns, p.mapVars_below old here, mapPatterns_below old row rest]

end

/-- All variables bind, so nothing is taken apart. -/
theorem rowSplits_bindings {row : List Pattern} (binding : row.all isBinding = true) :
    rowSplits row = 0 := by
  induction row with
  | nil => rfl
  | cons p row ih =>
      obtain ⟨here, rest⟩ := (Bool.and_eq_true _ _).mp binding
      cases p with
      | binding x => rw [rowSplits, splits, ih rest]
      | shaped _ _ => cases here
      | absurd => cases here

end Pattern

namespace Matching

open Pattern

section Rows

variable {ρ : Var → Var}

def Column.mapVars (ρ : Var → Var) (c : Column) : Column := (ρ c.1, c.2.mapVars ρ)

def Row.mapVars (ρ : Var → Var) (row : Row) : Row := { row with
  patterns := row.patterns.map (Pattern.mapVars ρ)
  subst := row.subst.mapVars ρ }

theorem isAbsurd_mapVars (p : Pattern) : isAbsurd (p.mapVars ρ) = isAbsurd p := by
  cases p <;> rfl

theorem isForeign_mapVars (data : DataDef) (p : Pattern) :
    isForeign data (p.mapVars ρ) = isForeign data p := by
  cases p with
  | shaped k args => cases k <;> rfl
  | _ => rfl

theorem ofPairs_mapVars (columns : List Column) :
    Telescope.ofPairs (columns.map (Column.mapVars ρ)) =
      mapTelescope ρ (Telescope.ofPairs columns) := by
  rw [mapTelescope_eq]
  simp [Telescope.ofPairs, Function.comp_def, Column.mapVars, Binding.mapVars]

theorem columnsOf_mapVars (params : Telescope) :
    columnsOf (mapTelescope ρ params) = (columnsOf params).map (Column.mapVars ρ) := by
  rw [mapTelescope_eq]
  simp [columnsOf, Function.comp_def, Column.mapVars, Binding.mapVars]

theorem bindColumns_mapVars (apart : ρ.Injective) (s : Subst) (row : List Pattern)
    (columns : List Column) :
    (bindColumns s row columns).mapVars ρ =
      bindColumns (s.mapVars ρ) (row.map (Pattern.mapVars ρ)) (columns.map (Column.mapVars ρ)) := by
  induction row generalizing s columns with
  | nil => rfl
  | cons p row ih =>
      cases columns with
      | nil => rfl
      | cons c columns =>
          rw [bindColumns_cons, ih, List.map_cons, List.map_cons, bindColumns_cons]
          cases p with
          | binding x =>
              simp only [Pattern.mapVars, Column.mapVars, apart.eq_iff]
              split
              · rfl
              · rw [Subst.add_mapVars apart, Term.mapVars]
          | _ => rfl

theorem Row.pass_mapVars (apart : ρ.Injective) (row : Row) (before : List Column) :
    (row.mapVars ρ).pass (before.map (Column.mapVars ρ)) = (row.pass before).mapVars ρ := by
  simp [Row.pass, Row.mapVars, bindColumns_mapVars apart, List.map_take, List.map_drop]

theorem Row.enter_mapVars (apart : ρ.Injective) (row : Row) (shape : Shape) (value : Term)
    (fields : List Column) :
    (row.mapVars ρ).enter shape (value.mapVars ρ) (fields.map (Column.mapVars ρ)) =
      (row.enter shape value fields).map (Row.mapVars ρ) := by
  obtain ⟨number, clause, patterns, s⟩ := row
  unfold Row.enter Row.mapVars
  cases patterns with
  | nil => rfl
  | cons p rest =>
      cases p with
      | binding x =>
          simp [Pattern.mapVars, Subst.add_mapVars apart, Column.mapVars, Function.comp_def]
      | shaped k args =>
          simp only [List.map_cons, Pattern.mapVars]
          split
          · simp [mapPatterns_eq]
          · rfl
      | absurd => rfl

theorem fieldRefs_mapVars (fields : List Column) :
    (fields.map (Column.mapVars ρ)).map (fun f => Term.ref f.1) =
      (fields.map fun f => Term.ref f.1).map (Term.mapVars ρ) := by
  simp [Column.mapVars, Term.mapVars, Function.comp_def]

end Rows

section Columns

variable {low d : Nat} {env : Environment}

theorem freshen_ahead (old : ∀ m t, env.solution? m = some t → t.Below low) (s : Subst)
    (columns : List Column) :
    Ahead low d (List.map (Column.mapVars (Var.later low d))) (freshen env s columns)
      (freshen env (s.mapVars (Var.later low d))
        (columns.map (Column.mapVars (Var.later low d)))) := by
  induction columns generalizing s with
  | nil => exact .pure []
  | cons c rest ih =>
      obtain ⟨x, type⟩ := c
      simp only [List.map_cons, Column.mapVars, freshen]
      refine .bind (Subst.apply_ahead old s type) fun type => ?_
      refine .bind (.renamed x) fun y => ?_
      have met := ih (s.add x (.ref y))
      rw [Subst.add_mapVars (Var.later_injective low d)] at met
      exact .bind met fun rest => .pure ((y, type) :: rest : List Column)

theorem replaceIn_ahead (old : ∀ m t, env.solution? m = some t → t.Below low) (s : Subst)
    (columns : List Column) :
    Ahead low d (List.map (Column.mapVars (Var.later low d))) (replaceIn env s columns)
      (replaceIn env (s.mapVars (Var.later low d))
        (columns.map (Column.mapVars (Var.later low d)))) := by
  unfold replaceIn
  induction columns with
  | nil => exact .pure []
  | cons c rest ih =>
      obtain ⟨x, type⟩ := c
      simp only [List.map_cons, List.mapM_cons]
      have here : Ahead low d (Column.mapVars (Var.later low d))
          (do return (x, ← s.apply env type))
          (do return (x.later low d,
            ← (s.mapVars (Var.later low d)).apply env (type.mapVars (Var.later low d)))) :=
        .bind (Subst.apply_ahead old s type) fun type => .pure (x, type)
      exact .bind here fun c => .bind ih fun rest => .pure (c :: rest)

end Columns

/-- The same for computations that note what they find; that is the same for both. -/
def AheadIn {α β : Type} (setting : Setting) (low d : Nat) (f : α → β) (a : Compile α)
    (b : Compile β) : Prop :=
  ∀ p, Ahead low d (Prod.map f id) (a setting p) (b setting p)

namespace AheadIn

variable {α β γ δ : Type} {setting : Setting} {low d : Nat} {f : α → β} {g : γ → δ}

theorem pure (x : α) : AheadIn setting low d f (pure x) (pure (f x)) :=
  fun p => Ahead.pure (x, p)

theorem bind {a : Compile α} {b : Compile β} {k : α → Compile γ} {l : β → Compile δ}
    (first : AheadIn setting low d f a b) (next : ∀ x, AheadIn setting low d g (k x) (l (f x))) :
    AheadIn setting low d g (a >>= k) (b >>= l) :=
  fun p => Ahead.bind (k := fun r => k r.1 setting r.2) (l := fun r => l r.1 setting r.2) (first p)
    fun r => next r.1 r.2

theorem lift (a : Checked α) : AheadIn setting low d id (liftM a : Compile α) (liftM a) := by
  intro p n x m order done
  obtain ⟨y, value, same⟩ := compile_lift done
  cases same
  rw [value]
  exact ⟨order, rfl⟩

theorem reading {f : α → β} {a : Environment → Fresh α} {b : Environment → Fresh β}
    (ahead : Ahead low d f (a setting.env) (b setting.env)) :
    AheadIn setting low d f (reading a) (reading b) := by
  intro p n x m order done
  obtain ⟨y, k, ran, same⟩ := compile_reading done
  cases same
  obtain ⟨later, here⟩ := ahead n y _ order ran
  exact ⟨later, reading_ok here⟩

theorem read : AheadIn setting low d id (read : Compile Setting) read :=
  fun p => Ahead.pure (setting, p)

theorem modify (f : Progress → Progress) :
    AheadIn setting low d id (modify f : Compile Unit) (modify f) :=
  fun p => Ahead.pure ((), f p)

end AheadIn

section Decisions

variable {setting : Setting} {low d : Nat}

theorem compareLevels_ahead (a b : Level) :
    AheadIn setting low d id (compareLevels a b) (compareLevels a b) :=
  .bind .read fun _ => .bind (.lift _) fun _ => .bind (.modify _) fun _ => .pure _

theorem levelFits_ahead (result data : Level) :
    AheadIn setting low d id (levelFits result data) (levelFits result data) := by
  refine .bind (.lift _) fun l => .bind (.lift _) fun k => ?_
  dsimp only [id]
  split
  · split
    · exact .pure true
    · exact compareLevels_ahead result data
  · exact compareLevels_ahead result data

/-- Whether a type is an interval is seen from its weak head normal form. -/
theorem isInterval_ahead (known : setting.env.Within (fun _ => True) low) (type : Term) :
    AheadIn setting low d id (isInterval type) (isInterval (type.mapVars (Var.later low d))) := by
  refine .bind .read fun setting => ?_
  refine .bind (.reading (Term.whnf_ahead known type)) fun t => ?_
  cases t <;> exact .pure _

theorem isIntervals_ahead (known : setting.env.Within (fun _ => True) low) (columns : List Column) :
    AheadIn setting low d id (columns.mapM fun c => isInterval c.2)
      ((columns.map (Column.mapVars (Var.later low d))).mapM fun c => isInterval c.2) := by
  induction columns with
  | nil => exact .pure []
  | cons c rest ih =>
      simp only [List.map_cons, List.mapM_cons]
      refine .bind (isInterval_ahead known c.2) fun here => ?_
      exact .bind ih fun others => .pure (here :: others)

end Decisions

end Matching

end PathTheory
