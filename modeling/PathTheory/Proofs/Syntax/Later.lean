import PathTheory.Proofs.Syntax.Within
import PathTheory.Proofs.Syntax.Renaming
import Mathlib.Data.List.Basic
/-!
Runs whose counter is ahead. Two runs of one computation that start with different counters make
different variables and are otherwise the same: where the first one ends, the second one ends with
the result that has the variables made in between renamed, and its counter is as far ahead as
before. The main statement is that this holds of substitution.
-/
namespace PathTheory

variable {low d : Nat}

/-- What a variable is called if the counter is ahead from some number on. -/
def Var.later (low d : Nat) (x : Var) : Var := if x.id < low then x else ⟨x.id + d, x.name⟩

theorem Var.later_keeps (low d : Nat) : FixesBelow (Var.later low d) low := fun _ old => if_pos old

theorem Var.later_new {n : Nat} (order : low ≤ n) (name : String) :
    Var.later low d ⟨n, name⟩ = ⟨n + d, name⟩ := if_neg (Nat.not_lt.mpr order)

theorem Var.later_name (x : Var) : (x.later low d).name = x.name := by
  unfold later
  split <;> rfl

theorem Var.later_injective (low d : Nat) : (Var.later low d).Injective := by
  rintro ⟨i, name⟩ ⟨j, other⟩ same
  simp only [later] at same
  split at same <;> split at same <;> simp only [Var.mk.injEq] at same ⊢
  · exact same
  · omega
  · omega
  · exact ⟨by omega, same.2⟩

/-- A variable keeps its name just if it is old, or if the counter is not ahead. -/
theorem Var.later_eq_self {x : Var} : x.later low d = x ↔ x.id < low ∨ d = 0 := by
  obtain ⟨i, name⟩ := x
  unfold later
  split
  · rename_i old
    exact iff_of_true rfl (.inl old)
  · rename_i new
    simp [new]

/-- If the first computation ends, the second one ends with the counter ahead, with the image of the
    result and as far ahead. -/
def Ahead {α β : Type} (low d : Nat) (f : α → β) (a : Fresh α) (b : Fresh β) : Prop :=
  ∀ n x m, low ≤ n → a n = .ok (x, m) → low ≤ m ∧ b (n + d) = .ok (f x, m + d)

namespace Ahead

variable {α β γ δ : Type} {f : α → β} {g : γ → δ}

theorem pure (x : α) : Ahead low d f (pure x) (pure (f x)) := by
  intro n y m order done
  cases fresh_pure done
  exact ⟨order, rfl⟩

theorem bind {a : Fresh α} {b : Fresh β} {k : α → Fresh γ} {l : β → Fresh δ}
    (first : Ahead low d f a b) (next : ∀ x, Ahead low d g (k x) (l (f x))) :
    Ahead low d g (a >>= k) (b >>= l) := by
  intro n z j order done
  obtain ⟨x, m, start, rest⟩ := fresh_bind done
  obtain ⟨later, here⟩ := first n x m order start
  obtain ⟨last, there⟩ := next x m z j later rest
  exact ⟨last, fresh_then here there⟩

theorem lift (a : Checked α) : Ahead low d id (liftM a : Fresh α) (liftM a) := by
  intro n x m order done
  obtain ⟨y, value, same⟩ := fresh_lift done
  cases same
  refine ⟨order, ?_⟩
  rw [value]
  rfl

theorem throw {fault : Fault} {b : Fresh β} : Ahead low d f (throw fault) b := by
  intro n x m _ impossible
  cases impossible

theorem renamed (x : Var) :
    Ahead low d (Var.later low d) x.renamed (x.later low d).renamed := by
  intro n y m order done
  cases done
  refine ⟨Nat.le_succ_of_le order, ?_⟩
  rw [Var.later_new order, Var.renamed, Var.later_name, Fresh.var, Nat.add_right_comm]

end Ahead

namespace Subst

def mapVars (ρ : Var → Var) (s : Subst) : Subst :=
  ⟨s.terms.map fun e => (ρ e.1, e.2.mapVars ρ), s.levels, s.range.map ρ, s.zonks⟩

variable {ρ : Var → Var}

theorem isEmpty_mapVars (s : Subst) : (s.mapVars ρ).isEmpty = s.isEmpty := by
  simp [mapVars, isEmpty]

theorem addStd_mapVars (s : Subst) (u : Universe) :
    (s.addStd u).mapVars ρ = (s.mapVars ρ).addStd u := rfl

theorem add_mapVars (apart : ρ.Injective) (s : Subst) (x : Var) (t : Term) :
    (s.add x t).mapVars ρ = (s.mapVars ρ).add (ρ x) (t.mapVars ρ) := by
  simp [add, mapVars, Term.freeVars_mapVars apart]

theorem single_mapVars (apart : ρ.Injective) (x : Var) (t : Term) :
    (single x t).mapVars ρ = single (ρ x) (t.mapVars ρ) := add_mapVars apart empty x t

theorem remove_mapVars (apart : ρ.Injective) (s : Subst) (x : Var) :
    (s.remove x).mapVars ρ = (s.mapVars ρ).remove (ρ x) := by
  simp only [remove, mapVars, List.filter_map, Function.comp_def]
  congr 2
  refine List.filter_congr fun e _ => ?_
  rw [Bool.eq_iff_iff, bne_iff_ne, bne_iff_ne, apart.ne_iff]

theorem get?_mapVars (apart : ρ.Injective) (s : Subst) (x : Var) :
    (s.mapVars ρ).get? (ρ x) = (s.get? x).map (Term.mapVars ρ) := by
  obtain ⟨terms, levels, range, zonks⟩ := s
  simp only [get?, mapVars]
  induction terms with
  | nil => rfl
  | cons e rest ih =>
      obtain ⟨y, t⟩ := e
      by_cases same : x = y
      · simp [same]
      · have differ : ρ x ≠ ρ y := fun equal => same (apart equal)
        simp only [List.map_cons, List.lookup_cons, beq_false_of_ne same, beq_false_of_ne differ]
        exact ih

theorem captures_mapVars (apart : ρ.Injective) (s : Subst) (x : Var) :
    (s.mapVars ρ).captures (ρ x) = s.captures x := by
  rw [Bool.eq_iff_iff, captures, captures, List.contains_iff_mem, List.contains_iff_mem]
  exact List.mem_map_of_injective apart

theorem bind_mapVars (apart : ρ.Injective) (s : Subst) (params : Telescope) (args : List Term) :
    (s.bind params args).mapVars ρ =
      (s.mapVars ρ).bind (mapTelescope ρ params) (args.map (Term.mapVars ρ)) := by
  induction params generalizing s args with
  | nil => rfl
  | cons b params ih =>
      cases args with
      | nil => rfl
      | cons a args =>
          rw [bind_cons, ih, add_mapVars apart, mapTelescope, List.map_cons, bind_cons]

theorem instantiate_mapVars (apart : ρ.Injective) (params : Telescope) (args : List Term) :
    (instantiate params args).mapVars ρ =
      instantiate (mapTelescope ρ params) (args.map (Term.mapVars ρ)) :=
  bind_mapVars apart empty params args

theorem under_ahead (s : Subst) (x : Var) :
    Ahead low d (fun r => (r.1.later low d, r.2.mapVars (Var.later low d))) (s.under x)
      ((s.mapVars (Var.later low d)).under (x.later low d)) := by
  have apart := Var.later_injective low d
  unfold under
  rw [captures_mapVars apart]
  split
  · refine .bind (.renamed x) fun y => ?_
    have same : (s.mapVars (Var.later low d)).add (x.later low d) (.ref (y.later low d)) =
        (s.add x (.ref y)).mapVars (Var.later low d) := (add_mapVars apart s x (.ref y)).symm
    rw [same]
    exact .pure (y, s.add x (.ref y))
  · rw [get?_mapVars apart, Option.isSome_map]
    split
    · rw [← remove_mapVars apart]
      exact .pure (x, s.remove x)
    · exact .pure (x, s)

end Subst

section Substitution

/-- What becomes of metavariables does not depend on the counter either. -/
def HoleRule.Ahead (low d : Nat) (rule : HoleRule) : Prop :=
  ∀ s m, PathTheory.Ahead low d (Term.mapVars (Var.later low d)) (rule s m)
    (rule (s.mapVars (Var.later low d)) m)

variable {rule : HoleRule}

theorem Term.substWith_idle {s : Subst} (idle : s.isEmpty = true) (t : Term) :
    t.substWith rule s = pure t := by
  cases t <;> simp [Term.substWith, idle]

/-- A substitution that does nothing needs no look at the term. -/
theorem Ahead.unlessIdle {s : Subst} {t : Term}
    (busy : s.isEmpty = false → Ahead low d (Term.mapVars (Var.later low d)) (t.substWith rule s)
      ((t.mapVars (Var.later low d)).substWith rule (s.mapVars (Var.later low d)))) :
    Ahead low d (Term.mapVars (Var.later low d)) (t.substWith rule s)
      ((t.mapVars (Var.later low d)).substWith rule (s.mapVars (Var.later low d))) := by
  cases idle : s.isEmpty with
  | false => exact busy idle
  | true =>
      rw [Term.substWith_idle idle, Term.substWith_idle ((Subst.isEmpty_mapVars s).trans idle)]
      exact .pure t

mutual

theorem Term.substWith_ahead (ahead : rule.Ahead low d) : ∀ (t : Term) (s : Subst),
    Ahead low d (Term.mapVars (Var.later low d)) (t.substWith rule s)
      ((t.mapVars (Var.later low d)).substWith rule (s.mapVars (Var.later low d)))
  | .ref x, s => by
      refine .unlessIdle fun busy => ?_
      simp only [Term.mapVars, Term.substWith, Subst.isEmpty_mapVars, busy, Bool.false_eq_true,
        if_false]
      rw [Subst.get?_mapVars (Var.later_injective low d)]
      cases s.get? x with
      | none => exact .pure (Term.ref x)
      | some t => exact .pure t
  | .lam mode x a b, s => by
      refine .unlessIdle fun busy => ?_
      simp only [Term.mapVars, Term.substWith, Subst.isEmpty_mapVars, busy, Bool.false_eq_true,
        if_false]
      refine .bind (a.substWith_ahead ahead s) fun a => ?_
      refine .bind (s.under_ahead x) fun inner => ?_
      exact .bind (b.substWith_ahead ahead inner.2) fun b => .pure (Term.lam mode inner.1 a b)
  | .pi mode x a b, s => by
      refine .unlessIdle fun busy => ?_
      simp only [Term.mapVars, Term.substWith, Subst.isEmpty_mapVars, busy, Bool.false_eq_true,
        if_false]
      refine .bind (a.substWith_ahead ahead s) fun a => ?_
      refine .bind (s.under_ahead x) fun inner => ?_
      exact .bind (b.substWith_ahead ahead inner.2) fun b => .pure (Term.pi mode inner.1 a b)
  | .sigma params, s => by
      refine .unlessIdle fun busy => ?_
      simp only [Term.mapVars, Term.substWith, Subst.isEmpty_mapVars, busy, Bool.false_eq_true,
        if_false]
      exact .bind (substTelescope_ahead ahead params s) fun r => .pure (Term.sigma r.1)
  | .tuple components type, s => by
      refine .unlessIdle fun busy => ?_
      simp only [Term.mapVars, Term.substWith, Subst.isEmpty_mapVars, busy, Bool.false_eq_true,
        if_false]
      refine .bind (substTerms_ahead ahead components s) fun components => ?_
      exact .bind (type.substWith_ahead ahead s) fun type => .pure (Term.tuple components type)
  | .proj whole index, s => by
      refine .unlessIdle fun busy => ?_
      simp only [Term.mapVars, Term.substWith, Subst.isEmpty_mapVars, busy, Bool.false_eq_true,
        if_false]
      exact .bind (whole.substWith_ahead ahead s) fun whole => .pure (Term.proj whole index)
  | .univ u, s => by
      refine .unlessIdle fun busy => ?_
      simp only [Term.mapVars, Term.substWith, Subst.isEmpty_mapVars, busy, Bool.false_eq_true,
        if_false]
      exact .bind (.lift (s.sort u)) fun u => .pure (Term.univ u)
  | .app fn arg, s => by
      refine .unlessIdle fun busy => ?_
      simp only [Term.mapVars, Term.substWith, Subst.isEmpty_mapVars, busy, Bool.false_eq_true,
        if_false]
      refine .bind (fn.substWith_ahead ahead s) fun fn => ?_
      exact .bind (arg.substWith_ahead ahead s) fun arg => .pure (Term.app fn arg)
  | .call f levels args, s => by
      refine .unlessIdle fun busy => ?_
      simp only [Term.mapVars, Term.substWith, Subst.isEmpty_mapVars, busy, Bool.false_eq_true,
        if_false]
      refine .bind (.lift (s.sort levels)) fun levels => ?_
      exact .bind (substTerms_ahead ahead args s) fun args => .pure (Term.call f levels args)
  | .con c levels params args, s => by
      refine .unlessIdle fun busy => ?_
      simp only [Term.mapVars, Term.substWith, Subst.isEmpty_mapVars, busy, Bool.false_eq_true,
        if_false]
      refine .bind (.lift (s.sort levels)) fun levels => ?_
      refine .bind (substTerms_ahead ahead params s) fun params => ?_
      exact .bind (substTerms_ahead ahead args s) fun args => .pure (Term.con c levels params args)
  | .data d levels args, s => by
      refine .unlessIdle fun busy => ?_
      simp only [Term.mapVars, Term.substWith, Subst.isEmpty_mapVars, busy, Bool.false_eq_true,
        if_false]
      refine .bind (.lift (s.sort levels)) fun levels => ?_
      exact .bind (substTerms_ahead ahead args s) fun args => .pure (Term.data d levels args)
  | .record c levels fields, s => by
      refine .unlessIdle fun busy => ?_
      simp only [Term.mapVars, Term.substWith, Subst.isEmpty_mapVars, busy, Bool.false_eq_true,
        if_false]
      refine .bind (.lift (s.sort levels)) fun levels => ?_
      exact .bind (substFields_ahead ahead fields s) fun fields =>
        .pure (Term.record c levels fields)
  | .field f levels arg, s => by
      refine .unlessIdle fun busy => ?_
      simp only [Term.mapVars, Term.substWith, Subst.isEmpty_mapVars, busy, Bool.false_eq_true,
        if_false]
      refine .bind (.lift (s.sort levels)) fun levels => ?_
      exact .bind (arg.substWith_ahead ahead s) fun arg => .pure (Term.field f levels arg)
  | .new r, s => by
      refine .unlessIdle fun busy => ?_
      simp only [Term.mapVars, Term.substWith, Subst.isEmpty_mapVars, busy, Bool.false_eq_true,
        if_false]
      exact .bind (r.substWith_ahead ahead s) fun r => .pure (Term.new r)
  | .caseOf args params result tree, s => by
      refine .unlessIdle fun busy => ?_
      simp only [Term.mapVars, Term.substWith, Subst.isEmpty_mapVars, busy, Bool.false_eq_true,
        if_false]
      refine .bind (substTerms_ahead ahead args s) fun args => ?_
      refine .bind (substTelescope_ahead ahead params s) fun r => ?_
      refine .bind (result.substWith_ahead ahead r.2) fun result => ?_
      exact .bind (tree.substWith_ahead ahead s) fun tree =>
        .pure (Term.caseOf args r.1 result tree)
  | .hole m, s => by
      refine .unlessIdle fun busy => ?_
      simp only [Term.mapVars, Term.substWith, Subst.isEmpty_mapVars, busy, Bool.false_eq_true,
        if_false]
      exact ahead s m
  | .error message term, s => by
      refine .unlessIdle fun busy => ?_
      simp only [Term.mapVars, Term.substWith, Subst.isEmpty_mapVars, busy, Bool.false_eq_true,
        if_false]
      exact .bind (substOption_ahead ahead term s) fun term => .pure (Term.error message term)

theorem substTerms_ahead (ahead : rule.Ahead low d) : ∀ (l : List Term) (s : Subst),
    Ahead low d (mapTerms (Var.later low d)) (substTerms rule s l)
      (substTerms rule (s.mapVars (Var.later low d)) (mapTerms (Var.later low d) l))
  | [], _ => .pure []
  | a :: rest, s => by
      simp only [mapTerms, substTerms]
      refine .bind (a.substWith_ahead ahead s) fun a => ?_
      exact .bind (substTerms_ahead ahead rest s) fun rest => .pure (a :: rest)

theorem substOption_ahead (ahead : rule.Ahead low d) : ∀ (a : Option Term) (s : Subst),
    Ahead low d (mapOption (Var.later low d)) (substOption rule s a)
      (substOption rule (s.mapVars (Var.later low d)) (mapOption (Var.later low d) a))
  | none, _ => .pure none
  | some a, s => by
      simp only [mapOption, substOption]
      exact .bind (a.substWith_ahead ahead s) fun a => .pure (some a)

theorem substFields_ahead (ahead : rule.Ahead low d) : ∀ (l : List (DefId × Term)) (s : Subst),
    Ahead low d (mapFields (Var.later low d)) (substFields rule s l)
      (substFields rule (s.mapVars (Var.later low d)) (mapFields (Var.later low d) l))
  | [], _ => .pure []
  | (f, a) :: rest, s => by
      simp only [mapFields, substFields]
      refine .bind (a.substWith_ahead ahead s) fun a => ?_
      exact .bind (substFields_ahead ahead rest s) fun rest => .pure ((f, a) :: rest)

theorem substTelescope_ahead (ahead : rule.Ahead low d) : ∀ (l : List (Binding Term)) (s : Subst),
    Ahead low d (fun r => (mapTelescope (Var.later low d) r.1, r.2.mapVars (Var.later low d)))
      (substTelescope rule s l)
      (substTelescope rule (s.mapVars (Var.later low d)) (mapTelescope (Var.later low d) l))
  | [], s => .pure ([], s)
  | ⟨mode, x, a⟩ :: rest, s => by
      simp only [mapTelescope, substTelescope]
      refine .bind (a.substWith_ahead ahead s) fun a => ?_
      refine .bind (s.under_ahead x) fun inner => ?_
      exact .bind (substTelescope_ahead ahead rest inner.2) fun r =>
        .pure ((⟨mode, inner.1, a⟩ :: r.1, r.2) : Telescope × Subst)

theorem CaseTree.substWith_ahead (ahead : rule.Ahead low d) : ∀ (t : CaseTree) (s : Subst),
    Ahead low d (CaseTree.mapVars (Var.later low d)) (t.substWith rule s)
      ((t.mapVars (Var.later low d)).substWith rule (s.mapVars (Var.later low d)))
  | .leaf params body, s => by
      simp only [CaseTree.mapVars, CaseTree.substWith]
      refine .bind (substTelescope_ahead ahead params s) fun r => ?_
      exact .bind (body.substWith_ahead ahead r.2) fun body => .pure (CaseTree.leaf r.1 body)
  | .branch params children, s => by
      simp only [CaseTree.mapVars, CaseTree.substWith]
      refine .bind (substTelescope_ahead ahead params s) fun r => ?_
      exact .bind (substChildren_ahead ahead children r.2) fun children =>
        .pure (CaseTree.branch r.1 children)
  | .interval params ends rest, s => by
      simp only [CaseTree.mapVars, CaseTree.substWith]
      refine .bind (substTelescope_ahead ahead params s) fun r => ?_
      refine .bind (substEnds_ahead ahead ends r.2) fun ends => ?_
      exact .bind (substRest_ahead ahead rest s) fun rest =>
        .pure (CaseTree.interval r.1 ends rest)

theorem substChildren_ahead (ahead : rule.Ahead low d) :
    ∀ (l : List (Shape × CaseTree)) (s : Subst),
    Ahead low d (mapChildren (Var.later low d)) (substChildren rule s l)
      (substChildren rule (s.mapVars (Var.later low d)) (mapChildren (Var.later low d) l))
  | [], _ => .pure []
  | (k, t) :: others, s => by
      simp only [mapChildren, substChildren]
      refine .bind (t.substWith_ahead ahead s) fun t => ?_
      exact .bind (substChildren_ahead ahead others s) fun others => .pure ((k, t) :: others)

theorem substEnds_ahead (ahead : rule.Ahead low d) : ∀ (l : List (Ends Term)) (s : Subst),
    Ahead low d (mapEnds (Var.later low d)) (substEnds rule s l)
      (substEnds rule (s.mapVars (Var.later low d)) (mapEnds (Var.later low d) l))
  | [], _ => .pure []
  | ⟨a, b⟩ :: others, s => by
      simp only [mapEnds, substEnds]
      refine .bind (substOption_ahead ahead a s) fun a => ?_
      refine .bind (substOption_ahead ahead b s) fun b => ?_
      exact .bind (substEnds_ahead ahead others s) fun others =>
        .pure ((⟨a, b⟩ :: others : List (Ends Term)))

theorem substRest_ahead (ahead : rule.Ahead low d) : ∀ (t : Option CaseTree) (s : Subst),
    Ahead low d (mapRest (Var.later low d)) (substRest rule s t)
      (substRest rule (s.mapVars (Var.later low d)) (mapRest (Var.later low d) t))
  | none, _ => .pure none
  | some t, s => by
      simp only [mapRest, substRest]
      exact .bind (t.substWith_ahead ahead s) fun t => .pure (some t)

end

end Substitution

namespace Subst

variable {env : Environment}

/-- Solutions have old variables only, which keep their names. -/
theorem holeRule_ahead (old : ∀ m t, env.solution? m = some t → t.Below low) (fuel : Nat) :
    (holeRule env fuel).Ahead low d := by
  induction fuel with
  | zero =>
      intro s m
      unfold holeRule
      rw [mapVars]
      split
      · split
        · exact .pure (Term.hole m)
        · exact .throw
      · exact .pure (Term.hole m)
  | succ fuel ih =>
      intro s m
      unfold holeRule
      rw [mapVars]
      split
      · cases known : env.solution? m with
        | none => exact .pure (Term.hole m)
        | some t =>
            have kept := Term.mapVars_below (Var.later_keeps low d) t (old m t known)
            have met := t.substWith_ahead ih s
            rw [kept] at met
            exact met
      · exact .pure (Term.hole m)

theorem apply_ahead (old : ∀ m t, env.solution? m = some t → t.Below low) (s : Subst) (t : Term) :
    Ahead low d (Term.mapVars (Var.later low d)) (s.apply env t)
      ((s.mapVars (Var.later low d)).apply env (t.mapVars (Var.later low d))) :=
  t.substWith_ahead (holeRule_ahead old _) s

theorem applyTree_ahead (old : ∀ m t, env.solution? m = some t → t.Below low) (s : Subst)
    (t : CaseTree) : Ahead low d (CaseTree.mapVars (Var.later low d)) (s.applyTree env t)
      ((s.mapVars (Var.later low d)).applyTree env (t.mapVars (Var.later low d))) :=
  t.substWith_ahead (holeRule_ahead old _) s

end Subst

end PathTheory
