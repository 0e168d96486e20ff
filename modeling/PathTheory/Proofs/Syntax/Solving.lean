import PathTheory.Proofs.Syntax.Gathering
import PathTheory.Proofs.Syntax.Substitution
import Mathlib.Logic.Relation
import Mathlib.Data.List.Nodup
import Mathlib.Data.List.Perm.Subperm
/-!
Solved metavariables put into a term. As long as solutions do not lead back to where they started,
this ends for every term, makes no new names and moves no binder: it replaces metavariables in the
tree and does nothing else.
-/
namespace PathTheory

mutual

/-- Metavariables from left to right, one for each occurrence. -/
def Scoped.holes : Scoped → List MetaId
  | .var _ => []
  | .hole m => [m]
  | .node _ parts => parts.holes

def Parts.holes : Parts → List MetaId
  | .nil => []
  | .part t rest => t.holes ++ rest.holes
  | .binder _ _ rest => rest.holes

end

mutual

theorem Scoped.gather_holes : ∀ t : Scoped,
    t.gather (fun _ => []) (fun m => [m]) = t.holes
  | .var _ | .hole _ => rfl
  | .node _ parts => parts.gather_holes

theorem Parts.gather_holes : ∀ t : Parts,
    t.gather (fun _ => []) (fun m => [m]) = t.holes
  | .nil => rfl
  | .part t rest => congrArg₂ (· ++ ·) t.gather_holes rest.gather_holes
  | .binder _ _ rest => rest.gather_holes

end

/-- The metavariables among the subterms are those of the tree. -/
theorem Term.toScoped_holes (t : Term) : t.toScoped.holes = t.holes := by
  have reads : Reads (fun t : Term => t.hole?.toList) (fun _ => []) fun m => [m] :=
    ⟨fun t => by cases t <;> rfl, fun _ _ => rfl⟩
  rw [← Scoped.gather_holes, ← reads.subterms, Term.holes, List.filterMap_eq_flatMap_toList]

mutual

/-- Every metavariable replaced by a tree; what is free in the tree may be bound where it is put. -/
def Scoped.solve (ζ : MetaId → Scoped) : Scoped → Scoped
  | .var x => .var x
  | .hole m => ζ m
  | .node label parts => .node label (parts.solve ζ)

def Parts.solve (ζ : MetaId → Scoped) : Parts → Parts
  | .nil => .nil
  | .part t rest => .part (t.solve ζ) (rest.solve ζ)
  | .binder mode x rest => .binder mode x (rest.solve ζ)

end

section Solve

variable {ζ : MetaId → Scoped} {n : Nat}

mutual

theorem Scoped.solve_below : ∀ t : Scoped, (∀ m ∈ t.holes, (ζ m).Below n) → t.Below n →
    (t.solve ζ).Below n
  | .var _, _, below => below
  | .hole m, old, _ => old m (List.mem_singleton.mpr rfl)
  | .node _ parts, old, below => parts.solve_below old below

theorem Parts.solve_below : ∀ t : Parts, (∀ m ∈ t.holes, (ζ m).Below n) → t.Below n →
    (t.solve ζ).Below n
  | .nil, _, below => below
  | .part t rest, old, below => by
      obtain ⟨head, tail⟩ := Parts.below_part.mp below
      refine Parts.below_part.mpr ⟨t.solve_below (fun m member => old m ?_) head,
        rest.solve_below (fun m member => old m ?_) tail⟩
      · exact List.mem_append_left _ member
      · exact List.mem_append_right _ member
  | .binder _ x rest, old, below => by
      obtain ⟨isOld, inner⟩ := Parts.below_binder.mp below
      exact Parts.below_binder.mpr ⟨isOld, rest.solve_below old inner⟩

end

theorem Label.mapM_self {g : Universe → Checked Universe} (same : ∀ u, g u = .ok u) (l : Label) :
    l.mapM g = .ok l := by
  cases l <;> simp [Label.mapM, same] <;> rfl

variable {rule : HoleRule}

mutual

/-- A substitution that only solves replaces the metavariables, and leaves the counter alone. -/
theorem Scoped.subst_zonking : ∀ t : Scoped,
    (∀ m ∈ t.holes, ∃ u, rule .zonking m n = .ok (u, n) ∧ u.toScoped = ζ m) →
      t.subst rule .zonking n = .ok (t.solve ζ, n)
  | .var _, _ => rfl
  | .hole m, known => by
      obtain ⟨u, run, same⟩ := known m (List.mem_singleton.mpr rfl)
      rw [Scoped.solve, ← same]
      exact fresh_map_of_ok run Term.toScoped
  | .node l parts, known => by
      unfold Scoped.subst
      have label : l.mapM Subst.zonking.sort = .ok l := Label.mapM_self (fun _ => rfl) l
      rw [label]
      exact fresh_map_of_ok (parts.subst_zonking known) (Scoped.node l)

theorem Parts.subst_zonking : ∀ t : Parts,
    (∀ m ∈ t.holes, ∃ u, rule .zonking m n = .ok (u, n) ∧ u.toScoped = ζ m) →
      t.subst rule .zonking n = .ok (t.solve ζ, n)
  | .nil, _ => rfl
  | .part t rest, known => by
      have head := t.subst_zonking fun m member => known m (List.mem_append_left _ member)
      have tail := rest.subst_zonking fun m member => known m (List.mem_append_right _ member)
      exact fresh_then head (fresh_map_of_ok tail (Parts.part (t.solve ζ)))
  | .binder mode x rest, known => by
      have passed : Subst.zonking.under x n = .ok ((x, .zonking), n) := rfl
      exact fresh_then passed (fresh_map_of_ok (rest.subst_zonking known) (Parts.binder mode x))

end

end Solve

namespace Environment

/-- The solution of the first metavariable mentions the second one. -/
def Leads (env : Environment) (m k : MetaId) : Prop := ∃ t ∈ env.solution? m, k ∈ t.holes

/-- No chain of solutions comes back to where it started. -/
def Acyclic (env : Environment) : Prop := ∀ m, ¬ Relation.TransGen env.Leads m m

variable {env : Environment}

theorem index_lt {m : MetaId} {t : Term} (solved : env.solution? m = some t) :
    m.index < env.metas.size := by
  obtain ⟨entry, found, _⟩ := Option.bind_eq_some_iff.mp solved
  exact (Array.getElem?_eq_some_iff.mp found).1

theorem Acyclic.not_mem_path (acyclic : env.Acyclic) {m : MetaId} {path : List MetaId}
    (leads : ∀ p ∈ path, Relation.TransGen env.Leads p m) : m ∉ path := fun member =>
  acyclic m (leads m member)

/-- Solved metavariables that are all different are no more than there are metavariables. -/
theorem length_le_metas {path : List MetaId} (nodup : path.Nodup)
    (known : ∀ p ∈ path, p.index < env.metas.size) : path.length ≤ env.metas.size := by
  have different : (path.map MetaId.index).Nodup :=
    List.Nodup.map (fun a b same => by cases a; cases b; cases same; rfl) nodup
  have inside : path.map MetaId.index ⊆ List.range env.metas.size := by
    intro i member
    obtain ⟨p, inPath, rfl⟩ := List.mem_map.mp member
    exact List.mem_range.mpr (known p inPath)
  simpa using (different.subperm inside).length_le

end Environment

section Zonking

variable {env : Environment} {b : Nat}

theorem Term.substWith_zonking {rule : HoleRule} {ζ : MetaId → Scoped} {n : Nat} {t : Term}
    (known : ∀ m ∈ t.holes, ∃ u, rule .zonking m n = .ok (u, n) ∧ u.toScoped = ζ m) :
    ∃ r, t.substWith rule .zonking n = .ok (r, n) ∧ r.toScoped = t.toScoped.solve ζ := by
  rw [← t.toScoped_holes] at known
  have run := t.toScoped.subst_zonking known
  rw [Term.toScoped_subst] at run
  obtain ⟨r, m, done, same⟩ := fresh_map run
  obtain ⟨tree, rfl⟩ := Prod.mk.inj same
  exact ⟨r, done, tree.symm⟩

theorem Subst.holeRule_unsolved {m : MetaId} (solved : env.solution? m = none) (fuel : Nat) :
    holeRule env fuel .zonking m = pure (.hole m) := by
  cases fuel <;> simp [holeRule, zonking, solved]

theorem Subst.holeRule_solved {m : MetaId} {t : Term} (solved : env.solution? m = some t)
    (fuel : Nat) :
    holeRule env (fuel + 1) .zonking m = t.substWith (holeRule env fuel) .zonking := by
  simp [holeRule, zonking, solved]

/-- The metavariables passed on the way differ from one another and from the next one, so the fuel
    lasts; what comes out does not depend on the counter. -/
theorem holeRule_ends (acyclic : env.Acyclic)
    (old : ∀ m t, env.solution? m = some t → t.Below b) (fuel : Nat) (m : MetaId)
    (path : List MetaId) (nodup : path.Nodup) (known : ∀ p ∈ path, p.index < env.metas.size)
    (leads : ∀ p ∈ path, Relation.TransGen env.Leads p m)
    (enough : env.metas.size ≤ fuel + path.length) :
    ∃ tree : Scoped, tree.Below b ∧
      ∀ n, ∃ u, Subst.holeRule env fuel .zonking m n = .ok (u, n) ∧ u.toScoped = tree := by
  cases solved : env.solution? m with
  | none =>
      refine ⟨.hole m, nofun, fun n => ⟨.hole m, ?_, rfl⟩⟩
      rw [Subst.holeRule_unsolved solved]
      rfl
  | some t =>
      have nodup' : (m :: path).Nodup :=
        List.nodup_cons.mpr ⟨acyclic.not_mem_path leads, nodup⟩
      have known' : ∀ p ∈ m :: path, p.index < env.metas.size :=
        List.forall_mem_cons.mpr ⟨Environment.index_lt solved, known⟩
      cases fuel with
      | zero =>
          have short := Environment.length_le_metas nodup' known'
          rw [List.length_cons] at short
          omega
      | succ fuel =>
          have inner : ∀ k ∈ t.holes, ∃ tree : Scoped, tree.Below b ∧
              ∀ n, ∃ u, Subst.holeRule env fuel .zonking k n = .ok (u, n) ∧ u.toScoped = tree := by
            intro k occurs
            have step : env.Leads m k := ⟨t, solved, occurs⟩
            apply holeRule_ends acyclic old fuel k (m :: path) nodup' known'
            · exact List.forall_mem_cons.mpr
                ⟨.single step, fun p member => (leads p member).tail step⟩
            · rw [List.length_cons]
              omega
          have : Nonempty Scoped := ⟨.hole m⟩
          choose! ζ below run using inner
          refine ⟨t.toScoped.solve ζ, ?_, fun n => ?_⟩
          · rw [← t.toScoped_holes] at below
            exact t.toScoped.solve_below below (old m t solved)
          · obtain ⟨r, done, tree⟩ := Term.substWith_zonking fun k occurs => run k occurs n
            rw [Subst.holeRule_solved solved]
            exact ⟨r, done, tree⟩

namespace Environment

/-- What is put in for a metavariable. -/
def solved (env : Environment) (m : MetaId) : Scoped :=
  match (Term.hole m).zonk env [] 0 with
  | .ok (t, _) => t.toScoped
  | .error _ => .hole m

theorem Acyclic.rule (acyclic : env.Acyclic)
    (old : ∀ m t, env.solution? m = some t → t.Below b) (m : MetaId) :
    (env.solved m).Below b ∧
      ∀ n, ∃ u, Subst.rule env .zonking m n = .ok (u, n) ∧ u.toScoped = env.solved m := by
  obtain ⟨tree, below, run⟩ := holeRule_ends acyclic old env.metas.size m [] .nil nofun nofun
    (Nat.le_add_right _ _)
  have same : env.solved m = tree := by
    obtain ⟨u, done, rfl⟩ := run 0
    have zonked : (Term.hole m).zonk env [] 0 = .ok (u, 0) := done
    rw [solved, zonked]
  rw [same]
  exact ⟨below, run⟩

/-- Every term comes out with its solved metavariables replaced, and nothing else has changed. -/
theorem Acyclic.zonk (acyclic : env.Acyclic)
    (old : ∀ m t, env.solution? m = some t → t.Below b) (t : Term) (n : Nat) :
    ∃ r, t.zonk env [] n = .ok (r, n) ∧ r.toScoped = t.toScoped.solve env.solved :=
  Term.substWith_zonking fun m _ => (acyclic.rule old m).2 n

end Environment

end Zonking

end PathTheory
