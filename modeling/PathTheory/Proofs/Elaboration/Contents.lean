import PathTheory.Proofs.Elaboration.Declarations
import PathTheory.Proofs.Syntax.Levels
/-!
What stands in definitions: their terms, the universes of data types and classes, and what can be
said of the metavariables, errors and levels in them.
-/
namespace PathTheory

def Body.terms : Body → List Term
  | .term t => [t]
  | .tree t => t.terms

/-- The terms of a definition, the types of parameters among them, in no particular scope. -/
def Definition.terms : Definition → List Term
  | .function f => f.params.map Binding.type ++ f.result :: f.body.toList.flatMap Body.terms
  | .data d => d.params.map Binding.type
  | .constructor c => c.params.map Binding.type
  | .cls _ => []
  | .field f => [f.type]

/-- The universe of a data type or a class. -/
def Definition.sorts : Definition → List Universe
  | .data d => [d.sort]
  | .cls c => [c.sort]
  | _ => []

section Trees

def Body.toScoped : Body → Scoped
  | .term t => t.toScoped
  | .tree t => t.toScoped

/-- The terms and case trees of a definition as trees. -/
def Definition.trees : Definition → List Scoped
  | .function f => f.params.map (fun b => b.type.toScoped) ++
      f.result.toScoped :: f.body.toList.map Body.toScoped
  | .data d => d.params.map fun b => b.type.toScoped
  | .constructor c => c.params.map fun b => b.type.toScoped
  | .cls _ => []
  | .field f => [f.type.toScoped]

variable {α : Type} {node : Label → List α} {hole : MetaId → List α}

theorem Body.gather_terms (inner : ∀ l : Label, l.isTerm = false → node l = []) (b : Body) :
    b.toScoped.gather node hole = b.terms.flatMap (·.toScoped.gather node hole) := by
  cases b with
  | term t => exact (List.append_nil _).symm
  | tree t => exact CaseTree.gather_terms inner t

theorem Definition.gather_terms (inner : ∀ l : Label, l.isTerm = false → node l = [])
    (d : Definition) : d.terms.flatMap (·.toScoped.gather node hole) =
      d.trees.flatMap (·.gather node hole) := by
  cases d with
  | function f =>
      simp only [terms, trees, List.flatMap_append, List.flatMap_cons, List.flatMap_map,
        List.flatMap_assoc, Body.gather_terms inner]
  | data d => simp only [terms, trees, List.flatMap_map]
  | constructor c => simp only [terms, trees, List.flatMap_map]
  | cls c => rfl
  | field f => rfl

end Trees

section Contents

variable {A : Allowance} {d d' : Definition} {env : Environment} {levels : LevelSolution}

theorem Definition.Allowed.trees (allowed : d.Allowed A) : ∀ t ∈ d.trees, t.Allowed A := by
  cases d with
  | function f =>
      obtain ⟨params, result, body⟩ := allowed
      refine List.forall_mem_append.mpr ⟨List.forall_mem_map.mpr params, ?_⟩
      refine List.forall_mem_cons.mpr ⟨result, List.forall_mem_map.mpr fun b listed => ?_⟩
      have inside := body b (Option.mem_toList.mp listed)
      cases b <;> exact inside
  | data d => exact List.forall_mem_map.mpr allowed.1
  | constructor c => exact List.forall_mem_map.mpr allowed.1
  | cls c => exact List.forall_mem_nil _
  | field f => exact List.forall_mem_singleton.mpr allowed.1

/-- The metavariables in a definition may be mentioned. -/
theorem Definition.Allowed.holes (allowed : d.Allowed A) :
    ∀ t ∈ d.terms, ∀ m ∈ t.holes, A.hole m := by
  intro t standing m member
  have among : m ∈ d.terms.flatMap (·.toScoped.gather (fun _ => []) fun m => [m]) := by
    refine List.mem_flatMap.mpr ⟨t, standing, ?_⟩
    rwa [Scoped.gather_holes, Term.toScoped_holes]
  rw [Definition.gather_terms (fun _ _ => rfl)] at among
  obtain ⟨tree, listed, inside⟩ := List.mem_flatMap.mp among
  rw [Scoped.gather_holes] at inside
  exact Scoped.Allowed.hole tree (allowed.trees tree listed) inside

/-- Where nothing may be missing, no error stands in a definition. -/
theorem Definition.Allowed.noError (allowed : d.Allowed A) (strict : ¬ A.error) :
    ∀ t ∈ d.terms, ∀ part ∈ t.subterms, part.isError = false := by
  intro t standing
  have none : d.terms.flatMap (·.toScoped.gather Label.faults fun _ => []) = [] := by
    rw [Definition.gather_terms fun l inner => by cases l <;> first | rfl | cases inner]
    refine List.flatMap_eq_nil_iff.mpr fun tree listed => ?_
    exact Scoped.Allowed.noFault strict tree (allowed.trees tree listed)
  exact Term.noError_of_gather (List.flatMap_eq_nil_iff.mp none t standing)

theorem Definition.ZonksTo.trees (zonks : d.ZonksTo env levels d') (closed : levels.Closed) :
    ∀ t ∈ d'.trees, t.Leveled levels.Leaves := by
  have rule := Subst.rule_leveled (P := levels.Leaves) env
  have telescope : ∀ {params params' : Telescope}, Telescope.ZonksTo env levels params params' →
      ∀ b ∈ params', b.type.toScoped.Leveled levels.Leaves := by
    rintro params params' ⟨n, scope, m, done⟩
    exact substTelescope_leveled rule params closed.zonking n _ m done
  have term : ∀ {t t' : Term}, t.ZonksTo env levels t' → t'.toScoped.Leveled levels.Leaves := by
    rintro t t' ⟨n, m, done⟩
    exact Term.substWith_leveled rule closed.zonking t n _ m done
  cases zonks with
  | function params result body =>
      refine List.forall_mem_append.mpr ⟨List.forall_mem_map.mpr (telescope params), ?_⟩
      refine List.forall_mem_cons.mpr ⟨term result, List.forall_mem_map.mpr fun b' listed => ?_⟩
      obtain ⟨b, _, zonked⟩ := body b' (Option.mem_toList.mp listed)
      cases b with
      | term t => cases b' with
        | term t' => exact term zonked
        | tree t' => exact zonked.elim
      | tree t => cases b' with
        | term t' => exact zonked.elim
        | tree t' =>
            obtain ⟨n, m, done⟩ := zonked
            exact CaseTree.substWith_leveled rule closed.zonking t n _ m done
  | data params => exact List.forall_mem_map.mpr (telescope params)
  | constructor params => exact List.forall_mem_map.mpr (telescope params)
  | cls => exact List.forall_mem_nil _
  | field type => exact List.forall_mem_singleton.mpr (term type)

theorem Definition.ZonksTo.levelVars (zonks : d.ZonksTo env levels d') (closed : levels.Closed) :
    ∀ t ∈ d'.terms, ∀ v ∈ t.levelVars, levels.Leaves v := by
  intro t standing v member
  have among : v ∈ d'.terms.flatMap (·.toScoped.gather Label.levelVars fun _ => []) :=
    List.mem_flatMap.mpr ⟨t, standing, Term.mem_levelVars.mp member⟩
  rw [Definition.gather_terms fun l inner => by cases l <;> first | rfl | cases inner] at among
  obtain ⟨tree, listed, inside⟩ := List.mem_flatMap.mp among
  exact zonks.trees closed tree listed v inside

theorem Definition.ZonksTo.sorts (zonks : d.ZonksTo env levels d') (closed : levels.Closed) :
    ∀ u ∈ d'.sorts, ∀ v ∈ u.vars, levels.Leaves v := by
  cases zonks with
  | data _ sort => exact List.forall_mem_singleton.mpr (closed.sort_leaves sort)
  | cls sort => exact List.forall_mem_singleton.mpr (closed.sort_leaves sort)
  | function | constructor | field => exact List.forall_mem_nil _

theorem Term.ZonksTo.levelVars {t t' : Term} (zonks : t.ZonksTo env levels t')
    (closed : levels.Closed) : ∀ v ∈ t'.levelVars, levels.Leaves v := by
  obtain ⟨n, m, done⟩ := zonks
  intro v member
  have leveled := Term.substWith_leveled (Subst.rule_leveled env) closed.zonking t n _ m done
  exact leveled v (Term.mem_levelVars.mp member)

end Contents

end PathTheory
