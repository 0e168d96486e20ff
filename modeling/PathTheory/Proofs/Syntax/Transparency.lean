import PathTheory.Library
import PathTheory.Proofs.Syntax.Capture
import PathTheory.Proofs.Syntax.Solving
/-!
Solutions put in before and after a substitution. A metavariable has no substitution of its own, so
one that comes first does not reach the variables of its solution: they are neither replaced nor
renamed with their binders, and what is put for a variable may bring in a solution that binders
capture. The main statement is that both orders agree just where none of this happens.
-/
namespace PathTheory

mutual

/-- Where solutions may be put in before the substitution or after it. `keys` are the variables that
    the substitution still replaces, and `scope` has the binders passed. -/
def Scoped.Clear (ζ : MetaId → Scoped) (s : Subst) (keys scope : List Var) : Scoped → Prop
  -- a binder that is not renamed captures what a solution brings in
  | .var x => x ∉ scope →
      ∀ w ∈ ((s.image x).toScoped.solve ζ).freeVars, w ∈ scope → w ∈ s.range
  -- a solution is not told of a binder that is renamed, and of a variable that is replaced
  | .hole m => ∀ w ∈ (ζ m).freeVars,
      (w ∈ scope → w ∉ s.range) ∧ (w ∉ scope → (s.image w).toScoped.solve ζ = .var w)
  -- a term where nothing is left to replace is not looked at
  | .node label parts => (keys = [] ∧ label.isTerm = true) ∨ parts.Clear ζ s keys scope

def Parts.Clear (ζ : MetaId → Scoped) (s : Subst) (keys scope : List Var) : Parts → Prop
  | .nil => True
  | .part t rest => t.Clear ζ s keys scope ∧ rest.Clear ζ s keys scope
  | .binder _ x rest =>
      rest.Clear ζ s (if x ∈ s.range then x :: keys else keys.filter (· != x)) (x :: scope)

end

section Agreement

variable {σ : Var → Nameless} {scope after : List Var}

/-- The variable, read in the scope after, is the instance of what it is in the scope before. -/
def ReadsAs (σ : Var → Nameless) (scope after : List Var) (w : Var) : Prop :=
  match position w scope with
  | some i => position w after = some i
  | none => position w after = none ∧ σ w = .free w

theorem readsAs_cons {x w : Var} :
    ReadsAs σ (x :: scope) (x :: after) w ↔ w = x ∨ ReadsAs σ scope after w := by
  by_cases same : w = x
  · simp [ReadsAs, position, same]
  · simp only [ReadsAs, Subst.position_cons_ne same, same, false_or]
    cases position w scope with
    | some i => simp
    | none => simp

theorem ReadsAs.var_iff (closed : ∀ w i, σ w ≠ .bound i) (x : Var) : (Scoped.var x).read after =
    ((Scoped.var x).read scope).inst id σ ↔ ReadsAs σ scope after x := by
  unfold Scoped.read ReadsAs
  cases position x scope with
  | some i => cases position x after <;> simp [Nameless.inst]
  | none =>
      cases position x after with
      | some j => simpa [Nameless.inst] using (closed x j).symm
      | none => simp [Nameless.inst, eq_comm]

mutual

/-- Readings of one tree in two scopes are instances of each other if all its variables agree. -/
theorem Scoped.read_eq_inst_iff (closed : ∀ w i, σ w ≠ .bound i) :
    ∀ (t : Scoped) (scope after : List Var), t.read after = (t.read scope).inst id σ ↔
      ∀ w ∈ t.freeVars, ReadsAs σ scope after w
  | .var x, scope, after => by
      rw [ReadsAs.var_iff closed]
      simp [Scoped.freeVars]
  | .hole _, _, _ => by simp [Scoped.read, Nameless.inst, Scoped.freeVars]
  | .node l parts, scope, after => by
      have sameLabel : l.map id = l := Label.map_id (fun _ => rfl) l
      simp [Scoped.read, Nameless.inst, Scoped.freeVars, sameLabel,
        parts.read_eq_inst_iff closed scope after]

theorem Parts.read_eq_inst_iff (closed : ∀ w i, σ w ≠ .bound i) :
    ∀ (t : Parts) (scope after : List Var), t.read after = (t.read scope).inst id σ ↔
      ∀ w ∈ t.freeVars, ReadsAs σ scope after w
  | .nil, _, _ => by simp [Parts.read, NamelessParts.inst, Parts.freeVars]
  | .part t rest, scope, after => by
      simp [Parts.read, NamelessParts.inst, Parts.freeVars, t.read_eq_inst_iff closed scope after,
        rest.read_eq_inst_iff closed scope after, or_imp, forall_and]
  | .binder _ x rest, scope, after => by
      simp only [Parts.read, NamelessParts.inst, NamelessParts.binder.injEq, true_and,
        rest.read_eq_inst_iff closed (x :: scope) (x :: after), readsAs_cons, Parts.freeVars,
        List.mem_filter, bne_iff_ne]
      exact forall_congr' fun w => by tauto

end

theorem Scoped.read_eq_free_iff {t : Scoped} {w : Var} : t.read [] = .free w ↔ t = .var w := by
  cases t <;> simp [Scoped.read, position]

end Agreement

namespace Subst

/-- The variables that the substitution replaces. -/
def keys (s : Subst) : List Var := s.terms.map Prod.fst

theorem under_uncaptured {s next : Subst} {x y : Var} {n m : Nat} (free : ¬ s.captures x)
    (done : s.under x n = .ok ((y, next), m)) : y = x ∧ next.levels = s.levels ∧
      next.range = s.range ∧ next.keys = s.keys.filter (· != x) ∧
      ∀ z, z ≠ x → next.image z = s.image z := by
  unfold Subst.under at done
  rw [if_neg free] at done
  cases known : s.get? x with
  | some t =>
      rw [known] at done
      cases done
      refine ⟨rfl, rfl, rfl, ?_, fun z apart => by simp [image, get?_remove, apart]⟩
      unfold keys remove
      rw [List.filter_map]
      rfl
  | none =>
      rw [known] at done
      cases done
      refine ⟨rfl, rfl, rfl, ?_, fun _ _ => rfl⟩
      symm
      apply List.filter_eq_self.mpr
      intro z member
      obtain ⟨⟨_, t⟩, inTerms, rfl⟩ := List.mem_map.mp member
      have apart := List.lookup_eq_none_iff.mp known _ inTerms
      rw [bne_comm]
      simpa using apart

/-- What is put for an old variable is old. -/
theorem Covered.image_below {s : Subst} {n : Nat} (covered : s.Covered n) {x : Var}
    (old : x.id < n) : (s.image x).Below n := by
  unfold image
  cases known : s.get? x with
  | none => exact Term.below_ref.mpr old
  | some t => exact covered.below x t known

/-- Binders passed, and what they have become: those of the range are new. -/
def Renames (s : Subst) (first : Nat) : List Var → List Var → Prop :=
  List.Forall₂ fun x y => x.id < first ∧ if x ∈ s.range then first ≤ y.id else y = x

theorem Renames.position {s : Subst} {first : Nat} {scope after : List Var}
    (renames : s.Renames first scope after) {w : Var} (old : w.id < first) :
    position w after = if w ∈ s.range then none else position w scope := by
  induction renames with
  | nil => simp [PathTheory.position]
  | @cons x y scope after step _ ih =>
      obtain ⟨_, becomes⟩ := step
      by_cases inRange : x ∈ s.range
      · rw [if_pos inRange] at becomes
        have isNew : w ≠ y := by
          rintro rfl
          omega
        rw [position_cons_ne isNew, ih]
        by_cases ranged : w ∈ s.range
        · simp [ranged]
        · have other : w ≠ x := fun same => ranged (same ▸ inRange)
          simp [ranged, position_cons_ne other]
      · rw [if_neg inRange] at becomes
        subst becomes
        by_cases same : w = y
        · subst same
          simp [PathTheory.position, inRange]
        · rw [position_cons_ne same, position_cons_ne same, ih]
          split <;> rfl

/-- The substitution `s` of terms, with binders passed, as `inner` in their scope. -/
structure Passing (s inner : Subst) (first n : Nat) (scope after : List Var) : Prop where
  reads : inner.Reads first n scope after id fun z => (s.image z).reading
  levels : inner.levels = []
  range : ∀ x, x.id < first → (x ∈ inner.range ↔ x ∈ s.range)
  kept : ∀ z, z ∉ scope → inner.image z = s.image z
  renames : s.Renames first scope after
  renamed : ∀ x ∈ scope, x ∈ s.range → x ∈ inner.keys

namespace Passing

variable {s inner : Subst} {first n m : Nat} {scope after : List Var} {ζ : MetaId → Scoped}

theorem later (passing : s.Passing inner first n scope after) (order : n ≤ m) :
    s.Passing inner first m scope after :=
  { passing with reads := passing.reads.later order }

theorem isEmpty (passing : s.Passing inner first n scope after) :
    inner.isEmpty = true ↔ inner.keys = [] := by
  simp [Subst.isEmpty, keys, passing.levels, passing.reads.still]

theorem under (passing : s.Passing inner first n scope after) {x y : Var} {next : Subst}
    (old : x.id < first) (done : inner.under x n = .ok ((y, next), m)) :
    n ≤ m ∧ s.Passing next first m (x :: scope) (y :: after) ∧
      next.keys = if x ∈ s.range then x :: inner.keys else inner.keys.filter (· != x) := by
  obtain ⟨order, _, reads⟩ := passing.reads.under old done
  have inRange := passing.range x old
  by_cases captured : inner.captures x
  · have ranged : x ∈ s.range := inRange.mp (by simpa [captures] using captured)
    unfold Subst.under at done
    rw [if_pos captured] at done
    cases done
    have keys : (inner.add x (.ref ⟨n, x.name⟩)).keys = x :: inner.keys := rfl
    refine ⟨order, ⟨reads, passing.levels, ?_, ?_, ?_, ?_⟩, by rw [keys, if_pos ranged]⟩
    · intro z isOld
      have apart : z ≠ ⟨n, x.name⟩ := by
        rintro rfl
        exact absurd (isOld.trans_le passing.reads.order) (Nat.lt_irrefl n)
      simp [add, Term.freeVars, apart, passing.range z isOld]
    · intro z outside
      obtain ⟨other, outer⟩ := not_or.mp (List.mem_cons.not.mp outside)
      rw [← passing.kept z outer]
      simp [image, get?_add, other]
    · exact .cons ⟨old, by rw [if_pos ranged]; exact passing.reads.order⟩ passing.renames
    · intro z member isRanged
      rw [keys]
      rcases List.mem_cons.mp member with rfl | member
      · exact List.mem_cons_self
      · exact List.mem_cons_of_mem _ (passing.renamed z member isRanged)
  · have unranged : x ∉ s.range := fun ranged =>
      captured (by simpa [captures] using inRange.mpr ranged)
    obtain ⟨rfl, levels, range, keys, image⟩ := under_uncaptured captured done
    refine ⟨order, ⟨reads, levels.trans passing.levels, ?_, ?_, ?_, ?_⟩,
      by rw [keys, if_neg unranged]⟩
    · rw [range]
      exact passing.range
    · intro z outside
      obtain ⟨other, outer⟩ := not_or.mp (List.mem_cons.not.mp outside)
      exact (image z other).trans (passing.kept z outer)
    · exact .cons ⟨old, by rw [if_neg unranged]⟩ passing.renames
    · intro z member isRanged
      have other : z ≠ y := fun same => unranged (same ▸ isRanged)
      rw [keys]
      refine List.mem_filter.mpr ⟨?_, by simpa using other⟩
      exact passing.renamed z ((List.mem_cons.mp member).resolve_left other) isRanged

theorem readsAs_iff (passing : s.Passing inner first n scope after) {σ : Var → Nameless} {w : Var}
    (old : w.id < first) :
    ReadsAs σ scope after w ↔ (w ∈ scope → w ∉ s.range) ∧ (w ∉ scope → σ w = .free w) := by
  unfold ReadsAs
  rw [passing.renames.position old]
  cases found : position w scope with
  | some i =>
      have inScope := mem_of_position found
      by_cases ranged : w ∈ s.range <;> simp [inScope, ranged]
  | none =>
      have outside := position_eq_none_iff.mp found
      simp [outside]

/-- What the substitution makes of a variable once solutions are put in. -/
abbrev solvedImage (s : Subst) (ζ : MetaId → Scoped) (x : Var) : Nameless :=
  ((s.image x).toScoped.solve ζ).read []

theorem read_ne_bound {t : Scoped} {i : Nat} : t.read [] ≠ .bound i := by
  cases t <;> simp [Scoped.read, position]

/-- Where nothing is left to replace, no binder has been renamed. -/
theorem idle (passing : s.Passing inner first n scope after) (none : inner.keys = []) {t : Scoped}
    (old : t.Below first) : t.read after = (t.read scope).inst id (solvedImage s ζ) := by
  rw [t.read_eq_inst_iff fun _ _ => read_ne_bound]
  intro w member
  rw [passing.readsAs_iff (old w (t.freeVars_subset w member))]
  refine ⟨fun inScope ranged => ?_, fun outside => ?_⟩
  · have key := passing.renamed w inScope ranged
    rw [none] at key
    cases key
  · have unchanged : s.image w = .ref w := by
      rw [← passing.kept w outside]
      simp [image, get?, List.map_eq_nil_iff.mp none]
    rw [unchanged]
    rfl

end Passing

section Solutions

variable {rule : HoleRule} {s : Subst} {first : Nat} {ζ : MetaId → Scoped}

/-- A solution in its place: not told of what the substitution does. -/
theorem Passing.hole_iff {inner : Subst} {n : Nat} {scope after : List Var}
    (passing : s.Passing inner first n scope after) {t : Scoped} (old : t.Below first) :
    t.read after = (t.read scope).inst id (solvedImage s ζ) ↔ ∀ w ∈ t.freeVars,
      (w ∈ scope → w ∉ s.range) ∧ (w ∉ scope → (s.image w).toScoped.solve ζ = .var w) := by
  rw [t.read_eq_inst_iff fun _ _ => read_ne_bound]
  refine forall₂_congr fun w member => ?_
  rw [passing.readsAs_iff (old w (t.freeVars_subset w member))]
  rw [Scoped.read_eq_free_iff]

/-- What is put for a free variable in its place: only what solutions bring in can be captured. -/
theorem Passing.var_iff {inner : Subst} {n : Nat} {scope after : List Var}
    (passing : s.Passing inner first n scope after) {t : Scoped} (old : t.Below first) :
    t.read after = t.read [] ↔ ∀ w ∈ t.freeVars, w ∈ scope → w ∈ s.range := by
  have unchanged : t.read [] = (t.read []).inst id .free :=
    (Nameless.inst_self (fun _ => rfl) _ fun _ _ => rfl).symm
  have free : ∀ w i, Nameless.free w ≠ .bound i := nofun
  rw [unchanged, t.read_eq_inst_iff free]
  refine forall₂_congr fun w member => ?_
  have place := passing.renames.position (old w (t.freeVars_subset w member))
  by_cases ranged : w ∈ s.range <;> simp [ReadsAs, PathTheory.position, place, ranged,
    position_eq_none_iff]

mutual

/-- Solutions put in after the substitution give what they give before it just where they may. -/
theorem subst_solve_iff (plain : rule.Plain) (solutions : ∀ m, (ζ m).Below first)
    (covered : s.Covered first) : ∀ (t : Scoped) {inner : Subst} {n : Nat}
    {scope after : List Var} {r : Scoped × Nat}, s.Passing inner first n scope after →
      t.Below first → t.subst rule inner n = .ok r →
      ((r.1.solve ζ).read after = ((t.solve ζ).read scope).inst id (Passing.solvedImage s ζ) ↔
        t.Clear ζ s inner.keys scope)
  | .var x, inner, n, scope, after, r, passing, old, done => by
      cases fresh_pure done
      have isOld : x.id < first := old x (by simp [Scoped.ids])
      change ((inner.image x).toScoped.solve ζ).read after =
        ((Scoped.var x).read scope).inst id _ ↔ _
      cases found : position x scope with
      | some i =>
          obtain ⟨w, becomes, place⟩ := passing.reads.bound x i isOld found
          have inScope := mem_of_position found
          simp [Scoped.Clear, becomes, inScope, Term.toScoped, Scoped.solve, Scoped.read, place,
            found, Nameless.inst]
      | none =>
          have outside := position_eq_none_iff.mp found
          have below : ((s.image x).toScoped.solve ζ).Below first :=
            Scoped.solve_below _ (fun m _ => solutions m) (covered.image_below isOld)
          rw [passing.kept x outside]
          simp only [Scoped.read, found, Nameless.inst, Passing.solvedImage,
            passing.var_iff below, Scoped.Clear, outside, not_false_eq_true, forall_const]
  | .hole m, inner, n, scope, after, r, passing, old, done => by
      have kept : r.1 = .hole m := by
        unfold Scoped.subst at done
        split at done
        · rw [fresh_pure done]
        · rw [plain inner m passing.reads.still] at done
          cases done
          rfl
      rw [kept]
      exact passing.hole_iff (solutions m)
  | .node l parts, inner, n, scope, after, r, passing, old, done => by
      unfold Scoped.subst at done
      split at done
      · rename_i stop
        rw [Bool.and_eq_true, passing.isEmpty] at stop
        cases fresh_pure done
        have below : (Scoped.solve ζ (.node l parts)).Below first :=
          Scoped.solve_below _ (fun m _ => solutions m) old
        exact iff_of_true (passing.idle stop.1 below) (.inl stop)
      · rename_i goes
        rw [Bool.and_eq_true, passing.isEmpty] at goes
        obtain ⟨l', k, mapped, next⟩ := fresh_bind done
        obtain ⟨_, labels, same⟩ := fresh_lift mapped
        cases same
        obtain ⟨parts', m, replaced, rest⟩ := fresh_bind next
        cases fresh_pure rest
        have label : l' = l.map id := Label.mapM_ok passing.reads.levels labels
        have inside := parts_solve_iff plain solutions covered parts passing old replaced
        simp only [Scoped.solve, Scoped.read, Nameless.inst, Nameless.node.injEq, label, true_and,
          inside, Scoped.Clear, goes, false_or]

theorem parts_solve_iff (plain : rule.Plain) (solutions : ∀ m, (ζ m).Below first)
    (covered : s.Covered first) : ∀ (t : Parts) {inner : Subst} {n : Nat}
    {scope after : List Var} {r : Parts × Nat}, s.Passing inner first n scope after →
      t.Below first → t.subst rule inner n = .ok r →
      ((r.1.solve ζ).read after = ((t.solve ζ).read scope).inst id (Passing.solvedImage s ζ) ↔
        t.Clear ζ s inner.keys scope)
  | .nil, inner, n, scope, after, r, passing, old, done => by
      cases fresh_pure done
      simp [Parts.solve, Parts.read, NamelessParts.inst, Parts.Clear]
  | .part t rest, inner, n, scope, after, r, passing, old, done => by
      obtain ⟨oldHead, oldRest⟩ := Parts.below_part.mp old
      obtain ⟨t', k, head, next⟩ := fresh_bind done
      obtain ⟨rest', m, tail, final⟩ := fresh_bind next
      cases fresh_pure final
      have order := t.subst_order plain passing.reads.still head
      have first' := subst_solve_iff plain solutions covered t passing oldHead head
      have later := parts_solve_iff plain solutions covered rest (passing.later order) oldRest tail
      simp only [Parts.solve, Parts.read, NamelessParts.inst, NamelessParts.part.injEq, first',
        later, Parts.Clear]
  | .binder mode x rest, inner, n, scope, after, r, passing, old, done => by
      obtain ⟨oldVar, oldRest⟩ := Parts.below_binder.mp old
      obtain ⟨⟨y, next⟩, k, passed, after'⟩ := fresh_bind done
      obtain ⟨rest', m, tail, final⟩ := fresh_bind after'
      cases fresh_pure final
      obtain ⟨_, inside, keys⟩ := passing.under oldVar passed
      have later := parts_solve_iff plain solutions covered rest inside oldRest tail
      simp only [Parts.solve, Parts.read, NamelessParts.inst, NamelessParts.binder.injEq, true_and,
        later, keys, Parts.Clear]

end

end Solutions

/-- Both orders at once may be exchanged in this term. -/
def Clear (env : Environment) (s : Subst) (t : Term) : Prop :=
  t.toScoped.Clear env.solved s s.keys []

/-- The second substitution puts in the same terms with their metavariables solved. -/
structure Solved (env : Environment) (s s' : Subst) : Prop where
  unmapped : ∀ x, s.get? x = none → s'.get? x = none
  mapped : ∀ x t, s.get? x = some t →
    ∃ t' n m, t.zonk env [] n = .ok (t', m) ∧ s'.get? x = some t'

section Orders

variable {env : Environment} {s s' : Subst} {n : Nat}

theorem Solved.image (solved : Solved env s s') (acyclic : env.Acyclic)
    (old : ∀ m u, env.solution? m = some u → u.Below n) (x : Var) :
    (s'.image x).toScoped = (s.image x).toScoped.solve env.solved := by
  unfold Subst.image
  cases known : s.get? x with
  | none =>
      rw [solved.unmapped x known]
      rfl
  | some t =>
      obtain ⟨t', k, m, zonked, known'⟩ := solved.mapped x t known
      obtain ⟨r, done, tree⟩ := acyclic.zonk old t k
      rw [zonked] at done
      cases done
      rw [known']
      exact tree

/-- At the root no binder has been passed. -/
theorem Covered.passing (covered : s.Covered n) (simple : s.Simple) : s.Passing s n n [] [] where
  reads := covered.reads simple.still fun u v done => by
    simpa [Subst.sort, simple.levels] using done
  levels := simple.levels
  range _ _ := Iff.rfl
  kept _ _ := rfl
  renames := .nil
  renamed x member := by cases member

/-- Solving and substituting always end, in either order, and the results differ in the names of
    binders only if and just if the term is clear: no solution has a variable that is replaced or
    whose binder is renamed, and none that comes in for a variable is captured. -/
theorem apply_zonk_iff {t : Term} {n' : Nat} (acyclic : env.Acyclic)
    (solutions : ∀ m u, env.solution? m = some u → u.Below n) (made : s.Made) (simple : s.Simple)
    (old : ∀ x u, s.get? x = some u → u.Below n) (made' : s'.Made) (simple' : s'.Simple)
    (solved : Solved env s s') (below : t.Below n) (later : n ≤ n') :
    ∃ t₁ m l z r k, s.apply env t n = .ok (t₁, m) ∧ t₁.zonk env [] m = .ok (l, m) ∧
      t.zonk env [] n' = .ok (z, n') ∧ s'.apply env z n' = .ok (r, k) ∧
      (l.AlphaEq r ↔ s.Clear env t) := by
  have covered : s.Covered n := ⟨made.range, old⟩
  have trees : ∀ m, (env.solved m).Below n := fun m => (acyclic.rule solutions m).1
  have images : ∀ x, (s'.image x).toScoped = (s.image x).toScoped.solve env.solved :=
    solved.image acyclic solutions
  have covered' : s'.Covered n' := by
    refine ⟨made'.range, fun x u known => ?_⟩
    cases source : s.get? x with
    | none =>
        rw [solved.unmapped x source] at known
        cases known
    | some t =>
        have same := images x
        simp only [Subst.image, known, source, Option.getD_some] at same
        have oldTree := t.toScoped.solve_below (fun m _ => trees m) (old x t source)
        rw [← same] at oldTree
        exact Scoped.Below.mono oldTree later
  obtain ⟨⟨t₁, m⟩, first⟩ := simple.apply env t (n := n)
  obtain ⟨l, zonked, tree⟩ := acyclic.zonk solutions t₁ m
  obtain ⟨z, zonked', tree'⟩ := acyclic.zonk solutions t n'
  obtain ⟨⟨r, k⟩, second⟩ := simple'.apply env z (n := n')
  refine ⟨t₁, m, l, z, r, k, first, zonked, zonked', second, ?_⟩
  have run : t.toScoped.subst (rule env) s n = .ok (t₁.toScoped, m) := by
    rw [Term.toScoped_subst]
    exact fresh_map_of_ok first _
  have exchange := subst_solve_iff (rule_plain env) trees covered t.toScoped
    (covered.passing simple) below run
  have oldSolved : z.Below n' := by
    rw [Term.Below, tree']
    exact (t.toScoped.solve_below (fun m _ => trees m) below).mono later
  have reading := (covered'.apply_reading (f := id) simple'.still
    (fun u v done => by simpa [Subst.sort, simple'.levels] using done) oldSolved second).2.2
  have sameImages : (fun x => (s'.image x).reading) = Passing.solvedImage s env.solved := by
    funext x
    rw [Term.reading, images x]
  rw [Term.AlphaEq, reading, sameImages, Term.reading, tree, Term.reading, tree']
  exact exchange

theorem single_solved {x : Var} {t t' : Term} {m : Nat}
    (zonked : t.zonk env [] n = .ok (t', m)) : Solved env (single x t) (single x t') where
  unmapped z unknown := by
    rw [get?_single] at unknown ⊢
    split at unknown
    · cases unknown
    · rename_i apart
      exact if_neg apart
  mapped z u known := by
    rw [get?_single] at known ⊢
    split at known
    · rename_i same
      cases known
      exact ⟨t', n, m, zonked, if_pos same⟩
    · cases known

end Orders

section Example

open Library

def mentioned : Var := ⟨32, "x"⟩

def other : Var := ⟨33, "y"⟩

def solution : MetaId := ⟨0⟩

/-- The library, and a metavariable solved by a variable of its scope. -/
def solvedByVariable : Environment :=
  { environment 10 with
    metas := #[⟨"m", natType, [mentioned], .expression, some (.ref mentioned), .none⟩] }

theorem solvedByVariable_solution {m : MetaId} {u : Term}
    (known : solvedByVariable.solution? m = some u) : u = .ref mentioned := by
  obtain ⟨entry, found, solved⟩ := Option.bind_eq_some_iff.mp known
  obtain ⟨_, rfl⟩ := Array.getElem?_eq_some_iff.mp found
  simpa [solvedByVariable, eq_comm] using solved

theorem solvedByVariable_acyclic : solvedByVariable.Acyclic := by
  have noLead : ∀ m k, ¬ solvedByVariable.Leads m k := by
    rintro m k ⟨t, known, occurs⟩
    rw [solvedByVariable_solution known] at occurs
    cases occurs
  intro m cycle
  cases cycle with
  | single step => exact noLead _ _ step
  | tail _ step => exact noLead _ _ step

/-- With another variable replaced, the metavariable being put for it, both orders give the same. -/
theorem other_replaced_same : ∃ t₁ m l z r k,
    (single other (.hole solution)).apply solvedByVariable
      (.app (.hole solution) (.ref other)) 34 = .ok (t₁, m) ∧
    t₁.zonk solvedByVariable [] m = .ok (l, m) ∧
    (Term.app (.hole solution) (.ref other)).zonk solvedByVariable [] 34 = .ok (z, 34) ∧
    (single other (.ref mentioned)).apply solvedByVariable z 34 = .ok (r, k) ∧
    l.AlphaEq r := by
  have solutions : ∀ m u, solvedByVariable.solution? m = some u → u.Below 34 := by
    intro m u known
    rw [solvedByVariable_solution known]
    exact Term.below_ref.mpr (by decide)
  have below : (Term.app (.hole solution) (.ref other)).Below 34 :=
    Term.below_app.mpr ⟨nofun, Term.below_ref.mpr (by decide)⟩
  have hole : (Term.hole solution).Below 34 := nofun
  obtain ⟨t₁, m, l, z, r, k, first, zonked, zonked', second, exchange⟩ :=
    apply_zonk_iff solvedByVariable_acyclic solutions (.add other (.hole solution) .empty)
      ⟨rfl, rfl⟩ (single_below hole) (.add other (.ref mentioned) .empty) ⟨rfl, rfl⟩
      (single_solved (n := 34) rfl) below (Nat.le_refl 34)
  refine ⟨t₁, m, l, z, r, k, first, zonked, zonked', second, exchange.mpr ?_⟩
  refine .inr ⟨fun w member => ?_, ⟨fun _ w _ => nofun, trivial⟩⟩
  obtain rfl : w = mentioned := List.mem_singleton.mp member
  exact ⟨nofun, fun _ => rfl⟩

/-- With the variable of the solution replaced, the substitution that comes first is lost. -/
theorem mentioned_replaced_lost :
    solvedByVariable.Acyclic ∧
    Solved solvedByVariable (single mentioned zeroTerm) (single mentioned zeroTerm) ∧
    (single mentioned zeroTerm).apply solvedByVariable (.hole solution) 34 =
      .ok (.hole solution, 34) ∧
    (Term.hole solution).zonk solvedByVariable [] 34 = .ok (.ref mentioned, 34) ∧
    (single mentioned zeroTerm).apply solvedByVariable (.ref mentioned) 34 =
      .ok (zeroTerm, 34) ∧
    ¬ (Term.ref mentioned).AlphaEq zeroTerm :=
  ⟨solvedByVariable_acyclic, single_solved (n := 34) rfl, rfl, rfl, rfl, nofun⟩

end Example

end Subst

end PathTheory
