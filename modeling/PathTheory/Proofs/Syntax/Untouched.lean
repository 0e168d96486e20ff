import PathTheory.Proofs.Level.Canonical
import PathTheory.Proofs.Syntax.Capture
import PathTheory.Proofs.Syntax.Injective
import PathTheory.Proofs.Syntax.Levels
/-!
Substitutions that have nothing to replace in a term: what they mention of it becomes itself. The
term stays the same up to the names of its binders, and it stays the very same one just if no binder
is in the range that is passed on the way to something left to replace.
-/
namespace PathTheory

section Levels

/-- A variable that becomes itself leaves a level as it is. -/
theorem Level.Canonical.subst_self {f : LevelVar → Option Level} {a : Level}
    (canonical : a.Canonical) (same : ∀ x, a.var? = some x → ∀ r, f x = some r → r = .ofVar x) :
    a.subst f = .ok a := by
  cases a with
  | const c => rfl
  | infinity => rfl
  | shift x c m =>
      simp only [subst]
      cases put : f x with
      | none => rfl
      | some r =>
          have sum : Bounded.add 0 c = .ok c := by
            simpa using add_fits (c := 0) (by rw [zero_add]; exact canonical.fits.1)
          rw [same x rfl r put]
          simp only [ofVar, sum, maxCap]
          exact canonical.again x c m rfl

/-- Both levels are canonical, and the predicative one is finite. -/
structure Universe.Canonical (u : Universe) : Prop where
  p : u.p.Canonical
  h : u.h.Canonical
  finite : u.p.isInfinity = false

theorem Subst.sort_self {s : Subst} {u : Universe} (canonical : u.Canonical)
    (same : ∀ v ∈ u.vars, ∀ a, s.levels.lookup v = some a → a = .ofVar v) : s.sort u = .ok u := by
  unfold sort
  by_cases noLevels : s.levels.isEmpty = true
  · exact if_pos noLevels
  · have predicative : u.p.subst (fun x => s.levels.lookup x) = .ok u.p :=
      canonical.p.subst_self fun x isVar => same x (by simp [Universe.vars, isVar])
    have homotopy : u.h.subst (fun x => s.levels.lookup x) = .ok u.h :=
      canonical.h.subst_self fun x isVar => same x (by simp [Universe.vars, isVar])
    rw [if_neg noLevels]
    simp only [Universe.subst, predicative, homotopy]
    exact if_neg (by simp [canonical.finite])

theorem Label.mapM_kept {g : Universe → Checked Universe} {l : Label}
    (same : ∀ u ∈ l.sort?, g u = .ok u) : l.mapM g = .ok l := by
  cases l with
  | univ u | call _ u | con _ u | data _ u | record _ u | field _ u =>
      simp only [Label.mapM, same u rfl]
      rfl
  | _ => rfl

end Levels

mutual

/-- No binder in the tree has to be renamed. Nobody looks below a term where nothing is left to
    replace. -/
def Scoped.Spared (s : Subst) : Scoped → Prop
  | .var _ | .hole _ => True
  | .node l parts => (s.isEmpty && l.isTerm) = true ∨ parts.Spared s

def Parts.Spared (s : Subst) : Parts → Prop
  | .nil => True
  | .part t rest => t.Spared s ∧ rest.Spared s
  | .binder _ x rest => s.captures x = false ∧ rest.Spared (s.remove x)

end

/-- The universes and level arguments of the tree. -/
def Scoped.sorts (t : Scoped) : List Universe := t.gather (fun l => l.sort?.toList) fun _ => []

def Parts.sorts (t : Parts) : List Universe := t.gather (fun l => l.sort?.toList) fun _ => []

namespace Subst

variable {s : Subst} {x : Var}

/-- What the substitution mentions of these variables and universes becomes itself. -/
structure Keeps (s : Subst) (vars : List Var) (sorts : List Universe) : Prop where
  still : s.zonks = false
  vars : ∀ x ∈ vars, ∀ u, s.get? x = some u → u = .ref x
  sorts : ∀ u ∈ sorts, s.sort u = .ok u

theorem Keeps.mono {vars vars' : List Var} {sorts sorts' : List Universe} (keeps : s.Keeps vars sorts)
    (fewer : vars' ⊆ vars) (fewer' : sorts' ⊆ sorts) : s.Keeps vars' sorts' where
  still := keeps.still
  vars z member := keeps.vars z (fewer member)
  sorts u member := keeps.sorts u (fewer' member)

/-- A variable is not replaced in the scope of its binder. -/
theorem Keeps.remove {vars : List Var} {sorts : List Universe}
    (keeps : s.Keeps (vars.filter (· != x)) sorts) : (s.remove x).Keeps vars sorts where
  still := keeps.still
  vars z member u put := by
    rw [get?_remove] at put
    by_cases removed : z = x
    · rw [if_pos removed] at put
      cases put
    · rw [if_neg removed] at put
      exact keeps.vars z (List.mem_filter.mpr ⟨member, by simpa using removed⟩) u put
  sorts := keeps.sorts

theorem remove_of_get?_none (unmentioned : s.get? x = none) : s.remove x = s := by
  have kept : s.terms.filter (·.1 != x) = s.terms := by
    apply List.filter_eq_self.mpr
    intro entry member
    exact bne_comm.trans (by simpa using List.lookup_eq_none_iff.mp unmentioned entry member)
  unfold remove
  rw [kept]

theorem under_of_spared (n : Nat) (free : s.captures x = false) :
    s.under x n = .ok ((x, s.remove x), n) := by
  unfold under
  rw [if_neg (by simp [free])]
  by_cases put : (s.get? x).isSome = true
  · rw [if_pos put]
    rfl
  · rw [if_neg put, remove_of_get?_none (by simpa using put)]
    rfl

/-- A new identity is not the old one. -/
theorem spared_of_under {inner : Subst} {n m : Nat} (old : x.id < n)
    (done : s.under x n = .ok ((x, inner), m)) : s.captures x = false ∧ inner = s.remove x := by
  cases captured : s.captures x with
  | true =>
      unfold under at done
      rw [if_pos captured] at done
      have renamed : (⟨n, x.name⟩ : Var) = x := congrArg (·.1.1) (Except.ok.inj done)
      rw [← renamed] at old
      exact absurd old (Nat.lt_irrefl n)
  | false =>
      rw [under_of_spared n captured] at done
      cases done
      exact ⟨rfl, rfl⟩

end Subst

section Trees

variable {rule : HoleRule}

mutual

/-- A tree in which no binder has to be renamed stays as it is. -/
theorem Scoped.subst_spared (plain : rule.Plain) : ∀ (t : Scoped) {s : Subst} {n : Nat},
    s.Keeps t.freeVars t.sorts → t.Spared s → t.subst rule s n = .ok (t, n)
  | .var x, s, n, keeps, _ => by
      cases put : s.get? x with
      | none => simp only [Scoped.subst, put]; rfl
      | some u =>
          simp only [Scoped.subst, put, keeps.vars x (List.mem_singleton_self x) u put]
          rfl
  | .hole m, s, n, keeps, _ => by
      unfold Scoped.subst
      by_cases idle : s.isEmpty = true
      · rw [if_pos idle]
        rfl
      · rw [if_neg idle, plain s m keeps.still]
        rfl
  | .node l parts, s, n, keeps, spared => by
      unfold Scoped.subst
      by_cases stops : (s.isEmpty && l.isTerm) = true
      · rw [if_pos stops]
        rfl
      · rw [if_neg stops]
        have label : l.mapM s.sort = .ok l := Label.mapM_kept fun u isSort =>
          keeps.sorts u (List.mem_append_left _ (Option.mem_toList.mpr isSort))
        have same := parts.subst_spared plain (n := n)
          (keeps.mono (List.Subset.refl _) (List.subset_append_right _ _))
          (spared.resolve_left stops)
        rw [label]
        exact fresh_map_of_ok same (Scoped.node l)

theorem Parts.subst_spared (plain : rule.Plain) : ∀ (t : Parts) {s : Subst} {n : Nat},
    s.Keeps t.freeVars t.sorts → t.Spared s → t.subst rule s n = .ok (t, n)
  | .nil, _, _, _, _ => rfl
  | .part t rest, s, n, keeps, ⟨here, later⟩ => by
      have head := t.subst_spared plain (n := n)
        (keeps.mono (List.subset_append_left _ _) (List.subset_append_left _ _)) here
      have tail := rest.subst_spared plain (n := n)
        (keeps.mono (List.subset_append_right _ _) (List.subset_append_right _ _)) later
      exact fresh_then head (fresh_map_of_ok tail (Parts.part t))
  | .binder mode x rest, s, n, keeps, ⟨free, later⟩ =>
      fresh_then (Subst.under_of_spared n free)
        (fresh_map_of_ok (rest.subst_spared plain (n := n) (Subst.Keeps.remove keeps) later)
          (Parts.binder mode x))

end

mutual

/-- A tree that stays as it is has no binder that has to be renamed: it would get a new name. -/
theorem Scoped.spared_of_subst (plain : rule.Plain) : ∀ (t : Scoped) {s : Subst} {n m : Nat},
    s.zonks = false → t.Below n → t.subst rule s n = .ok (t, m) → t.Spared s
  | .var _, _, _, _, _, _, _ | .hole _, _, _, _, _, _, _ => trivial
  | .node l parts, s, n, m, still, below, done => by
      unfold Scoped.subst at done
      by_cases stops : (s.isEmpty && l.isTerm) = true
      · exact .inl stops
      · rw [if_neg stops] at done
        obtain ⟨l', k, mapped, next⟩ := fresh_bind done
        obtain ⟨_, _, same⟩ := fresh_lift mapped
        cases same
        obtain ⟨parts', k', replaced, final⟩ := fresh_bind next
        cases fresh_pure final
        exact .inr (parts.spared_of_subst plain still below replaced)

theorem Parts.spared_of_subst (plain : rule.Plain) : ∀ (t : Parts) {s : Subst} {n m : Nat},
    s.zonks = false → t.Below n → t.subst rule s n = .ok (t, m) → t.Spared s
  | .nil, _, _, _, _, _, _ => trivial
  | .part t rest, s, n, m, still, below, done => by
      obtain ⟨t', k, head, next⟩ := fresh_bind done
      obtain ⟨rest', k', tail, final⟩ := fresh_bind next
      cases fresh_pure final
      obtain ⟨belowHere, belowRest⟩ := Parts.below_part.mp below
      have order := t.subst_order plain still head
      exact ⟨t.spared_of_subst plain still belowHere head,
        rest.spared_of_subst plain still (belowRest.mono order) tail⟩
  | .binder mode x rest, s, n, m, still, below, done => by
      obtain ⟨⟨y, inner⟩, k, passed, next⟩ := fresh_bind done
      obtain ⟨rest', k', tail, final⟩ := fresh_bind next
      cases fresh_pure final
      obtain ⟨old, belowRest⟩ := Parts.below_binder.mp below
      have order := (Subst.under_order passed).1
      obtain ⟨free, rfl⟩ := Subst.spared_of_under old passed
      exact ⟨free, rest.spared_of_subst plain still (belowRest.mono order) tail⟩

end

end Trees

section Readings

mutual

theorem Scoped.read_sorts : ∀ (t : Scoped) (scope : List Var), (t.read scope).sorts = t.sorts
  | .var x, scope => by
      unfold Scoped.read
      split <;> rfl
  | .hole _, _ => rfl
  | .node l parts, scope => congrArg (l.sort?.toList ++ ·) (parts.read_sorts scope)

theorem Parts.read_sorts : ∀ (t : Parts) (scope : List Var), (t.read scope).sorts = t.sorts
  | .nil, _ => rfl
  | .part t rest, scope => congrArg₂ (· ++ ·) (t.read_sorts scope) (rest.read_sorts scope)
  | .binder _ x rest, scope => rest.read_sorts (x :: scope)

end

variable {u : Universe} {v : LevelVar}

mutual

theorem Scoped.mem_levelVars (own : v ∈ u.vars) : ∀ t : Scoped, u ∈ t.sorts →
    v ∈ t.gather Label.levelVars fun _ => []
  | .var _, isSort | .hole _, isSort => by cases isSort
  | .node l parts, isSort => by
      rcases List.mem_append.mp isSort with here | inside
      · refine List.mem_append_left _ ?_
        cases l <;> first
          | (cases Option.mem_toList.mp here; exact own)
          | cases here
      · exact List.mem_append_right _ (parts.mem_levelVars own inside)

theorem Parts.mem_levelVars (own : v ∈ u.vars) : ∀ t : Parts, u ∈ t.sorts →
    v ∈ t.gather Label.levelVars fun _ => []
  | .nil, isSort => by cases isSort
  | .part t rest, isSort => by
      rcases List.mem_append.mp isSort with here | later
      · exact List.mem_append_left _ (t.mem_levelVars own here)
      · exact List.mem_append_right _ (rest.mem_levelVars own later)
  | .binder _ _ rest, isSort => rest.mem_levelVars own isSort

end

mutual

theorem Nameless.inst_kept {f : Universe → Universe} {σ : Var → Nameless} : ∀ t : Nameless,
    (∀ x ∈ t.freeVars, σ x = .free x) → (∀ u ∈ t.sorts, f u = u) → t.inst f σ = t
  | .bound _, _, _ | .hole _, _, _ => rfl
  | .free x, vars, _ => vars x (List.mem_singleton_self x)
  | .node l parts, vars, sorts => by
      have label : l.map f = l := by
        cases l with
        | univ u | call _ u | con _ u | data _ u | record _ u | field _ u =>
            simp only [Label.map, sorts u List.mem_cons_self]
        | _ => rfl
      have same := parts.inst_kept vars fun u member => sorts u (List.mem_append_right _ member)
      rw [Nameless.inst, label, same]

theorem NamelessParts.inst_kept {f : Universe → Universe} {σ : Var → Nameless} :
    ∀ t : NamelessParts, (∀ x ∈ t.freeVars, σ x = .free x) → (∀ u ∈ t.sorts, f u = u) →
      t.inst f σ = t
  | .nil, _, _ => rfl
  | .part t rest, vars, sorts => by
      have head := t.inst_kept (fun x member => vars x (List.mem_append_left _ member))
        fun u member => sorts u (List.mem_append_left _ member)
      have tail := rest.inst_kept (fun x member => vars x (List.mem_append_right _ member))
        fun u member => sorts u (List.mem_append_right _ member)
      rw [NamelessParts.inst, head, tail]
  | .binder mode rest, vars, sorts => by
      rw [NamelessParts.inst, rest.inst_kept vars sorts]

end

end Readings

namespace Subst

variable {s : Subst} {t : Term} {n : Nat}

/-- A substitution that puts for the variables and levels of a term what they are. -/
structure Leaves (s : Subst) (t : Term) : Prop where
  vars : ∀ x ∈ t.freeVars, ∀ u, s.get? x = some u → u = .ref x
  levels : ∀ v ∈ t.levelVars, ∀ a, s.levels.lookup v = some a → a = .ofVar v

theorem Leaves.keeps (leaves : s.Leaves t) (still : s.zonks = false)
    (canonical : ∀ u ∈ t.reading.sorts, u.Canonical) :
    s.Keeps t.toScoped.freeVars t.toScoped.sorts where
  still := still
  vars x member := leaves.vars x (t.toScoped_freeVars ▸ member)
  sorts u member := by
    apply sort_self
    · apply canonical
      rw [Term.reading, Scoped.read_sorts]
      exact member
    · intro v own
      exact leaves.levels v (Term.mem_levelVars.mpr (t.toScoped.mem_levelVars own member))

/-- **What a substitution leaves alone, it leaves as it is, but for binders in its range.** If what
    it mentions of a term becomes itself, it gives a term that is the same up to the names of bound
    variables, and the very same one just if no binder has to be renamed on the way. -/
theorem apply_untouched (made : s.Made) (old : ∀ x u, s.get? x = some u → u.Below n)
    (below : t.Below n) (canonical : ∀ u ∈ t.reading.sorts, u.Canonical) (leaves : s.Leaves t)
    (env : Environment) :
    ∃ t' m, s.apply env t n = .ok (t', m) ∧ t'.AlphaEq t ∧
      (t' = t ↔ t.toScoped.Spared s) := by
  have still := made.still
  have keeps := leaves.keeps still canonical
  obtain ⟨⟨t', m⟩, done⟩ : ∃ r, s.apply env t n = .ok r := by
    apply (apply_ok_iff still env t []).mpr
    intro u member
    rw [Scoped.read_sorts] at member
    exact ⟨u, keeps.sorts u member⟩
  refine ⟨t', m, done, ?_, ?_⟩
  · have covered : s.Covered n := ⟨made.range, old⟩
    obtain ⟨_, _, reading⟩ := covered.apply_reading still (fun _ _ => onUniverse_eq) below done
    rw [Term.AlphaEq, reading]
    apply Nameless.inst_kept
    · intro x member
      have free := Term.mem_reading_freeVars.mp member
      cases put : s.get? x with
      | none => simp [image, put, Term.ref_reading]
      | some u =>
          rw [leaves.vars x free u put] at put
          simp [image, put, Term.ref_reading]
    · intro u member
      apply onUniverse_eq
      rw [Term.reading, Scoped.read_sorts] at member
      exact keeps.sorts u member
  · have run : t.toScoped.subst (rule env) s n = .ok (t'.toScoped, m) := by
      rw [Term.toScoped_subst]
      exact fresh_map_of_ok done _
    constructor
    · rintro rfl
      exact t'.toScoped.spared_of_subst (rule_plain env) still below run
    · intro spared
      have same := t.toScoped.subst_spared (rule_plain env) (n := n) keeps spared
      rw [run] at same
      exact Term.toScoped_injective (congrArg Prod.fst (Except.ok.inj same))

/-- A variable that becomes itself, whether or not the term mentions it. -/
theorem single_leaves (x : Var) (t : Term) : (single x (.ref x)).Leaves t where
  vars z _ u put := by
    rw [get?_single] at put
    by_cases same : z = x
    · rw [if_pos same] at put
      cases put
      rw [same]
    · rw [if_neg same] at put
      cases put
  levels _ _ _ put := by cases put

section Example

def appliedVar : Var := ⟨0, "x"⟩

def argumentVar : Var := ⟨1, "y"⟩

/-- The function that applies x to its argument. -/
def applying : Term :=
  .lam .explicit argumentVar (.univ .set0) (.app (.ref appliedVar) (.ref argumentVar))

theorem applying_below : applying.Below 2 := by
  have domain : (Term.univ .set0).Below 2 := Parts.below_nil
  simp [applying, Term.below_lam, Term.below_app, Term.below_ref, domain, appliedVar, argumentVar]

theorem applying_canonical : ∀ u ∈ applying.reading.sorts, u.Canonical := by
  intro u member
  obtain rfl : u = .set0 := List.mem_singleton.mp member
  exact ⟨Level.canonical_const rfl, Level.canonical_const rfl, rfl⟩

/-- Where x becomes x, the function stays as it is. -/
theorem applying_untouched : ∃ t' m,
    (single appliedVar (.ref appliedVar)).apply (.empty 0) applying 2 = .ok (t', m) ∧
      t' = applying := by
  obtain ⟨t', m, done, _, same⟩ := apply_untouched (.add _ _ .empty)
    (single_below (Term.below_ref.mpr (by decide))) applying_below applying_canonical
    (single_leaves appliedVar applying) (.empty 0)
  exact ⟨t', m, done, same.mpr (.inr ⟨.inr trivial, rfl, ⟨.inr ⟨trivial, trivial, trivial⟩, trivial⟩⟩)⟩

/-- Where y becomes y, it does not: that is the name of the binder. -/
theorem applying_renamed :
    (single argumentVar (.ref argumentVar)).Leaves applying ∧
    (single argumentVar (.ref argumentVar)).apply (.empty 0) applying 2 =
      .ok (.lam .explicit ⟨2, "y"⟩ (.univ .set0) (.app (.ref appliedVar) (.ref ⟨2, "y"⟩)), 3) ∧
    .lam .explicit ⟨2, "y"⟩ (.univ .set0) (.app (.ref appliedVar) (.ref ⟨2, "y"⟩)) ≠ applying :=
  ⟨single_leaves argumentVar applying, rfl, by simp [applying, argumentVar]⟩

end Example

end Subst

end PathTheory
