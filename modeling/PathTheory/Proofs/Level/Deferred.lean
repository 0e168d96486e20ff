import PathTheory.Proofs.Level.Extent
import PathTheory.Proofs.Level.Solution
import PathTheory.Proofs.Equation.History
/-!
Comparisons that are put off. What a comparison cannot decide becomes constraints, and what it can
decide depends on the levels as they are before anything is solved. The main statement is that both
agree: once the constraints are solved, every comparison that was accepted holds of the solved
universes, and solving never makes a predicative level infinite.
-/
namespace PathTheory

/-- If the level has a variable, it is of the kind. -/
def Level.OfKind (a : Level) (kind : LevelKind) : Prop := ∀ x, a.var? = some x → x.kind = kind

theorem Level.ofKind_of_none {a : Level} (none : a.var? = none) (kind : LevelKind) :
    a.OfKind kind := by
  intro x isVar
  rw [none] at isVar
  cases isVar

theorem Level.ofKind_shift (x : LevelVar) (c : Int) (m : Option Int) :
    (Level.shift x c m).OfKind x.kind := by
  intro y isVar
  cases isVar
  rfl

/-- Both sides are of one kind. -/
def Demand.OneKind (d : Demand) : Prop := ∃ kind, d.left.OfKind kind ∧ d.right.OfKind kind

/-- The constraints that a demand is recorded as, left and right sides. -/
def Demand.sides (d : Demand) : List (Level × Level) :=
  match d.cmp with
  | .le => [(d.left, d.right)]
  | .ge => [(d.right, d.left)]
  | .eq => [(d.left, d.right), (d.right, d.left)]

/-- What a demand of one kind is recorded as is of one kind. -/
theorem Demand.OneKind.constraint {d : Demand} (oneKind : d.OneKind) {c : LevelConstraint}
    (side : (c.left, c.right) ∈ d.sides) : c.OneKind := by
  obtain ⟨kind, left, right⟩ := oneKind
  have sides : c.left.OfKind kind ∧ c.right.OfKind kind := by
    unfold sides at side
    split at side <;> simp only [List.mem_cons, Prod.mk.injEq, List.not_mem_nil, or_false] at side
    · rw [side.1, side.2]
      exact ⟨left, right⟩
    · rw [side.1, side.2]
      exact ⟨right, left⟩
    · rcases side with ⟨first, second⟩ | ⟨first, second⟩ <;> rw [first, second]
      · exact ⟨left, right⟩
      · exact ⟨right, left⟩
  have every : ∀ x ∈ c.vars, x.kind = kind := by
    intro x isVar
    rcases List.mem_append.mp isVar with among | among
    · exact sides.1 x (Option.mem_toList.mp among)
    · exact sides.2 x (Option.mem_toList.mp among)
  intro x first y second
  rw [every x first, every y second]

namespace LevelSolution

/-- Every constraint that the demand is recorded as is satisfied. -/
def Meets (s : LevelSolution) (d : Demand) : Prop :=
  ∀ c : LevelConstraint, (c.left, c.right) ∈ d.sides → s.satisfies c = .ok true

/-- A universe with its inferred levels filled in. -/
def sort (s : LevelSolution) (u : Universe) : Checked Universe := u.subst s.get?

end LevelSolution

namespace LevelEquations

variable {e : LevelEquations} {d : Demand} {ds : List Demand} {c : LevelConstraint}

theorem mem_record : c ∈ (e.record d).constraints.toList ↔
    c ∈ e.constraints.toList ∨ (c.left, c.right) ∈ d.sides ∧ c.span = e.span := by
  obtain ⟨left, right, span⟩ := c
  obtain ⟨l, r, cmp⟩ := d
  cases cmp <;> simp [record, push, Demand.sides, and_assoc, or_and_right]

theorem mem_recordAll : c ∈ (e.recordAll ds).constraints.toList ↔
    c ∈ e.constraints.toList ∨ ∃ d ∈ ds, (c.left, c.right) ∈ d.sides ∧ c.span = e.span := by
  induction ds generalizing e with
  | nil => simp [recordAll]
  | cons d ds ih =>
      have span : (e.record d).span = e.span := by
        unfold record
        split <;> rfl
      rw [recordAll, List.foldl_cons, ← recordAll, ih, mem_record, span]
      simp [or_assoc]

/-- What the solver gives is infinite for homotopy levels at most. -/
theorem solve_finite {s : LevelSolution} (oneKind : ∀ c ∈ e.constraints.toList, c.OneKind)
    (done : e.solve.run = .ok (.ok s)) (x : LevelVar) (predicative : x.kind = .predicative) :
    s.get? x ≠ some .infinity := by
  rcases solve_run oneKind done with ⟨_, _, _, impossible⟩ | ⟨values, t, assembled, final⟩
  · cases impossible
  · rcases final with ⟨same, _⟩ | ⟨_, _, _, impossible⟩
    · cases same
      intro infinite
      exact ((assembled.assigns oneKind).admitted x _ infinite).2.finite predicative rfl
    · cases impossible

end LevelEquations

namespace Level

variable {a b a' b' : Level} {cmp : Cmp} {s : LevelSolution}

theorem holds_infinity (a : Level) : a.holds infinity .le = .ok true := by
  simp only [holds, compare, compareLe]
  split <;> rfl

/-- With something left to be inferred, a comparison is a demand. -/
theorem compareLe_inferred (apart : a ≠ b) (finite : b ≠ infinity)
    (inferred : (a.hasInference || b.hasInference) = true) :
    a.compareLe b = .ok (.demanded ⟨a, b, .le⟩) := by
  unfold compareLe
  rw [if_neg apart]
  cases b with
  | infinity => exact absurd rfl finite
  | _ =>
      cases a with
      | infinity =>
          simp only [hasInference, Bool.false_or] at inferred
          exact congrArg Except.ok (if_pos inferred)
      | _ => exact if_pos inferred

theorem compareLe_cases {verdict : Verdict} (compared : a.compareLe b = .ok verdict) :
    (verdict = .demanded ⟨a, b, .le⟩ ∧ (a.hasInference || b.hasInference) = true) ∨
      ∃ r, verdict = .decided r := by
  unfold compareLe at compared
  split at compared
  · exact .inr ⟨true, (Except.ok.inj compared).symm⟩
  split at compared
  · exact .inr ⟨true, (Except.ok.inj compared).symm⟩
  · split at compared
    · rename_i inferred
      exact .inl ⟨(Except.ok.inj compared).symm, inferred⟩
    · exact .inr ⟨false, (Except.ok.inj compared).symm⟩
  · split at compared
    · rename_i inferred
      exact .inl ⟨(Except.ok.inj compared).symm, inferred⟩
    · obtain ⟨r, _, decided⟩ := map_ok compared
      exact .inr ⟨r, decided.symm⟩

/-- Without inferred variables it is decided. -/
theorem compareLe_closed {verdict : Verdict} (left : a.hasInference = false)
    (right : b.hasInference = false) (compared : a.compareLe b = .ok verdict) :
    ∃ r, verdict = .decided r := by
  refine (compareLe_cases compared).resolve_left fun ⟨_, inferred⟩ => ?_
  rw [left, right] at inferred
  cases inferred

theorem decided_of_holds (below : a.holds b .le = .ok true) :
    a.compare b .le = .ok (.decided true) := by
  obtain ⟨verdict, compared, answer⟩ := bind_ok below
  rw [compared]
  cases verdict with
  | demanded d => cases answer
  | decided r =>
      cases answer
      rfl

theorem eq_infinity_of_holds (apart : a ≠ b) (inferred : (a.hasInference || b.hasInference) = true)
    (below : a.holds b .le = .ok true) : b = infinity := by
  by_contra finite
  have demanded := compareLe_inferred apart finite inferred
  simp only [holds, compare, demanded] at below
  cases below

/-- Levels are equal just if each is at most the other. -/
theorem holds_eq_iff : a.holds b .eq = .ok true ↔
    a.holds b .le = .ok true ∧ b.holds a .le = .ok true := by
  rw [holds_eq]
  by_cases same : a = b
  · subst same
    simp [holds_refl]
  rw [if_neg same]
  by_cases inferred : (a.hasInference || b.hasInference) = true
  · rw [if_pos inferred]
    refine ⟨fun impossible => (by cases impossible), fun ⟨below, above⟩ => ?_⟩
    have top := eq_infinity_of_holds same inferred below
    have top' := eq_infinity_of_holds (Ne.symm same) (Bool.or_comm _ _ ▸ inferred) above
    exact absurd (top'.trans top.symm) same
  · rw [if_neg inferred]
    constructor
    · intro both
      obtain ⟨r, below, rest⟩ := bind_ok both
      cases r with
      | false => cases rest
      | true => exact ⟨below, rest⟩
    · rintro ⟨below, above⟩
      rw [below]
      exact above

/-- A comparison that is accepted is about the same levels or about infinity, leaves everything to a
    demand, or is about levels without inferred variables. -/
theorem compare_accepted {verdict : Verdict} (apart : cmp ≠ .ge)
    (compared : a.compare b cmp = .ok verdict)
    (accepted : (Universe.Comparison.of true verdict).holds = true) :
    a = b ∨ cmp = .le ∧ b = infinity ∨ verdict = .demanded ⟨a, b, cmp⟩ ∨
      a.hasInference = false ∧ b.hasInference = false ∧ a.holds b cmp = .ok true := by
  by_cases same : a = b
  · exact .inl same
  by_cases inferred : (a.hasInference || b.hasInference) = true
  · cases cmp with
    | ge => exact absurd rfl apart
    | eq =>
        simp only [compare, if_neg same, if_pos inferred] at compared
        exact .inr (.inr (.inl (Except.ok.inj compared).symm))
    | le =>
        by_cases top : b = infinity
        · exact .inr (.inl ⟨rfl, top⟩)
        · have demanded := compareLe_inferred same top inferred
          exact .inr (.inr (.inl (Except.ok.inj (compared.symm.trans demanded))))
  · obtain ⟨left, right⟩ := Bool.or_eq_false_iff.mp (Bool.not_eq_true _ ▸ inferred)
    refine .inr (.inr (.inr ⟨left, right, ?_⟩))
    have decided : ∃ r, verdict = .decided r := by
      cases cmp with
      | ge => exact absurd rfl apart
      | le => exact compareLe_closed left right compared
      | eq =>
          simp only [compare, if_neg same, if_neg inferred] at compared
          obtain ⟨first, below, next⟩ := bind_ok compared
          obtain ⟨r, rfl⟩ := compareLe_closed left right below
          cases r with
          | false => exact ⟨false, (Except.ok.inj next).symm⟩
          | true => exact compareLe_closed right left next
    obtain ⟨r, rfl⟩ := decided
    obtain rfl : r = true := accepted
    rw [holds, compared]
    rfl

/-- Levels without inferred variables are not touched by a solution. -/
theorem level_closed (params : ∀ k, s.get? (.param k) = none) (closed : a.hasInference = false)
    (solved : s.level a = .ok a') : a' = a := by
  unfold LevelSolution.level at solved
  cases a with
  | const c => exact (Except.ok.inj solved).symm
  | infinity => exact (Except.ok.inj solved).symm
  | shift x c m =>
      cases x with
      | infer id k => cases closed
      | param k =>
          simp only [subst, params k] at solved
          exact (Except.ok.inj solved).symm

theorem holds_same (a : Level) (apart : cmp ≠ .ge) : a.holds a cmp = .ok true := by
  cases cmp with
  | ge => exact absurd rfl apart
  | le => exact holds_refl a
  | eq => exact holds_eq_iff.mpr ⟨holds_refl a, holds_refl a⟩

/-- **A comparison of levels that was accepted holds of the solved levels,** as far as its demands are
    met. -/
theorem compare_deferred {verdict : Verdict} (params : ∀ k, s.get? (.param k) = none)
    (apart : cmp ≠ .ge) (compared : a.compare b cmp = .ok verdict)
    (accepted : (Universe.Comparison.of true verdict).holds = true)
    (met : ∀ d ∈ (Universe.Comparison.of true verdict).demands, s.Meets d)
    (left : s.level a = .ok a') (right : s.level b = .ok b') : a'.holds b' cmp = .ok true := by
  rcases compare_accepted apart compared accepted with
    rfl | ⟨rfl, rfl⟩ | rfl | ⟨leftClosed, rightClosed, holds⟩
  · cases left.symm.trans right
    exact holds_same a' apart
  · cases right
    exact holds_infinity a'
  · have below : ∀ {l r l' r' : Level}, (l, r) ∈ (⟨a, b, cmp⟩ : Demand).sides →
        s.level l = .ok l' → s.level r = .ok r' → l'.holds r' .le = .ok true := by
      intro l r l' r' side first second
      have satisfied := met ⟨a, b, cmp⟩ (List.mem_singleton_self _) ⟨l, r, .none⟩ side
      rw [LevelSolution.satisfies, first, second] at satisfied
      exact satisfied
    cases cmp with
    | ge => exact absurd rfl apart
    | le => exact below (by simp [Demand.sides]) left right
    | eq =>
        exact holds_eq_iff.mpr ⟨below (by simp [Demand.sides]) left right,
          below (by simp [Demand.sides]) right left⟩
  · rw [level_closed params leftClosed left, level_closed params rightClosed right]
    exact holds

/-- A demand is about the levels that are compared. -/
theorem compare_oneKind {kind : LevelKind} {verdict : Verdict} (left : a.OfKind kind)
    (right : b.OfKind kind) (compared : a.compare b cmp = .ok verdict) :
    ∀ d ∈ (Universe.Comparison.of true verdict).demands, d.OneKind := by
  have up : ∀ {a b : Level} {verdict : Verdict}, a.OfKind kind → b.OfKind kind →
      a.compareLe b = .ok verdict →
      ∀ d ∈ (Universe.Comparison.of true verdict).demands, d.OneKind := by
    intro a b verdict left right compared d demanded
    rcases compareLe_cases compared with ⟨rfl, _⟩ | ⟨r, rfl⟩
    · cases List.mem_singleton.mp demanded
      exact ⟨kind, left, right⟩
    · cases demanded
  cases cmp with
  | le => exact up left right compared
  | ge => exact up right left compared
  | eq =>
      simp only [compare] at compared
      split at compared
      · cases compared
        exact List.forall_mem_nil _
      split at compared
      · cases compared
        intro d demanded
        cases List.mem_singleton.mp demanded
        exact ⟨kind, left, right⟩
      · obtain ⟨first, below, next⟩ := bind_ok compared
        split at next
        · exact up right left next
        · cases next
          exact up left right below

/-- A level that is filled in becomes infinite only through its variable. -/
theorem level_finite {kind : LevelKind} (ofKind : a.OfKind kind) (finite : a ≠ infinity)
    (values : ∀ x, x.kind = kind → s.get? x ≠ some infinity) (solved : s.level a = .ok a') :
    a' ≠ infinity := by
  rintro rfl
  have origin := subst_origin solved
  cases a with
  | const c => cases origin.2
  | infinity => exact finite rfl
  | shift x c m =>
      have top := origin.2
      cases known : s.get? x with
      | none =>
          rw [known] at top
          cases top
      | some r =>
          rw [known] at top
          cases r with
          | const d => cases top
          | shift y d n => cases top
          | infinity => exact values x (ofKind x rfl) known

end Level

namespace Universe

variable {u v u' v' : Universe} {cmp : Cmp} {c : Comparison} {s : LevelSolution}

/-- The predicative level is over a predicative variable and finite, the homotopy level over a homotopy
    variable. -/
structure OnAxes (u : Universe) : Prop where
  p : u.p.OfKind .predicative
  h : u.h.OfKind .homotopy
  finite : u.p ≠ .infinity

/-- The comparison of two levels was made and accepted, and its demands are among those given. -/
def Accepted (ds : List Demand) (a b : Level) (cmp : Cmp) : Prop :=
  ∃ verdict, a.compare b cmp = .ok verdict ∧ (Comparison.of true verdict).holds = true ∧
    ∀ d ∈ (Comparison.of true verdict).demands, d ∈ ds

/-- What is known when a comparison of universes is accepted. -/
theorem compareUp_accepted (compared : compareUp true u v cmp = .ok c) (accepted : c.holds = true) :
    u.isProp ∧ (cmp = .le ∨ v.isProp ∨ Accepted c.demands v.h .prop .eq) ∨
    v.isProp ∧ Accepted c.demands u.h .prop .le ∨
    ¬ u.isProp ∧ ¬ v.isProp ∧ Accepted c.demands u.p v.p cmp ∧ Accepted c.demands u.h v.h cmp := by
  unfold compareUp at compared
  by_cases small : u.isProp
  · rw [if_pos small] at compared
    refine .inl ⟨small, ?_⟩
    by_cases le : cmp = .le
    · exact .inl le
    by_cases least : v.isProp
    · exact .inr (.inl least)
    have further : (cmp == .le || v.isProp) = false := by simp [le, least]
    rw [further] at compared
    obtain ⟨verdict, asked, kept⟩ := bind_ok compared
    cases kept
    exact .inr (.inr ⟨verdict, asked, accepted, fun _ listed => listed⟩)
  rw [if_neg small] at compared
  by_cases least : v.isProp
  · rw [if_pos least] at compared
    obtain ⟨verdict, asked, kept⟩ := bind_ok compared
    cases kept
    exact .inr (.inl ⟨least, verdict, asked, accepted, fun _ listed => listed⟩)
  rw [if_neg least] at compared
  obtain ⟨sizes, asked, next⟩ := bind_ok compared
  by_cases held : (Comparison.of true sizes).holds = true
  · simp only [Comparison.andThen, if_pos held] at next
    obtain ⟨second, mapped, kept⟩ := bind_ok next
    obtain ⟨dimensions, asked', rfl⟩ := map_ok mapped
    cases kept
    exact .inr (.inr ⟨small, least,
      ⟨sizes, asked, held, fun _ listed => List.mem_append_left _ listed⟩,
      ⟨dimensions, asked', accepted, fun _ listed => List.mem_append_right _ listed⟩⟩)
  · simp only [Comparison.andThen, if_neg held] at next
    cases next
    exact absurd accepted held

/-- A comparison that holds with every demand refused makes no demand. -/
theorem compare_of_holds (below : u.holds v .le = .ok true) :
    compare true u v .le = .ok ⟨true, []⟩ := by
  rw [holds_le] at below
  change compareUp true u v .le = _
  unfold compareUp
  by_cases small : u.isProp
  · rw [if_pos small]
    rfl
  rw [if_neg small] at below ⊢
  by_cases least : v.isProp
  · rw [if_pos least] at below ⊢
    rw [Level.decided_of_holds below]
    rfl
  · rw [if_neg least] at below ⊢
    obtain ⟨sizes, first, rest⟩ := bind_ok below
    cases sizes with
    | false => cases rest
    | true =>
        have dimensions : u.h.holds v.h .le = .ok true := rest
        rw [Level.decided_of_holds first, Level.decided_of_holds dimensions]
        rfl

/-- With nothing left to inference, what is accepted holds. -/
theorem holds_of_compare (left : u.Closed) (right : v.Closed)
    (compared : compare true u v .le = .ok c) (accepted : c.holds = true) :
    u.holds v .le = .ok true := by
  have settled : ∀ {a b : Level}, Accepted c.demands a b .le → a.hasInference = false →
      b.hasInference = false → a.holds b .le = .ok true := by
    rintro a b ⟨verdict, asked, held, _⟩ closed closed'
    obtain ⟨r, rfl⟩ := Level.compareLe_closed closed closed' asked
    unfold Level.holds
    rw [asked]
    exact congrArg Except.ok held
  rcases compareUp_accepted compared accepted with
    ⟨small, _⟩ | ⟨least, dimensions⟩ | ⟨_, _, sizes, dimensions⟩
  · rw [holds_le, if_pos small]
  · have below := settled dimensions left.h rfl
    exact holds_le_of (isProp_iff.mp least ▸ below) (.inl least)
  · exact holds_le_of (settled dimensions left.h right.h) (.inr (settled sizes left.p right.p))

/-- Solving a universe solves its levels. -/
theorem sort_levels (solved : s.sort u = .ok u') :
    s.level u.p = .ok u'.p ∧ s.level u.h = .ok u'.h := subst_levels solved

theorem isProp_solved (small : u.isProp) (solved : s.sort u = .ok u') : u'.isProp := by
  have dimensions := (sort_levels solved).2
  rw [isProp_iff.mp small] at dimensions
  exact isProp_iff.mpr (Except.ok.inj dimensions).symm

theorem holds_eq_of (dimensions : u.h.holds v.h .eq = .ok true)
    (sizes : u.p.holds v.p .eq = .ok true) : u.holds v .eq = .ok true := by
  obtain ⟨below, above⟩ := Level.holds_eq_iff.mp dimensions
  rw [Universe.holds_eq]
  by_cases small : u.isProp
  · rw [if_pos small]
    split
    · rfl
    · rw [← isProp_iff.mp small]
      exact Level.holds_eq_iff.mpr ⟨above, below⟩
  rw [if_neg small]
  by_cases least : v.isProp
  · rw [if_pos least, ← isProp_iff.mp least, below]
  · rw [if_neg least, sizes]
    exact dimensions

/-- **A comparison of universes that was accepted holds of the solved universes,** as far as its
    demands are met. -/
theorem compareUp_deferred (params : ∀ k, s.get? (.param k) = none) (apart : cmp ≠ .ge)
    (compared : compareUp true u v cmp = .ok c) (accepted : c.holds = true)
    (met : ∀ d ∈ c.demands, s.Meets d) (left : s.sort u = .ok u') (right : s.sort v = .ok v') :
    u'.holds v' cmp = .ok true := by
  obtain ⟨leftSizes, leftDimensions⟩ := sort_levels left
  obtain ⟨rightSizes, rightDimensions⟩ := sort_levels right
  have solved : ∀ {a b a' b' : Level} {cmp : Cmp}, Accepted c.demands a b cmp → cmp ≠ .ge →
      s.level a = .ok a' → s.level b = .ok b' → a'.holds b' cmp = .ok true := by
    rintro a b a' b' cmp ⟨verdict, asked, held, among⟩ apart first second
    exact Level.compare_deferred params apart asked held (fun d listed => met d (among d listed))
      first second
  rcases compareUp_accepted compared accepted with
    ⟨small, answer⟩ | ⟨least, dimensions⟩ | ⟨_, _, sizes, dimensions⟩
  · -- a proposition stays one, so the sizes do not matter
    have small' := isProp_solved small left
    cases cmp with
    | ge => exact absurd rfl apart
    | le => rw [Universe.holds_le, if_pos small']
    | eq =>
        rw [Universe.holds_eq, if_pos small']
        split
        · rfl
        · rename_i large
          rcases answer with impossible | least | dimensions
          · cases impossible
          · exact absurd (isProp_solved least right) large
          · exact solved dimensions nofun rightDimensions rfl
  · have least' := isProp_solved least right
    have dimensions' := solved dimensions nofun leftDimensions rfl
    cases cmp with
    | ge => exact absurd rfl apart
    | le => exact holds_le_of (isProp_iff.mp least' ▸ dimensions') (.inl least')
    | eq =>
        rw [Universe.holds_eq, if_pos least', if_pos least']
        split
        · rfl
        · exact dimensions'
  · -- either side may have become a proposition, and then the sizes were compared for nothing
    have dimensions' := solved dimensions apart leftDimensions rightDimensions
    have sizes' := solved sizes apart leftSizes rightSizes
    cases cmp with
    | ge => exact absurd rfl apart
    | le => exact holds_le_of dimensions' (.inr sizes')
    | eq => exact holds_eq_of dimensions' sizes'

/-- Whatever a comparison of universes demands, it demands of levels of one kind. -/
theorem compareUp_oneKind (left : u.OnAxes) (right : v.OnAxes)
    (compared : compareUp true u v cmp = .ok c) : ∀ d ∈ c.demands, d.OneKind := by
  unfold compareUp at compared
  by_cases small : u.isProp
  · rw [if_pos small] at compared
    split at compared
    · cases compared
      exact List.forall_mem_nil _
    · obtain ⟨verdict, asked, kept⟩ := bind_ok compared
      cases kept
      exact Level.compare_oneKind right.h (Level.ofKind_of_none rfl _) asked
  rw [if_neg small] at compared
  by_cases least : v.isProp
  · rw [if_pos least] at compared
    obtain ⟨verdict, asked, kept⟩ := bind_ok compared
    cases kept
    exact Level.compare_oneKind left.h (Level.ofKind_of_none rfl _) asked
  rw [if_neg least] at compared
  obtain ⟨sizes, asked, next⟩ := bind_ok compared
  have first := Level.compare_oneKind left.p right.p asked
  by_cases held : (Comparison.of true sizes).holds = true
  · simp only [Comparison.andThen, if_pos held] at next
    obtain ⟨second, mapped, kept⟩ := bind_ok next
    obtain ⟨dimensions, asked', rfl⟩ := map_ok mapped
    cases kept
    exact List.forall_mem_append.mpr ⟨first, Level.compare_oneKind left.h right.h asked'⟩
  · simp only [Comparison.andThen, if_neg held] at next
    cases next
    exact first

/-- Either direction is a comparison upwards. -/
theorem compare_up (u v : Universe) (cmp : Cmp) (accept : Bool) :
    cmp = .ge ∧ compare accept u v cmp = compareUp accept v u .le ∨
      cmp ≠ .ge ∧ compare accept u v cmp = compareUp accept u v cmp := by
  cases cmp with
  | ge => exact .inl ⟨rfl, rfl⟩
  | _ => exact .inr ⟨nofun, rfl⟩

theorem compare_oneKind (left : u.OnAxes) (right : v.OnAxes)
    (compared : compare true u v cmp = .ok c) : ∀ d ∈ c.demands, d.OneKind := by
  rcases compare_up u v cmp true with ⟨_, up⟩ | ⟨_, up⟩ <;> rw [up] at compared
  · exact compareUp_oneKind right left compared
  · exact compareUp_oneKind left right compared

theorem compare_deferred (params : ∀ k, s.get? (.param k) = none)
    (compared : compare true u v cmp = .ok c) (accepted : c.holds = true)
    (met : ∀ d ∈ c.demands, s.Meets d) (left : s.sort u = .ok u') (right : s.sort v = .ok v') :
    u'.holds v' cmp = .ok true := by
  rcases compare_up u v cmp true with ⟨rfl, up⟩ | ⟨apart, up⟩ <;> rw [up] at compared
  · have swapped : u'.holds v' .ge = v'.holds u' .le := rfl
    rw [swapped]
    exact compareUp_deferred params nofun compared accepted met right left
  · exact compareUp_deferred params apart compared accepted met left right

/-- Filling in levels stops only at an overflow, if no predicative level is infinity. -/
theorem sort_overflows (axes : u.OnAxes)
    (finite : ∀ x, x.kind = .predicative → s.get? x ≠ some .infinity) :
    OnlyOverflows (s.sort u) := by
  intro fault failed
  unfold LevelSolution.sort subst at failed
  cases sizes : u.p.subst s.get? with
  | error other =>
      rw [sizes] at failed
      cases failed
      exact subst_overflows _ _ _ sizes
  | ok p =>
      rw [sizes] at failed
      refine OnlyOverflows.bind (subst_overflows s.get? u.h) (fun h => ?_) fault failed
      rw [make_finite (Level.level_finite axes.p axes.finite finite sizes)]
      exact .ok _

end Universe

/-- A comparison of universes to be made. -/
structure UniverseQuestion where
  left : Universe
  right : Universe
  cmp : Cmp
  span : Span

namespace Unify

variable {s s' : Store} {env env' : Environment} {n k : Nat} {qs : List UniverseQuestion}
  {answer : Bool}

/-- Makes comparisons until one of them fails. -/
def compareEach : List UniverseQuestion → Unify Bool
  | [] => return true
  | q :: rest => do
      if ← compareUniverses q.left q.right q.cmp q.span then compareEach rest else return false

theorem compareUniverses_ok {u v : Universe} {cmp : Cmp} {span : Span}
    (done : compareUniverses u v cmp span s env n = .ok (((answer, s'), env'), k)) :
    ∃ c, Universe.compare true u v cmp = .ok c ∧ answer = c.holds ∧
      s'.levels = ({ s.levels with span } : LevelEquations).recordAll c.demands := by
  obtain ⟨c, _, _, _, lifted, rest⟩ := unify_bind done
  obtain ⟨rfl, rfl, rfl, compared⟩ := checked_run lifted
  cases rest
  exact ⟨c, compared, rfl, rfl⟩

/-- Every comparison of the list was accepted, and what it demands is recorded; nothing is recorded
    that was not there or is of different kinds. -/
theorem compareEach_ok (oneKind : ∀ c ∈ s.levels.constraints.toList, c.OneKind)
    (axes : ∀ q ∈ qs, q.left.OnAxes ∧ q.right.OnAxes)
    (done : compareEach qs s env n = .ok (((true, s'), env'), k)) :
    (∀ c ∈ s.levels.constraints.toList, c ∈ s'.levels.constraints.toList) ∧
      (∀ c ∈ s'.levels.constraints.toList, c.OneKind) ∧
      ∀ q ∈ qs, ∃ c, Universe.compare true q.left q.right q.cmp = .ok c ∧ c.holds = true ∧
        ∀ d ∈ c.demands, ∀ side ∈ d.sides, ∃ span,
          ⟨side.1, side.2, span⟩ ∈ s'.levels.constraints.toList := by
  induction qs generalizing s env n with
  | nil =>
      cases done
      exact ⟨fun _ listed => listed, oneKind, List.forall_mem_nil _⟩
  | cons q rest ih =>
      obtain ⟨answer, s₁, env₁, m, first, others⟩ := unify_bind done
      cases answer with
      | false => cases others
      | true =>
          obtain ⟨c, compared, accepted, levels⟩ := compareUniverses_ok first
          have ⟨left, right⟩ := axes q List.mem_cons_self
          have recorded : ∀ d, d ∈ s₁.levels.constraints.toList ↔
              d ∈ s.levels.constraints.toList ∨
                ∃ e ∈ c.demands, (d.left, d.right) ∈ e.sides ∧ d.span = q.span := by
            intro d
            rw [levels]
            exact LevelEquations.mem_recordAll
          have oneKind₁ : ∀ d ∈ s₁.levels.constraints.toList, d.OneKind := by
            intro d listed
            rcases (recorded d).mp listed with old | ⟨e, demanded, side, _⟩
            · exact oneKind d old
            · exact (Universe.compare_oneKind left right compared e demanded).constraint side
          obtain ⟨kept, kinds, each⟩ := ih oneKind₁
            (fun q listed => axes q (List.mem_cons_of_mem _ listed)) others
          refine ⟨fun d listed => kept d ((recorded d).mpr (.inl listed)), kinds,
            List.forall_mem_cons.mpr ⟨⟨c, compared, accepted.symm, ?_⟩, each⟩⟩
          intro e demanded side among
          exact ⟨q.span, kept _ ((recorded _).mpr (.inr ⟨e, demanded, among, rfl⟩))⟩

/-- **Comparisons that were accepted hold when the levels are solved,** and no predicative level
    becomes infinite. -/
theorem compareEach_deferred {t : LevelSolution}
    (oneKind : ∀ c ∈ s.levels.constraints.toList, c.OneKind)
    (axes : ∀ q ∈ qs, q.left.OnAxes ∧ q.right.OnAxes)
    (done : compareEach qs s env n = .ok (((true, s'), env'), k))
    (solved : s'.levels.solve.run = .ok (.ok t)) :
    (∀ u : Universe, u.OnAxes → OnlyOverflows (t.sort u)) ∧
      ∀ q ∈ qs, ∀ u v, t.sort q.left = .ok u → t.sort q.right = .ok v →
        u.holds v q.cmp = .ok true := by
  obtain ⟨_, kinds, each⟩ := compareEach_ok oneKind axes done
  obtain ⟨satisfied, params⟩ := LevelEquations.solve_satisfies solved
  have finite := LevelEquations.solve_finite kinds solved
  refine ⟨fun u onAxes => Universe.sort_overflows onAxes finite, ?_⟩
  intro q listed u v left right
  obtain ⟨c, compared, accepted, recorded⟩ := each q listed
  refine Universe.compare_deferred params compared accepted ?_ left right
  intro d demanded constraint side
  obtain ⟨span, among⟩ := recorded d demanded _ side
  exact satisfied ⟨constraint.left, constraint.right, span⟩ among

/-- One level has to go down to the propositions, one up to infinity, and two follow the level
    parameter. -/
def putOff : List UniverseQuestion := [
  ⟨⟨.const 2, .ofVar (.infer 0 .homotopy)⟩, .prop, .le, .none⟩,
  ⟨⟨.ofVar (.infer 1 .predicative), .infinity⟩,
    ⟨.shift (.param .predicative) 1 none, .ofVar (.infer 2 .homotopy)⟩, .eq, .none⟩,
  ⟨⟨.ofVar (.infer 3 .predicative), .ofVar (.infer 2 .homotopy)⟩,
    ⟨.ofVar (.infer 1 .predicative), .const 0⟩, .ge, .none⟩]

theorem putOff_axes : ∀ q ∈ putOff, q.left.OnAxes ∧ q.right.OnAxes := by
  have none : ∀ {a : Level} {kind : LevelKind}, a.var? = .none → a.OfKind kind :=
    fun closed => Level.ofKind_of_none closed _
  refine List.forall_mem_cons.mpr ⟨⟨?_, ?_⟩, List.forall_mem_cons.mpr ⟨⟨?_, ?_⟩,
    List.forall_mem_cons.mpr ⟨⟨?_, ?_⟩, List.forall_mem_nil _⟩⟩⟩
  · exact ⟨none rfl, Level.ofKind_shift _ _ _, by decide⟩
  · exact ⟨none rfl, none rfl, by decide⟩
  · exact ⟨Level.ofKind_shift _ _ _, none rfl, by decide⟩
  · exact ⟨Level.ofKind_shift _ _ _, Level.ofKind_shift _ _ _, by decide⟩
  · exact ⟨Level.ofKind_shift _ _ _, Level.ofKind_shift _ _ _, by decide⟩
  · exact ⟨Level.ofKind_shift _ _ _, none rfl, by decide⟩

/-- The store afterwards; every equation has become two constraints. -/
def putOffStore : Store := { Store.empty with
  levels := ⟨#[
    ⟨.ofVar (.infer 0 .homotopy), .prop, .none⟩,
    ⟨.ofVar (.infer 1 .predicative), .shift (.param .predicative) 1 none, .none⟩,
    ⟨.shift (.param .predicative) 1 none, .ofVar (.infer 1 .predicative), .none⟩,
    ⟨.infinity, .ofVar (.infer 2 .homotopy), .none⟩,
    ⟨.ofVar (.infer 2 .homotopy), .infinity, .none⟩,
    ⟨.ofVar (.infer 1 .predicative), .ofVar (.infer 3 .predicative), .none⟩,
    ⟨.const 0, .ofVar (.infer 2 .homotopy), .none⟩], .none⟩ }

def putOffLevels : LevelSolution := ⟨[
  (.infer 0 .homotopy, .prop),
  (.infer 1 .predicative, .shift (.param .predicative) 1 none),
  (.infer 2 .homotopy, .infinity),
  (.infer 3 .predicative, .shift (.param .predicative) 1 none)]⟩

theorem putOff_holds :
    compareEach putOff .empty (.empty 0) 0 = .ok (((true, putOffStore), .empty 0), 0) ∧
    putOffStore.levels.solve.run = .ok (.ok putOffLevels) ∧
    ∀ q ∈ putOff, ∀ u v, putOffLevels.sort q.left = .ok u → putOffLevels.sort q.right = .ok v →
      u.holds v q.cmp = .ok true := by
  have asked : compareEach putOff .empty (.empty 0) 0 =
      .ok (((true, putOffStore), .empty 0), 0) := rfl
  have solved : putOffStore.levels.solve.run = .ok (.ok putOffLevels) := rfl
  have fresh : ∀ c ∈ Store.empty.levels.constraints.toList, c.OneKind :=
    fun _ impossible => by cases impossible
  exact ⟨asked, solved, (compareEach_deferred fresh putOff_axes asked solved).2⟩

end Unify

end PathTheory
