import PathTheory.Proofs.Level.Operations
/-!
Universes by what they measure. A universe without inferred variables has a size and a dimension at
each choice of the level parameters, and all universes of propositions have the same. Comparing two
universes comes down to comparing these extents, so universes are ordered, have least upper bounds,
and are strictly below their successors.
-/
namespace PathTheory

namespace Level

theorem holds_refl (a : Level) : a.holds a .le = .ok true := by
  simp only [holds, compare, compareLe, if_true]
  rfl

/-- Levels are equal if they are the same, or if each is at most the other and nothing is left to be
    inferred. -/
theorem holds_eq (a b : Level) : a.holds b .eq =
    if a = b then .ok true
    else if a.hasInference || b.hasInference then .ok false
    else do if ← a.holds b .le then b.holds a .le else return false := by
  by_cases same : a = b
  · simp only [holds, compare, if_pos same]
    rfl
  by_cases inferred : (a.hasInference || b.hasInference) = true
  · simp only [holds, compare, if_neg same, if_pos inferred]
    rfl
  simp only [holds, compare, if_neg same, if_neg inferred]
  cases compareLe a b with
  | error fault => rfl
  | ok verdict =>
      cases verdict with
      | demanded d => rfl
      | decided answer => cases answer <;> rfl

theorem holds_eq_closed {a b : Level} {r s : Bool} (left : a.hasInference = false)
    (right : b.hasInference = false) (below : a.holds b .le = .ok r)
    (above : b.holds a .le = .ok s) : a.holds b .eq = .ok (r && s) := by
  rw [holds_eq]
  by_cases same : a = b
  · subst same
    rw [holds_refl] at below above
    cases below
    cases above
    exact if_pos rfl
  · rw [if_neg same, left, right, if_neg (by decide), below, above]
    cases r <;> rfl

end Level

namespace Universe

variable {u v w t : Universe}

theorem holds_refl (u : Universe) : u.holds u .le = .ok true := by
  rw [holds_le, Level.holds_refl, Level.holds_refl]
  split <;> rfl

theorem prop_holds (u : Universe) : prop.holds u .le = .ok true := by
  rw [holds_le]
  rfl

/-- Sizes are natural numbers, and dimensions are at least that of the propositions. -/
structure Proper (u : Universe) : Prop extends u.Polymorphic where
  pFits : u.p.Fits
  hFits : u.h.Fits
  sized : ∀ q, 0 ≤ u.p.under q
  dimensioned : ∀ q, ((-1 : Int) : WithTop Int) ≤ u.h.under q

/-- Size and dimension. A universe of propositions has no size of its own. -/
def extent (u : Universe) (q : LevelKind → Nat) : WithTop Int × WithTop Int :=
  if u.isProp then (0, ((-1 : Int) : WithTop Int)) else (u.p.under q, u.h.under q)

theorem extent_of_isProp (small : u.isProp) (q : LevelKind → Nat) :
    u.extent q = (0, ((-1 : Int) : WithTop Int)) := if_pos small

theorem extent_of_not_isProp (large : ¬ u.isProp) (q : LevelKind → Nat) :
    u.extent q = (u.p.under q, u.h.under q) := if_neg large

/-- A dimension that never exceeds that of the propositions is theirs. -/
theorem Proper.isProp_of_le (proper : u.Proper)
    (bounded : ∀ q, u.h.under q ≤ ((-1 : Int) : WithTop Int)) : u.isProp := by
  cases dimension : u.h with
  | infinity =>
      have top := bounded fun _ => 0
      rw [dimension] at top
      cases top_le_iff.mp top
  | const c =>
      have upper := bounded fun _ => 0
      have lower := proper.dimensioned fun _ => 0
      rw [dimension, Level.under_const, WithTop.coe_le_coe] at upper lower
      rw [isProp_iff, dimension, Level.prop, le_antisymm upper lower]
  | shift x c m =>
      obtain ⟨t, exceeds⟩ := Level.line_exceeds c (-1) m
      have far := bounded fun _ => t
      rw [dimension, Level.under_shift, WithTop.coe_le_coe] at far
      omega

theorem Proper.prop_le_extent (proper : u.Proper) (q : LevelKind → Nat) :
    (0, ((-1 : Int) : WithTop Int)) ≤ u.extent q := by
  by_cases small : u.isProp
  · rw [extent_of_isProp small]
  · rw [extent_of_not_isProp small]
    exact ⟨proper.sized q, proper.dimensioned q⟩

/-- What a comparison of universes says of the extents. -/
theorem Proper.extent_le_iff (left : u.Proper) (right : v.Proper) : u.extent ≤ v.extent ↔
    u.isProp ∨ (∀ q, u.h.under q ≤ v.h.under q) ∧ (v.isProp ∨ ∀ q, u.p.under q ≤ v.p.under q) := by
  by_cases small : u.isProp
  · simp only [small, true_or, iff_true]
    intro q
    rw [extent_of_isProp small]
    exact right.prop_le_extent q
  by_cases least : v.isProp
  · have apart : ¬ ∀ q, u.h.under q ≤ v.h.under q := by
      rw [isProp_iff.mp least]
      exact fun bounded => small (left.isProp_of_le bounded)
    simp only [small, apart, Bool.false_eq_true, false_or, false_and, iff_false]
    intro below
    apply small
    apply left.isProp_of_le
    intro q
    have here := below q
    rw [extent_of_not_isProp small, extent_of_isProp least] at here
    exact here.2
  · simp only [small, least, Bool.false_eq_true, false_or, Pi.le_def, extent_of_not_isProp small,
      extent_of_not_isProp least, Prod.mk_le_mk, forall_and]
    exact and_comm

/-- Comparing two universes compares their extents everywhere. -/
theorem Proper.holds_le (left : u.Proper) (right : v.Proper) :
    ∃ r, u.holds v .le = .ok r ∧ (r = true ↔ u.extent ≤ v.extent) := by
  have defined : ∃ r, u.holds v .le = .ok r := by
    obtain ⟨sizes, first, _⟩ :=
      Level.holds_le_fits left.p.closed right.p.closed left.pFits right.pFits
    obtain ⟨dimensions, second, _⟩ :=
      Level.holds_le_fits left.h.closed right.h.closed left.hFits right.hFits
    rw [Universe.holds_le]
    split
    · exact ⟨true, rfl⟩
    split
    · rename_i least
      rw [← isProp_iff.mp least]
      exact ⟨dimensions, second⟩
    · rw [first, second]
      cases sizes <;> exact ⟨_, rfl⟩
  obtain ⟨r, done⟩ := defined
  exact ⟨r, done, by rw [holds_le_iff left.closed right.closed done, left.extent_le_iff right]⟩

theorem Proper.le_iff (left : u.Proper) (right : v.Proper) :
    u.holds v .le = .ok true ↔ u.extent ≤ v.extent := by
  obtain ⟨r, done, iff⟩ := left.holds_le right
  rw [done, ← iff, Except.ok.injEq]

theorem Proper.not_le_iff (left : u.Proper) (right : v.Proper) :
    u.holds v .le = .ok false ↔ ¬ u.extent ≤ v.extent := by
  obtain ⟨r, done, iff⟩ := left.holds_le right
  rw [done, ← iff, Except.ok.injEq, Bool.not_eq_true]

/-- A universe at least as large as one that is not of propositions is not either. -/
theorem Proper.not_isProp_mono (left : u.Proper) (below : u.extent ≤ v.extent)
    (large : ¬ u.isProp) : ¬ v.isProp := by
  intro least
  apply large
  apply left.isProp_of_le
  intro q
  have here := below q
  rw [extent_of_not_isProp large, extent_of_isProp least] at here
  exact here.2

theorem make_finite {p h : Level} (finite : p ≠ .infinity) : make p h = .ok ⟨p, h⟩ := by
  cases p with
  | infinity => exact absurd rfl finite
  | _ => rfl

theorem Proper.max_finite (left : u.Proper) (right : v.Proper) {p : Level}
    (sizes : u.p.max? v.p = .ok (some p)) : p ≠ .infinity := by
  rintro rfl
  rcases max_eq_top.mp (Level.max_under sizes fun _ => 0).symm with top | top
  · exact Level.finite_under left.finite _ top
  · exact Level.finite_under right.finite _ top

/-- The maximum of two universes has the greater of both sizes and dimensions. -/
theorem Proper.max_extent (left : u.Proper) (right : v.Proper) :
    ∃ j, u.max? v = .ok (some j) ∧ j.Proper ∧ j.extent = u.extent ⊔ v.extent := by
  by_cases small : u.isProp
  · refine ⟨v, by simp [max?, small]; rfl, right, ?_⟩
    rw [sup_eq_right.mpr]
    intro q
    rw [extent_of_isProp small]
    exact right.prop_le_extent q
  by_cases least : v.isProp
  · refine ⟨u, by simp [max?, small, least]; rfl, left, ?_⟩
    rw [sup_eq_left.mpr]
    intro q
    rw [extent_of_isProp least]
    exact left.prop_le_extent q
  obtain ⟨p, sizes, pOver, pFits⟩ := Level.max_defined left.p right.p left.pFits right.pFits
  obtain ⟨h, dimensions, hOver, hFits⟩ := Level.max_defined left.h right.h left.hFits right.hFits
  have pValue := Level.max_under sizes
  have hValue := Level.max_under dimensions
  have finite := left.max_finite right sizes
  have large : ¬ (⟨p, h⟩ : Universe).isProp := by
    intro least'
    apply small
    apply left.isProp_of_le
    intro q
    calc u.h.under q ≤ max (u.h.under q) (v.h.under q) := le_max_left _ _
      _ = h.under q := (hValue q).symm
      _ = ((-1 : Int) : WithTop Int) := by
        rw [show h = .prop from isProp_iff.mp least']
        rfl
  refine ⟨⟨p, h⟩, ?_, ?_, ?_⟩
  · simp only [max?, small, least, Bool.false_eq_true, if_false, sizes, dimensions, bind,
      Except.bind, make_finite finite]
    rfl
  · refine ⟨⟨pOver, hOver, finite⟩, pFits, hFits, fun q => ?_, fun q => ?_⟩
    · rw [pValue]
      exact (left.sized q).trans (le_max_left _ _)
    · rw [hValue]
      exact (left.dimensioned q).trans (le_max_left _ _)
  · funext q
    rw [Pi.sup_apply, extent_of_not_isProp large, extent_of_not_isProp small,
      extent_of_not_isProp least, pValue, hValue]
    rfl

theorem set0_proper : set0.Proper where
  toPolymorphic := set0_polymorphic
  pFits := rfl
  hFits := rfl
  sized := fun _ => le_rfl
  dimensioned := fun _ => WithTop.coe_le_coe.mpr (by decide)

theorem std_proper : std.Proper where
  toPolymorphic := std_polymorphic
  pFits := ⟨rfl, nofun⟩
  hFits := ⟨rfl, nofun⟩
  sized := fun q => by
    change 0 ≤ (Level.shift (.param .predicative) 0 none).under q
    rw [Level.under_shift]
    exact WithTop.coe_le_coe.mpr (by simp only [Level.cappedInt]; omega)
  dimensioned := fun q => by
    change _ ≤ (Level.shift (.param .homotopy) 0 none).under q
    rw [Level.under_shift]
    exact WithTop.coe_le_coe.mpr (by simp only [Level.cappedInt]; omega)

/-- The successor of a universe that is not of propositions is one larger in both respects; that of
    the propositions is the least universe of sets. -/
theorem Proper.succ_extent (proper : u.Proper) (done : u.succ = .ok t) : t.Proper ∧
    ∀ q, t.extent q = if u.isProp then (0, 0) else (u.p.under q + 1, u.h.under q + 1) := by
  by_cases small : u.isProp
  · obtain rfl : set 0 = t := by simpa [succ, small, pure, Except.pure] using done
    refine ⟨set0_proper, fun q => ?_⟩
    rw [if_pos small]
    rfl
  have steps : (do make (← u.p.succ) (← u.h.succ)) = .ok t := by
    simpa [succ, small] using done
  obtain ⟨p, sizes, next⟩ := bind_ok steps
  obtain ⟨h, dimensions, made⟩ := bind_ok next
  have finite : p ≠ .infinity := by
    rintro rfl
    cases made
  rw [make_finite finite] at made
  cases made
  have pValue : ∀ q, p.under q = u.p.under q + 1 := Level.add_under sizes
  have hValue : ∀ q, h.under q = u.h.under q + 1 := Level.add_under dimensions
  have nonneg : ∀ q, 0 ≤ h.under q := by
    intro q
    calc (0 : WithTop Int) = ((-1 : Int) : WithTop Int) + 1 := rfl
      _ ≤ u.h.under q + 1 := by
        gcongr
        exact proper.dimensioned q
      _ = h.under q := (hValue q).symm
  have large : ¬ (⟨p, h⟩ : Universe).isProp := by
    intro least
    have zero := nonneg fun _ => 0
    rw [show h = .prop from isProp_iff.mp least] at zero
    exact absurd (WithTop.coe_le_coe.mp zero) (by decide)
  refine ⟨⟨⟨Level.add_over proper.p sizes, Level.add_over proper.h dimensions, finite⟩,
    (Level.canonical_add sizes).fits, (Level.canonical_add dimensions).fits, fun q => ?_,
    fun q => ?_⟩, fun q => ?_⟩
  · rw [pValue]
    exact add_nonneg (proper.sized q) zero_le_one
  · exact le_trans (WithTop.coe_le_coe.mpr (by decide)) (nonneg q)
  · rw [extent_of_not_isProp large, if_neg small, pValue, hValue]

section Equality

theorem holds_eq (u v : Universe) : u.holds v .eq =
    if u.isProp then if v.isProp then .ok true else v.h.holds .prop .eq
    else if v.isProp then u.h.holds .prop .le
    else do if ← u.p.holds v.p .eq then u.h.holds v.h .eq else return false := by
  unfold holds compare compareUp
  by_cases small : u.isProp <;> by_cases least : v.isProp
  · simp [small, least]
    rfl
  · simp only [small, least, Bool.false_eq_true, if_false, if_true]
    unfold Level.holds
    cases v.h.compare .prop .eq with
    | error fault => rfl
    | ok verdict => cases verdict <;> rfl
  · simp only [small, least, Bool.false_eq_true, if_false, if_true]
    unfold Level.holds
    cases u.h.compare .prop .le with
    | error fault => rfl
    | ok verdict => cases verdict <;> rfl
  · simp only [small, least, Bool.false_eq_true, if_false]
    unfold Level.holds
    cases u.p.compare v.p .eq with
    | error fault => rfl
    | ok verdict =>
        cases verdict with
        | demanded d => rfl
        | decided answer =>
            cases answer with
            | false => rfl
            | true =>
                cases u.h.compare v.h .eq with
                | error fault => rfl
                | ok verdict => cases verdict <;> rfl

/-- Proper universes are equal just if each is at most the other. -/
theorem Proper.holds_eq (left : u.Proper) (right : v.Proper) :
    ∃ r s, u.holds v .le = .ok r ∧ v.holds u .le = .ok s ∧ u.holds v .eq = .ok (r && s) := by
  rw [Universe.holds_eq, Universe.holds_le, Universe.holds_le]
  by_cases small : u.isProp <;> by_cases least : v.isProp
  · exact ⟨true, true, by simp [small, least]⟩
  · obtain ⟨r, below, _⟩ := Level.holds_le_fits (b := .prop) right.h.closed rfl right.hFits rfl
    obtain ⟨s, above, _⟩ := Level.holds_le_fits (a := .prop) rfl right.h.closed rfl right.hFits
    have always : s = true := by
      rw [Level.holds_iff rfl right.h.closed above]
      exact right.dimensioned
    have equal := Level.holds_eq_closed right.h.closed rfl below above
    exact ⟨true, r, by simp [small, least, below, equal, always]⟩
  · obtain ⟨r, below, _⟩ := Level.holds_le_fits (b := .prop) left.h.closed rfl left.hFits rfl
    exact ⟨r, true, by simp [small, least, below]⟩
  · obtain ⟨r, below, _⟩ := Level.holds_le_fits left.p.closed right.p.closed left.pFits right.pFits
    obtain ⟨s, above, _⟩ := Level.holds_le_fits right.p.closed left.p.closed right.pFits left.pFits
    obtain ⟨r', below', _⟩ := Level.holds_le_fits left.h.closed right.h.closed left.hFits right.hFits
    obtain ⟨s', above', _⟩ := Level.holds_le_fits right.h.closed left.h.closed right.hFits left.hFits
    have sizes := Level.holds_eq_closed left.p.closed right.p.closed below above
    have dimensions := Level.holds_eq_closed left.h.closed right.h.closed below' above'
    refine ⟨r && r', s && s', ?_⟩
    simp only [small, least, Bool.false_eq_true, if_false, below, above, below', above', sizes,
      dimensions]
    cases r <;> cases s <;> cases r' <;> cases s' <;> exact ⟨rfl, rfl, rfl⟩

end Equality

section Semilattice

/-- No universe is as large as its successor. -/
theorem Proper.extent_lt_succ (proper : u.Proper) (done : u.succ = .ok t) :
    u.extent < t.extent := by
  obtain ⟨_, value⟩ := proper.succ_extent done
  rw [lt_iff_le_not_ge]
  by_cases small : u.isProp
  · constructor
    · intro q
      rw [value, if_pos small, extent_of_isProp small]
      exact ⟨le_rfl, WithTop.coe_le_coe.mpr (by decide)⟩
    · intro above
      have here := (above fun _ => 0).2
      rw [value, if_pos small, extent_of_isProp small] at here
      exact absurd (WithTop.coe_le_coe.mp here) (by decide)
  · constructor
    · intro q
      rw [value, if_neg small, extent_of_not_isProp small]
      exact ⟨le_add_of_nonneg_right zero_le_one, le_add_of_nonneg_right zero_le_one⟩
    · intro above
      have here := (above fun _ => 0).1
      rw [value, if_neg small, extent_of_not_isProp small] at here
      obtain ⟨n, isNumber⟩ := WithTop.ne_top_iff_exists.mp
        (Level.finite_under proper.finite fun _ => 0)
      rw [← isNumber] at here
      have less : n + 1 ≤ n := WithTop.coe_le_coe.mp here
      omega

theorem Proper.succ_defined (proper : u.Proper) (sizes : u.p.Room) (dimensions : u.h.Room) :
    ∃ t, u.succ = .ok t := by
  by_cases small : u.isProp
  · exact ⟨set 0, by simp [succ, small]; rfl⟩
  obtain ⟨p, first⟩ := Level.succ_defined proper.p proper.pFits sizes
  obtain ⟨h, second⟩ := Level.succ_defined proper.h proper.hFits dimensions
  have finite : p ≠ .infinity := by
    rintro rfl
    have top : u.p.under (fun _ => 0) + 1 = ⊤ := (Level.add_under first _).symm
    exact Level.finite_under proper.finite _ (by simpa using top)
  refine ⟨⟨p, h⟩, ?_⟩
  simp only [succ, small, Bool.false_eq_true, if_false, first, second, bind, Except.bind, pure,
    Except.pure, make_finite finite]

/-- **Universes form a join-semilattice with a strict successor.** The comparison is reflexive and
    transitive, universes are found to be equal just if each is at most the other, every two have a
    least upper bound, and each is strictly below its successor, which exists unless a constant of it
    leaves the 32-bit integers. -/
theorem Proper.join_semilattice (hu : u.Proper) (hv : v.Proper) (hw : w.Proper) :
    u.holds u .le = .ok true ∧
    (u.holds v .le = .ok true → v.holds w .le = .ok true → u.holds w .le = .ok true) ∧
    (∃ r s, u.holds v .le = .ok r ∧ v.holds u .le = .ok s ∧ u.holds v .eq = .ok (r && s)) ∧
    (∃ j, u.max? v = .ok (some j) ∧ j.Proper ∧
      u.holds j .le = .ok true ∧ v.holds j .le = .ok true ∧
      ∀ b : Universe, b.Proper → u.holds b .le = .ok true → v.holds b .le = .ok true →
        j.holds b .le = .ok true) ∧
    (match u.succ with
      | .ok t => t.Proper ∧ u.holds t .le = .ok true ∧ t.holds u .le = .ok false
      | .error _ => ¬ (u.p.Room ∧ u.h.Room)) := by
  refine ⟨?reflexive, ?transitive, hu.holds_eq hv, ?join, ?successor⟩
  case reflexive => exact (hu.le_iff hu).mpr le_rfl
  case transitive =>
    intro first second
    exact (hu.le_iff hw).mpr (((hu.le_iff hv).mp first).trans ((hv.le_iff hw).mp second))
  case join =>
    obtain ⟨j, done, proper, joined⟩ := hu.max_extent hv
    refine ⟨j, done, proper, ?_, ?_, ?_⟩
    · exact (hu.le_iff proper).mpr (joined ▸ le_sup_left)
    · exact (hv.le_iff proper).mpr (joined ▸ le_sup_right)
    · intro b hb first second
      rw [proper.le_iff hb, joined]
      exact sup_le ((hu.le_iff hb).mp first) ((hv.le_iff hb).mp second)
  case successor =>
    cases done : u.succ with
    | error fault =>
        rintro ⟨sizes, dimensions⟩
        obtain ⟨t, defined⟩ := hu.succ_defined sizes dimensions
        cases done.symm.trans defined
    | ok t =>
        have proper := (hu.succ_extent done).1
        have strict := hu.extent_lt_succ done
        exact ⟨proper, (hu.le_iff proper).mpr strict.le, (proper.not_le_iff hu).mpr strict.not_ge⟩

theorem raised_proper : raised.Proper where
  p := fun x isVar => by cases isVar; rfl
  h := fun x isVar => by cases isVar; rfl
  finite := nofun
  pFits := ⟨rfl, nofun⟩
  hFits := ⟨rfl, by rintro _ ⟨⟩; rfl⟩
  sized := fun q => by
    rw [raised, Level.under_shift]
    exact WithTop.coe_le_coe.mpr (by simp only [Level.cappedInt]; omega)
  dimensioned := fun q => by
    rw [raised, Level.under_shift]
    exact WithTop.coe_le_coe.mpr (by simp only [Level.cappedInt]; omega)

/-- Propositions with a predicative level that says nothing. -/
def inflatedProp : Universe := ⟨.const 5, .prop⟩

theorem inflatedProp_proper : inflatedProp.Proper where
  p := nofun
  h := nofun
  finite := nofun
  pFits := rfl
  hFits := rfl
  sized := fun _ => WithTop.coe_le_coe.mpr (by decide)
  dimensioned := fun _ => le_rfl

theorem unbounded_proper : unbounded.Proper where
  p := nofun
  h := nofun
  finite := nofun
  pFits := rfl
  hFits := trivial
  sized := fun _ => WithTop.coe_le_coe.mpr (by decide)
  dimensioned := fun _ => le_top

/-- Between propositions of an empty size and sets of all dimensions, over the level parameters. -/
theorem raised_between : inflatedProp.Proper ∧ raised.Proper ∧ unbounded.Proper ∧
    inflatedProp.holds raised .le = .ok true ∧
    (∃ r s, raised.holds unbounded .le = .ok r ∧ unbounded.holds raised .le = .ok s ∧
      raised.holds unbounded .eq = .ok (r && s)) ∧
    (∃ j, raised.max? unbounded = .ok (some j) ∧ raised.holds j .le = .ok true ∧
      unbounded.holds j .le = .ok true) ∧
    ∃ t, raised.succ = .ok t ∧ t.holds raised .le = .ok false := by
  obtain ⟨_, _, equality, ⟨j, joined, _, left, right, _⟩, successor⟩ :=
    Proper.join_semilattice raised_proper unbounded_proper inflatedProp_proper
  exact ⟨inflatedProp_proper, raised_proper, unbounded_proper, rfl, equality,
    ⟨j, joined, left, right⟩, _, rfl, successor.2.2⟩

end Semilattice

section Calls

variable {l l' u v v' : Universe}

/-- Above the sets, one level argument is at most another just if this holds of both levels. -/
theorem Argument.le_levels (small : l.Argument) (large : l'.Argument)
    (aboveSets : ∀ q, 0 ≤ l.h.under q) (below : l.holds l' .le = .ok true) :
    (∀ q, l.p.under q ≤ l'.p.under q) ∧ ∀ q, l.h.under q ≤ l'.h.under q := by
  have apart : ∀ {a : Universe}, (∀ q, 0 ≤ a.h.under q) → ¬ a.isProp := by
    intro a above least
    have zero := above fun _ => 0
    rw [isProp_iff.mp least] at zero
    exact absurd (WithTop.coe_le_coe.mp zero) (by decide)
  obtain ⟨dimensions, sizes⟩ :=
    ((holds_le_iff small.closed large.closed below).mp rfl).resolve_left (apart aboveSets)
  exact ⟨sizes.resolve_left (apart fun q => (aboveSets q).trans (dimensions q)), dimensions⟩

/-- Above the sets, a larger level argument makes every universe of a definition larger. -/
theorem Argument.sort_mono (small : l.Argument) (large : l'.Argument)
    (aboveSets : ∀ q, 0 ≤ l.h.under q) (below : l.holds l' .le = .ok true) (proper : u.Proper)
    (left : (Subst.std l).sort u = .ok v) (right : (Subst.std l').sort u = .ok v') :
    v.holds v' .le = .ok true := by
  have lower := small.atCall proper.toPolymorphic left
  have upper := large.atCall proper.toPolymorphic right
  obtain ⟨sizes, dimensions⟩ := small.le_levels large aboveSets below
  obtain ⟨leftSize, leftDimension⟩ := subst_levels left
  obtain ⟨rightSize, rightDimension⟩ := subst_levels right
  refine holds_le_of ?_ (.inr ?_)
  · refine Level.holds_of_under lower.h upper.h (Level.fits_subst proper.hFits leftDimension)
      (Level.fits_subst proper.hFits rightDimension) fun q => ?_
    rw [lower.hValue, upper.hValue]
    refine Level.value_mono fun x isVar => ?_
    rw [proper.h x isVar]
    exact dimensions q
  · refine Level.holds_of_under lower.p upper.p (Level.fits_subst proper.pFits leftSize)
      (Level.fits_subst proper.pFits rightSize) fun q => ?_
    rw [lower.pValue, upper.pValue]
    refine Level.value_mono fun x isVar => ?_
    rw [proper.p x isVar]
    exact sizes q

end Calls

end Universe

end PathTheory
