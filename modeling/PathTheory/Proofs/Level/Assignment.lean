import PathTheory.Proofs.Level.Settling
import PathTheory.Proofs.Level.Value
/-!
Assignments of levels to inferred variables, and what they have to do with ranks. The offsets and
the least values of an assignment that satisfies the constraints are closed ranks, and values whose
offsets and constants are both closed satisfy every constraint with an inferred right side.
-/
namespace PathTheory

open Rank

/-- The levels that an inferred variable may take: constants, max(parameter + k, c), and infinity
    for homotopy levels, none of them under the floor. -/
structure LevelVar.Admits (x : LevelVar) (a : Level) : Prop where
  closed : a.hasInference = false
  kind : ∀ y, a.var? = some y → y.kind = x.kind
  finite : x.kind = .predicative → a ≠ .infinity
  floor : ∀ p, (x.floor : WithTop Int) ≤ a.under p

/-- All variables of the constraint are of one kind. -/
def LevelConstraint.OneKind (c : LevelConstraint) : Prop :=
  ∀ x ∈ c.vars, ∀ y ∈ c.vars, x.kind = y.kind

namespace LevelSolution

/-- Every inferred variable of the constraints has a value that it may take. -/
structure Assigns (s : LevelSolution) (constraints : List LevelConstraint) : Prop where
  admitted : ∀ x a, s.get? x = some a → x.isInference = true ∧ x.Admits a
  total : ∀ c ∈ constraints, ∀ x ∈ c.inferred, (s.get? x).isSome

structure Solves (s : LevelSolution) (constraints : List LevelConstraint) : Prop
    extends s.Assigns constraints where
  satisfied : ∀ c ∈ constraints, s.satisfies c = .ok true

/-- The value of a variable when the level parameters are natural numbers. -/
def valuation (s : LevelSolution) (p : LevelKind → Nat) : LevelVar → WithTop Int :=
  Level.substituted s.get? fun x => ((p x.kind : Int) : WithTop Int)

end LevelSolution

namespace Level

/-- The offset from the level parameter. -/
def slope : Level → Rank
  | const _ => ⊥
  | shift _ c _ => ofInt c
  | infinity => ⊤

theorem slope_make {x : LevelVar} {c : Int} {m : Option Int} {a : Level}
    (made : make x c m = .ok a) : a.slope = ofInt c ∧ a.var? = some x := by
  cases m with
  | none =>
      cases made
      exact ⟨rfl, rfl⟩
  | some m =>
      simp only [make] at made
      obtain ⟨least, _, rest⟩ := bind_ok made
      cases rest
      exact ⟨rfl, rfl⟩

/-- Where the variable and the offset of a substituted level come from. -/
def Origin (f : LevelVar → Option Level) (b : Level) : Level → Prop
  | const _ => b.var? = none ∧ b.slope = ⊥
  | infinity => b.var? = none ∧ b.slope = ⊤
  | shift x c _ => b.var? = ((f x).getD (ofVar x)).var? ∧
      b.slope = ((f x).getD (ofVar x)).slope + ofInt c

theorem subst_origin {f : LevelVar → Option Level} {a b : Level} (done : a.subst f = .ok b) :
    Origin f b a := by
  cases a with
  | const c =>
      cases done
      exact ⟨rfl, rfl⟩
  | infinity =>
      cases done
      exact ⟨rfl, rfl⟩
  | shift x c m =>
      simp only [subst] at done
      cases replaced : f x with
      | none =>
          simp only [replaced] at done
          cases done
          simp only [Origin, replaced, Option.getD_none, ofVar, var?, slope, true_and]
          rw [← ofInt_add, zero_add]
      | some r =>
          simp only [Origin, replaced, Option.getD_some] at done ⊢
          cases r with
          | infinity =>
              cases done
              simp [var?, slope, top_add_ofInt]
          | const d =>
              obtain ⟨n, _, rest⟩ := bind_ok done
              cases rest
              simp [var?, slope]
          | shift y d n =>
              have final : ∃ shifted, (do make y (← Bounded.add d c) shifted) = .ok b := by
                cases n with
                | none => exact ⟨_, done⟩
                | some n =>
                    obtain ⟨shifted, _, next⟩ := bind_ok done
                    exact ⟨_, next⟩
              obtain ⟨shifted, next⟩ := final
              obtain ⟨k, sum, made⟩ := bind_ok next
              obtain ⟨slopeIs, varIs⟩ := slope_make made
              rw [varIs, slopeIs, Bounded.add_ok sum, ofInt_add]
              exact ⟨rfl, rfl⟩

/-- A level that is below another one everywhere grows no faster. -/
theorem slope_le {a b : Level} (left : a.hasInference = false) (right : b.hasInference = false)
    (oneKind : ∀ x y, a.var? = some x → b.var? = some y → x.kind = y.kind)
    (below : ∀ p, a.under p ≤ b.under p) : a.slope ≤ b.slope := by
  cases b with
  | infinity => exact le_top
  | const d =>
      cases a with
      | infinity => exact absurd (below fun _ => 0) (by simp [under, value])
      | const c => exact le_rfl
      | shift x c m =>
          obtain ⟨t, exceeds⟩ := line_exceeds c d m
          have far := below fun _ => t
          rw [under_shift, under_const, WithTop.coe_le_coe] at far
          omega
  | shift y d n =>
      cases a with
      | infinity =>
          have far := below fun _ => 0
          rw [under_shift] at far
          simp [under, value] at far
      | const c => exact bot_le
      | shift x c m =>
          have same : x.kind = y.kind := oneKind x y rfl rfl
          have lines : c ≤ d ∧ cappedInt c m ≤ cappedInt d n := by
            rw [← lines_le_iff]
            intro t
            have far := below fun _ => t
            simpa [under_shift] using far
          exact ofInt_le.mpr lines.1

theorem slope_under {a : Level} {k : LevelKind} (oneKind : ∀ y, a.var? = some y → y.kind = k)
    (p : LevelKind → Nat) : a.slope + ofInt (p k) ≤ ((a.under p : WithTop Int) : Rank) := by
  cases a with
  | infinity => simp [slope, under, value, top_add_ofInt]
  | const c => exact bot_le
  | shift x c m =>
      have same : x.kind = k := oneKind x rfl
      rw [slope, ← ofInt_add, under_shift, same]
      apply ofInt_le.mpr
      cases m <;> simp only [cappedInt] <;> omega

theorem value_mono {ν υ : LevelVar → WithTop Int} {a : Level}
    (below : ∀ x, a.var? = some x → ν x ≤ υ x) : a.value ν ≤ a.value υ := by
  cases a with
  | const c => exact le_rfl
  | infinity => exact le_rfl
  | shift x c m =>
      apply capped_mono
      gcongr
      exact below x rfl

theorem under_mono (a : Level) {p q : LevelKind → Nat} (below : ∀ k, p k ≤ q k) :
    a.under p ≤ a.under q := by
  apply value_mono
  intro x _
  exact_mod_cast below x.kind

end Level

theorem LevelVar.floor_le (x : LevelVar) (p : LevelKind → Nat) :
    (x.floor : WithTop Int) ≤ ((p x.kind : Int) : WithTop Int) := by
  have low : x.floor ≤ 0 := by
    unfold LevelVar.floor
    split <;> omega
  rw [WithTop.coe_le_coe]
  omega

namespace LevelSolution

/-- The values of an assignment, as ranks: offsets at first, then the values at zero. -/
def ranks (s : LevelSolution) (phase : SolvePhase) (x : LevelVar) : Rank :=
  match s.get? x with
  | none => ⊥
  | some a => match phase with
      | .based => a.slope
      | .free => ((a.under fun _ => 0 : WithTop Int) : Rank)

variable {s : LevelSolution} {constraints : List LevelConstraint}

theorem Assigns.param (assigns : s.Assigns constraints) (k : LevelKind) :
    s.get? (.param k) = none := by
  cases found : s.get? (.param k) with
  | none => rfl
  | some a =>
      have inferred := (assigns.admitted _ a found).1
      cases inferred

theorem Assigns.subset (assigns : s.Assigns constraints) {some : List LevelConstraint}
    (among : ∀ c ∈ some, c ∈ constraints) : s.Assigns some :=
  ⟨assigns.admitted, fun c listed => assigns.total c (among c listed)⟩

/-- A level of the constraints has no inferred variable once they are assigned, and its value is
    that of the level with the variables valued. -/
theorem Assigns.level_ok (assigns : s.Assigns constraints) {a b : Level}
    (covered : ∀ x, a.var? = some x → x.isInference = true → (s.get? x).isSome)
    (done : s.level a = .ok b) : b.hasInference = false ∧
      (∀ y, b.var? = some y → ∃ x, a.var? = some x ∧ y.kind = x.kind) ∧
      ∀ p, b.under p = a.value (s.valuation p) := by
  have origin := Level.subst_origin done
  have values : ∀ p, b.under p = a.value (s.valuation p) := fun p =>
    Level.subst_value (fun x => x.floor_le p) done
  cases a with
  | const c =>
      refine ⟨?_, ?_, values⟩
      · cases b <;> simp_all [Level.Origin, Level.var?, Level.hasInference]
      · intro y isVar
        rw [origin.1] at isVar
        cases isVar
  | infinity =>
      refine ⟨?_, ?_, values⟩
      · cases b <;> simp_all [Level.Origin, Level.var?, Level.hasInference]
      · intro y isVar
        rw [origin.1] at isVar
        cases isVar
  | shift x c m =>
      have fromVar : ∀ y, b.var? = some y → y.isInference = false ∧ y.kind = x.kind := by
        intro y isVar
        rw [origin.1] at isVar
        cases known : s.get? x with
        | none =>
            rw [known] at isVar
            cases isVar
            refine ⟨?_, rfl⟩
            by_contra inferred
            have total := covered x rfl (Bool.not_eq_false _ ▸ inferred)
            simp [known] at total
        | some r =>
            rw [known] at isVar
            have admits := (assigns.admitted x r known).2
            refine ⟨?_, admits.kind y isVar⟩
            have closed := admits.closed
            cases r with
            | const d => cases isVar
            | infinity => cases isVar
            | shift z d n =>
                cases isVar
                exact closed
      refine ⟨?_, fun y isVar => ⟨x, rfl, (fromVar y isVar).2⟩, values⟩
      cases b with
      | const d => rfl
      | infinity => rfl
      | shift y d n => exact (fromVar y rfl).1

theorem Assigns.covered (assigns : s.Assigns constraints) {c : LevelConstraint}
    (listed : c ∈ constraints) {a : Level} (side : a = c.left ∨ a = c.right) (x : LevelVar)
    (isVar : a.var? = some x) (inferred : x.isInference = true) : (s.get? x).isSome := by
  apply assigns.total c listed
  rcases side with rfl | rfl <;> simp [LevelConstraint.inferred, LevelConstraint.vars, isVar,
    inferred]

/-- A constraint is satisfied when the left value is at most the right one at all level
    parameters. -/
theorem Assigns.satisfies_iff (assigns : s.Assigns constraints) {c : LevelConstraint}
    (listed : c ∈ constraints) {r : Bool} (done : s.satisfies c = .ok r) :
    r = true ↔ ∀ p, c.left.value (s.valuation p) ≤ c.right.value (s.valuation p) := by
  obtain ⟨a, left, rest⟩ := bind_ok done
  obtain ⟨b, right, holds⟩ := bind_ok rest
  obtain ⟨leftClosed, _, leftValue⟩ := assigns.level_ok
    (assigns.covered listed (.inl rfl)) left
  obtain ⟨rightClosed, _, rightValue⟩ := assigns.level_ok
    (assigns.covered listed (.inr rfl)) right
  rw [Level.holds_iff leftClosed rightClosed holds]
  simp only [leftValue, rightValue]

/-- The offsets of an assignment that satisfies the constraints are closed. -/
theorem Solves.offsets_closed (solves : s.Solves constraints)
    (oneKind : ∀ c ∈ constraints, c.OneKind) :
    SolvePhase.based.Closed constraints (s.ranks .based) := by
  intro c listed x target
  obtain ⟨inferred, offset, cap, rightIs⟩ := LevelConstraint.target_inference target
  have assigns := solves.toAssigns
  obtain ⟨a, left, rest⟩ := bind_ok (solves.satisfied c listed)
  obtain ⟨b, right, holds⟩ := bind_ok rest
  obtain ⟨leftClosed, leftKind, _⟩ := assigns.level_ok
    (assigns.covered listed (.inl rfl)) left
  obtain ⟨rightClosed, rightKind, _⟩ := assigns.level_ok
    (assigns.covered listed (.inr rfl)) right
  have everywhere := (Level.holds_iff leftClosed rightClosed holds).mp rfl
  have slopes : a.slope ≤ b.slope := by
    apply Level.slope_le leftClosed rightClosed _ everywhere
    intro y z leftVar rightVar
    obtain ⟨y', fromLeft, yKind⟩ := leftKind y leftVar
    obtain ⟨z', fromRight, zKind⟩ := rightKind z rightVar
    rw [yKind, zKind]
    apply oneKind c listed <;> simp [LevelConstraint.vars, fromLeft, fromRight]
  have known := assigns.total c listed x (LevelConstraint.target_inferred target)
  obtain ⟨value, found⟩ := Option.isSome_iff_exists.mp known
  have rightSlope : b.slope = s.ranks .based x + ofInt offset := by
    have origin := Level.subst_origin right
    rw [rightIs] at origin
    simpa [Level.Origin, ranks, found] using origin.2
  have leftSlope : SolvePhase.based.reach cap (s.ranks .based) c.left ≤ a.slope := by
    have origin := Level.subst_origin left
    cases leftIs : c.left with
    | const n => exact bot_le
    | infinity =>
        rw [leftIs] at origin
        rw [origin.2]
        exact le_top
    | shift y n m =>
        rw [leftIs] at origin
        have noCap : m.elim ⊥ (SolvePhase.based.constant cap) = (⊥ : Rank) := by
          cases m <;> rfl
        rw [origin.2]
        cases y with
        | param k =>
            rw [assigns.param k]
            simp [SolvePhase.reach, noCap, SolvePhase.parameter, Level.ofVar, Level.slope,
              ← ofInt_add]
        | infer id k =>
            have leftKnown := assigns.covered listed (.inl rfl) (.infer id k)
              (by simp [leftIs, Level.var?]) rfl
            obtain ⟨r, leftFound⟩ := Option.isSome_iff_exists.mp leftKnown
            simp [SolvePhase.reach, noCap, SolvePhase.excess_based, ranks, leftFound]
  rw [LevelConstraint.need_of_right rightIs]
  exact add_neg_le ((leftSlope.trans slopes).trans rightSlope.le)

end LevelSolution

/-- What is left above the cap is below the rest of the right side. -/
theorem SolvePhase.excess_free_le_iff {r w : WithTop Int} {cap : Option Int} {offset : Int} :
    SolvePhase.free.excess cap (r : Rank) ≤ (w : Rank) + ofInt offset ↔
      r ≤ Level.capped (w + offset) cap := by
  have sum : (w : Rank) + ofInt offset = ((w + offset : WithTop Int) : Rank) := rfl
  rw [sum]
  cases cap with
  | none =>
      have unmet : ¬ SolvePhase.free.Met none (r : Rank) := by
        rintro ⟨_, m, isCap, _⟩
        cases isCap
      rw [excess_unmet unmet, WithBot.coe_le_coe]
      rfl
  | some m =>
      simp only [Level.capped, le_max_iff]
      by_cases low : r ≤ (m : WithTop Int)
      · have met : SolvePhase.free.Met (some m) (r : Rank) :=
          ⟨rfl, m, rfl, WithBot.coe_le_coe.mpr low⟩
        simp [excess_met met, low]
      · have unmet : ¬ SolvePhase.free.Met (some m) (r : Rank) := by
          rintro ⟨_, k, isCap, below⟩
          cases isCap
          exact low (WithBot.coe_le_coe.mp below)
        rw [excess_unmet unmet, WithBot.coe_le_coe]
        simp [low]

namespace LevelSolution

variable {s : LevelSolution} {constraints : List LevelConstraint}

/-- So are its values where the level parameters are zero. -/
theorem Solves.constants_closed (solves : s.Solves constraints) :
    SolvePhase.free.Closed constraints (s.ranks .free) := by
  intro c listed x target
  obtain ⟨inferred, offset, cap, rightIs⟩ := LevelConstraint.target_inference target
  have assigns := solves.toAssigns
  have below := (assigns.satisfies_iff listed (solves.satisfied c listed)).mp rfl fun _ => 0
  have valued : ∀ y ∈ c.inferred,
      s.ranks .free y = ((s.valuation (fun _ => 0) y : WithTop Int) : Rank) := by
    intro y isInferred
    obtain ⟨a, found⟩ := Option.isSome_iff_exists.mp (assigns.total c listed y isInferred)
    simp [ranks, valuation, Level.substituted, found, Level.under]
  rw [rightIs] at below
  simp only [Level.value] at below
  rw [LevelConstraint.need_of_right rightIs, valued x (LevelConstraint.target_inferred target)]
  apply add_neg_le
  cases leftIs : c.left with
  | infinity =>
      rw [leftIs] at below
      have top := SolvePhase.excess_free_le_iff.mpr below
      exact (SolvePhase.excess_top .free cap).symm.le.trans top
  | const n =>
      rw [leftIs] at below
      exact SolvePhase.excess_free_le_iff.mpr below
  | shift y n m =>
      rw [leftIs] at below
      have capBelow : m.elim ⊥ (SolvePhase.free.constant cap) ≤
          (s.valuation (fun _ => 0) x : Rank) + ofInt offset := by
        cases m with
        | none => exact bot_le
        | some m => exact SolvePhase.excess_free_le_iff.mpr ((le_max_right _ _).trans below)
      refine max_le ?_ capBelow
      cases y with
      | param k => exact bot_le
      | infer id k =>
          have isInferred : .infer id k ∈ c.inferred :=
            LevelConstraint.source_inferred (by simp [leftIs, Level.var?]) rfl
          rw [valued _ isInferred]
          apply SolvePhase.excess_free_le_iff.mpr
          refine le_trans ?_ below
          cases m with
          | none => exact le_rfl
          | some m => exact le_max_left _ _

end LevelSolution

namespace LevelValue

/-- What a value comes to when its level parameter is a natural number. -/
def reading (n : Nat) : LevelValue → WithTop Int
  | infinite => ⊤
  | finite none free => (free : WithTop Int)
  | finite (some k) free => ((max (n + k) free : Int) : WithTop Int)

/-- The ranks of both phases make up the value. -/
theorem reading_rank (n : Nat) (v : LevelValue) : ((v.reading n : WithTop Int) : Rank) =
    max (SolvePhase.based.rank v + ofInt n) (SolvePhase.free.rank v) := by
  cases v with
  | infinite => rfl
  | finite based free =>
      cases based with
      | none => rfl
      | some k =>
          rw [SolvePhase.rank, SolvePhase.rank, ofOption, ← ofInt_add, add_comm k (n : Int)]
          rfl

theorem toLevel_under {k : LevelKind} {v : LevelValue} {a : Level} (made : v.toLevel k = .ok a)
    (p : LevelKind → Nat) : a.under p = v.reading (p k) := by
  cases v with
  | infinite =>
      cases made
      rfl
  | finite based free =>
      cases based with
      | none =>
          cases made
          rfl
      | some b =>
          have same : a.under p = Level.capped (((p k : Int) : WithTop Int) + b) (some free) :=
            Level.make_value (ν := fun x => ((p x.kind : Int) : WithTop Int))
              ((LevelVar.param k).floor_le p) made
          exact same

theorem toLevel_shape {k : LevelKind} {v : LevelValue} {a : Level} (made : v.toLevel k = .ok a) :
    a.hasInference = false ∧ (∀ y, a.var? = some y → y.kind = k) ∧
      (a = .infinity ↔ v = .infinite) := by
  cases v with
  | infinite =>
      cases made
      simp [Level.hasInference, Level.var?]
  | finite based free =>
      cases based with
      | none =>
          cases made
          simp [Level.hasInference, Level.var?]
      | some b =>
          obtain ⟨least, _, rest⟩ := bind_ok made
          cases rest
          refine ⟨rfl, ?_, by simp⟩
          intro y isVar
          cases isVar
          rfl

end LevelValue

/-- The values of all variables at the given level parameters: a variable without a value of its own
    is a level parameter. -/
def readings (values : List (LevelVar × LevelValue)) (p : LevelKind → Nat) (x : LevelVar) :
    WithTop Int :=
  match values.lookup x with
  | some v => v.reading (p x.kind)
  | none => ((p x.kind : Int) : WithTop Int)

theorem readings_rank {values : List (LevelVar × LevelValue)} {x : LevelVar}
    (known : (values.lookup x).isSome) (p : LevelKind → Nat) :
    ((readings values p x : WithTop Int) : Rank) =
      max (SolvePhase.based.ranks values x + ofInt (p x.kind))
        (SolvePhase.free.ranks values x) := by
  obtain ⟨v, found⟩ := Option.isSome_iff_exists.mp known
  simp only [readings, SolvePhase.ranks, found]
  exact v.reading_rank _

/-- Values whose ranks are closed satisfy the constraints that have a target. -/
theorem closed_satisfied {constraints : List LevelConstraint}
    {values : List (LevelVar × LevelValue)} (valued : Valued constraints values)
    (params : ∀ k, values.lookup (.param k) = none)
    (offsets : SolvePhase.based.Closed constraints (SolvePhase.based.ranks values))
    (constants : SolvePhase.free.Closed constraints (SolvePhase.free.ranks values))
    {c : LevelConstraint} (listed : c ∈ constraints) (oneKind : c.OneKind) {x : LevelVar}
    (target : c.target? = some x) (p : LevelKind → Nat) :
    c.left.value (readings values p) ≤ c.right.value (readings values p) := by
  obtain ⟨_, offset, cap, rightIs⟩ := LevelConstraint.target_inference target
  have reach : ∀ {phase : SolvePhase}, phase.Closed constraints (phase.ranks values) →
      phase.reach cap (phase.ranks values) c.left ≤ phase.ranks values x + ofInt offset := by
    intro phase closed
    apply le_add_of_add_neg_le
    rw [← LevelConstraint.need_of_right rightIs]
    exact closed c listed x target
  have targetKnown := valued c listed x (LevelConstraint.target_inferred target)
  have targetRank := readings_rank targetKnown p
  have offsetPart : SolvePhase.based.ranks values x + ofInt (p x.kind) ≤
      (readings values p x : Rank) := targetRank ▸ le_max_left _ _
  have constantPart : SolvePhase.free.ranks values x ≤ (readings values p x : Rank) :=
    targetRank ▸ le_max_right _ _
  -- what the constants ask for is above the cap or met by it
  have free : ∀ {r : WithTop Int}, SolvePhase.free.excess cap (r : Rank) ≤
      SolvePhase.free.ranks values x + ofInt offset →
      r ≤ Level.capped (readings values p x + offset) cap := by
    intro r below
    apply SolvePhase.excess_free_le_iff.mp
    refine below.trans ?_
    gcongr
  -- what the offsets ask for is met without the cap
  have based : ∀ {r : WithTop Int} {k : Rank}, k ≤ SolvePhase.based.ranks values x + ofInt offset →
      (r : Rank) ≤ k + ofInt (p x.kind) →
      r ≤ Level.capped (readings values p x + offset) cap := by
    intro r k below reading
    have met : (r : Rank) ≤ (readings values p x : Rank) + ofInt offset := calc
      (r : Rank) ≤ SolvePhase.based.ranks values x + ofInt offset + ofInt (p x.kind) := by
        refine reading.trans ?_
        gcongr
      _ = SolvePhase.based.ranks values x + ofInt (p x.kind) + ofInt offset := add_right_comm _ _ _
      _ ≤ (readings values p x : Rank) + ofInt offset := by gcongr
    have plain : r ≤ readings values p x + offset := WithBot.coe_le_coe.mp met
    refine plain.trans ?_
    cases cap with
    | none => exact le_rfl
    | some m => exact le_max_left _ _
  have freeReach := reach constants
  have basedReach := reach offsets
  rw [rightIs]
  cases leftIs : c.left with
  | infinity =>
      rw [leftIs] at freeReach
      apply free
      exact (SolvePhase.excess_top .free cap).le.trans freeReach
  | const n =>
      rw [leftIs] at freeReach
      exact free freeReach
  | shift y n m =>
      rw [leftIs] at freeReach basedReach
      have varPart : readings values p y + n ≤
          Level.capped (readings values p x + offset) cap := by
        have sameKind : y.kind = x.kind := by
          apply oneKind <;> simp [LevelConstraint.vars, leftIs, rightIs, Level.var?]
        cases y with
        | param k =>
            have offsetBelow := (le_max_left _ _).trans basedReach
            apply based offsetBelow
            rw [readings, params k, sameKind]
            simp only [SolvePhase.parameter]
            rw [← ofInt_add, Int.add_comm]
            exact le_rfl
        | infer id k =>
            have known := valued c listed (.infer id k)
              (LevelConstraint.source_inferred (by simp [leftIs, Level.var?]) rfl)
            have rank := readings_rank known p
            have constantBelow := (le_max_left _ _).trans freeReach
            have offsetBelow := (le_max_left _ _).trans basedReach
            simp only [SolvePhase.excess_based] at offsetBelow
            rcases max_choice (SolvePhase.based.ranks values (.infer id k) +
              ofInt (p (LevelVar.infer id k).kind)) (SolvePhase.free.ranks values (.infer id k))
              with same | same
            · apply based offsetBelow
              have sum : ((readings values p (.infer id k) + n : WithTop Int) : Rank) =
                  (readings values p (.infer id k) : Rank) + ofInt n := rfl
              rw [sum, rank, same, ← sameKind, add_right_comm]
            · apply free
              have sum : ((readings values p (.infer id k) + n : WithTop Int) : Rank) =
                  (readings values p (.infer id k) : Rank) + ofInt n := rfl
              rw [sum, rank, same]
              exact constantBelow
      cases m with
      | none => exact varPart
      | some m =>
          refine max_le varPart ?_
          apply free
          exact (le_max_right _ _).trans freeReach

namespace LevelSolution

variable {s : LevelSolution}

/-- Values whose ranks are below those of an assignment are below it everywhere. -/
theorem readings_le {values : List (LevelVar × LevelValue)} {x : LevelVar} {a : Level}
    (assigned : s.get? x = some a) (admits : x.Admits a) (known : (values.lookup x).isSome)
    (offset : SolvePhase.based.ranks values x ≤ s.ranks .based x)
    (constant : SolvePhase.free.ranks values x ≤ s.ranks .free x) (p : LevelKind → Nat) :
    readings values p x ≤ s.valuation p x := by
  have final : s.valuation p x = a.under p := by
    simp [valuation, Level.substituted, assigned, Level.under]
  simp only [ranks, assigned] at offset constant
  rw [final, ← WithBot.coe_le_coe, readings_rank known]
  apply max_le
  · calc SolvePhase.based.ranks values x + ofInt (p x.kind)
        ≤ a.slope + ofInt (p x.kind) := by gcongr
      _ ≤ (a.under p : Rank) := Level.slope_under admits.kind p
  · refine constant.trans (WithBot.coe_le_coe.mpr ?_)
    exact a.under_mono fun _ => Nat.zero_le _

end LevelSolution

end PathTheory
