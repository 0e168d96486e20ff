import PathTheory.Proofs.Level.Assignment
import PathTheory.Proofs.Level.Overflow
import PathTheory.Substitution
/-!
Universes of a definition at a call. A definition compares its universes once, with its level
parameters at any natural numbers; a call replaces these parameters by levels that inference has
found. The main statement is that the comparisons survive just at the level arguments whose
homotopy level is never under the sets.
-/
namespace PathTheory

namespace Level

variable {k : LevelKind} {a b : Level}

/-- No variable other than the level parameter of this kind. -/
def Over (k : LevelKind) (a : Level) : Prop := ∀ x, a.var? = some x → x = .param k

/-- All constants are 32-bit integers. -/
def Fits : Level → Prop
  | const c => Bounded.fits c = true
  | shift _ c m => Bounded.fits c = true ∧ ∀ n, m = some n → Bounded.fits n = true
  | infinity => True

theorem Over.closed (isOver : a.Over k) : a.hasInference = false := by
  cases a with
  | const c => rfl
  | infinity => rfl
  | shift x c m =>
      rw [hasInference, isOver x rfl]
      rfl

theorem value_congr {ν υ : LevelVar → WithTop Int} (same : ∀ x, a.var? = some x → ν x = υ x) :
    a.value ν = a.value υ :=
  le_antisymm (value_mono fun x isVar => (same x isVar).le)
    (value_mono fun x isVar => (same x isVar).ge)

/-- At a natural number a level has the value that it has at the parameters. -/
theorem value_at_nat (isOver : a.Over k) {ν : LevelVar → WithTop Int} {n : Nat}
    (at_n : ν (.param k) = ((n : Int) : WithTop Int)) : a.value ν = a.under fun _ => n := by
  apply value_congr
  intro x isVar
  rw [isOver x isVar, at_n]

theorem value_at_top (isOver : a.Over k) {ν : LevelVar → WithTop Int} (at_top : ν (.param k) = ⊤)
    {x : LevelVar} (isVar : a.var? = some x) : a.value ν = ⊤ := by
  cases a with
  | shift y c m =>
      cases isVar
      rw [value, isOver x rfl, at_top]
      cases m <;> simp [capped]
  | _ => cases isVar

theorem value_of_constant (noVar : a.var? = none) (ν υ : LevelVar → WithTop Int) :
    a.value ν = a.value υ := by
  apply value_congr
  intro x isVar
  rw [noVar] at isVar
  cases isVar

/-- A level with a variable is above every finite one without. -/
theorem variable_below_infinity {x : LevelVar} (isVar : a.var? = some x) (noVar : b.var? = none)
    (below : ∀ p, a.under p ≤ b.under p) : b = infinity := by
  cases a with
  | shift y c m =>
      cases b with
      | infinity => rfl
      | shift z d n => cases noVar
      | const d =>
          obtain ⟨t, exceeds⟩ := line_exceeds c d m
          have far := below fun _ => t
          rw [under_shift, under_const, WithTop.coe_le_coe] at far
          omega
  | _ => cases isVar

/-- An order that holds at all natural numbers also holds at infinity. -/
theorem value_le_of_under (left : a.Over k) (right : b.Over k)
    (below : ∀ p, a.under p ≤ b.under p) {ν : LevelVar → WithTop Int}
    (floor : 0 ≤ ν (.param k)) : a.value ν ≤ b.value ν := by
  cases here : ν (.param k) with
  | coe n =>
      rw [here] at floor
      obtain ⟨m, rfl⟩ := Int.eq_ofNat_of_zero_le (WithTop.coe_nonneg.mp floor)
      rw [value_at_nat left here, value_at_nat right here]
      exact below _
  | top =>
      cases rightVar : b.var? with
      | some y =>
          rw [value_at_top right here rightVar]
          exact le_top
      | none =>
          cases leftVar : a.var? with
          | some x =>
              rw [variable_below_infinity leftVar rightVar below]
              exact le_top
          | none =>
              rw [value_of_constant leftVar ν _, value_of_constant rightVar ν _]
              exact below fun _ => 0

theorem add_fits {c d : Int} (fits : Bounded.fits (c + d) = true) : Bounded.add c d = .ok (c + d) := by
  rw [Bounded.add, if_pos fits]

theorem make_param_fits {c : Int} {m : Option Int} (fits : (shift (.param k) c m).Fits) :
    ∃ a, make (.param k) c m = .ok a ∧ a.Fits ∧ a.hasInference = false := by
  cases m with
  | none => exact ⟨_, rfl, fits, rfl⟩
  | some n =>
      have least : Bounded.add (LevelVar.param k).floor c = .ok (0 + c) :=
        add_fits (by simpa [LevelVar.floor] using fits.1)
      refine ⟨shift (.param k) c (if n > 0 + c then some n else none), ?_, ?_, rfl⟩
      · simp only [make, least]
        rfl
      · refine ⟨fits.1, fun m isCap => fits.2 m ?_⟩
        split at isCap
        · exact isCap
        · cases isCap

/-- A parameter on its own is replaced without leaving the 32-bit integers. -/
theorem ofVar_subst_fits {f : LevelVar → Option Level} {x : LevelVar} (put : f x = some a)
    (closed : a.hasInference = false) (fits : a.Fits) :
    ∃ b, (ofVar x).subst f = .ok b ∧ b.Fits ∧ b.hasInference = false := by
  cases a with
  | infinity => exact ⟨infinity, by simp [ofVar, subst, put], trivial, rfl⟩
  | const c =>
      refine ⟨const c, ?_, fits, rfl⟩
      have same : Bounded.add c 0 = .ok c := by
        simpa using add_fits (d := 0) (by rw [Int.add_zero]; exact fits)
      simp [ofVar, subst, put, same, bind, Except.bind, pure, Except.pure]
  | shift y c m =>
      cases y with
      | infer id k => cases closed
      | param k =>
          have offset : Bounded.add c 0 = .ok c := by
            simpa using add_fits (d := 0) (by rw [Int.add_zero]; exact fits.1)
          obtain ⟨b, made, bFits, bClosed⟩ := make_param_fits fits
          refine ⟨b, ?_, bFits, bClosed⟩
          cases m with
          | none => simpa [ofVar, subst, put, offset, maxCap, bind, Except.bind, pure, Except.pure]
          | some n =>
              have cap : Bounded.add n 0 = .ok n := by
                simpa using add_fits (d := 0) (by rw [Int.add_zero]; exact fits.2 n rfl)
              simpa [ofVar, subst, put, offset, cap, maxCap, bind, Except.bind, pure, Except.pure,
                Functor.map, Except.map]

theorem zero_holds_fits (closed : a.hasInference = false) (fits : a.Fits) :
    ∃ r, (const 0).holds a .le = .ok r := by
  by_cases same : const 0 = a
  · exact ⟨true, by simp [holds, compare, compareLe, same]; rfl⟩
  cases a with
  | infinity => exact ⟨true, rfl⟩
  | const c => exact ⟨_, by rw [holds_finite rfl rfl same (by simp) (by simp)]; rfl⟩
  | shift y c m =>
      cases y with
      | infer id k => cases closed
      | param k =>
          rw [holds_finite rfl rfl same (by simp) (by simp)]
          have offset : Bounded.add 0 c = .ok (0 + c) := add_fits (by simpa using fits.1)
          cases m with
          | none =>
              refine ⟨true && decide (0 ≤ 0 + c), ?_⟩
              simp only [closedLe, var?, LevelVar.floor, valueAt, Option.map, Option.getD,
                HOrElse.hOrElse, OrElse.orElse, Option.orElse, offset]
              rfl
          | some n =>
              refine ⟨true && decide (0 ≤ max n (0 + c)), ?_⟩
              simp only [closedLe, var?, LevelVar.floor, valueAt, Option.map, Option.getD,
                HOrElse.hOrElse, OrElse.orElse, Option.orElse, offset]
              rfl

end Level

namespace Universe

/-- The only variables are the level parameters, each on its own axis. -/
structure Polymorphic (u : Universe) : Prop where
  p : u.p.Over .predicative
  h : u.h.Over .homotopy
  finite : u.p ≠ .infinity

/-- A level argument that inference can find for a call. -/
structure Argument (l : Universe) : Prop where
  p : (LevelVar.infer 0 .predicative).Admits l.p
  h : (LevelVar.infer 1 .homotopy).Admits l.h
  pFits : l.p.Fits
  hFits : l.h.Fits

/-- Whether a universe of a definition is below another one when the definition is called at a level
    argument. -/
def leAt (l u v : Universe) : Checked Bool := do
  (← (Subst.std l).sort u).holds (← (Subst.std l).sort v) .le

theorem holds_le (u v : Universe) : u.holds v .le =
    if u.isProp then .ok true
    else if v.isProp then u.h.holds .prop .le
    else do if ← u.p.holds v.p .le then u.h.holds v.h .le else return false := by
  unfold holds compare compareUp
  by_cases small : u.isProp
  · simp [small]
    rfl
  by_cases least : v.isProp
  · simp only [small, least, Bool.false_eq_true, if_false, if_true]
    unfold Level.holds
    cases u.h.compare .prop .le with
    | error fault => rfl
    | ok verdict => cases verdict <;> rfl
  · simp only [small, least, Bool.false_eq_true, if_false]
    unfold Level.holds
    cases u.p.compare v.p .le with
    | error fault => rfl
    | ok verdict =>
        cases verdict with
        | demanded d => rfl
        | decided answer =>
            cases answer with
            | false => rfl
            | true =>
                cases u.h.compare v.h .le with
                | error fault => rfl
                | ok verdict => cases verdict <;> rfl

theorem isProp_iff {u : Universe} : u.isProp ↔ u.h = .prop := by
  cases hu : u.h <;> simp [isProp, Level.isProp, Level.prop, hu]

theorem holds_le_of {u v : Universe} (dimensions : u.h.holds v.h .le = .ok true)
    (sizes : v.isProp ∨ u.p.holds v.p .le = .ok true) : u.holds v .le = .ok true := by
  rw [Universe.holds_le]
  by_cases small : u.isProp
  · rw [if_pos small]
  rw [if_neg small]
  by_cases least : v.isProp
  · rw [if_pos least, ← isProp_iff.mp least, dimensions]
  · rw [if_neg least, sizes.resolve_left least]
    exact dimensions

/-- No variable of inference. -/
structure Closed (u : Universe) : Prop where
  p : u.p.hasInference = false
  h : u.h.hasInference = false

/-- What the comparison says of the values: the propositions are below everything, and a universe of
    propositions has no size. -/
theorem holds_le_iff {u v : Universe} (left : u.Closed) (right : v.Closed) {r : Bool}
    (done : u.holds v .le = .ok r) : r = true ↔ u.isProp ∨
      (∀ p, u.h.under p ≤ v.h.under p) ∧ (v.isProp ∨ ∀ p, u.p.under p ≤ v.p.under p) := by
  rw [holds_le] at done
  by_cases small : u.isProp
  · rw [if_pos small] at done
    cases done
    simp [small]
  rw [if_neg small] at done
  by_cases least : v.isProp
  · rw [if_pos least, ← isProp_iff.mp least] at done
    rw [Level.holds_iff left.h right.h done]
    simp [small, least]
  rw [if_neg least] at done
  obtain ⟨sizes, first, rest⟩ := bind_ok done
  have sizesIff := Level.holds_iff left.p right.p first
  cases sizes with
  | false =>
      cases rest
      simp [small, least, ← sizesIff]
  | true =>
      rw [Level.holds_iff left.h right.h rest]
      simp [small, least, ← sizesIff]

theorem holds_le_overflows (u v : Universe) : OnlyOverflows (u.holds v .le) := by
  rw [holds_le]
  split
  · exact .ok _
  split
  · exact holds_overflows _ _
  refine (holds_overflows u.p v.p).bind fun sizes => ?_
  cases sizes with
  | false => exact .ok _
  | true => exact holds_overflows _ _

section Call

variable {l u v : Universe}

theorem Polymorphic.closed (polymorphic : u.Polymorphic) : u.Closed :=
  ⟨polymorphic.p.closed, polymorphic.h.closed⟩

/-- The level that a call puts for a level parameter. -/
def replacement (l : Universe) (x : LevelVar) : Option Level := (Subst.std l).levels.lookup x

theorem sort_std (l u : Universe) : (Subst.std l).sort u = u.subst l.replacement := rfl

/-- The values that the level parameters of a definition have in a call. -/
def callValues (l : Universe) (p : LevelKind → Nat) : LevelVar → WithTop Int :=
  Level.substituted l.replacement fun x => ((p x.kind : Int) : WithTop Int)

theorem callValues_p (l : Universe) (p : LevelKind → Nat) :
    l.callValues p (.param .predicative) = l.p.under p := rfl

theorem callValues_h (l : Universe) (p : LevelKind → Nat) :
    l.callValues p (.param .homotopy) = l.h.under p := rfl

theorem level_at_call {k : LevelKind} {a b r : Level} (isOver : a.Over k)
    (put : l.replacement (.param k) = some r) (closed : r.hasInference = false)
    (done : a.subst l.replacement = .ok b) :
    b.hasInference = false ∧ ∀ p, b.under p = a.value (l.callValues p) := by
  refine ⟨?_, fun p => Level.subst_value (fun x => x.floor_le p) done⟩
  have origin := Level.subst_origin done
  cases a with
  | shift x c m =>
      obtain rfl := isOver x rfl
      simp only [Level.Origin, put, Option.getD_some] at origin
      cases b <;> cases r <;> simp_all [Level.var?, Level.hasInference]
  | _ => cases b <;> simp_all [Level.Origin, Level.var?, Level.hasInference]

theorem subst_levels {f : LevelVar → Option Level} (done : u.subst f = .ok v) :
    u.p.subst f = .ok v.p ∧ u.h.subst f = .ok v.h := by
  obtain ⟨p, sizes, next⟩ := bind_ok done
  obtain ⟨h, dimensions, made⟩ := bind_ok next
  unfold make at made
  split at made
  · cases made
  · cases made
    exact ⟨sizes, dimensions⟩

theorem Argument.closed (argument : l.Argument) : l.Closed :=
  ⟨argument.p.closed, argument.h.closed⟩

/-- A universe of a definition in a call. -/
structure AtCall (l u u' : Universe) : Prop extends u'.Closed where
  pValue : ∀ p, u'.p.under p = u.p.value (l.callValues p)
  hValue : ∀ p, u'.h.under p = u.h.value (l.callValues p)
  isProp : u.isProp → u'.isProp

theorem Argument.atCall (argument : l.Argument) (polymorphic : u.Polymorphic) {u' : Universe}
    (done : (Subst.std l).sort u = .ok u') : AtCall l u u' := by
  obtain ⟨sizes, dimensions⟩ := subst_levels done
  obtain ⟨pClosed, pValue⟩ := level_at_call polymorphic.p rfl argument.p.closed sizes
  obtain ⟨hClosed, hValue⟩ := level_at_call polymorphic.h rfl argument.h.closed dimensions
  refine ⟨⟨pClosed, hClosed⟩, pValue, hValue, fun small => ?_⟩
  rw [isProp_iff.mp small] at dimensions
  exact isProp_iff.mpr (Except.ok.inj dimensions).symm

theorem Argument.nonneg (argument : l.Argument) (p : LevelKind → Nat) :
    0 ≤ l.callValues p (.param .predicative) := argument.p.floor p

theorem Argument.finite_at_call (argument : l.Argument) (polymorphic : u.Polymorphic) {p : Level}
    (done : u.p.subst l.replacement = .ok p) : p.isInfinity = false := by
  obtain ⟨_, value⟩ := level_at_call polymorphic.p rfl argument.p.closed done
  have finite : u.p.value (l.callValues fun _ => 0) ≠ ⊤ := by
    have argumentFinite := Level.finite_under (argument.p.finite rfl) fun _ => 0
    cases size : u.p with
    | infinity => exact absurd size polymorphic.finite
    | const c => exact WithTop.coe_ne_top
    | shift x c m =>
        obtain rfl := polymorphic.p x (by rw [size]; rfl)
        obtain ⟨n, isNumber⟩ := WithTop.ne_top_iff_exists.mp argumentFinite
        rw [Level.value, callValues_p, ← isNumber, ← WithTop.coe_add, Level.capped_coe]
        exact WithTop.coe_ne_top
  cases p with
  | infinity => exact absurd (value fun _ => 0).symm finite
  | _ => rfl

/-- A universe of a definition has a value in every call unless its levels leave the 32-bit
    integers. -/
theorem Argument.sort_overflows (argument : l.Argument) (polymorphic : u.Polymorphic) :
    OnlyOverflows ((Subst.std l).sort u) := by
  rw [sort_std, Universe.subst]
  intro fault failed
  cases sizes : u.p.subst l.replacement with
  | error other =>
      rw [sizes] at failed
      cases failed
      exact subst_overflows _ _ _ sizes
  | ok p =>
      refine (subst_overflows l.replacement u.h).bind (fun h => ?_) fault (by rwa [sizes] at failed)
      rw [make, argument.finite_at_call polymorphic sizes]
      exact .ok _

theorem leAt_overflows (argument : l.Argument) (left : u.Polymorphic) (right : v.Polymorphic) :
    OnlyOverflows (l.leAt u v) :=
  (argument.sort_overflows left).bind fun u' => (argument.sort_overflows right).bind fun v' =>
    holds_le_overflows u' v'

theorem leAt_survives (argument : l.Argument) (aboveSets : ∀ p, 0 ≤ l.h.under p)
    (left : u.Polymorphic) (right : v.Polymorphic) (known : u.holds v .le = .ok true) {r : Bool}
    (done : l.leAt u v = .ok r) : r = true := by
  obtain ⟨u', first, next⟩ := bind_ok done
  obtain ⟨v', second, compared⟩ := bind_ok next
  have lower := argument.atCall left first
  have upper := argument.atCall right second
  rw [holds_le_iff lower.toClosed upper.toClosed compared]
  rcases (holds_le_iff left.closed right.closed known).mp rfl with small | ⟨dimensions, sizes⟩
  · exact .inl (lower.isProp small)
  refine .inr ⟨fun p => ?_, sizes.imp upper.isProp fun sizes p => ?_⟩
  · rw [lower.hValue, upper.hValue]
    exact Level.value_le_of_under left.h right.h dimensions (aboveSets p)
  · rw [lower.pValue, upper.pValue]
    exact Level.value_le_of_under left.p right.p sizes (argument.nonneg p)

theorem set0_polymorphic : set0.Polymorphic := by
  refine ⟨fun x isVar => ?_, fun x isVar => ?_, nofun⟩ <;> cases isVar

theorem std_polymorphic : std.Polymorphic := by
  refine ⟨fun x isVar => ?_, fun x isVar => ?_, nofun⟩ <;> cases isVar <;> rfl

theorem set0_le_std : set0.holds std .le = .ok true := rfl

theorem set0_holds_fits {p h : Level} (pClosed : p.hasInference = false) (pFits : p.Fits)
    (hClosed : h.hasInference = false) (hFits : h.Fits) :
    ∃ r, set0.holds ⟨p, h⟩ .le = .ok r := by
  rw [holds_le, if_neg (by decide)]
  split
  · exact ⟨false, rfl⟩
  · obtain ⟨sizes, first⟩ := Level.zero_holds_fits pClosed pFits
    obtain ⟨dimensions, second⟩ := Level.zero_holds_fits hClosed hFits
    simp only [set0, first, second]
    cases sizes
    · exact ⟨false, rfl⟩
    · exact ⟨dimensions, rfl⟩

/-- In a call, the least set is below the universe over the level parameters just if the level
    argument is at least a set. -/
theorem Argument.set0_le_std_at (argument : l.Argument) :
    ∃ r, l.leAt set0 std = .ok r ∧ (r = true ↔ ∀ p, 0 ≤ l.h.under p) := by
  obtain ⟨p, pDone, pFits, pClosed⟩ := Level.ofVar_subst_fits (f := l.replacement)
    (x := .param .predicative) rfl argument.p.closed argument.pFits
  obtain ⟨h, hDone, hFits, hClosed⟩ := Level.ofVar_subst_fits (f := l.replacement)
    (x := .param .homotopy) rfl argument.h.closed argument.hFits
  have put : (Subst.std l).sort std = .ok ⟨p, h⟩ := by
    rw [sort_std, Universe.subst]
    simp only [std, pDone, hDone]
    simp [make, argument.finite_at_call std_polymorphic pDone, bind, Except.bind]
  obtain ⟨r, compared⟩ := set0_holds_fits pClosed pFits hClosed hFits
  refine ⟨r, ?_, ?_⟩
  · rw [leAt, put]
    exact compared
  have upper := argument.atCall std_polymorphic put
  rw [holds_le_iff set0_polymorphic.closed upper.toClosed compared]
  have sizes : ∀ q, set0.p.under q ≤ p.under q := by
    intro q
    rw [upper.pValue]
    simpa [std, Level.ofVar, Level.value, Level.capped, set0, Level.under_const, callValues_p]
      using argument.nonneg q
  have dimensions : ∀ q, h.under q = l.h.under q := by
    intro q
    rw [upper.hValue]
    simp [std, Level.ofVar, Level.value, Level.capped, callValues_h]
  constructor
  · rintro (small | ⟨above, _⟩) q
    · cases small
    · simpa [set0, Level.under_const, dimensions] using above q
  · intro above
    refine .inr ⟨fun q => ?_, .inr sizes⟩
    simpa [set0, Level.under_const, dimensions] using above q

/-- **Comparisons at a call.** A call may be made at every level that inference can find. The universes
    of a definition that are in order at its level parameters are in order in every such call, as far
    as their levels stay 32-bit integers, just if the homotopy level of the call is at least that of
    the sets wherever it is called. -/
theorem comparisons_survive_iff (argument : l.Argument) :
    (∀ u v, u.Polymorphic → v.Polymorphic → u.holds v .le = .ok true →
      OnlyOverflows (l.leAt u v) ∧ ∀ r, l.leAt u v = .ok r → r = true) ↔
    ∀ p, 0 ≤ l.h.under p := by
  constructor
  · intro survive
    obtain ⟨r, compared, iff⟩ := argument.set0_le_std_at
    exact iff.mp ((survive set0 std set0_polymorphic std_polymorphic set0_le_std).2 r compared)
  · intro aboveSets u v left right known
    exact ⟨leAt_overflows argument left right, fun r => leAt_survives argument aboveSets left right
      known⟩

/-- The universes one larger than those over the level parameters, of dimension three at least. -/
def raised : Universe :=
  ⟨.shift (.param .predicative) 1 none, .shift (.param .homotopy) 0 (some 3)⟩

def unbounded : Universe := ⟨.const 2, .infinity⟩

theorem unbounded_argument : unbounded.Argument where
  p := ⟨rfl, nofun, nofun, fun _ => WithTop.coe_le_coe.mpr (by decide)⟩
  h := ⟨rfl, nofun, nofun, fun _ => le_top⟩
  pFits := rfl
  hFits := trivial

theorem std_below_raised_unbounded : unbounded.leAt std raised = .ok true := by
  have aboveSets : ∀ p, 0 ≤ unbounded.h.under p := fun _ => le_top
  have polymorphic : raised.Polymorphic := by
    refine ⟨fun x isVar => ?_, fun x isVar => ?_, nofun⟩ <;> cases isVar <;> rfl
  obtain ⟨_, survives⟩ := (comparisons_survive_iff unbounded_argument).mpr aboveSets std raised
    std_polymorphic polymorphic rfl
  obtain ⟨r, run⟩ : ∃ r, unbounded.leAt std raised = .ok r := ⟨_, rfl⟩
  rw [run, survives r run]

/-- The propositions are a level argument. The least set is below the universe over the level
    parameters, and not below the propositions. -/
theorem set0_above_prop : prop.Argument ∧ set0.Polymorphic ∧ std.Polymorphic ∧
    set0.holds std .le = .ok true ∧ prop.leAt set0 std = .ok false :=
  ⟨⟨⟨rfl, nofun, nofun, fun _ => le_rfl⟩, ⟨rfl, nofun, nofun, fun _ => le_rfl⟩, rfl, rfl⟩,
    set0_polymorphic, std_polymorphic, rfl, rfl⟩

end Call

end Universe

end PathTheory
