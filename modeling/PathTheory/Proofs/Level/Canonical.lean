import PathTheory.Proofs.Level.Instantiation
import PathTheory.Proofs.Run
/-!
Levels that are made by the operations on levels. Each of these leaves out a cap that never matters,
so two levels made by them that have the same values at all level parameters are one level; and their
constants are 32-bit integers, so comparing two of them never overflows.
-/
namespace PathTheory

namespace Bounded

theorem fits_of_add {a b c : Int} (sum : add a b = .ok c) : fits c = true := by
  unfold add at sum
  split at sum
  · cases sum
    assumption
  · cases sum

end Bounded

namespace Level

/-- What is made by the operations on levels, as long as nothing overflows. -/
inductive Made : Level → Prop
  | const {c : Int} : Bounded.fits c = true → Made (.const c)
  | infinity : Made infinity
  | ofVar (x : LevelVar) : Made (ofVar x)
  | make {x : LevelVar} {c : Int} {m : Option Int} {a : Level} :
      Bounded.fits c = true → (∀ n, m = some n → Bounded.fits n = true) →
      make x c m = .ok a → Made a
  | add {a b : Level} {n : Int} : Made a → a.add n = .ok b → Made b
  | max {a b c : Level} : Made a → Made b → a.max? b = .ok (some c) → Made c
  | subst {f : LevelVar → Option Level} {a b : Level} : Made a → a.subst f = .ok b → Made b

/-- The constants are 32-bit integers, and making the level again from its parts changes nothing. -/
structure Canonical (a : Level) : Prop where
  fits : a.Fits
  again : ∀ x c m, a = shift x c m → make x c m = .ok a

section Operations

variable {a b c : Level} {x : LevelVar} {n k : Int} {m l : Option Int}

theorem canonical_const (fits : Bounded.fits n = true) : (const n).Canonical where
  fits := fits
  again := nofun

theorem canonical_infinity : infinity.Canonical where
  fits := trivial
  again := nofun

theorem canonical_line (fits : Bounded.fits n = true) : (shift x n none).Canonical where
  fits := ⟨fits, nofun⟩
  again := by
    rintro _ _ _ ⟨⟩
    rfl

theorem canonical_make (offset : Bounded.fits n = true)
    (cap : ∀ k, m = some k → Bounded.fits k = true) (made : make x n m = .ok a) :
    a.Canonical := by
  cases m with
  | none =>
      cases made
      exact canonical_line offset
  | some k =>
      obtain ⟨least, sum, kept⟩ := bind_ok made
      cases kept
      by_cases above : k > least
      · rw [if_pos above] at made ⊢
        refine ⟨⟨offset, cap⟩, ?_⟩
        rintro _ _ _ ⟨⟩
        exact made
      · rw [if_neg above]
        exact canonical_line offset

/-- A cap that is kept is above the least value of the rest. -/
theorem Canonical.matters (canonical : (shift x n (some k)).Canonical) : x.floor + n < k := by
  obtain ⟨least, sum, kept⟩ := bind_ok (canonical.again x n (some k) rfl)
  by_cases above : k > least
  · rw [Bounded.add_ok sum] at above
    exact above
  · rw [if_neg above] at kept
    cases kept

theorem maxCap_fits (left : ∀ k, m = some k → Bounded.fits k = true)
    (right : ∀ k, l = some k → Bounded.fits k = true) (k : Int) (cap : maxCap m l = some k) :
    Bounded.fits k = true := by
  cases m with
  | none => exact right k (by cases l <;> exact cap)
  | some u =>
      cases l with
      | none => exact left k cap
      | some v =>
          cases cap
          rcases max_choice u v with greater | greater
          · rw [greater]
            exact left u rfl
          · rw [greater]
            exact right v rfl

theorem max_fits (left : Bounded.fits n = true) (right : Bounded.fits k = true) :
    Bounded.fits (max n k) = true :=
  maxCap_fits (m := some n) (l := some k) (fun _ same => by cases same; exact left)
    (fun _ same => by cases same; exact right) _ rfl

theorem canonical_add (done : a.add n = .ok b) : b.Canonical := by
  cases a with
  | infinity =>
      cases done
      exact canonical_infinity
  | const d =>
      obtain ⟨e, sum, kept⟩ := bind_ok done
      cases kept
      exact canonical_const (Bounded.fits_of_add sum)
  | shift x d m =>
      cases m with
      | none =>
          obtain ⟨e, sum, made⟩ := bind_ok done
          exact canonical_make (m := none) (Bounded.fits_of_add sum) nofun made
      | some m =>
          obtain ⟨e, sum, next⟩ := bind_ok done
          obtain ⟨k, moved, made⟩ := bind_ok next
          refine canonical_make (Bounded.fits_of_add sum) ?_ made
          rintro _ ⟨⟩
          exact Bounded.fits_of_add moved

theorem canonical_max (left : a.Fits) (right : b.Fits) (done : a.max? b = .ok (some c)) :
    c.Canonical := by
  cases a with
  | infinity =>
      cases done
      exact canonical_infinity
  | const d =>
      cases b with
      | infinity =>
          cases done
          exact canonical_infinity
      | const e =>
          cases done
          exact canonical_const (max_fits left right)
      | shift y e l =>
          obtain ⟨r, made, kept⟩ := bind_ok done
          cases kept
          refine canonical_make right.1 (maxCap_fits right.2 ?_) made
          rintro _ ⟨⟩
          exact left
  | shift x d m =>
      cases b with
      | infinity =>
          cases done
          exact canonical_infinity
      | const e =>
          obtain ⟨r, made, kept⟩ := bind_ok done
          cases kept
          refine canonical_make left.1 (maxCap_fits left.2 ?_) made
          rintro _ ⟨⟩
          exact right
      | shift y e l =>
          simp only [max?] at done
          by_cases same : x = y
          · rw [if_pos same] at done
            obtain ⟨r, made, kept⟩ := bind_ok done
            cases kept
            exact canonical_make (max_fits left.1 right.1) (maxCap_fits left.2 right.2) made
          · rw [if_neg same] at done
            cases done

/-- Whatever is put for the variable, an offset is added to it. -/
theorem canonical_replaced {f : LevelVar → Option Level} {r : Level} (fits : (shift x n m).Fits)
    (put : f x = some r) (done : (shift x n m).subst f = .ok b) : b.Canonical := by
  simp only [subst, put] at done
  cases r with
  | infinity =>
      cases done
      exact canonical_infinity
  | const e =>
      obtain ⟨k, sum, kept⟩ := bind_ok done
      cases kept
      have moved := Bounded.fits_of_add sum
      cases m with
      | none => exact canonical_const moved
      | some m => exact canonical_const (max_fits (fits.2 m rfl) moved)
  | shift y e l =>
      cases l with
      | none =>
          obtain ⟨_, same, next⟩ := bind_ok done
          cases same
          obtain ⟨k, sum, made⟩ := bind_ok next
          exact canonical_make (Bounded.fits_of_add sum)
            (maxCap_fits (fun _ given => by cases given) fits.2) made
      | some l =>
          obtain ⟨_, moved, next⟩ := bind_ok done
          obtain ⟨v, total, rfl⟩ := map_ok moved
          obtain ⟨k, sum, made⟩ := bind_ok next
          refine canonical_make (Bounded.fits_of_add sum) (maxCap_fits ?_ fits.2) made
          rintro _ ⟨⟩
          exact Bounded.fits_of_add total

/-- The level stays as it is, or its variable is replaced. -/
theorem subst_cases {f : LevelVar → Option Level} (done : a.subst f = .ok b) :
    b = a ∨ ∃ x n m r, a = shift x n m ∧ f x = some r := by
  cases a with
  | const d => exact .inl (Except.ok.inj done).symm
  | infinity => exact .inl (Except.ok.inj done).symm
  | shift x n m =>
      cases put : f x with
      | none =>
          simp only [subst, put] at done
          exact .inl (Except.ok.inj done).symm
      | some r => exact .inr ⟨x, n, m, r, rfl, put⟩

theorem canonical_subst {f : LevelVar → Option Level} (canonical : a.Canonical)
    (done : a.subst f = .ok b) : b.Canonical := by
  rcases subst_cases done with rfl | ⟨x, n, m, r, rfl, put⟩
  · exact canonical
  · exact canonical_replaced canonical.fits put done

theorem fits_subst {f : LevelVar → Option Level} (fits : a.Fits) (done : a.subst f = .ok b) :
    b.Fits := by
  rcases subst_cases done with rfl | ⟨x, n, m, r, rfl, put⟩
  · exact fits
  · exact (canonical_replaced fits put done).fits

/-- Whatever the operations make is canonical. -/
theorem Made.canonical (made : a.Made) : a.Canonical := by
  induction made with
  | const fits => exact canonical_const fits
  | infinity => exact canonical_infinity
  | ofVar x => exact canonical_line rfl
  | make offset cap made => exact canonical_make offset cap made
  | add _ done => exact canonical_add done
  | max _ _ done left right => exact canonical_max left.fits right.fits done
  | subst _ done canonical => exact canonical_subst canonical done

end Operations

section Comparison

variable {a b : Level}

theorem valueAt_zero_fits (fits : a.Fits) : ∃ v, a.valueAt 0 = .ok v := by
  cases a with
  | const c => exact ⟨_, rfl⟩
  | infinity => exact ⟨_, rfl⟩
  | shift x c m =>
      have sum : Bounded.add 0 c = .ok (0 + c) := add_fits (by simpa using fits.1)
      cases m with
      | none => exact ⟨some (0 + c), by rw [valueAt, sum]; rfl⟩
      | some m => exact ⟨some (max m (0 + c)), by rw [valueAt, sum]; rfl⟩

theorem floor_closed (closed : a.hasInference = false) : (a.var?.map LevelVar.floor).getD 0 = 0 := by
  cases a with
  | shift x c m =>
      cases x with
      | param k => rfl
      | infer id k => cases closed
  | _ => rfl

theorem closedLe_fits (left : a.hasInference = false) (right : b.hasInference = false)
    (fits : a.Fits) (fits' : b.Fits) : ∃ r, a.closedLe b = .ok r := by
  unfold closedLe
  split
  · exact ⟨false, rfl⟩
  · split
    · exact ⟨false, rfl⟩
    · have floor : ((a.var? <|> b.var?).map LevelVar.floor).getD 0 = 0 := by
        cases isVar : a.var? with
        | none => exact floor_closed right
        | some x =>
            have known := floor_closed left
            rw [isVar] at known
            exact known
      obtain ⟨u, leftValue⟩ := valueAt_zero_fits fits
      obtain ⟨v, rightValue⟩ := valueAt_zero_fits fits'
      simp only [floor, leftValue, rightValue]
      cases u <;> cases v <;> exact ⟨_, rfl⟩

theorem compareLe_fits (left : a.hasInference = false) (right : b.hasInference = false)
    (fits : a.Fits) (fits' : b.Fits) : ∃ r, a.compareLe b = .ok (.decided r) := by
  obtain ⟨r, done⟩ := closedLe_fits left right fits fits'
  by_cases same : a = b
  · exact ⟨true, if_pos same⟩
  cases b with
  | infinity => exact ⟨true, if_neg same⟩
  | _ =>
      cases a with
      | infinity => exact ⟨false, by simp [compareLe, right]⟩
      | _ => exact ⟨r, by simp [compareLe, same, left, right, done]⟩

/-- A line whose cap matters shows its cap at zero. -/
theorem cap_of_least {c : Int} {m n : Option Int} (left : ∀ k, m = some k → c < k)
    (right : ∀ k, n = some k → c < k) (same : cappedInt c m = cappedInt c n) : m = n := by
  cases m with
  | none =>
      cases n with
      | none => rfl
      | some k =>
          have above := right k rfl
          simp only [cappedInt] at same
          omega
  | some j =>
      have above := left j rfl
      cases n with
      | none =>
          simp only [cappedInt] at same
          omega
      | some k =>
          have above' := right k rfl
          simp only [cappedInt] at same
          congr
          omega

theorem const_ne_line {c d : Int} {k : LevelKind} {n : Option Int} :
    ¬ ∀ p, (const c).under p = (shift (.param k) d n).under p := by
  intro same
  obtain ⟨t, exceeds⟩ := line_exceeds d c n
  have far := same fun _ => t
  rw [under_shift, under_const, WithTop.coe_inj] at far
  omega

theorem lines_of_different_parameters {c d : Int} {k l : LevelKind} {m n : Option Int}
    (different : k ≠ l) :
    ¬ ∀ p, (shift (.param k) c m).under p = (shift (.param l) d n).under p := by
  intro same
  obtain ⟨t, exceeds⟩ := line_exceeds c (cappedInt d n) m
  have far := same fun i => if i = k then t else 0
  simp only [under_shift, LevelVar.kind, different.symm, if_true, if_false, WithTop.coe_inj,
    Nat.cast_zero, zero_add] at far
  omega

/-- Canonical levels with the same values at all level parameters are the same. -/
theorem Canonical.eq_of_under (left : a.Canonical) (right : b.Canonical)
    (closed : a.hasInference = false) (closed' : b.hasInference = false)
    (same : ∀ p, a.under p = b.under p) : a = b := by
  by_cases top : b = infinity
  · subst top
    by_contra finite
    exact finite_under finite (fun _ => 0) (same _)
  by_cases top' : a = infinity
  · subst top'
    exact (finite_under top (fun _ => 0) (same _).symm).elim
  cases a with
  | infinity => exact absurd rfl top'
  | const c =>
      cases b with
      | infinity => exact absurd rfl top
      | const d =>
          have here := same fun _ => 0
          rw [under_const, under_const, WithTop.coe_inj] at here
          rw [here]
      | shift y d n =>
          cases y with
          | infer id k => cases closed'
          | param k => exact (const_ne_line same).elim
  | shift x c m =>
      cases x with
      | infer id k => cases closed
      | param k =>
          cases b with
          | infinity => exact absurd rfl top
          | const d => exact (const_ne_line fun p => (same p).symm).elim
          | shift y d n =>
              cases y with
              | infer id l => cases closed'
              | param l =>
                  by_cases different : k = l
                  · subst different
                    -- the offsets show far out, and then the caps show at zero
                    have lines : ∀ t : Nat, cappedInt (t + c) m = cappedInt (t + d) n := by
                      intro t
                      have here := same fun _ => t
                      rwa [under_shift, under_shift, WithTop.coe_inj] at here
                    obtain ⟨upper, -⟩ := (lines_le_iff c d m n).mp fun t => (lines t).le
                    obtain ⟨lower, -⟩ := (lines_le_iff d c n m).mp fun t => (lines t).ge
                    obtain rfl : c = d := le_antisymm upper lower
                    have caps : m = n := by
                      apply cap_of_least
                      · rintro j rfl
                        simpa [LevelVar.floor] using left.matters
                      · rintro j rfl
                        simpa [LevelVar.floor] using right.matters
                      · simpa using lines 0
                    rw [caps]
                  · exact (lines_of_different_parameters different same).elim

theorem holds_le_fits (left : a.hasInference = false) (right : b.hasInference = false)
    (fits : a.Fits) (fits' : b.Fits) :
    ∃ r, a.holds b .le = .ok r ∧ a.compareLe b = .ok (.decided r) := by
  obtain ⟨r, done⟩ := compareLe_fits left right fits fits'
  refine ⟨r, ?_, done⟩
  simp only [holds, compare, done]
  rfl

theorem holds_of_under (left : a.hasInference = false) (right : b.hasInference = false)
    (fits : a.Fits) (fits' : b.Fits) (below : ∀ q, a.under q ≤ b.under q) :
    a.holds b .le = .ok true := by
  obtain ⟨r, compared, _⟩ := holds_le_fits left right fits fits'
  rw [compared, (holds_iff left right compared).mpr below]

/-- **Comparing levels decides the order of their values.** Two levels without inferred variables
    are compared without fail; the first is found to be no greater just if it has no greater value at
    any level parameters, both are found to be equal just if they have the same values, and then they
    are one level. -/
theorem Made.compare_decides (left : a.Made) (right : b.Made) (closed : a.hasInference = false)
    (closed' : b.hasInference = false) :
    (∃ r, a.holds b .le = .ok r ∧ (r = true ↔ ∀ p, a.under p ≤ b.under p)) ∧
    (∃ r, a.holds b .eq = .ok r ∧ (r = true ↔ ∀ p, a.under p = b.under p)) ∧
    ((∀ p, a.under p = b.under p) → a = b) := by
  obtain ⟨u, holds, decided⟩ :=
    holds_le_fits closed closed' left.canonical.fits right.canonical.fits
  obtain ⟨v, holds', decided'⟩ :=
    holds_le_fits closed' closed right.canonical.fits left.canonical.fits
  have below := holds_iff closed closed' holds
  have above := holds_iff closed' closed holds'
  refine ⟨⟨u, holds, below⟩, ?_, left.canonical.eq_of_under right.canonical closed closed'⟩
  by_cases same : a = b
  · subst same
    exact ⟨true, by simp only [Level.holds, compare, if_true]; rfl, by simp⟩
  · refine ⟨u && v, ?_, ?_⟩
    · simp only [Level.holds, compare, same, closed, closed', decided]
      cases u with
      | false => rfl
      | true =>
          simp only [decided']
          rfl
    · rw [Bool.and_eq_true, below, above, ← forall_and]
      exact forall_congr' fun p => antisymm_iff

/-- The cap of max(\lp + 1, 0) never matters, the one of max(\lp + 1, 2) does. -/
theorem raised_compare :
    (∃ r, (shift (.param .predicative) 1 none).holds
        (shift (.param .predicative) 1 (some 2)) .le = .ok r ∧
      (r = true ↔ ∀ p, (shift (.param .predicative) 1 none).under p ≤
        (shift (.param .predicative) 1 (some 2)).under p)) ∧
    (∃ r, (shift (.param .predicative) 1 none).holds
        (shift (.param .predicative) 1 (some 2)) .eq = .ok r ∧
      (r = true ↔ ∀ p, (shift (.param .predicative) 1 none).under p =
        (shift (.param .predicative) 1 (some 2)).under p)) ∧
    ((∀ p, (shift (.param .predicative) 1 none).under p =
        (shift (.param .predicative) 1 (some 2)).under p) →
      shift (.param .predicative) 1 none = shift (.param .predicative) 1 (some 2)) :=
  Made.compare_decides
    (.make (x := .param .predicative) (c := 1) (m := some 0) rfl
      (fun _ same => by cases same; rfl) rfl)
    (.max (.add (n := 1) (.ofVar (.param .predicative)) rfl) (.const (c := 2) rfl) rfl) rfl rfl

end Comparison

end Level

end PathTheory
