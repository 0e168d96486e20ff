import PathTheory.Proofs.Level.Canonical
/-!
What the operations on levels do to values. Adding a number adds it to every value, and a maximum has
the greater of both values. Over one level parameter a maximum always exists, and it stays over that
parameter and within the 32-bit integers.
-/
namespace PathTheory

namespace Level

variable {a b c : Level} {k : LevelKind} {n : Int} {ν : LevelVar → WithTop Int}

theorem capped_add (w : WithTop Int) (m : Option Int) (n : Int) :
    capped w m + n = capped (w + n) (m.map (· + n)) := by
  cases m with
  | none => rfl
  | some m => simp only [capped, Option.map_some, WithTop.coe_add, max_add]

theorem le_capped (w : WithTop Int) (m : Option Int) : w ≤ capped w m := by
  cases m with
  | none => exact le_rfl
  | some m => exact le_max_left _ _

theorem add_value (floor : ∀ x : LevelVar, (x.floor : WithTop Int) ≤ ν x)
    (done : a.add n = .ok b) : b.value ν = a.value ν + n := by
  cases a with
  | infinity =>
      cases done
      rfl
  | const d =>
      obtain ⟨e, sum, kept⟩ := bind_ok done
      cases kept
      exact add_ok_value sum
  | shift x d m =>
      cases m with
      | none =>
          obtain ⟨e, sum, made⟩ := bind_ok done
          rw [make_value (m := none) (floor x) made, add_ok_value sum, value, capped_add, ← add_assoc]
          rfl
      | some m =>
          obtain ⟨e, sum, next⟩ := bind_ok done
          obtain ⟨l, moved, made⟩ := bind_ok next
          rw [make_value (floor x) made, add_ok_value sum, Bounded.add_ok moved, value, capped_add,
            ← add_assoc]
          rfl

/-- A constant under a line is one more cap. -/
theorem capped_const (w : WithTop Int) (m : Option Int) (d : Int) :
    capped w (maxCap m (some d)) = max (capped w m) d := by
  rw [capped_maxCap, capped, ← max_assoc, max_eq_left (le_capped w m)]

/-- Lines over one variable have the line of the greater offset under both caps. -/
theorem capped_lines (w : WithTop Int) (d e : Int) (m l : Option Int) :
    capped (w + (max d e : Int)) (maxCap m l) = max (capped (w + d) m) (capped (w + e) l) := by
  rw [WithTop.coe_max, ← max_add_add_left]
  cases m with
  | none =>
      cases l with
      | none => rfl
      | some j => exact max_assoc _ _ _
  | some i =>
      cases l with
      | none => exact max_right_comm _ _ _
      | some j =>
          simp only [maxCap, capped, WithTop.coe_max]
          exact max_max_max_comm _ _ _ _

theorem max_value (floor : ∀ x : LevelVar, (x.floor : WithTop Int) ≤ ν x)
    (done : a.max? b = .ok (some c)) : c.value ν = max (a.value ν) (b.value ν) := by
  cases a with
  | infinity =>
      cases done
      exact (max_eq_left le_top).symm
  | const d =>
      cases b with
      | infinity =>
          cases done
          exact (max_eq_right le_top).symm
      | const e =>
          cases done
          exact WithTop.coe_max d e
      | shift y e l =>
          obtain ⟨r, made, kept⟩ := bind_ok done
          cases kept
          rw [make_value (floor y) made, capped_const, max_comm]
          rfl
  | shift x d m =>
      cases b with
      | infinity =>
          cases done
          exact (max_eq_right le_top).symm
      | const e =>
          obtain ⟨r, made, kept⟩ := bind_ok done
          cases kept
          rw [make_value (floor x) made, capped_const]
          rfl
      | shift y e l =>
          simp only [max?] at done
          by_cases same : x = y
          · subst same
            rw [if_pos rfl] at done
            obtain ⟨r, made, kept⟩ := bind_ok done
            cases kept
            rw [make_value (floor x) made, capped_lines]
            rfl
          · rw [if_neg same] at done
            cases done

theorem add_under (done : a.add n = .ok b) (p : LevelKind → Nat) : b.under p = a.under p + n :=
  add_value (fun x => x.floor_le p) done

theorem max_under (done : a.max? b = .ok (some c)) (p : LevelKind → Nat) :
    c.under p = max (a.under p) (b.under p) :=
  max_value (fun x => x.floor_le p) done

/-- One parameter is enough to write the maximum of two levels over it. -/
theorem max_defined (left : a.Over k) (right : b.Over k) (leftFits : a.Fits) (rightFits : b.Fits) :
    ∃ c, a.max? b = .ok (some c) ∧ c.Over k ∧ c.Fits := by
  have ends : ∀ {e : Int} {m : Option Int}, (shift (.param k) e m).Fits →
      ∃ c, make (.param k) e m = .ok c ∧ c.Over k := by
    intro e m fits
    obtain ⟨c, made, _⟩ := make_param_fits fits
    obtain ⟨_, isVar⟩ := slope_make made
    refine ⟨c, made, fun x isVar' => ?_⟩
    rw [isVar] at isVar'
    exact (Option.some.inj isVar').symm
  have defined : ∃ c, a.max? b = .ok (some c) ∧ c.Over k := by
    cases a with
    | infinity => exact ⟨infinity, rfl, nofun⟩
    | const d =>
        cases b with
        | infinity => exact ⟨infinity, rfl, nofun⟩
        | const e => exact ⟨const (max d e), rfl, nofun⟩
        | shift y e l =>
            obtain rfl := right y rfl
            have caps := maxCap_fits rightFits.2 (l := some d) (by rintro _ ⟨⟩; exact leftFits)
            obtain ⟨c, made, within⟩ := ends ⟨rightFits.1, caps⟩
            exact ⟨c, by simp only [max?, made]; rfl, within⟩
    | shift x d m =>
        obtain rfl := left x rfl
        cases b with
        | infinity => exact ⟨infinity, rfl, nofun⟩
        | const e =>
            have caps := maxCap_fits leftFits.2 (l := some e) (by rintro _ ⟨⟩; exact rightFits)
            obtain ⟨c, made, within⟩ := ends ⟨leftFits.1, caps⟩
            exact ⟨c, by simp only [max?, made]; rfl, within⟩
        | shift y e l =>
            obtain rfl := right y rfl
            obtain ⟨c, made, within⟩ := ends ⟨max_fits leftFits.1 rightFits.1,
              maxCap_fits leftFits.2 rightFits.2⟩
            exact ⟨c, by simp only [max?, if_true, made]; rfl, within⟩
  obtain ⟨c, done, within⟩ := defined
  exact ⟨c, done, within, (canonical_max leftFits rightFits done).fits⟩

theorem add_over (isOver : a.Over k) (done : a.add n = .ok b) : b.Over k := by
  cases a with
  | infinity =>
      cases done
      exact nofun
  | const d =>
      obtain ⟨e, _, kept⟩ := bind_ok done
      cases kept
      exact nofun
  | shift x d m =>
      obtain rfl := isOver x rfl
      have made : ∃ e l, make (.param k) e l = .ok b := by
        cases m with
        | none =>
            obtain ⟨e, _, made⟩ := bind_ok done
            exact ⟨e, none, made⟩
        | some m =>
            obtain ⟨e, _, next⟩ := bind_ok done
            obtain ⟨l, _, made⟩ := bind_ok next
            exact ⟨e, some l, made⟩
      obtain ⟨e, l, made⟩ := made
      intro y isVar
      rw [(slope_make made).2] at isVar
      exact (Option.some.inj isVar).symm

/-- All constants are under the greatest 32-bit integer. -/
def Room : Level → Prop
  | const c => c < Bounded.greatest
  | shift _ c m => c < Bounded.greatest ∧ ∀ n, m = some n → n < Bounded.greatest
  | infinity => True

theorem fits_succ (fits : Bounded.fits n = true) (room : n < Bounded.greatest) :
    Bounded.fits (n + 1) = true := by
  obtain ⟨least, _⟩ : Bounded.least ≤ n ∧ n ≤ Bounded.greatest := by simpa [Bounded.fits] using fits
  have both : Bounded.least ≤ n + 1 ∧ n + 1 ≤ Bounded.greatest := ⟨by omega, by omega⟩
  simpa [Bounded.fits] using both

theorem succ_defined (isOver : a.Over k) (fits : a.Fits) (room : a.Room) :
    ∃ b, a.succ = .ok b := by
  cases a with
  | infinity => exact ⟨infinity, rfl⟩
  | const d =>
      exact ⟨const (d + 1), by simp only [succ, add, add_fits (fits_succ fits room)]; rfl⟩
  | shift x d m =>
      obtain rfl := isOver x rfl
      have offset := add_fits (fits_succ fits.1 room.1)
      cases m with
      | none => exact ⟨shift (.param k) (d + 1) none, by simp only [succ, add, offset]; rfl⟩
      | some m =>
          have cap := fits_succ (fits.2 m rfl) (room.2 m rfl)
          obtain ⟨b, made, _⟩ := make_param_fits (k := k) (m := some (m + 1))
            ⟨fits_succ fits.1 room.1, by rintro _ ⟨⟩; exact cap⟩
          exact ⟨b, by simp only [succ, add, offset, add_fits cap]; exact made⟩

end Level

end PathTheory
