import PathTheory.Proofs.Level.Operations
/-!
Levels mean what the operations on them say. An operation forms a few sums: if all of them are 32-bit
integers it has a result, whose value is known at all values of the variables from their floors on, and
otherwise it overflows. A substitution may put in values below the floor of a variable; what counts for
it is the level as it stands, without the caps that were left out when it was made.
-/
namespace PathTheory

/-- If all sums are 32-bit integers there is a result, and it has the property; otherwise the
    computation overflows. -/
def Forms {α : Type} (sums : List Int) (a : Checked α) (P : α → Prop) : Prop :=
  if ∀ n ∈ sums, Bounded.fits n = true then ∃ x, a = .ok x ∧ P x else a = .error .addOverflow

namespace Forms

variable {α β : Type} {sums others : List Int} {a : Checked α} {f : α → Checked β}
  {P : α → Prop} {Q : β → Prop}

theorem ok {x : α} (holds : P x) : Forms [] (.ok x) P := by
  unfold Forms
  rw [if_pos (List.forall_mem_nil _)]
  exact ⟨x, rfl, holds⟩

theorem add (n k : Int) : Forms [n + k] (Bounded.add n k) (· = n + k) := by
  unfold Forms Bounded.add
  simp only [List.forall_mem_singleton]
  split
  · exact ⟨n + k, rfl, rfl⟩
  · rfl

theorem bind (first : Forms sums a P) (next : ∀ x, P x → Forms others (f x) Q) :
    Forms (sums ++ others) (a >>= f) Q := by
  unfold Forms at first next ⊢
  simp only [List.forall_mem_append]
  by_cases fit : ∀ n ∈ sums, Bounded.fits n = true
  · rw [if_pos fit] at first
    obtain ⟨x, rfl, holds⟩ := first
    have goesOn : (Except.ok x >>= f : Checked β) = f x := rfl
    rw [goesOn]
    simpa only [and_iff_right fit] using next x holds
  · rw [if_neg fit] at first
    rw [if_neg fun both => fit both.1, first]
    rfl

/-- No sum is formed after these. -/
theorem last (first : Forms sums a P) (next : ∀ x, P x → Forms [] (f x) Q) :
    Forms sums (a >>= f) Q := by
  rw [← List.append_nil sums]
  exact first.bind next

/-- What holds of every result holds of the one that there is. -/
theorem always {R : α → Prop} (forms : Forms sums a P) (holds : ∀ x, P x → a = .ok x → R x) :
    Forms sums a R := by
  unfold Forms at forms ⊢
  split at forms
  · rename_i fit
    obtain ⟨x, done, known⟩ := forms
    rw [if_pos fit]
    exact ⟨x, done, holds x known done⟩
  · rename_i misfit
    rw [if_neg misfit]
    exact forms

end Forms

namespace Level

section Sums

/-- A cap is compared with the rest at the floor of the variable. -/
def capSums (x : LevelVar) (c : Int) (m : Option Int) : List Int := m.toList.map fun _ => x.floor + c

def addSums (n : Int) : Level → List Int
  | const c => [c + n]
  | shift x c m => [c + n] ++ (m.toList.map (· + n) ++ capSums x (c + n) (m.map (· + n)))
  | infinity => []

def maxSums : Level → Level → List Int
  | shift x c m, const k | const k, shift x c m => capSums x c (maxCap m (some k))
  | shift x c m, shift y d l => if x = y then capSums x (max c d) (maxCap m l) else []
  | _, _ => []

def substSums (f : LevelVar → Option Level) : Level → List Int
  | shift x c m => match f x with
    | some (const d) => [d + c]
    | some (shift y d l) =>
        l.toList.map (· + c) ++ ([d + c] ++ capSums y (d + c) (maxCap (l.map (· + c)) m))
    | _ => []
  | _ => []

variable {a b : Level} {n : Int}

theorem make_forms (x : LevelVar) (c : Int) (m : Option Int) :
    Forms (capSums x c m) (make x c m) fun _ => True := by
  cases m with
  | none => exact .ok trivial
  | some m => exact (Forms.add _ _).last fun _ _ => .ok trivial

theorem add_forms (a : Level) (n : Int) : Forms (a.addSums n) (a.add n) fun _ => True := by
  cases a with
  | infinity => exact .ok trivial
  | const c => exact (Forms.add _ _).last fun _ _ => .ok trivial
  | shift x c m =>
      cases m with
      | none =>
          refine (Forms.add c n).bind fun e sum => ?_
          subst sum
          exact make_forms x (c + n) none
      | some m =>
          refine (Forms.add c n).bind fun e sum => (Forms.add m n).bind fun l moved => ?_
          subst sum moved
          exact make_forms x (c + n) (some (m + n))

/-- Two finite levels over different variables. -/
def Apart (a b : Level) : Prop := ∃ x y, a.var? = some x ∧ b.var? = some y ∧ x ≠ y

theorem max_forms (a b : Level) :
    Forms (a.maxSums b) (a.max? b) fun o => o = none ↔ a.Apart b := by
  have joined : a.var? = none ∨ b.var? = none → ¬ a.Apart b := by
    rintro none ⟨x, y, left, right, _⟩
    rcases none with none | none
    · cases none.symm.trans left
    · cases none.symm.trans right
  have made : ∀ (x : LevelVar) (c : Int) (m : Option Int), ¬ a.Apart b →
      Forms (capSums x c m) (do return some (← make x c m)) fun o => o = none ↔ a.Apart b := by
    intro x c m joined
    exact (make_forms x c m).last fun l _ => .ok ⟨nofun, fun apart => absurd apart joined⟩
  cases a with
  | infinity => exact .ok ⟨nofun, fun apart => absurd apart (joined (.inl rfl))⟩
  | const d =>
      cases b with
      | infinity => exact .ok ⟨nofun, fun apart => absurd apart (joined (.inl rfl))⟩
      | const e => exact .ok ⟨nofun, fun apart => absurd apart (joined (.inl rfl))⟩
      | shift y e l => exact made y e (maxCap l (some d)) (joined (.inl rfl))
  | shift x d m =>
      cases b with
      | infinity => exact .ok ⟨nofun, fun apart => absurd apart (joined (.inr rfl))⟩
      | const e => exact made x d (maxCap m (some e)) (joined (.inr rfl))
      | shift y e l =>
          by_cases same : x = y
          · simp only [maxSums, max?, if_pos same]
            refine made x (max d e) (maxCap m l) ?_
            rintro ⟨_, _, ⟨⟩, ⟨⟩, differ⟩
            exact differ same
          · simp only [maxSums, max?, if_neg same]
            exact .ok ⟨fun _ => ⟨x, y, rfl, rfl, same⟩, fun _ => rfl⟩

theorem subst_forms (f : LevelVar → Option Level) (a : Level) :
    Forms (a.substSums f) (a.subst f) fun _ => True := by
  cases a with
  | infinity => exact .ok trivial
  | const c => exact .ok trivial
  | shift x c m =>
      simp only [substSums, subst]
      cases f x with
      | none => exact .ok trivial
      | some r =>
          cases r with
          | infinity => exact .ok trivial
          | const d => exact (Forms.add _ _).last fun _ _ => .ok trivial
          | shift y d l =>
              cases l with
              | none =>
                  refine (Forms.ok (P := (· = none)) rfl).bind fun o none => ?_
                  subst none
                  refine (Forms.add d c).bind fun e sum => ?_
                  subst sum
                  exact make_forms y (d + c) (maxCap none m)
              | some l =>
                  have moved : Forms [l + c] (some <$> Bounded.add l c) (· = some (l + c)) :=
                    (Forms.add l c).last fun e sum => .ok (congrArg some sum)
                  refine moved.bind fun o cap => ?_
                  subst cap
                  refine (Forms.add d c).bind fun e sum => ?_
                  subst sum
                  exact make_forms y (d + c) (maxCap (some (l + c)) m)

end Sums

/-- **Denotation.** At all values of the variables from their floors on: a level made of a variable, a
    constant and a cap has the greater of the shifted variable and the cap, though the cap may be left
    out; adding a number adds it; a maximum is there unless both levels are finite and over different
    variables, and is the greater value; and a substitution gives the value that the level has where
    every replaced variable has the value of its replacement, however low or high that is. If the
    replacement is not below the floor of the variable, that holds with a cap that was left out as
    well. There is a result unless one of the sums is no 32-bit integer. -/
theorem operations_denote (ν : LevelVar → WithTop Int)
    (floor : ∀ x : LevelVar, (x.floor : WithTop Int) ≤ ν x) :
    (∀ x c m, Forms (capSums x c m) (make x c m) fun a => a.value ν = capped (ν x + c) m) ∧
    (∀ a n, Forms (addSums n a) (a.add n) fun b => b.value ν = a.value ν + n) ∧
    (∀ a b, Forms (maxSums a b) (a.max? b) fun o => (o = none ↔ a.Apart b) ∧
      ∀ c, o = some c → c.value ν = max (a.value ν) (b.value ν)) ∧
    (∀ f a, Forms (substSums f a) (a.subst f) fun b => b.value ν = a.value (substituted f ν)) ∧
    ∀ f x c m, (x.floor : WithTop Int) ≤ substituted f ν x → ∀ a b, make x c m = .ok a →
      a.subst f = .ok b → b.value ν = capped (substituted f ν x + c) m := by
  refine ⟨fun x c m => ?_, fun a n => ?_, fun a b => ?_, fun f a => ?_, ?_⟩
  · exact (make_forms x c m).always fun a _ done => make_value (floor x) done
  · exact (add_forms a n).always fun b _ done => add_value floor done
  · refine (max_forms a b).always fun o apart done => ⟨apart, fun c isMax => ?_⟩
    exact max_value floor (isMax ▸ done)
  · exact (subst_forms f a).always fun b _ done => subst_value floor done
  · intro f x c m above a b made done
    rw [subst_value floor done, make_value above made]

/-- Every variable at its floor. -/
def atFloors (x : LevelVar) : WithTop Int := x.floor

/-- An inferred level under a cap becomes a shifted parameter under another one; and a level whose cap
    was left out becomes a constant. -/
theorem atFloors_denote : (∀ x : LevelVar, (x.floor : WithTop Int) ≤ atFloors x) ∧
    (∃ b, (shift (.infer 0 .homotopy) 1 (some 2)).subst
      (fun _ => some (shift (.param .predicative) 3 (some 5))) = .ok b ∧ b.value atFloors = 6) ∧
    ∃ a b, make (.infer 0 .homotopy) 0 (some (-1)) = .ok a ∧ a.subst (fun _ => some (const 4)) = .ok b ∧
      ((LevelVar.infer 0 .homotopy).floor : WithTop Int) ≤
        substituted (fun _ => some (const 4)) atFloors (.infer 0 .homotopy) ∧
      b.value atFloors = 4 := by
  obtain ⟨_, _, _, substitutes, makes⟩ := operations_denote atFloors fun _ => le_rfl
  have replaced := substitutes (fun _ => some (shift (.param .predicative) 3 (some 5)))
    (shift (.infer 0 .homotopy) 1 (some 2))
  unfold Forms at replaced
  rw [if_pos (by decide)] at replaced
  obtain ⟨b, done, same⟩ := replaced
  have above : ((LevelVar.infer 0 .homotopy).floor : WithTop Int) ≤
      substituted (fun _ => some (const 4)) atFloors (.infer 0 .homotopy) := by decide
  have lowest := makes (fun _ => some (const 4)) (.infer 0 .homotopy) 0 (some (-1)) above _ _ rfl rfl
  refine ⟨fun _ => le_rfl, ⟨b, done, same.trans ?_⟩, _, _, rfl, rfl, above, lowest.trans ?_⟩
  · decide
  · decide

end Level

end PathTheory
