import PathTheory.Environment
/-!
Runs that end with a value: what a sequence of computations says of its steps, and a lookup of its
list.
-/
namespace PathTheory

theorem mem_of_lookup {α β : Type} [BEq α] [LawfulBEq α] {l : List (α × β)} {a : α} {b : β}
    (found : l.lookup a = some b) : (a, b) ∈ l := by
  obtain ⟨before, after, split, _⟩ := List.lookup_eq_some_iff.mp found
  simp [split]

theorem bind_ok {α β : Type} {a : Checked α} {f : α → Checked β} {r : β}
    (done : (a >>= f) = .ok r) : ∃ x, a = .ok x ∧ f x = .ok r := by
  cases a with
  | error fault => cases done
  | ok x => exact ⟨x, rfl, done⟩

theorem map_ok {α β : Type} {a : Checked α} {f : α → β} {r : β} (done : f <$> a = .ok r) :
    ∃ x, a = .ok x ∧ f x = r := by
  cases a with
  | error fault => cases done
  | ok x => exact ⟨x, rfl, Except.ok.inj done⟩

section Fresh

variable {α β : Type} {n : Nat}

theorem fresh_bind {a : Fresh α} {f : α → Fresh β} {r : β × Nat}
    (done : (a >>= f) n = .ok r) : ∃ x m, a n = .ok (x, m) ∧ f x m = .ok r := by
  obtain ⟨⟨x, m⟩, first, rest⟩ := bind_ok (a := a n) done
  exact ⟨x, m, first, rest⟩

theorem fresh_map {a : Fresh α} {f : α → β} {r : β × Nat} (done : (f <$> a) n = .ok r) :
    ∃ x m, a n = .ok (x, m) ∧ r = (f x, m) := by
  obtain ⟨x, m, first, rest⟩ := fresh_bind (f := fun x => pure (f x)) done
  exact ⟨x, m, first, (Except.ok.inj rest).symm⟩

theorem fresh_map_of_ok {a : Fresh α} {x : α} {m : Nat} (done : a n = .ok (x, m)) (f : α → β) :
    (f <$> a) n = .ok (f x, m) := by
  change (a n >>= fun r => pure (f r.1, r.2)) = _
  rw [done]
  rfl

theorem fresh_then {a : Fresh α} {x : α} {m : Nat} (first : a n = .ok (x, m)) {f : α → Fresh β}
    {r : Checked (β × Nat)} (rest : f x m = r) : (a >>= f) n = r := by
  change (a n >>= fun r => f r.1 r.2) = _
  rw [first]
  exact rest

theorem fresh_pure {x : α} {r : α × Nat} (done : (pure x : Fresh α) n = .ok r) : r = (x, n) :=
  (Except.ok.inj done).symm

theorem fresh_lift {a : Checked α} {r : α × Nat} (done : (liftM a : Fresh α) n = .ok r) :
    ∃ x, a = .ok x ∧ r = (x, n) := by
  obtain ⟨x, first, rest⟩ := bind_ok (a := a) done
  exact ⟨x, first, (Except.ok.inj rest).symm⟩

end Fresh

end PathTheory
