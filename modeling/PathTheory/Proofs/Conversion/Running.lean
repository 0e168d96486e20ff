import PathTheory.Equation.Conversion
import PathTheory.Proofs.Conversion.Finished
/-!
Runs of the comparison that leave the metavariables alone. Binders passed stay in the context of the
store, so the context only grows; what a run says is asked for only where no variable has come into
the context twice.
-/
namespace PathTheory

/-- Old variables, and nothing left to inference. -/
structure Term.Ready (n : Nat) (t : Term) : Prop where
  below : t.Below n
  finished : t.reading.Finished fun _ => True

theorem Term.Ready.mono {n m : Nat} {t : Term} (ready : t.Ready n) (order : n ≤ m) : t.Ready m :=
  ⟨ready.below.mono order, ready.finished⟩

theorem Term.Ready.within {n : Nat} {t : Term} (ready : t.Ready n) : t.Within (fun _ => True) n :=
  ⟨ready.below, fun _ _ => trivial⟩

namespace Store

/-- The variables met and their types are old, and the types are finished. -/
structure Ready (s : Store) (n : Nat) : Prop where
  vars : ∀ e ∈ s.context, e.1.id < n
  types : ∀ e ∈ s.context, e.2.Ready n

theorem Ready.mono {s : Store} {n m : Nat} (ready : s.Ready n) (order : n ≤ m) : s.Ready m :=
  ⟨fun e member => (ready.vars e member).trans_le order,
    fun e member => (ready.types e member).mono order⟩

theorem Ready.lookup {s : Store} {n : Nat} (ready : s.Ready n) {x : Var} {type : Term}
    (found : s.context.lookup x = some type) : type.Ready n :=
  ready.types (x, type) (mem_of_lookup found)

def Grows (s s' : Store) : Prop := s.context <:+ s'.context

theorem Grows.refl (s : Store) : s.Grows s := List.suffix_rfl

theorem Grows.trans {s s' s'' : Store} (first : s.Grows s') (next : s'.Grows s'') : s.Grows s'' :=
  List.IsSuffix.trans first next

/-- No variable has come into the context twice. -/
def Apart (s : Store) : Prop := (s.context.map Prod.fst).Nodup

instance (s : Store) : Decidable s.Apart := inferInstanceAs (Decidable (List.Nodup _))

theorem Apart.earlier {s s' : Store} (apart : s'.Apart) (grows : s.Grows s') : s.Apart :=
  apart.sublist (grows.sublist.map Prod.fst)

end Store

namespace Unify

variable {α β : Type} {env : Environment} {s : Store} {n : Nat}

/-- If the computation ends, then with the same environment, a larger context, and a result of which
    this holds. -/
def Gives (env : Environment) (c : Unify α) (s : Store) (n : Nat)
    (Q : α → Store → Nat → Prop) : Prop :=
  ∀ x s' env' m, c s env n = .ok (((x, s'), env'), m) →
    env' = env ∧ n ≤ m ∧ s'.Ready m ∧ s.Grows s' ∧ Q x s' m

theorem bind_done {c : Unify α} {f : α → Unify β} {x : α} {s₁ : Store} {env₁ : Environment} {m : Nat}
    (done : c s env n = .ok (((x, s₁), env₁), m)) : (c >>= f) s env n = f x s₁ env₁ m := by
  change (c s env n >>= fun r => f r.1.1.1 r.1.1.2 r.1.2 r.2) = _
  rw [done]
  rfl

theorem reading_run (f : Environment → Fresh α) : Unify.reading f s env n =
    (f env n >>= fun r => .ok (((r.1, s), env), r.2)) := by
  change (((f env n >>= fun r => _) >>= fun r => _) : Checked _) = _
  cases f env n <;> rfl

theorem compareUniverses_run (u v : Universe) (cmp : Cmp) (span : Span) :
    compareUniverses u v cmp span s env n = (Universe.compare true u v cmp >>= fun c =>
      (recordDemands span c.demands >>= fun _ => pure c.holds : Unify Bool) s env n) := by
  unfold compareUniverses
  cases Universe.compare true u v cmp <;> rfl

namespace Gives

variable {c : Unify α} {f : α → Unify β} {P : α → Store → Nat → Prop} {Q : β → Store → Nat → Prop}

theorem pure {x : β} (ready : s.Ready n) (holds : Q x s n) : Gives env (pure x) s n Q := by
  intro y s' env' m done
  cases done
  exact ⟨rfl, Nat.le_refl n, ready, .refl s, holds⟩

theorem throw {fault : Fault} : Gives env (throw fault) s n Q := by
  intro y s' env' m impossible
  cases impossible

theorem bind (first : Gives env c s n P) (next : ∀ x s₁ m, n ≤ m → s₁.Ready m → s.Grows s₁ →
    P x s₁ m → Gives env (f x) s₁ m fun y s' k => s₁.Grows s' → Q y s' k) :
    Gives env (c >>= f) s n Q := by
  intro y s' env' k done
  obtain ⟨⟨⟨⟨x, s₁⟩, env₁⟩, m⟩, start, rest⟩ := bind_ok (a := c s env n) done
  obtain ⟨rfl, order, ready, grows, holds⟩ := first x s₁ env₁ m start
  obtain ⟨same, later, isReady, more, final⟩ := next x s₁ m order ready grows holds y s' env' k rest
  exact ⟨same, order.trans later, isReady, grows.trans more, final more⟩

theorem weaken {R : α → Store → Nat → Prop} (first : Gives env c s n P)
    (holds : ∀ x s' m, n ≤ m → s.Grows s' → P x s' m → R x s' m) : Gives env c s n R := by
  intro x s' env' m done
  obtain ⟨same, order, ready, grows, known⟩ := first x s' env' m done
  exact ⟨same, order, ready, grows, holds x s' m order grows known⟩

/-- The store at hand is looked at first. -/
theorem get {f : Store → Unify β} (next : Gives env (f s) s n Q) : Gives env (get >>= f) s n Q := next

/-- The environment at hand is looked at first. -/
theorem looking {f : Environment → Unify β} (next : Gives env (f env) s n Q) :
    Gives env (Unify.env >>= f) s n Q := next

theorem reading {f : Environment → Fresh α} {P : α → Nat → Prop} (ready : s.Ready n)
    (yields : Yields (f env) n P) :
    Gives env (Unify.reading f) s n fun x s' m => s' = s ∧ P x m := by
  intro x s' env' m done
  rw [reading_run] at done
  obtain ⟨r, first, same⟩ := bind_ok done
  cases same
  obtain ⟨order, holds⟩ := yields _ _ first
  exact ⟨rfl, order, ready.mono order, .refl s, rfl, holds⟩

theorem binder {x : Var} {type : Term} (ready : s.Ready n) (old : x.id < n)
    (isReady : type.Ready n) :
    Gives env (Unify.bind x type) s n fun _ s' _ => s'.context = (x, type) :: s.context := by
  intro y s' env' m done
  cases done
  refine ⟨rfl, Nat.le_refl n, ⟨?_, ?_⟩, List.suffix_cons _ _, rfl⟩
  · exact List.forall_mem_cons.mpr ⟨old, ready.vars⟩
  · exact List.forall_mem_cons.mpr ⟨isReady, ready.types⟩

theorem universes {u v : Universe} {cmp : Cmp} {span : Span} (ready : s.Ready n) :
    Gives env (compareUniverses u v cmp span) s n fun holds s' _ => s'.context = s.context ∧
      ∃ c, Universe.compare true u v cmp = .ok c ∧ holds = c.holds := by
  intro holds s' env' m done
  rw [compareUniverses_run] at done
  obtain ⟨c, compared, rest⟩ := bind_ok done
  cases rest
  exact ⟨rfl, Nat.le_refl n, ⟨ready.vars, ready.types⟩, List.suffix_rfl, rfl, c, compared, rfl⟩

end Gives

end Unify

end PathTheory
