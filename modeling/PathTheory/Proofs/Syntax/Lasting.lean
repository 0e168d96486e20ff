import PathTheory.Proofs.Syntax.Substitution
import PathTheory.Term.Text
/-!
Only what takes fuel can run out of it. Levels, universes and texts have faults of their own, and a
substitution that leaves metavariables alone has no others than those of the levels.
-/
namespace PathTheory

/-- It does not run out of fuel; there may be another fault. -/
def Checked.Lasts {α : Type} (a : Checked α) : Prop := a ≠ .error .outOfFuel

def Fresh.Lasts {α : Type} (a : Fresh α) : Prop := ∀ n, Checked.Lasts (a n)

namespace Checked.Lasts

variable {α β : Type} {a : Checked α}

theorem ok {x : α} : Checked.Lasts (.ok x) := nofun

theorem bind {f : α → Checked β} (first : a.Lasts) (next : ∀ x, a = .ok x → (f x).Lasts) :
    Checked.Lasts (a >>= f) := by
  cases a with
  | error fault => exact fun out => first (congrArg _ (Except.error.inj out))
  | ok x => exact next x rfl

theorem map {f : α → β} (first : a.Lasts) : Checked.Lasts (f <$> a) := by
  cases a with
  | error fault => exact fun out => first (congrArg _ (Except.error.inj out))
  | ok x => exact .ok

end Checked.Lasts

namespace Fresh.Lasts

variable {α β : Type} {a : Fresh α}

theorem pure {x : α} : Fresh.Lasts (pure x) := fun _ => .ok

theorem bind {f : α → Fresh β} (first : a.Lasts) (next : ∀ x, (f x).Lasts) :
    Fresh.Lasts (a >>= f) := fun n => (first n).bind fun r _ => next r.1 r.2

theorem lift {a : Checked α} (lasts : a.Lasts) : Fresh.Lasts (liftM a) :=
  fun _ => lasts.bind fun _ _ => .ok

theorem mapM {γ : Type} {f : γ → Fresh β} (l : List γ) (each : ∀ c ∈ l, (f c).Lasts) :
    Fresh.Lasts (l.mapM f) := by
  induction l with
  | nil =>
      rw [List.mapM_nil]
      exact .pure
  | cons c l ih =>
      rw [List.mapM_cons]
      obtain ⟨here, others⟩ := List.forall_mem_cons.mp each
      exact .bind here fun _ => .bind (ih others) fun _ => .pure

end Fresh.Lasts

section Levels

theorem Bounded.add_lasts (a b : Int) : (Bounded.add a b).Lasts := by
  unfold Bounded.add
  split <;> nofun

theorem Bounded.neg_lasts (a : Int) : (Bounded.neg a).Lasts := by
  unfold Bounded.neg
  split <;> nofun

namespace Level

theorem make_lasts (x : LevelVar) (c : Int) (m : Option Int) : (make x c m).Lasts := by
  cases m with
  | none => exact .ok
  | some m => exact (Bounded.add_lasts _ _).bind fun _ _ => .ok

theorem valueAt_lasts (x : Int) (a : Level) : (a.valueAt x).Lasts := by
  cases a with
  | const c => exact .ok
  | infinity => exact .ok
  | shift y c m => cases m <;> exact (Bounded.add_lasts _ _).bind fun _ _ => .ok

theorem subst_lasts (f : LevelVar → Option Level) (a : Level) : (a.subst f).Lasts := by
  cases a with
  | const c => exact .ok
  | infinity => exact .ok
  | shift x c m =>
      have shifted : ∀ (y : LevelVar) (d : Int) (m : Option Int),
          Checked.Lasts (do make y (← Bounded.add d c) m) := fun _ _ _ =>
        (Bounded.add_lasts _ _).bind fun _ _ => make_lasts _ _ _
      simp only [subst]
      cases f x with
      | none => exact .ok
      | some r =>
          match r with
          | infinity => exact .ok
          | const d => exact (Bounded.add_lasts _ _).bind fun _ _ => .ok
          | shift y d none => exact shifted y d _
          | shift y d (some l) =>
              exact (Bounded.add_lasts _ _).map.bind fun _ _ => shifted y d _

theorem closedLe_lasts (a b : Level) : (a.closedLe b).Lasts := by
  unfold closedLe
  split
  · exact .ok
  · split
    · exact .ok
    · refine (valueAt_lasts _ _).bind fun u _ => (valueAt_lasts _ _).bind fun v _ => ?_
      cases u <;> cases v <;> exact .ok

theorem compareLe_lasts (a b : Level) : (a.compareLe b).Lasts := by
  unfold compareLe
  split
  · exact .ok
  · split
    · exact .ok
    · exact .ok
    · split
      · exact .ok
      · exact (closedLe_lasts a b).map

theorem text_lasts (a : Level) : a.text.Lasts := by
  cases a with
  | const c => exact .ok
  | infinity => exact .ok
  | shift x c m =>
      simp only [text]
      split
      · exact .ok
      · split
        · exact .ok
        · exact (Bounded.neg_lasts c).bind fun _ _ => .ok

end Level

namespace Universe

theorem make_lasts (p h : Level) : (make p h).Lasts := by
  unfold make
  split <;> nofun

theorem subst_lasts (f : LevelVar → Option Level) (u : Universe) : (u.subst f).Lasts :=
  (Level.subst_lasts f u.p).bind fun _ _ => (Level.subst_lasts f u.h).bind fun _ _ =>
    make_lasts _ _

theorem text_lasts (u : Universe) : u.text.Lasts := by
  unfold text
  split
  · exact .ok
  · split
    · exact .ok
    · exact (Level.text_lasts _).bind fun _ _ => .ok
    · exact (Level.text_lasts _).bind fun _ _ => (Level.text_lasts _).bind fun _ _ => .ok

end Universe

end Levels

section Texts

mutual

theorem Term.text_lasts : ∀ t : Term, t.text.Lasts
  | .ref _ | .hole _ | .error _ _ => .ok
  | .lam _ _ a b | .pi _ _ a b | .app a b =>
      a.text_lasts.bind fun _ _ => b.text_lasts.bind fun _ _ => .ok
  | .sigma params => (componentsText_lasts params).bind fun _ _ => .ok
  | .tuple components _ => (termTexts_lasts components).bind fun _ _ => .ok
  | .proj a _ | .field _ _ a | .new a => a.text_lasts.bind fun _ _ => .ok
  | .univ u => u.text_lasts
  | .call _ _ args | .con _ _ _ args | .data _ _ args =>
      (argumentsText_lasts args).bind fun _ _ => .ok
  | .record _ _ fields => by
      unfold Term.text
      split
      · exact .ok
      · exact (fieldsText_lasts fields).bind fun _ _ => .ok
  | .caseOf args _ result _ =>
      (termTexts_lasts args).bind fun _ _ => result.text_lasts.bind fun _ _ => .ok

theorem termTexts_lasts : ∀ l : List Term, (termTexts l).Lasts
  | [] => .ok
  | a :: rest => a.text_lasts.bind fun _ _ => (termTexts_lasts rest).bind fun _ _ => .ok

theorem argumentsText_lasts : ∀ l : List Term, (argumentsText l).Lasts
  | [] => .ok
  | a :: rest => a.text_lasts.bind fun _ _ => (argumentsText_lasts rest).bind fun _ _ => .ok

theorem componentsText_lasts : ∀ l : List (Binding Term), (componentsText l).Lasts
  | [] => .ok
  | ⟨_, _, a⟩ :: rest => a.text_lasts.bind fun _ _ => (componentsText_lasts rest).bind fun _ _ => .ok

theorem fieldsText_lasts : ∀ l : List (DefId × Term), (fieldsText l).Lasts
  | [] => .ok
  | (_, a) :: rest => a.text_lasts.bind fun _ _ => (fieldsText_lasts rest).bind fun _ _ => .ok

end

end Texts

section Substitution

variable {s : Subst} {rule : HoleRule}

theorem Subst.sort_lasts (s : Subst) (u : Universe) : (s.sort u).Lasts := by
  unfold Subst.sort
  split
  · exact .ok
  · exact u.subst_lasts _

theorem Label.mapM_lasts (s : Subst) (l : Label) : (l.mapM s.sort).Lasts := by
  cases l <;> first | exact .ok | exact (s.sort_lasts _).bind fun _ _ => .ok

mutual

theorem Scoped.subst_lasts (plain : rule.Plain) : ∀ (t : Scoped) {s : Subst}, s.zonks = false →
    (t.subst rule s).Lasts
  | .var _, _, _ => .pure
  | .hole m, s, still => by
      unfold Scoped.subst
      split
      · exact .pure
      · rw [plain s m still]
        exact .bind .pure fun _ => .pure
  | .node l parts, s, still => by
      unfold Scoped.subst
      split
      · exact .pure
      · exact .bind (.lift (l.mapM_lasts s)) fun _ =>
          .bind (parts.subst_lasts plain still) fun _ => .pure

theorem Parts.subst_lasts (plain : rule.Plain) : ∀ (t : Parts) {s : Subst}, s.zonks = false →
    (t.subst rule s).Lasts
  | .nil, _, _ => .pure
  | .part t rest, _, still =>
      .bind (t.subst_lasts plain still) fun _ => .bind (rest.subst_lasts plain still) fun _ => .pure
  | .binder _ x rest, s, still => fun n => by
      have passes : (s.under x).Lasts := by
        unfold Subst.under
        split
        · exact .bind (fun _ => .ok) fun _ => .pure
        · exact .pure
      -- under a binder the substitution differs in its images only, so it still does not zonk
      refine (passes n).bind fun ⟨⟨y, inner⟩, m⟩ passed => ?_
      have same := (Subst.under_order passed).2
      exact Fresh.Lasts.bind (rest.subst_lasts plain (same.trans still)) (fun _ => .pure) m

end

theorem Subst.apply_lasts (still : s.zonks = false) (env : Environment) (t : Term) :
    (s.apply env t).Lasts := by
  intro n
  have lasts := t.toScoped.subst_lasts (rule_plain env) still n
  rw [Term.toScoped_subst] at lasts
  intro out
  refine lasts ?_
  change ((s.apply env t n) >>= fun r => pure (r.1.toScoped, r.2)) = _
  rw [out]
  rfl

end Substitution

end PathTheory
