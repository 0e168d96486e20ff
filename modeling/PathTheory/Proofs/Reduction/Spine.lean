import PathTheory.Proofs.Reduction.Reading
import PathTheory.Proofs.Reduction.Stuck
/-!
Terms in weak head normal form. The question whether a term is in that form goes down the spine of
applications, projections and fields and asks it of the head; reduction brings the same terms to weak
head normal form, but goes back to the term that it started from where nothing comes of it. So a term
may be left as it is although terms on its spine reduce.
-/
namespace PathTheory

namespace Term

/-- The term, what is applied, projected from or asked for a field in it, and so on to the head. -/
def spine : Term → List Term
  | app fn arg => app fn arg :: fn.spine
  | proj whole i => proj whole i :: whole.spine
  | field f u arg => field f u arg :: arg.spine
  | t => [t]

/-- A function that is applied, a tuple that is projected from, or an instance that is asked for a
    field, whether or not it has that component or field. -/
def isRedex : Term → Bool
  | app (lam _ _ _ _) _ | proj (tuple _ _) _ | field _ _ (new _) => true
  | _ => false

/-- Reduction ends at once. -/
def Rests (env : Environment) (n : Nat) (t : Term) : Prop := ∃ k, t.whnf env n = .ok (t, k)

/-- Neither the term nor one on its spine reduces or has the form of a redex. -/
def Settled (env : Environment) (n : Nat) (t : Term) : Prop :=
  ∀ u ∈ t.spine, u.Rests env n ∧ u.isRedex = false

theorem mem_spine (t : Term) : t ∈ t.spine := by
  cases t <;> exact List.mem_cons_self

end Term

section Steps

variable {env : Environment} {t v : Term} {n m : Nat}

/-- Where reduction ends, the first step does, and none happens just if reduction ends at once. -/
theorem Term.headStep?_of_whnf (known : env.Within (fun _ => True) n) (below : t.Below n)
    (done : t.whnf env n = .ok (v, m)) :
    ∃ o j, t.headStep? env n = .ok (o, j) ∧ (t.Rests env n ↔ o = none) := by
  have within : t.Within (fun _ => True) n := ⟨below, fun _ _ => trivial⟩
  have mirror (fuel : Nat) := headStep?_mirrors (whnfWith_within known fuel)
    (whnfWith_mirrors known fuel) known (Nat.le_refl n) within
  obtain ⟨_, ends, rfl⟩ := (whnfWith_mirrors known env.fuel t n (Nat.le_refl n) within).ok done
  -- a run looks inside terms with less than its fuel, and all of it finds the same
  obtain ⟨fuel, enough, last⟩ := whnfWith_last env ends
  rw [enough] at ends
  simp only [Nameless.whnfWith, Traced.result?_bind, Option.bind_eq_some_iff] at ends
  obtain ⟨y, stepped, rest⟩ := ends
  have again := (headStep?_le (whnfWith_succ env fuel) _).result? stepped
  rw [← enough] at again
  obtain ⟨o, j, moved, rfl⟩ := (mirror env.fuel).result again
  refine ⟨o, j, moved, ?_, ?_⟩
  · rintro ⟨k, still⟩
    obtain rfl : v = t := by
      rw [still] at done
      cases done
      rfl
    rw [stepped] at last
    cases o with
    | none => rfl
    | some next => cases last
  · rintro rfl
    obtain ⟨o, k, first, same⟩ := (mirror fuel).result stepped
    obtain rfl : o = none := by
      cases o with
      | none => rfl
      | some next => cases same
    refine ⟨k, ?_⟩
    rw [Term.whnf, enough, whnfWith]
    exact fresh_then first rfl

/-- Reduction ends with the term just if it ends at once. -/
theorem Term.rests_iff (done : t.whnf env n = .ok (v, m)) : t.Rests env n ↔ v = t := by
  constructor
  · rintro ⟨k, still⟩
    rw [still] at done
    cases done
    rfl
  · rintro rfl
    exact ⟨m, done⟩

end Steps

section Answers

variable {env : Environment} {t inner v : Term} {n m : Nat}

/-- The question has an answer, and it is yes just for a settled term. -/
def Term.Answered (env : Environment) (n : Nat) (t : Term) : Prop :=
  ∃ r k, t.isWhnf env n = .ok (r, k) ∧ r ≠ .unknown ∧ (r = .definitely ↔ t.Settled env n)

theorem IsWhnf.ofStep_iff (o : Option Term) :
    IsWhnf.ofStep o ≠ .unknown ∧ (IsWhnf.ofStep o = .definitely ↔ o = none) := by
  cases o with
  | none => simp [IsWhnf.ofStep]
  | some next => simp [IsWhnf.ofStep]

/-- At a head, the question is whether there is a step. -/
theorem Term.answered_head (known : env.Within (fun _ => True) n) (below : t.Below n)
    (done : t.whnf env n = .ok (v, m)) (last : t.spine = [t]) (plain : t.isRedex = false)
    (asks : ∀ o j, t.headStep? env n = .ok (o, j) → ∃ k, t.isWhnf env n = .ok (.ofStep o, k)) :
    t.Answered env n := by
  obtain ⟨o, j, stepped, rests⟩ := Term.headStep?_of_whnf known below done
  obtain ⟨k, answer⟩ := asks o j stepped
  obtain ⟨sure, decides⟩ := IsWhnf.ofStep_iff o
  refine ⟨_, k, answer, sure, decides.trans ?_⟩
  rw [← rests, Settled, last]
  simp [plain]

/-- Above a head, the question is handed on to the next term on the spine. A step brings that term to
    weak head normal form first, and comes to nothing if it stays as it is in no redex. -/
theorem Term.answered_above (known : env.Within (fun _ => True) n) (below : t.Below n)
    (done : t.whnf env n = .ok (v, m)) (spine : t.spine = t :: inner.spine)
    {act : Term → Fresh (Option Term)} (step : t.headStep? env = inner.whnf env >>= act)
    (refuses : t.isRedex = true → t.isWhnf env = pure .definitelyNot)
    (asks : t.isRedex = false → t.isWhnf env = inner.isWhnf env ∧ act inner = pure none)
    (next : ∀ w k, inner.whnf env n = .ok (w, k) → inner.Answered env n) : t.Answered env n := by
  obtain ⟨o, j, stepped, rests⟩ := Term.headStep?_of_whnf known below done
  rw [step] at stepped
  obtain ⟨w, k, head, acts⟩ := fresh_bind stepped
  cases redex : t.isRedex with
  | true =>
      refine ⟨.definitelyNot, n, by rw [refuses redex]; rfl, nofun, nofun, fun settled => ?_⟩
      have plain := (settled t t.mem_spine).2
      rw [redex] at plain
      cases plain
  | false =>
      obtain ⟨same, idle⟩ := asks redex
      obtain ⟨r, l, answer, sure, decides⟩ := next w k head
      refine ⟨r, l, by rw [same]; exact answer, sure, decides.trans ?_⟩
      unfold Settled
      rw [spine, List.forall_mem_cons]
      constructor
      · intro settled
        obtain rfl := (rests_iff head).mp (settled inner inner.mem_spine).1
        rw [idle] at acts
        cases fresh_pure acts
        exact ⟨⟨rests.mpr rfl, redex⟩, settled⟩
      · exact And.right

variable (known : env.Within (fun _ => True) n)
  (ready : ∀ f fn, env.function? f = some fn → fn.status ≠ .inProgress)

include known ready

/-- Along the spine, one term after the other. -/
theorem Term.answered : ∀ (t : Term) {v : Term} {m : Nat}, t.Below n → t.whnf env n = .ok (v, m) →
    t.Answered env n
  | .app fn arg, v, m, below, done => by
      refine answered_above known below done rfl rfl (fun redex => ?_) (fun plain => ?_)
        fun w k head => answered fn (below_app.mp below).1 head
      · cases fn <;> cases redex
        rfl
      · cases fn <;> first | exact ⟨rfl, rfl⟩ | cases plain
  | .proj whole i, v, m, below, done => by
      refine answered_above known below done rfl rfl (fun redex => ?_) (fun plain => ?_)
        fun w k head => answered whole (below_proj.mp below) head
      · cases whole <;> cases redex
        rfl
      · cases whole <;> first | exact ⟨rfl, rfl⟩ | cases plain
  | .field f u arg, v, m, below, done => by
      refine answered_above known below done rfl rfl (fun redex => ?_) (fun plain => ?_)
        fun w k head => answered arg (below_field.mp below) head
      · cases arg <;> cases redex
        rfl
      · cases arg <;> first | exact ⟨rfl, rfl⟩ | cases plain
  | .call f levels args, v, m, below, done => by
      refine answered_head known below done rfl rfl fun o j stepped => ⟨j, ?_⟩
      have isReady : (env.function? f).any (·.status == .inProgress) = false := by
        cases defined : env.function? f with
        | none => rfl
        | some fn => simpa using ready f fn defined
      rw [isWhnf, isReady]
      exact fresh_map_of_ok stepped _
  | .caseOf args params result tree, v, m, below, done => by
      refine answered_head known below done rfl rfl fun o j stepped => ⟨j, ?_⟩
      rw [isWhnf]
      exact fresh_map_of_ok stepped _
  | .hole h, v, m, below, done => by
      refine answered_head known below done rfl rfl fun o j stepped => ⟨n, ?_⟩
      cases fresh_pure stepped
      rfl
  | .ref _, v, m, below, done | .lam _ _ _ _, v, m, below, done | .pi _ _ _ _, v, m, below, done
  | .sigma _, v, m, below, done | .tuple _ _, v, m, below, done | .univ _, v, m, below, done
  | .con _ _ _ _, v, m, below, done | .data _ _ _, v, m, below, done
  | .record _ _ _, v, m, below, done | .new _, v, m, below, done
  | .error _ _, v, m, below, done => by
      refine answered_head known below done rfl rfl fun o j stepped => ⟨n, ?_⟩
      cases fresh_pure stepped
      rfl

/-- **What is said to be in weak head normal form.** Where reduction ends and no function is still to
    come, it takes no step just if it ends with the term itself; and the term is said to be in weak
    head normal form just if the terms on its spine reduce as little and none of them has the form
    of a redex, and not to be in it otherwise. -/
theorem Term.isWhnf_iff_settled (below : t.Below n) (done : t.whnf env n = .ok (v, m)) :
    ∃ r k o j, t.isWhnf env n = .ok (r, k) ∧ t.headStep? env n = .ok (o, j) ∧
      (v = t ↔ o = none) ∧ (r = .definitely ↔ t.Settled env n) ∧
      (r = .definitelyNot ↔ ¬ t.Settled env n) := by
  obtain ⟨r, k, answer, sure, decides⟩ := t.answered known ready below done
  obtain ⟨o, j, stepped, rests⟩ := Term.headStep?_of_whnf known below done
  refine ⟨r, k, o, j, answer, stepped, (rests_iff done).symm.trans rests, decides, ?_⟩
  rw [← decides]
  cases r with
  | definitely => simp
  | definitelyNot => simp
  | unknown => exact absurd rfl sure

end Answers

section Examples

open Library

def handedOn : Var := ⟨29, "h"⟩

def someFunction : Var := ⟨30, "s"⟩

/-- The identity on functions from numbers to numbers. -/
def sameFunction : Definition :=
  let type : Term := .pi .explicit ⟨31, "_"⟩ natType natType
  .function
    { params := Telescope.ofPairs [(handedOn, type)]
      result := type
      body := some (.term (.ref handedOn))
      transports := false
      status := .done }

def sameId : DefId := ⟨11, "same"⟩

def sameEnvironment : Environment := { environment 20 with
  definitions := (environment 20).definitions ++ #[sameFunction]
  names := (environment 20).names ++ #["same"] }

theorem same_within : sameEnvironment.Within (fun _ => True) 32 :=
  (Environment.within_of_below (by decide) fun _ => rfl).widen fun _ _ => trivial

theorem same_ready (f : DefId) (fn : FunctionDef) (known : sameEnvironment.function? f = some fn) :
    fn.status ≠ .inProgress := by
  obtain ⟨definition, known, isFunction⟩ := Option.bind_eq_some_iff.mp known
  have all : ∀ d ∈ sameEnvironment.definitions.toList, ∀ fn ∈ d.function?, fn.status ≠ .inProgress := by
    decide
  exact all definition (Array.mem_toList_iff.mpr (Array.mem_of_getElem? known)) fn isFunction

/-- A function variable at zero. -/
def stuckAtZero : Term := .app (.ref someFunction) zeroTerm

/-- It is settled, so it is said to be in weak head normal form. -/
theorem stuckAtZero_settled : stuckAtZero.Settled sameEnvironment 32 ∧
    ∃ k, stuckAtZero.isWhnf sameEnvironment 32 = .ok (.definitely, k) := by
  have settled : stuckAtZero.Settled sameEnvironment 32 :=
    List.forall_mem_cons.mpr ⟨⟨⟨32, rfl⟩, rfl⟩, List.forall_mem_singleton.mpr ⟨⟨32, rfl⟩, rfl⟩⟩
  obtain ⟨r, k, _, _, answer, _, _, decides, _⟩ := Term.isWhnf_iff_settled (t := stuckAtZero)
    (m := 32) same_within same_ready (by decide) rfl
  rw [decides.mpr settled] at answer
  exact ⟨settled, k, answer⟩

/-- The same function behind an unfolding, which changes nothing for reduction. -/
def hiddenAtZero : Term := .app (.call sameId .std [.ref someFunction]) zeroTerm

/-- Reduction leaves it as it is, but it is said not to be in weak head normal form. -/
theorem hiddenAtZero_disagrees :
    hiddenAtZero.whnf sameEnvironment 32 = .ok (hiddenAtZero, 32) ∧
    hiddenAtZero.isWhnf sameEnvironment 32 = .ok (.definitelyNot, 32) :=
  ⟨rfl, rfl⟩

end Examples

end PathTheory
