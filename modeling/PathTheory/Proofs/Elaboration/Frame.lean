import PathTheory.Proofs.Elaboration.Levels
/-!
What elaboration leaves alone. It works in the one environment of its session and goes on after
errors; but however it ends, the definitions of other names are what they were, and so are the names
themselves, the instances, and the metavariables that were solved before. Whether a function was
accepted can be read off its definition.
-/
namespace PathTheory

open Surface (Expr Declaration FunctionDecl)

theorem Environment.function?_set {env : Environment} {id : DefId} (f : FunctionDef)
    (known : id.index < env.definitions.size) :
    (env.set id (.function f)).function? id = some f := by
  unfold Environment.function?
  rw [Environment.definition?_set, if_pos ⟨rfl, known⟩]
  rfl

namespace Elaborate

variable {α : Type} {config : Config} {st st' : ElaborationState} {s s' : Store}
  {env env' : Environment} {n m : Nat}

theorem conclude_accepts {name : String} {x : α} {r : Except Failure α}
    (done : conclude name x config st s env n = .ok ((((r, st'), s'), env'), m)) :
    (∃ y, r = .ok y) ↔ Diagnostic.errorCount st.reported.toList = 0 := by
  unfold conclude at done
  obtain ⟨errors, _, _, _, _, counted, next⟩ := elaborate_bind done
  cases counted
  cases elaborate_pure next
  split
  · rename_i none
    exact ⟨fun _ => none, fun _ => ⟨x, rfl⟩⟩
  · rename_i some
    exact ⟨nofun, fun none => absurd none some⟩

end Elaborate

namespace Surface

open Elaborate

variable {d : FunctionDecl} {config : Config} {st st' : ElaborationState} {s s' : Store}
  {env env' : Environment} {n m : Nat}

/-- The errors that keep a function from being accepted are those that keep it from being done. -/
theorem FunctionDecl.settled_status {f : FunctionDef} (known : d.id.index < env.definitions.size)
    {r : Except Failure DefId}
    (done : d.settled f config st s env n = .ok ((((r, st'), s'), env'), m)) :
    ∃ g, env'.function? d.id = some g ∧ (g.status = .done ↔ ∃ id, r = .ok id) := by
  obtain ⟨levels, st₁, s₁, env₁, k, finished, next⟩ := elaborate_bind done
  obtain ⟨params, _, _, _, _, zonkedParams, next⟩ := elaborate_bind next
  obtain ⟨result, _, _, _, _, zonked, next⟩ := elaborate_bind next
  obtain ⟨body, _, _, _, _, zonkedBody, next⟩ := elaborate_bind next
  obtain ⟨errors, _, _, _, _, counted, next⟩ := elaborate_bind next
  obtain ⟨_, _, _, _, _, put, concluded⟩ := elaborate_bind next
  cases counted
  cases put
  have accepts := conclude_accepts concluded
  obtain ⟨rfl, rfl, rfl, _⟩ := conclude_run concluded
  obtain ⟨rfl, rfl, rfl, _⟩ := zonkTelescope_run zonkedParams
  obtain ⟨rfl, rfl, rfl, _⟩ := zonk_run zonked
  obtain ⟨rfl, rfl, rfl, _⟩ := zonkBody?_run zonkedBody
  have kept := (finish_settled finished).1
  refine ⟨_, Environment.function?_set _ (kept ▸ known), ?_⟩
  rw [accepts]
  dsimp only
  split
  · rename_i none
    exact ⟨fun _ => none, fun _ => rfl⟩
  · rename_i some
    exact ⟨nofun, fun none => absurd none some⟩

theorem FunctionDecl.elaborate_status (known : d.id.index < env.definitions.size)
    {r : Except Failure DefId}
    (done : d.elaborate config .start .empty env n = .ok ((((r, st), s), env'), m)) :
    ∃ g, env'.function? d.id = some g ∧ (g.status = .done ↔ ∃ id, r = .ok id) := by
  have anything := Ground.free_open
  rw [FunctionDecl.elaborate_eq_settled] at done
  obtain ⟨f, st₁, s₁, env₁, n₁, checked, settled⟩ := elaborate_bind done
  -- the header is put in the place of what was there
  obtain ⟨_, _, spares⟩ := d.checked_run (c := .start env) (Ground.free_suits _)
    ⟨.inl anything.error, fun _ _ _ => anything.definition _⟩
    (d.within_open anything.definition anything.error) checked
  exact FunctionDecl.settled_status (spares.size ▸ known) settled

end Surface

namespace Session

variable {s s' : Session}

/-- However a function, a data type or a class is elaborated, only its own definitions are
    replaced. -/
theorem declare_spares {d : Declaration} (defines : ∀ f, d ≠ .inst f)
    {r : Except Failure DefId} (done : declare d s = .ok (r, s')) : s.env.Spares d.own s'.env := by
  obtain ⟨st, store, n, run⟩ := elaborate_run done
  have suits : Ground.free.Suits s.config (.start s.env) := Ground.free_suits (.start s.env)
  cases d with
  | function d =>
      exact (d.elaborate_replaces_open (c := .start s.env) suits Ground.free_open run).spares
  | data d => exact (d.elaborate_replaces (c := .start s.env) suits Ground.free_open run).spares
  | cls d => exact (d.elaborate_replaces (c := .start s.env) suits Ground.free_open run).spares
  | inst f => exact absurd rfl (defines f)

theorem expression_spares {e : Expr} {expected : Option Expr} {r : Except Failure (Term × Term)}
    (done : elaborate (e.elaborate expected) s = .ok (r, s')) : s.env.Spares [] s'.env := by
  obtain ⟨st, store, n, run⟩ := elaborate_run done
  obtain ⟨found, c₁, n₁, _, suits, later, _, _, settled⟩ :=
    Expr.elaborate_run (c := .start s.env) (Ground.free_suits (.start s.env)) Ground.free_open run
  obtain ⟨_, _, _, finishes, _⟩ := Expr.settled_run suits settled
  exact (later.spares []).trans finishes.spares

/-- Whatever the outcome, elaborating a declaration replaces its own definitions and nothing else,
    and elaborating an expression replaces none; and a function that is declared ends up as done just
    if it is accepted. -/
theorem elaborate_spares_others (s s' : Session) :
    (∀ d r, (∀ f, d ≠ .inst f) → declare d s = .ok (r, s') → s.env.Spares d.own s'.env) ∧
    (∀ e expected r, elaborate (Expr.elaborate e expected) s = .ok (r, s') →
      s.env.Spares [] s'.env) ∧
    ∀ d r, (s.env.definition? d.id).isSome → declare (.function d) s = .ok (r, s') →
      ∃ f, s'.env.function? d.id = some f ∧ (f.status = .done ↔ ∃ id, r = .ok id) := by
  refine ⟨fun d r defines done => declare_spares defines done,
    fun e expected r done => expression_spares done, fun d r known done => ?_⟩
  obtain ⟨st, store, n, run⟩ := elaborate_run done
  have known : d.id.index < s.env.definitions.size := by
    simpa [Environment.definition?] using known
  exact FunctionDecl.elaborate_status known run

/-- A type where a number is asked for. -/
def mistakenOne : FunctionDecl := { one with body := .term (.const .none Library.nat) }

def refusesOne : Bool :=
  match declare (.function mistakenOne) reservedOne with
  | .ok (.error _, _) => true
  | _ => false

/-- A function that is accepted, an expression that comes after it, and the same function with a
    mistake in it: each of them leaves the rest as it was. -/
theorem one_spares_others :
    (∃ id s f found s', declare (.function one) reservedOne = .ok (.ok id, s) ∧
      reservedOne.env.Spares [one.id] s.env ∧ s.env.function? one.id = some f ∧ f.status = .done ∧
      elaborate (appliedIdentity.elaborate none) s = .ok (.ok found, s') ∧
      0 < s.env.metas.size ∧ s.env.Spares [] s'.env) ∧
    ∃ failure s f, declare (.function mistakenOne) reservedOne = .ok (.error failure, s) ∧
      reservedOne.env.Spares [one.id] s.env ∧ s.env.function? one.id = some f ∧
      f.status ≠ .done := by
  have accepts : acceptsOne = true := by
    decide +kernel
  have refuses : refusesOne = true := by
    decide +kernel
  constructor
  · unfold acceptsOne at accepts
    split at accepts
    · rename_i id s declared
      split at accepts
      · rename_i found s' elaborated
        obtain ⟨others, _, status⟩ := elaborate_spares_others reservedOne s
        obtain ⟨f, stored, done⟩ := status one _ rfl declared
        obtain ⟨_, expressions, _⟩ := elaborate_spares_others s s'
        exact ⟨id, s, f, found, s', declared, others (.function one) _ nofun declared, stored,
          done.mpr ⟨id, rfl⟩, elaborated, of_decide_eq_true accepts,
          expressions appliedIdentity none _ elaborated⟩
      · cases accepts
    · cases accepts
  · unfold refusesOne at refuses
    split at refuses
    · rename_i failure s declared
      obtain ⟨others, _, status⟩ := elaborate_spares_others reservedOne s
      obtain ⟨f, stored, done⟩ := status mistakenOne _ rfl declared
      have spares := others (.function mistakenOne) _ nofun declared
      refine ⟨failure, s, f, declared, spares, stored, fun isDone => ?_⟩
      obtain ⟨id, impossible⟩ := done.mp isDone
      cases impossible
    · cases refuses

end Session

end PathTheory
