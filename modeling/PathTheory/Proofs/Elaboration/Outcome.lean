import PathTheory.Proofs.Elaboration.Contents
/-!
What becomes of a declaration of any kind, whether it is accepted or not: it is looked through, the
equations are settled, and the definitions of its own names are replaced.
-/
namespace PathTheory

namespace Surface

/-- The names whose definitions a declaration replaces. -/
def Declaration.own : Declaration → List DefId
  | .function d => [d.id]
  | .data d => d.constructors.map (·.id) ++ [d.id]
  | .cls d => d.fields.map (·.id) ++ [d.id]
  | .inst _ => []

/-- A declaration looked through from one moment to another; an instance has nothing to look
    through. -/
def Declaration.Checks (config : Config) (c : Moment) (n : Nat) (c' : Moment) (m : Nat) :
    Declaration → Prop
  | .function d => ∃ f, d.checked config c.state c.store c.env n =
      .ok ((((f, c'.state), c'.store), c'.env), m)
  | .data d => ∃ found, d.checked config c.state c.store c.env n =
      .ok ((((found, c'.state), c'.store), c'.env), m)
  | .cls d => ∃ sort, d.checked config c.state c.store c.env n =
      .ok ((((sort, c'.state), c'.store), c'.env), m)
  | .inst _ => False

end Surface

open Surface Elaborate

variable {g : Ground} {config : Config} {c : Moment} {n m : Nat} {st : ElaborationState}
  {s : Store} {env : Environment}

/-- A declaration is looked through, and the definitions of its own names are replaced. -/
inductive Surface.Declaration.Replaces (g : Ground) (config : Config) (d : Declaration) (c : Moment)
    (n : Nat) (env : Environment) (accepted : Prop) : Prop
  | intro (c₁ : Moment) {c₂ : Moment} {n₁ n₂ : Nat} {levels : LevelSolution}
      (checks : d.Checks config c n c₁ n₁) (spares : c.env.Spares d.own c₁.env)
      (settles : Settles g config d.own c₁ n₁ levels c₂ n₂ env)
      (silent : accepted → ∀ e ∈ c₂.state.reported.toList, e.isWarning = true)

namespace Surface

theorem FunctionDecl.elaborate_replaces {d : FunctionDecl} (suits : g.Suits config c)
    (admits : g.Admits d.id c.env) (within : d.Within g.definition g.error)
    {r : Except Failure DefId}
    (done : d.elaborate config c.state c.store c.env n = .ok ((((r, st), s), env), m)) :
    (Declaration.function d).Replaces (g.with d.id) config c n env (∃ id, r = .ok id) := by
  rw [FunctionDecl.elaborate_eq_settled] at done
  obtain ⟨f, st₁, s₁, env₁, n₁, checked, settled⟩ := elaborate_bind done
  obtain ⟨suits₁, allowed, spares⟩ := d.checked_run suits admits within checked
  obtain ⟨levels, c₂, n₂, settles, silent⟩ :=
    FunctionDecl.settled_run (c := ⟨st₁, s₁, env₁⟩) suits₁ allowed settled
  exact .intro ⟨st₁, s₁, env₁⟩ ⟨f, checked⟩ spares settles fun ⟨id, accepted⟩ => silent id accepted

theorem FunctionDecl.elaborate_replaces_open {d : FunctionDecl} (suits : g.Suits config c)
    (anything : g.Open) {r : Except Failure DefId}
    (done : d.elaborate config c.state c.store c.env n = .ok ((((r, st), s), env), m)) :
    (Declaration.function d).Replaces (g.with d.id) config c n env (∃ id, r = .ok id) :=
  d.elaborate_replaces suits ⟨.inl anything.error, fun _ _ _ => anything.definition _⟩
    (d.within_open anything.definition anything.error) done

theorem DataDecl.elaborate_replaces (suits : g.Suits config c) (anything : g.Open)
    {d : DataDecl} {r : Except Failure DefId}
    (done : d.elaborate config c.state c.store c.env n = .ok ((((r, st), s), env), m)) :
    (Declaration.data d).Replaces g config c n env (∃ id, r = .ok id) := by
  rw [DataDecl.elaborate_eq] at done
  obtain ⟨⟨params, sort, elaborated⟩, st₁, s₁, env₁, n₁, checked, settled⟩ := elaborate_bind done
  obtain ⟨suits₁, fromParams, finds, spares⟩ := d.checked_run suits anything checked
  obtain ⟨levels, c₂, n₂, settles, silent⟩ :=
    DataDecl.settled_run (c := ⟨st₁, s₁, env₁⟩) suits₁ anything fromParams finds settled
  exact .intro ⟨st₁, s₁, env₁⟩ ⟨_, checked⟩ (spares.mono (List.subset_append_right _ _)) settles
    fun ⟨id, accepted⟩ => silent id accepted

theorem ClassDecl.elaborate_replaces (suits : g.Suits config c) (anything : g.Open)
    {d : ClassDecl} {r : Except Failure DefId}
    (done : d.elaborate config c.state c.store c.env n = .ok ((((r, st), s), env), m)) :
    (Declaration.cls d).Replaces g config c n env (∃ id, r = .ok id) := by
  rw [ClassDecl.elaborate_eq] at done
  obtain ⟨sort, st₁, s₁, env₁, n₁, checked, settled⟩ := elaborate_bind done
  have opened := d.checked_run suits anything checked
  obtain ⟨levels, c₂, n₂, settles, silent⟩ :=
    ClassDecl.settled_run (c := ⟨st₁, s₁, env₁⟩) anything opened settled
  exact .intro ⟨st₁, s₁, env₁⟩ ⟨_, checked⟩ opened.spares settles
    fun ⟨id, accepted⟩ => silent id accepted

/-- Making a function an instance changes no definition. -/
theorem makeInstance_run {f : DefId} {r : Except Failure DefId}
    (done : makeInstance f config c.state c.store c.env n = .ok ((((r, st), s), env), m)) :
    env.definitions = c.env.definitions := by
  unfold makeInstance at done
  obtain ⟨_, _, _, _, _, looked, next⟩ := elaborate_bind done
  cases looked
  obtain ⟨result, st₁, s₁, env₁, _, reduced, next⟩ := elaborate_bind next
  obtain ⟨rfl, rfl, rfl, _⟩ := elaborate_reading reduced
  obtain ⟨key, st₂, s₂, env₂, _, found, following⟩ := elaborate_bind next
  obtain ⟨rfl, rfl, rfl, _⟩ := elaborate_reading found
  cases key with
  | none =>
      obtain ⟨_, _, _, _, _, told, final⟩ := elaborate_bind following
      cases elaborate_pure final
      obtain ⟨_, lifted⟩ := elaborate_lift told
      obtain ⟨_, rfl, _⟩ := Unify.checked_run lifted
      rfl
  | some key =>
      obtain ⟨_, _, _, _, _, put, final⟩ := elaborate_bind following
      cases put
      cases elaborate_pure final
      rfl

theorem Declaration.Replaces.spares {d : Declaration} {accepted : Prop}
    (replaces : d.Replaces g config c n env accepted) : c.env.Spares d.own env := by
  obtain ⟨_, _, spares, settles, _⟩ := replaces
  exact spares.trans settles.stores.spares

/-- Whatever becomes of a declaration, the definitions of other names stay, and what is stored under
    its own names mentions no metavariable. -/
theorem Declaration.elaborate_definitions (suits : g.Suits config c) (anything : g.Open)
    (bounded : g.bounded) {d : Declaration} {r : Except Failure DefId}
    (done : d.elaborate config c.state c.store c.env n = .ok ((((r, st), s), env), m)) :
    ∀ x definition, env.definition? x = some definition →
      c.env.definition? x = some definition ∨ definition.Allowed .holeless := by
  have replaced : ∀ {g' : Ground} {accepted : Prop}, g'.bounded →
      d.Replaces g' config c n env accepted → ∀ x definition, env.definition? x = some definition →
        c.env.definition? x = some definition ∨ definition.Allowed .holeless := by
    intro g' accepted bounded replaces x definition found
    by_cases own : ∃ y ∈ d.own, y.index = x.index
    · obtain ⟨y, listed, same⟩ := own
      unfold Environment.definition? at found
      rw [← same] at found
      obtain ⟨c₁, _, _, settles, _⟩ := replaces
      obtain ⟨before, allowed, zonks⟩ := settles.stores.stored y listed definition found
      have carries := settles.finishes.carries bounded
      exact .inr ((zonks.allowed carries allowed).mono (Allowance.solved_le_holeless _))
    · rw [replaces.spares.definitions x fun y listed same => own ⟨y, listed, same⟩] at found
      exact .inl found
  cases d with
  | function d =>
      have still : (g.with d.id).bounded := bounded
      exact replaced still (d.elaborate_replaces_open suits anything done)
  | data d => exact replaced bounded (d.elaborate_replaces suits anything done)
  | cls d => exact replaced bounded (d.elaborate_replaces suits anything done)
  | inst f =>
      intro x definition found
      unfold Environment.definition? at found
      rw [makeInstance_run done] at found
      exact .inl found

/-- An expression is looked through, and then the equations are settled. -/
theorem Expr.elaborate_run (suits : g.Suits config c) (anything : g.Open) {e : Expr}
    {expected : Option Expr} {r : Except Failure (Term × Term)}
    (done : e.elaborate expected config c.state c.store c.env n = .ok ((((r, st), s), env), m)) :
    ∃ found c₁ n₁, e.checked expected config c.state c.store c.env n =
      .ok ((((found, c₁.state), c₁.store), c₁.env), n₁) ∧ g.Suits config c₁ ∧
        c.Later c₁ ∧ found.1.Allowed (c₁.allowance g) ∧ found.2.Allowed (c₁.allowance g) ∧
        Expr.settled found config c₁.state c₁.store c₁.env n₁ = .ok ((((r, st), s), env), m) := by
  rw [Expr.elaborate_eq] at done
  obtain ⟨found, st₁, s₁, env₁, n₁, checked, settled⟩ := elaborate_bind done
  obtain ⟨later, suits₁, term, type⟩ :=
    Expr.checked_sound anything e expected suits _ _ _ _ _ _ checked
  exact ⟨found, ⟨st₁, s₁, env₁⟩, n₁, checked, suits₁, later, term, type, settled⟩

end Surface

end PathTheory
