import PathTheory.Proofs.Elaboration.Sessions
import PathTheory.Proofs.Matching.Inspected
/-!
The interval comes with the library and is never declared. What is stored under the names of a
declaration is no interval, so that in every session the interval is the one that it started with.
-/
namespace PathTheory

open Surface (Expr)

namespace Definition

/-- The definition of a data type that is the interval. -/
def isInterval (d : Definition) : Bool := d.data?.any DataDef.interval

/-- Where it is the interval, it has constructors, which count in every universe. -/
def Proper (d : Definition) : Prop :=
  ∀ data, d.data? = some data → data.interval = true →
    data.truncated = false ∧ data.constructors ≠ []

theorem proper_of_not_interval {d : Definition} (not : d.isInterval = false) : d.Proper := by
  intro data isData interval
  rw [isInterval, isData, Option.any_some, interval] at not
  cases not

end Definition

namespace Environment

variable {env before after : Environment} {own : List DefId}

theorem properIntervals_iff :
    env.ProperIntervals ↔ ∀ x d, env.definition? x = some d → d.Proper := by
  constructor
  · intro proper x d found data isData
    exact proper x data (Option.bind_eq_some_iff.mpr ⟨d, found, isData⟩)
  · intro proper x data found
    obtain ⟨d, found, isData⟩ := Option.bind_eq_some_iff.mp found
    exact proper x d found data isData

/-- No interval is stored under some names. -/
def Plain (env : Environment) (own : List DefId) : Prop :=
  ∀ x ∈ own, ∀ d, env.definition? x = some d → d.isInterval = false

theorem plain_nil (env : Environment) : env.Plain [] := nofun

theorem Plain.set (plain : env.Plain own) {d : Definition} (not : d.isInterval = false)
    (id : DefId) : (env.set id d).Plain (own ++ [id]) := by
  intro x member found isFound
  rw [definition?_set] at isFound
  split at isFound
  · cases isFound
    exact not
  · rename_i elsewhere
    rcases List.mem_append.mp member with old | new
    · exact plain x old found isFound
    · cases List.mem_singleton.mp new
      have bound : id.index < env.definitions.size := (Array.getElem?_eq_some_iff.mp isFound).1
      exact absurd ⟨rfl, bound⟩ elsewhere

theorem Plain.mono {own' : List DefId} (plain : env.Plain own) (fewer : own' ⊆ own) :
    env.Plain own' := fun x member => plain x (fewer member)

theorem Plain.of_same (plain : before.Plain own)
    (definitions : after.definitions = before.definitions) : after.Plain own := by
  intro x member d found
  unfold definition? at found
  rw [definitions] at found
  exact plain x member d found

/-- Where only the definitions of some names are replaced, and by no interval, the intervals are as
    proper as before. -/
theorem ProperIntervals.spared (proper : before.ProperIntervals) (spares : before.Spares own after)
    (plain : after.Plain own) : after.ProperIntervals := by
  refine properIntervals_iff.mpr fun x d found => ?_
  by_cases replaced : ∃ y ∈ own, y.index = x.index
  · obtain ⟨y, member, same⟩ := replaced
    refine Definition.proper_of_not_interval (plain y member d ?_)
    rwa [definition?, same]
  · rw [spares.definitions x fun y member same => replaced ⟨y, member, same⟩] at found
    exact properIntervals_iff.mp proper x d found

theorem ProperIntervals.same (proper : before.ProperIntervals)
    (definitions : after.definitions = before.definitions) : after.ProperIntervals := by
  refine properIntervals_iff.mpr fun x d found => ?_
  unfold definition? at found
  rw [definitions] at found
  exact properIntervals_iff.mp proper x d found

theorem ProperIntervals.set (proper : env.ProperIntervals) {d : Definition}
    (not : d.isInterval = false) (id : DefId) : (env.set id d).ProperIntervals :=
  proper.spared (.set env (List.mem_singleton_self id) d) (env.plain_nil.set not id)

theorem ProperIntervals.add (proper : env.ProperIntervals) {d : Definition}
    (not : d.isInterval = false) (name : String) : (env.add name d).2.ProperIntervals := by
  refine properIntervals_iff.mpr fun x found isFound => ?_
  unfold definition? Environment.add at isFound
  rw [Array.getElem?_push] at isFound
  split at isFound
  · cases isFound
    exact Definition.proper_of_not_interval not
  · exact properIntervals_iff.mp proper x found isFound

end Environment

namespace Surface

open Elaborate

variable {g : Ground} {config : Config} {c : Moment} {n m : Nat} {st st₀ : ElaborationState}
  {s s₀ : Store} {env env₀ : Environment} {own : List DefId}

theorem FunctionDecl.settled_plain {d : FunctionDecl} {f : FunctionDef} {r : Except Failure DefId}
    (done : d.settled f config st₀ s₀ env₀ n = .ok ((((r, st), s), env), m)) :
    env.Plain [d.id] := by
  obtain ⟨levels, _, _, _, _, finished, next⟩ := elaborate_bind done
  obtain ⟨params, _, _, _, _, zonkedParams, next⟩ := elaborate_bind next
  obtain ⟨result, _, _, _, _, zonked, next⟩ := elaborate_bind next
  obtain ⟨body, _, _, _, _, zonkedBody, next⟩ := elaborate_bind next
  obtain ⟨errors, _, _, _, _, counted, next⟩ := elaborate_bind next
  obtain ⟨_, _, _, _, _, put, concluded⟩ := elaborate_bind next
  cases put
  obtain ⟨_, _, rfl, _⟩ := conclude_run concluded
  exact (Environment.plain_nil _).set rfl d.id

theorem DataDecl.storeConstructors_plain {d : DataDecl} {levels : LevelSolution}
    {elaborated : List (DefId × Telescope × Nat)} {x : Unit} (plain : env₀.Plain own)
    (done : d.storeConstructors levels elaborated config st₀ s₀ env₀ n =
      .ok ((((x, st), s), env), m)) : env.Plain (own ++ elaborated.map (·.1)) := by
  unfold DataDecl.storeConstructors at done
  induction elaborated generalizing env₀ st₀ s₀ n own with
  | nil =>
      cases done
      simpa using plain
  | cons r rest ih =>
      rw [List.forIn_cons] at done
      simp only [bind_assoc, pure_bind] at done
      obtain ⟨params, _, _, _, _, zonked, next⟩ := elaborate_bind done
      obtain ⟨_, _, _, _, _, put, next⟩ := elaborate_bind next
      cases put
      obtain ⟨rfl, rfl, rfl, _⟩ := zonkTelescope_run zonked
      have all := ih (plain.set rfl r.1) next
      rwa [List.append_assoc] at all

theorem DataDecl.settled_plain {d : DataDecl} {A : Allowance} {params : Telescope}
    {sort : Universe} {elaborated : List (DefId × Telescope × Nat)} (finds : d.Finds A elaborated)
    {r : Except Failure DefId}
    (done : d.settled params sort elaborated config st₀ s₀ env₀ n =
      .ok ((((r, st), s), env), m)) : env.Plain (d.constructors.map (·.id) ++ [d.id]) := by
  obtain ⟨levels, _, _, env₁, _, finished, next⟩ := elaborate_bind done
  obtain ⟨params', _, _, env₂, _, zonkedParams, next⟩ := elaborate_bind next
  obtain ⟨sort', _, _, env₃, _, raised, next⟩ := elaborate_bind next
  obtain ⟨_, _, _, env₄, _, stored, next⟩ := elaborate_bind next
  obtain ⟨_, _, _, _, _, put, concluded⟩ := elaborate_bind next
  cases put
  obtain ⟨_, _, rfl, _⟩ := conclude_run concluded
  have plain := DataDecl.storeConstructors_plain (Environment.plain_nil _) stored
  rw [finds.ids] at plain
  exact plain.set rfl d.id

theorem ClassDecl.storeFields_plain {d : ClassDecl} {levels : LevelSolution}
    {fields : List DefId} {x : Unit} (plain : env₀.Plain own)
    (done : d.storeFields levels fields config st₀ s₀ env₀ n = .ok ((((x, st), s), env), m)) :
    env.Plain own := by
  unfold ClassDecl.storeFields at done
  induction fields generalizing env₀ st₀ s₀ n with
  | nil =>
      cases done
      exact plain
  | cons f rest ih =>
      rw [List.forIn_cons] at done
      simp only [bind_assoc] at done
      obtain ⟨_, _, _, _, _, looked, next⟩ := elaborate_bind done
      cases looked
      cases isField : env₀.field? f with
      | none =>
          rw [isField] at next
          exact ih plain next
      | some field =>
          rw [isField] at next
          dsimp only at next
          obtain ⟨_, _, _, _, _, stored, following⟩ := elaborate_bind next
          obtain ⟨type, _, _, _, _, zonked, put⟩ := elaborate_bind stored
          cases put
          obtain ⟨rfl, rfl, rfl, _⟩ := zonk_run zonked
          exact ih ((plain.set rfl f).mono (List.subset_append_left _ _)) following

theorem ClassDecl.settled_plain {d : ClassDecl} {before : Environment} {sort : Universe}
    (opened : d.Opened g config before (d.fields.map (·.id)) c) {r : Except Failure DefId}
    (done : d.settled sort config c.state c.store c.env n = .ok ((((r, st), s), env), m)) :
    env.Plain (d.fields.map (·.id) ++ [d.id]) := by
  obtain ⟨levels, _, _, env₁, _, finished, next⟩ := elaborate_bind done
  obtain ⟨_, _, _, env₂, _, stored, next⟩ := elaborate_bind next
  obtain ⟨sort', _, _, env₃, _, raised, next⟩ := elaborate_bind next
  obtain ⟨_, _, _, _, _, put, concluded⟩ := elaborate_bind next
  cases put
  obtain ⟨_, _, rfl, _⟩ := conclude_run concluded
  obtain ⟨_, lifted⟩ := elaborate_lift raised
  obtain ⟨_, rfl, _⟩ := Unify.checked_run lifted
  have fields : c.env.Plain (d.fields.map (·.id)) := by
    intro f member definition found
    obtain ⟨_, rfl, _⟩ := opened.holds f member definition found
    rfl
  have plain := fields.of_same (finish_run opened.suits finished).definitions
  exact (ClassDecl.storeFields_plain plain stored).set rfl d.id

/-- Nothing that is declared is the interval. -/
theorem Declaration.elaborate_proper (suits : g.Suits config c) (anything : g.Open)
    (proper : c.env.ProperIntervals) {d : Declaration} {r : Except Failure DefId}
    (done : d.elaborate config c.state c.store c.env n = .ok ((((r, st), s), env), m)) :
    env.ProperIntervals := by
  cases d with
  | function d =>
      refine proper.spared (d.elaborate_replaces_open suits anything done).spares ?_
      rw [Declaration.elaborate, FunctionDecl.elaborate_eq_settled] at done
      obtain ⟨f, _, _, _, _, _, settled⟩ := elaborate_bind done
      exact FunctionDecl.settled_plain settled
  | data d =>
      refine proper.spared (d.elaborate_replaces suits anything done).spares ?_
      rw [Declaration.elaborate, DataDecl.elaborate_eq] at done
      obtain ⟨⟨params, sort, elaborated⟩, _, _, _, _, checked, settled⟩ := elaborate_bind done
      obtain ⟨_, _, finds, _⟩ := d.checked_run suits anything checked
      exact DataDecl.settled_plain finds settled
  | cls d =>
      refine proper.spared (d.elaborate_replaces suits anything done).spares ?_
      rw [Declaration.elaborate, ClassDecl.elaborate_eq] at done
      obtain ⟨sort, st₁, s₁, env₁, _, checked, settled⟩ := elaborate_bind done
      exact ClassDecl.settled_plain (c := ⟨st₁, s₁, env₁⟩) (d.checked_run suits anything checked)
        settled
  | inst f => exact proper.same (makeInstance_run done)

end Surface

namespace Session

variable {s s' : Session}

theorem addAll_proper (proper : s.env.ProperIntervals) {d : Definition}
    (not : d.isInterval = false) (names : List String) :
    (addAll d s names).2.env.ProperIntervals := by
  induction names generalizing s with
  | nil => exact proper
  | cons name rest ih => exact ih (proper.add not name)

theorem expression_proper (holeless : s.env.Holeless) (proper : s.env.ProperIntervals) {e : Expr}
    {expected : Option Expr} {r : Except Failure (Term × Term)}
    (done : elaborate (e.elaborate expected) s = .ok (r, s')) : s'.env.ProperIntervals := by
  obtain ⟨st, store, n, run⟩ := elaborate_run done
  obtain ⟨found, c₁, n₁, _, suits, later, _, _, settled⟩ :=
    Expr.elaborate_run (c := .start s.env) (Ground.fresh_suits holeless)
      (Ground.fresh_open s.env) run
  obtain ⟨levels, k, _, finishes, _⟩ := Expr.settled_run suits settled
  exact proper.same (finishes.definitions.trans later.grows.definitions)

/-- In every session the interval has the constructors that it has in the library. -/
theorem Reached.properIntervals (reached : Reached s) : s.env.ProperIntervals := by
  induction reached with
  | start config fuel => exact library_properIntervals fuel
  | function _ name ih => exact ih.add rfl name
  | data _ name constructors ih => exact (addAll_proper (ih.add rfl name) rfl _).set rfl _
  | cls _ name fields ih => exact (addAll_proper (ih.add rfl name) rfl _).set rfl _
  | vars _ n ih => exact ih
  | @declare s s' reached d r done ih =>
      obtain ⟨st, store, n, run⟩ := elaborate_run done
      exact d.elaborate_proper (c := .start s.env) (Ground.fresh_suits reached.holeless)
        (Ground.fresh_open s.env) ih run
  | expression reached done ih => exact expression_proper reached.holeless ih done
  | evaluate reached done ih =>
      obtain ⟨r', s₁, elaborated, same⟩ := evaluate_run done
      rw [same]
      exact expression_proper reached.holeless ih elaborated

end Session

end PathTheory
