import PathTheory.Proofs.Elaboration.Sessions
/-!
Inferred levels that are left over. When an elaboration is accepted, every inferred level that a
constraint mentions has been replaced by a level over the parameters of the definition; the ones
that are left are those that nothing was asked of.
-/
namespace PathTheory

open Surface (Expr Declaration)

/-- A constraint of the store mentions the level variable. -/
def Store.Constrains (s : Store) (v : LevelVar) : Prop := ∃ c ∈ s.levels.constraints, v ∈ c.vars

/-- Level variables in the terms of a definition and in its universe. -/
def Definition.levelVars (d : Definition) : List LevelVar :=
  d.terms.flatMap Term.levelVars ++ d.sorts.flatMap Universe.vars

section Free

variable {config : Config}

theorem Ground.free_open : Ground.free.Open := ⟨trivial, fun _ => trivial, fun _ => trivial⟩

theorem Ground.free_suits (c : Moment) : Ground.free.Suits config c where
  holds := by
    have same : Ground.free.after c.state = .free := by
      simp [Ground.after, Ground.free]
    rw [same]
    exact Ground.free_holds c.store c.env
  data := fun _ _ _ => trivial
  number := trivial
  made := False.elim
  limit := .inl trivial

end Free

/-- What is left by a solution of all constraints of a store, no constraint mentions. -/
theorem LevelSolution.Leaves.unconstrained {store : Store} {levels : LevelSolution} {v : LevelVar}
    (leaves : levels.Leaves v) (solved : store.levels.solve.run = .ok (.ok levels))
    (inferred : v.isInference = true) : ¬ store.Constrains v := by
  rintro ⟨c, listed, isVar⟩
  have valued := (LevelEquations.solve_closed solved).2 c (Array.mem_toList_iff.mpr listed) v
    (List.mem_filter.mpr ⟨isVar, inferred⟩)
  rw [leaves inferred] at valued
  cases valued

theorem Definition.ZonksTo.leaves {env : Environment} {levels : LevelSolution}
    {d d' : Definition} (zonks : d.ZonksTo env levels d') (closed : levels.Closed) :
    ∀ v ∈ d'.levelVars, levels.Leaves v := by
  intro v member
  rcases List.mem_append.mp member with inTerms | inSorts
  · obtain ⟨t, standing, inside⟩ := List.mem_flatMap.mp inTerms
    exact zonks.levelVars closed t standing v inside
  · obtain ⟨u, standing, inside⟩ := List.mem_flatMap.mp inSorts
    exact zonks.sorts closed u standing v inside

namespace Session

variable {s s' : Session}

/-- The store with which the levels of a declaration are solved for good: what there is after the
    declaration has been looked through and the store has been prepared. -/
def Solves (s : Session) (d : Declaration) (store : Store) : Prop :=
  ∃ c n env m, d.Checks s.config (.start s.env) s.nextVar c n ∧
    Unify.prepare c.store c.env n = .ok ((((), store), env), m)

/-- The same for an expression by itself. -/
def SolvesExpr (s : Session) (e : Expr) (expected : Option Expr) (store : Store) : Prop :=
  ∃ found c n env m, e.checked expected s.config .start .empty s.env s.nextVar =
      .ok ((((found, Moment.state c), c.store), c.env), n) ∧
    Unify.prepare c.store c.env n = .ok ((((), store), env), m)

theorem declare_leaves {d : Declaration} {id : DefId} (done : declare d s = .ok (.ok id, s'))
    {x : DefId} (own : x ∈ d.own) {definition : Definition}
    (stored : s'.env.definition? x = some definition) : ∃ store, s.Solves d store ∧
      ∀ v ∈ definition.levelVars, v.isInference = true → ¬ store.Constrains v := by
  obtain ⟨st, store, n, run⟩ := elaborate_run done
  have leaves : ∀ {g : Ground}, d.Replaces g s.config (.start s.env) s.nextVar s'.env
      (∃ id', .ok id = (.ok id' : Except Failure DefId)) → ∃ store, s.Solves d store ∧
        ∀ v ∈ definition.levelVars, v.isInference = true → ¬ store.Constrains v := by
    rintro g ⟨c₁, checks, _, settles, silent⟩
    obtain ⟨solving, env₁, k, prepared, solved⟩ :=
      Elaborate.finish_levels settles.finished (silent ⟨id, rfl⟩)
    obtain ⟨found, _, zonks⟩ := settles.stores.stored x own definition stored
    have left := zonks.leaves (LevelEquations.solve_closed solved).1
    exact ⟨solving, ⟨c₁, _, env₁, k, checks, prepared⟩, fun v member inferred =>
      (left v member).unconstrained solved inferred⟩
  have suits : Ground.free.Suits s.config (.start s.env) := Ground.free_suits (.start s.env)
  cases d with
  | function d =>
      exact leaves (d.elaborate_replaces_open (c := .start s.env) suits Ground.free_open run)
  | data d => exact leaves (d.elaborate_replaces (c := .start s.env) suits Ground.free_open run)
  | cls d => exact leaves (d.elaborate_replaces (c := .start s.env) suits Ground.free_open run)
  | inst f => cases own

theorem expression_leaves {e : Expr} {expected : Option Expr} {term type : Term}
    (done : elaborate (e.elaborate expected) s = .ok (.ok (term, type), s')) :
    ∃ store, s.SolvesExpr e expected store ∧ ∀ v ∈ term.levelVars ++ type.levelVars,
      v.isInference = true → ¬ store.Constrains v := by
  obtain ⟨st, store, n, run⟩ := elaborate_run done
  obtain ⟨found, c₁, n₁, checked, suits, _, _, _, settled⟩ :=
    Expr.elaborate_run (c := .start s.env) (Ground.free_suits (.start s.env)) Ground.free_open run
  obtain ⟨levels, k, finished, _, zonks⟩ := Expr.settled_run suits settled
  obtain ⟨zonksTerm, zonksType, silent⟩ := zonks (term, type) rfl
  obtain ⟨solving, env₁, l, prepared, solved⟩ := Elaborate.finish_levels finished silent
  have closed := (LevelEquations.solve_closed solved).1
  refine ⟨solving, ⟨found, c₁, n₁, env₁, l, checked, prepared⟩, fun v member inferred => ?_⟩
  have leaves : levels.Leaves v := by
    rcases List.mem_append.mp member with inTerm | inType
    · exact zonksTerm.levelVars closed v inTerm
    · exact zonksType.levelVars closed v inType
  exact leaves.unconstrained solved inferred

/-- Every inferred level that is left in what an accepted declaration stores, or in an accepted
    expression or its type, is one that no constraint mentions when the levels are solved. -/
theorem levels_left_unconstrained (s s' : Session) :
    (∀ d id, declare d s = .ok (.ok id, s') → ∀ x ∈ d.own, ∀ definition,
      s'.env.definition? x = some definition → ∃ store, s.Solves d store ∧
        ∀ v ∈ definition.levelVars, v.isInference = true → ¬ store.Constrains v) ∧
    ∀ e expected term type, elaborate (Expr.elaborate e expected) s = .ok (.ok (term, type), s') →
      ∃ store, s.SolvesExpr e expected store ∧
        ∀ v ∈ term.levelVars ++ type.levelVars, v.isInference = true → ¬ store.Constrains v :=
  ⟨fun _ _ done _ own _ stored => declare_leaves done own stored,
    fun _ _ _ _ done => expression_leaves done⟩

/-- A data type in no particular universe whose constructors store nothing, with a session that has
    a place for it. -/
def enumeration (name : String) (constructors : List String) : Session × Surface.DataDecl :=
  let (id, ids, s) := (start .standard 20).reserveData name constructors
  (s, ⟨.none, id, [], none, false, ids.map fun c => ⟨.none, c, []⟩⟩)

/-- It is accepted and stored in the universe. -/
def storesIn (name : String) (constructors : List String) (u : Universe) : Bool :=
  let (s, d) := enumeration name constructors
  match declare (.data d) s with
  | .ok (.ok _, s') => decide ((s'.env.data? d.id).map (·.sort) = some u)
  | _ => false

theorem storesIn_run {name : String} {constructors : List String} {u : Universe}
    (stores : storesIn name constructors u = true) : ∃ id s' data,
      declare (.data (enumeration name constructors).2) (enumeration name constructors).1 =
        .ok (.ok id, s') ∧
      s'.env.definition? (enumeration name constructors).2.id = some (.data data) ∧
      data.sort = u := by
  unfold storesIn at stores
  dsimp only at stores
  split at stores
  · rename_i id s' done
    obtain ⟨data, isData, sort⟩ := Option.map_eq_some_iff.mp (of_decide_eq_true stores)
    obtain ⟨definition, found, same⟩ := Option.bind_eq_some_iff.mp isData
    cases definition with
    | data d =>
        cases same
        exact ⟨id, s', data, done, found, sort⟩
    | function | constructor | cls | field => cases same
  · cases stores

/-- The universe whose levels are the first two that inference makes. -/
def unknownUniverse : Universe := ⟨.ofVar (.infer 0 .predicative), .ofVar (.infer 1 .homotopy)⟩

/-- Of the universe of a type with one element nothing is asked. -/
theorem unit_levels_unconstrained : ∃ id s' definition store,
    declare (.data (enumeration "Unit" ["unit"]).2) (enumeration "Unit" ["unit"]).1 =
      .ok (.ok id, s') ∧
    s'.env.definition? (enumeration "Unit" ["unit"]).2.id = some definition ∧
    (enumeration "Unit" ["unit"]).1.Solves (.data (enumeration "Unit" ["unit"]).2) store ∧
    ¬ store.Constrains (.infer 0 .predicative) ∧ ¬ store.Constrains (.infer 1 .homotopy) := by
  have stores : storesIn "Unit" ["unit"] unknownUniverse = true := by
    decide +kernel
  obtain ⟨id, s', data, done, stored, sort⟩ := storesIn_run stores
  have own : (enumeration "Unit" ["unit"]).2.id ∈
      (Declaration.data (enumeration "Unit" ["unit"]).2).own := by
    decide
  obtain ⟨store, solves, free⟩ := (levels_left_unconstrained _ s').1 _ id done _ own _ stored
  have left : ∀ v ∈ unknownUniverse.vars, v ∈ (Definition.data data).levelVars := by
    intro v member
    refine List.mem_append_right _ (List.mem_flatMap.mpr ⟨data.sort, List.mem_cons_self, ?_⟩)
    rwa [sort]
  exact ⟨id, s', _, store, done, stored, solves, free _ (left _ (by decide)) rfl,
    free _ (left _ (by decide)) rfl⟩

/-- A data type without constructors is accepted in a universe that nothing is known of. -/
theorem empty_in_unknown_universe : ∃ id s' data,
    declare (.data (enumeration "Empty" []).2) (enumeration "Empty" []).1 = .ok (.ok id, s') ∧
    s'.env.definition? (enumeration "Empty" []).2.id = some (.data data) ∧
    data.sort = ⟨.ofVar (.infer 0 .predicative), .ofVar (.infer 1 .homotopy)⟩ := by
  have stores : storesIn "Empty" [] unknownUniverse = true := by
    decide +kernel
  exact storesIn_run stores

end Session

end PathTheory
