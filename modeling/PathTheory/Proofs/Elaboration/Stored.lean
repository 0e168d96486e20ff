import PathTheory.Proofs.Elaboration.Judgement
/-!
What a declaration leaves in the environment. It is looked through first, with a header in the
environment; then the equations are settled, and what is stored is what was found with solutions
and levels put in. The two parts are told apart here, and each kind of declaration is followed to
the environment that it ends with.
-/
namespace PathTheory

section Solved

variable {env : Environment} {levels : LevelSolution} {A : Allowance}

/-- The same without metavariables. -/
def Allowance.solved (A : Allowance) : Allowance := { A with hole := fun _ => False }

theorem Allowance.solved_le_holeless (A : Allowance) : A.solved ≤ holeless :=
  ⟨fun _ none => none, fun _ => trivial, fun _ _ => trivial, fun _ _ => trivial⟩

/-- Once every metavariable that may be mentioned has a solution, none is left in a term that
    solutions are put into. -/
theorem Environment.Allowed.carries_solved (known : env.Allowed A)
    (solved : ∀ m, A.hole m → (env.solution? m).isSome) : env.Carries A A.solved true where
  error := id
  definition := fun _ => id
  data := fun _ => id
  hole := fun m own missing => by simpa [missing rfl] using solved m own
  solution := fun _ own _ isSolution => known.solution own isSolution

theorem Term.ZonksTo.allowed {t t' : Term} (zonks : t.ZonksTo env levels t')
    (carries : env.Carries A A.solved true) (allowed : t.Allowed A) : t'.Allowed A.solved := by
  obtain ⟨n, m, done⟩ := zonks
  exact Term.substWith_allowed carries.rule rfl Subst.allowed_zonking allowed n t' m done

theorem CaseTree.ZonksTo.allowed {t t' : CaseTree} (zonks : t.ZonksTo env levels t')
    (carries : env.Carries A A.solved true) (allowed : t.Allowed A) : t'.Allowed A.solved := by
  obtain ⟨n, m, done⟩ := zonks
  exact CaseTree.substWith_allowed carries.rule rfl Subst.allowed_zonking allowed n t' m done

theorem Telescope.ZonksTo.allowed {params params' : Telescope}
    (zonks : Telescope.ZonksTo env levels params params')
    (carries : env.Carries A A.solved true) (allowed : Telescope.Allowed A params) :
    Telescope.Allowed A.solved params' := by
  obtain ⟨n, scope, m, done⟩ := zonks
  exact (substTelescope_allowed carries.rule rfl Subst.allowed_zonking allowed n _ m done).1

theorem Body.ZonksTo.allowed {b b' : Body} (zonks : b.ZonksTo env levels b')
    (carries : env.Carries A A.solved true) (allowed : b.Allowed A) : b'.Allowed A.solved := by
  cases b with
  | term t => cases b' with
    | term t' => exact Term.ZonksTo.allowed zonks carries allowed
    | tree t' => exact zonks.elim
  | tree t => cases b' with
    | term t' => exact zonks.elim
    | tree t' => exact CaseTree.ZonksTo.allowed zonks carries allowed

/-- A definition with solutions and levels put in. -/
inductive Definition.ZonksTo (env : Environment) (levels : LevelSolution) :
    Definition → Definition → Prop
  | function {f f' : FunctionDef} (params : Telescope.ZonksTo env levels f.params f'.params)
      (result : f.result.ZonksTo env levels f'.result)
      (body : ∀ b' ∈ f'.body, ∃ b ∈ f.body, Body.ZonksTo env levels b b') :
      ZonksTo env levels (.function f) (.function f')
  | data {d d' : DataDef} (params : Telescope.ZonksTo env levels d.params d'.params)
      (sort : d.sort.subst levels.get? = .ok d'.sort)
      (constructors : d'.constructors = d.constructors) :
      ZonksTo env levels (.data d) (.data d')
  | constructor {c c' : ConstructorDef} (params : Telescope.ZonksTo env levels c.params c'.params)
      (data : c'.data = c.data) : ZonksTo env levels (.constructor c) (.constructor c')
  | cls {c c' : ClassDef} (sort : c.sort.subst levels.get? = .ok c'.sort)
      (fields : c'.fields = c.fields) : ZonksTo env levels (.cls c) (.cls c')
  | field {f f' : FieldDef} (type : f.type.ZonksTo env levels f'.type)
      (ofClass : f'.ofClass = f.ofClass) : ZonksTo env levels (.field f) (.field f')

theorem Definition.ZonksTo.allowed {d d' : Definition} (zonks : d.ZonksTo env levels d')
    (carries : env.Carries A A.solved true) (allowed : d.Allowed A) : d'.Allowed A.solved := by
  cases zonks with
  | function params result body =>
      obtain ⟨fromParams, fromResult, fromBody⟩ := allowed
      refine ⟨params.allowed carries fromParams, result.allowed carries fromResult, ?_⟩
      intro b' member
      obtain ⟨b, before, zonked⟩ := body b' member
      exact zonked.allowed carries (fromBody b before)
  | data params sort constructors =>
      obtain ⟨fromParams, listed⟩ := allowed
      exact ⟨params.allowed carries fromParams, constructors ▸ listed⟩
  | constructor params data =>
      obtain ⟨fromParams, ofData⟩ := allowed
      refine ⟨params.allowed carries fromParams, ?_⟩
      rw [data]
      exact ofData
  | cls sort fields =>
      intro f member
      exact allowed f (fields ▸ member)
  | field type ofClass =>
      obtain ⟨fromType, fromClass⟩ := allowed
      refine ⟨type.allowed carries fromType, ?_⟩
      rw [ofClass]
      exact fromClass

/-- The definitions of some names are replaced, each one by what an allowed definition becomes when
    solutions and levels are put in. -/
structure Environment.Stores (before : Environment) (own : List DefId) (env : Environment)
    (levels : LevelSolution) (A : Allowance) (after : Environment) : Prop where
  spares : before.Spares own after
  stored : ∀ d ∈ own, ∀ definition, after.definition? d = some definition →
    ∃ found : Definition, found.Allowed A ∧ found.ZonksTo env levels definition
  -- solutions are the same all along
  rule : Subst.rule after = Subst.rule env

namespace Environment.Stores

variable {before after : Environment} {own : List DefId}

theorem set (stores : before.Stores own env levels A after) {d : Definition}
    (allowed : d.Allowed A) {d' : Definition} (zonks : d.ZonksTo env levels d') (id : DefId) :
    before.Stores (own ++ [id]) env levels A (after.set id d') where
  spares := (stores.spares.mono (List.subset_append_left _ _)).trans
    (.set after (List.mem_append_right _ (List.mem_singleton_self id)) d')
  stored := fun x member definition found => by
    rw [definition?_set] at found
    split at found
    · cases found
      exact ⟨d, allowed, zonks⟩
    · rename_i elsewhere
      rcases List.mem_append.mp member with old | new
      · exact stores.stored x old definition found
      · cases List.mem_singleton.mp new
        have bound : id.index < after.definitions.size := (Array.getElem?_eq_some_iff.mp found).1
        exact absurd ⟨rfl, bound⟩ elsewhere
  rule := (Subst.rule_set after id d').trans stores.rule

/-- Nothing is stored under a name that the environment does not know. -/
theorem skip (stores : before.Stores own env levels A after) {id : DefId}
    (unknown : after.definition? id = none) : before.Stores (own ++ [id]) env levels A after where
  spares := stores.spares.mono (List.subset_append_left _ _)
  stored := fun x member definition found => by
    rcases List.mem_append.mp member with old | new
    · exact stores.stored x old definition found
    · cases List.mem_singleton.mp new
      cases unknown.symm.trans found
  rule := stores.rule

end Environment.Stores

end Solved

/-- A name may get a definition: nothing that may be mentioned as a data type is overwritten, and
    what is an instance of it may be mentioned. -/
structure Ground.Admits (g : Ground) (id : DefId) (env : Environment) : Prop where
  data : g.error ∨ ∀ x, g.data x → x.index ≠ id.index
  instances : ∀ i ∈ env.instances, i.ofClass = id → g.definition i.value

/-- The name may be mentioned as well. -/
def Ground.with (g : Ground) (id : DefId) : Ground :=
  { g with definition := fun x => g.definition x ∨ x = id }

section Moments

variable {g : Ground} {config : Config} {c : Moment}

theorem Ground.with_order (g : Ground) (id : DefId) (c : Moment) :
    c.allowance g ≤ c.allowance (g.with id) :=
  ⟨fun _ own => own, fun possible => possible, fun _ => .inl, fun _ own => own⟩

/-- Once a function has a header in the environment it may be mentioned. -/
theorem Ground.Suits.declare (suits : g.Suits config c) {id : DefId} (admits : g.Admits id c.env)
    {f : FunctionDef} (allowed : (Definition.function f).Allowed (c.allowance g)) :
    (g.with id).Suits config { c with env := c.env.set id (.function f) } := by
  have order := g.with_order id c
  have known := suits.known
  refine ⟨⟨suits.holds.first, ⟨?_, ?_, ?_, ?_⟩, suits.holds.store.mono order⟩, ?_, suits.number,
    suits.made, suits.limit⟩
  · intro x definition own found
    rw [Environment.definition?_set] at found
    split at found
    · cases found
      exact allowed.mono order
    · rename_i elsewhere
      rcases own with own | rfl
      · exact (known.definitions x definition own found).mono order
      · have bound : x.index < c.env.definitions.size := (Array.getElem?_eq_some_iff.mp found).1
        exact absurd ⟨rfl, bound⟩ elsewhere
  · intro x own
    refine ⟨.inl (known.data x own).1, ?_⟩
    rcases (known.data x own).2 with error | isData
    · exact .inl error
    · refine admits.data.imp (fun error => .inl (.inl error)) fun apart => ?_
      unfold Environment.data? at isData ⊢
      rwa [Environment.definition?_set_of_ne (apart x own).symm]
  · intro i listed own
    exact .inl (own.elim (known.instances i listed) (admits.instances i listed))
  · exact fun m entry own found => (known.metas m entry own found).mono order
  · intro x own isData
    rcases own with own | rfl
    · obtain ⟨data, found⟩ := Option.isSome_iff_exists.mp isData
      exact suits.data x own (Option.isSome_of_eq_some (Environment.data?_of_set found))
    · obtain ⟨data, found⟩ := Option.isSome_iff_exists.mp isData
      obtain ⟨definition, here, isData⟩ := Option.bind_eq_some_iff.mp found
      cases Environment.definition?_of_set here
      cases isData

/-- The moment at which everything is settled: what metavariables stand for is known, and what was
    noted has been reported. -/
structure Ground.Finishes (g : Ground) (c c' : Moment) : Prop where
  order : c.allowance g ≤ c'.allowance g
  definitions : c'.env.definitions = c.env.definitions
  spares : c.env.Spares [] c'.env
  known : c'.env.Allowed (c'.allowance g)
  solved : g.bounded → ∀ m, (c'.allowance g).hole m → (c'.env.solution? m).isSome
  silent : c'.store.diagnostics = #[]

theorem Ground.Finishes.carries {c' : Moment} (finishes : g.Finishes c c') (bounded : g.bounded) :
    c'.env.Carries (c'.allowance g) (c'.allowance g).solved true :=
  finishes.known.carries_solved (finishes.solved bounded)

/-- Nothing is stored yet. -/
theorem Ground.Finishes.stores {c' : Moment} (finishes : g.Finishes c c') (levels : LevelSolution) :
    c.env.Stores [] c'.env levels (c'.allowance g) c'.env where
  spares := finishes.spares
  stored := nofun
  rule := rfl

/-- Without errors reported, nothing may be missing. -/
theorem Ground.Finishes.noError {c' : Moment} (finishes : g.Finishes c c') (strict : ¬ g.error)
    (accepted : ∀ d ∈ c'.state.reported.toList, d.isWarning = true) :
    ¬ (c'.allowance g).error := by
  rintro ((given | ⟨d, reported, isError⟩) | ⟨d, noted, _⟩)
  · exact strict given
  · have warning := accepted d (Array.mem_toList_iff.mpr reported)
    rw [warning] at isError
    cases isError
  · rw [finishes.silent] at noted
    simp at noted

namespace Elaborate

theorem finish_run (suits : g.Suits config c) {n m : Nat} {levels : LevelSolution}
    {st : ElaborationState} {s : Store} {env : Environment}
    (done : finish config c.state c.store c.env n = .ok ((((levels, st), s), env), m)) :
    g.Finishes c ⟨st, s, env⟩ := by
  obtain ⟨s₁, _, settled, rfl, reported⟩ := finish_parts done
  obtain ⟨history, holds, _⟩ := Unify.settle_sound suits.holds _ _ _ _ _ settled
  have later : c.Later ⟨c.state, s₁, env⟩ := ⟨history.grows, history.names, fun _ => id⟩
  have suits₁ := suits.later later holds
  obtain ⟨_, _, solves⟩ := Unify.settle_settled settled
  have error : (Moment.allowance g ⟨c.state, s₁, env⟩).error →
      (Moment.allowance g ⟨st, { s₁ with diagnostics := #[] }, env⟩).error := by
    have told : ∀ d, d ∈ c.state.reported ∨ d ∈ s₁.diagnostics → d ∈ st.reported := by
      intro d listed
      rw [← Array.mem_toList_iff, reported, List.mem_append, Array.mem_toList_iff,
        Array.mem_toList_iff]
      exact listed
    rintro ((given | ⟨d, before, isError⟩) | ⟨d, noted, isError⟩)
    · exact .inl (.inl given)
    · exact .inl (.inr ⟨d, told d (.inl before), isError⟩)
    · exact .inl (.inr ⟨d, told d (.inr noted), isError⟩)
  have order : Moment.allowance g ⟨c.state, s₁, env⟩ ≤
      Moment.allowance g ⟨st, { s₁ with diagnostics := #[] }, env⟩ :=
    ⟨fun _ own => own, error, fun _ own => own, fun _ own => own⟩
  refine ⟨later.order.trans order, later.grows.definitions, later.spares [],
    suits₁.known.error_mono error, ?_, rfl⟩
  intro bounded k own
  obtain ⟨old, new⟩ := own bounded
  exact solves k (suits₁.made bounded k old new) new

/-- A run that settles the store and then stores definitions of the given names. -/
structure Settles (g : Ground) (config : Config) (own : List DefId) (c : Moment) (n : Nat)
    (levels : LevelSolution) (c' : Moment) (m : Nat) (env : Environment) : Prop where
  finished : finish config c.state c.store c.env n =
    .ok ((((levels, c'.state), c'.store), c'.env), m)
  finishes : g.Finishes c c'
  stores : c.env.Stores own c'.env levels (c'.allowance g) env

end Elaborate

end Moments

namespace Surface

open Elaborate

variable {g : Ground} {config : Config} {c : Moment} {j : Judge} {Γ : Context} {n m : Nat}
  {st : ElaborationState} {s : Store} {env : Environment}

section Function

/-- The signature of a function: its parameters, the context inside of them, and its result. -/
def FunctionDecl.header (d : FunctionDecl) (j : Judge) :
    Elaborate (Telescope × Context × Term) := do
  inSignature true
  let (params, Γ, _) ← checkBinders j [] d.params
  let declared ← d.result.mapM fun e => return (← inferType j Γ e).1
  inSignature false
  let result ← match declared with
    | some result => pure result
    | none => unknownType Γ d.span
  return (params, Γ, result)

/-- A function that has been looked through, and that is still to be settled. -/
def FunctionDecl.checked (d : FunctionDecl) : Elaborate FunctionDef := do
  let j ← judge
  let (params, Γ, result) ← d.header j
  setDefinition d.id (.function ⟨params, result, none, false, .inProgress⟩)
  let body ← d.body.elaborate j Γ d.span params result
  return ⟨params, result, body, false, .inProgress⟩

def FunctionDecl.settled (d : FunctionDecl) (f : FunctionDef) :
    Elaborate (Except Failure DefId) := do
  let levels ← finish
  let params ← zonkTelescope levels f.params
  let result ← zonk levels f.result
  let body ← f.body.mapM (zonkBody levels)
  let status := if (← errorCount) = 0 then Status.done else .hasErrors
  setDefinition d.id (.function ⟨params, result, body, false, status⟩)
  conclude d.id.name d.id

variable {d : FunctionDecl}

theorem FunctionDecl.elaborate_eq_settled : d.elaborate = (do
    let f ← d.checked
    d.settled f) := by
  unfold FunctionDecl.elaborate FunctionDecl.checked FunctionDecl.header FunctionDecl.settled
  simp only [bind_assoc, pure_bind]
  refine bind_congr fun j => bind_congr fun _ => bind_congr fun opened => ?_
  refine bind_congr fun declared => bind_congr fun _ => ?_
  cases declared with
  | some result => simp only [pure_bind]
  | none => simp only [bind_assoc, pure_bind]

/-- What is named in the signature, and what is named in the body. -/
structure FunctionDecl.Within (definition : DefId → Prop) (error : Prop) (d : FunctionDecl) :
    Prop where
  params : ∀ b ∈ d.params, b.type.Within definition error
  result : ∀ e ∈ d.result, e.Within definition error
  body : d.body.Within (fun x => definition x ∨ x = d.id) error (d.params.map Binding.head)

theorem inSignature_sound (b : Bool) : Elaborate.Sound g config c (inSignature b) Anything :=
  state_sound fun _ => rfl

theorem FunctionDecl.header_sound (sound : Judge.Sound g config j)
    (within : d.Within g.definition g.error) : Elaborate.Sound g config c (d.header j) fun A r =>
      Telescope.Allowed A r.1 ∧ Context.Allowed A r.2.1 ∧ r.2.2.Allowed A ∧
        r.1.map Binding.head = d.params.map Binding.head := by
  refine (inSignature_sound true).bind fun _ c₁ _ _ => ?_
  refine (checkBinders_sound sound (List.forall_mem_nil _) within.params).bind ?_
  rintro ⟨params, Γ, us⟩ c₂ _ ⟨fromParams, given, heads⟩
  have declared : Elaborate.Sound g config c₂
      (d.result.mapM fun e => do return (← inferType j Γ e).1)
      fun A found => ∀ t ∈ found, t.Allowed A := by
    cases isResult : d.result with
    | none => exact .pure fun t absent => by cases absent
    | some e =>
        rw [Option.mapM_some, map_eq_pure_bind]
        have typed := (inferType_sound (c := c₂) sound given (within.result e isResult)).bind
          fun r _ _ fine => .pure (P := fun A (t : Term) => t.Allowed A) (x := r.1) fine
        exact typed.bind fun _ _ _ fine => .pure fun _ same =>
          Option.mem_some_iff.mp same ▸ fine
  refine declared.bind fun found c₃ order₃ fromFound => ?_
  refine (inSignature_sound false).bind fun _ c₄ order₄ _ => ?_
  have fromParams := fromParams.mono (order₃.trans order₄)
  have given := given.mono (order₃.trans order₄)
  cases found with
  | some result => exact .pure ⟨fromParams, given, (fromFound result rfl).mono order₄, heads⟩
  | none =>
      exact (unknownType_sound Γ d.span).bind fun result c₅ order₅ fine =>
        .pure ⟨fromParams.mono order₅, given.mono order₅, fine, heads⟩

theorem BodyExpr.elaborate_sound (sound : Judge.Sound g config j) {b : BodyExpr}
    {params : Telescope} (within : b.Within g.definition g.error (params.map Binding.head))
    (span : Span) {result : Term} (given : Context.Allowed (c.allowance g) Γ)
    (fromParams : Telescope.Allowed (c.allowance g) params)
    (fromResult : result.Allowed (c.allowance g)) :
    Elaborate.Sound g config c (b.elaborate j Γ span params result)
      fun A found => ∀ body ∈ found, body.Allowed A := by
  cases b with
  | term e =>
      exact (sound.check given within fromResult).bind fun t _ _ fine =>
        .pure fun _ same => Option.mem_some_iff.mp same ▸ fine
  | clauses eliminated written =>
      refine (checkClauses_sound sound span eliminated within given fromParams fromResult).bind ?_
      intro checked c₁ order₁ fromChecked
      refine (sortOf_sound result).bind fun sort c₂ order₂ _ => .get ?_
      split
      · exact .pure nofun
      · have compiled : Elaborate.Sound g config c₂ (compile span params checked sort false) _ :=
          compile_sound span (fromParams.mono (order₁.trans order₂))
            (fun clause listed b isBody => (fromChecked clause listed b isBody).mono order₂) sort
            false
        refine compiled.bind fun found c₃ order₃ ⟨fromTree, _⟩ => .pure fun body same => ?_
        obtain ⟨tree, isTree, rfl⟩ := Option.map_eq_some_iff.mp same
        exact fromTree tree isTree
  | abstract => exact .pure nofun

theorem FunctionDecl.checked_run (suits : g.Suits config c) (admits : g.Admits d.id c.env)
    (within : d.Within g.definition g.error) {f : FunctionDef}
    (done : d.checked config c.state c.store c.env n = .ok ((((f, st), s), env), m)) :
    (g.with d.id).Suits config ⟨st, s, env⟩ ∧
      (Definition.function f).Allowed (Moment.allowance (g.with d.id) ⟨st, s, env⟩) ∧
      c.env.Spares [d.id] env := by
  obtain ⟨j, st₁, s₁, env₁, n₁, judged, next⟩ := elaborate_bind done
  obtain ⟨later₁, suits₁, sound⟩ := judge_sound suits _ _ _ _ _ _ judged
  obtain ⟨⟨params, Γ, result⟩, st₂, s₂, env₂, n₂, headed, next⟩ := elaborate_bind next
  obtain ⟨later₂, suits₂, fromParams, given, fromResult, heads⟩ :=
    FunctionDecl.header_sound (c := ⟨st₁, s₁, env₁⟩) (sound g) within suits₁ _ _ _ _ _ _ headed
  obtain ⟨_, _, _, _, _, put, next⟩ := elaborate_bind next
  cases put
  obtain ⟨body, st₃, s₃, env₃, n₃, elaborated, final⟩ := elaborate_bind next
  cases elaborate_pure final
  have later := later₁.trans later₂
  have admits₂ : g.Admits d.id env₂ := ⟨admits.data, later.grows.instances ▸ admits.instances⟩
  have suits₃ := suits₂.declare (f := ⟨params, result, none, false, .inProgress⟩) admits₂
    ⟨fromParams, fromResult, nofun⟩
  have order := g.with_order d.id ⟨st₂, s₂, env₂⟩
  obtain ⟨later₃, suits₄, fromBody⟩ := BodyExpr.elaborate_sound
    (c := ⟨st₂, s₂, env₂.set d.id (.function ⟨params, result, none, false, .inProgress⟩)⟩)
    (sound (g.with d.id)) (heads ▸ within.body) d.span (given.mono order) (fromParams.mono order)
    (fromResult.mono order) suits₃ _ _ _ _ _ _ elaborated
  have order₃ := later₃.order (g := g.with d.id)
  refine ⟨suits₄, ⟨(fromParams.mono order).mono order₃, (fromResult.mono order).mono order₃,
    fromBody⟩, later.header later₃⟩

theorem FunctionDecl.settled_run (suits : g.Suits config c) {f : FunctionDef}
    (allowed : (Definition.function f).Allowed (c.allowance g)) {r : Except Failure DefId}
    (done : d.settled f config c.state c.store c.env n = .ok ((((r, st), s), env), m)) :
    ∃ levels c' k, Settles g config [d.id] c n levels c' k env ∧
      ∀ id, r = .ok id → ∀ e ∈ c'.state.reported.toList, e.isWarning = true := by
  obtain ⟨levels, st₁, s₁, env₁, k, finished, next⟩ := elaborate_bind done
  obtain ⟨params, _, _, _, _, zonkedParams, next⟩ := elaborate_bind next
  obtain ⟨result, _, _, _, _, zonked, next⟩ := elaborate_bind next
  obtain ⟨body, _, _, _, _, zonkedBody, next⟩ := elaborate_bind next
  obtain ⟨errors, _, _, _, _, counted, next⟩ := elaborate_bind next
  obtain ⟨_, _, _, _, _, put, concluded⟩ := elaborate_bind next
  cases counted
  cases put
  obtain ⟨rfl, rfl, rfl, fromParams⟩ := zonkTelescope_run zonkedParams
  obtain ⟨rfl, rfl, rfl, fromResult⟩ := zonk_run zonked
  obtain ⟨rfl, rfl, rfl, fromBody⟩ := zonkBody?_run zonkedBody
  obtain ⟨rfl, rfl, rfl, verdict⟩ := conclude_run concluded
  have finishes := finish_run suits finished
  refine ⟨levels, ⟨st, s, _⟩, k, ⟨finished, finishes, ?_⟩, fun id accepted =>
    (verdict id accepted).2⟩
  exact (finishes.stores levels).set (allowed.mono finishes.order)
    (.function fromParams fromResult fromBody) d.id

end Function

end Surface

end PathTheory
