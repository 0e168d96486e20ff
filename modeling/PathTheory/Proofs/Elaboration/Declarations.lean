import PathTheory.Proofs.Elaboration.Stored
/-!
Data types, classes and expressions by themselves, followed to what they leave. Here every
definition may be mentioned and anything may be missing, so that only metavariables matter; nothing
has to be known of the names in a declaration.
-/
namespace PathTheory

open Surface

/-- Only metavariables matter. -/
structure Ground.Open (g : Ground) : Prop where
  error : g.error
  definition : ∀ d, g.definition d
  data : ∀ d, g.data d

namespace Surface

variable {definition : DefId → Prop} {error : Prop}

mutual

theorem Pat.within_open (named : ∀ d, definition d) (missing : error) :
    ∀ p : Pat, p.Within definition error
  | .var _ => trivial
  | .con _ c args => ⟨named c, patsWithin_open named missing args⟩
  | .tuple _ args => patsWithin_open named missing args
  | .absurd _ => missing
  | .number _ _ => ⟨named _, named _⟩

theorem patsWithin_open (named : ∀ d, definition d) (missing : error) :
    ∀ pats : List Pat, patsWithin definition error pats
  | [] => trivial
  | p :: rest => ⟨p.within_open named missing, patsWithin_open named missing rest⟩

end

theorem Expr.within_open (named : ∀ d, definition d) (missing : error) (e : Expr) :
    e.Within definition error := fun _ _ =>
  ⟨fun d _ => named d, fun _ _ => .inl fun p _ => p.within_open named missing⟩

theorem FunctionDecl.within_open (named : ∀ d, definition d) (missing : error) (d : FunctionDecl) :
    d.Within definition error where
  params := fun b _ => b.type.within_open named missing
  result := fun e _ => e.within_open named missing
  body := by
    have more : ∀ x, definition x ∨ x = d.id := fun x => .inl (named x)
    cases d.body with
    | term e => exact e.within_open more missing
    | clauses eliminated written =>
        exact fun clause _ => ⟨.inl fun p _ => p.within_open more missing,
          fun e _ => e.within_open more missing⟩
    | abstract => trivial

end Surface

variable {g : Ground} {config : Config} {c : Moment} {j : Judge} {Γ : Context} {n m : Nat}
  {st : ElaborationState} {s : Store} {env : Environment}

/-- Any definition may be stored that is allowed. -/
theorem Ground.Suits.set (suits : g.Suits config c) (anything : g.Open) (id : DefId)
    {d : Definition} (allowed : d.Allowed (c.allowance g)) :
    g.Suits config { c with env := c.env.set id d } := by
  have known := suits.known
  refine ⟨⟨suits.holds.first, ⟨?_, ?_, known.instances, known.metas⟩, suits.holds.store⟩,
    fun x _ _ => anything.data x, suits.number, suits.made, suits.limit⟩
  · intro x definition own found
    rw [Environment.definition?_set] at found
    split at found
    · cases found
      exact allowed
    · exact known.definitions x definition own found
  · exact fun x own => ⟨(known.data x own).1, .inl (.inl (.inl anything.error))⟩

namespace Surface

open Elaborate

section Data

theorem checkSizes_sound (span : Span) (sort : Universe) (us : List Universe) :
    Elaborate.Sound g config c (checkSizes span sort us) Anything := by
  induction us generalizing c with
  | nil => exact .pure trivial
  | cons u rest ih =>
      refine (demandBelow_sound span u sort).bind fun holds c₁ _ _ => ?_
      split
      · exact (mismatch_sound _ _ _).bind fun d _ _ _ => (report_sound d).bind fun _ _ _ _ => ih
      · exact ih

theorem ConstructorDecl.elaborate_sound (sound : Judge.Sound g config j) (anything : g.Open)
    (truncated : Bool) (sort : Universe) (con : ConstructorDecl)
    (given : Context.Allowed (c.allowance g) Γ) :
    Elaborate.Sound g config c (con.elaborate j Γ truncated sort)
      fun A r => r.1 = con.id ∧ Telescope.Allowed A r.2.1 := by
  refine (checkBinders_sound sound given fun b _ =>
    b.type.within_open anything.definition anything.error).bind ?_
  rintro ⟨params, inner, us⟩ c₁ _ ⟨fromParams, _⟩
  have counted : ∀ c₂ : Moment, c₁.allowance g ≤ c₂.allowance g → Elaborate.Sound g config c₂ (do
      let intervals ← params.filterM fun b => isIntervalType b.type
      return (con.id, params, intervals.length))
      fun A r => r.1 = con.id ∧ Telescope.Allowed A r.2.1 :=
    fun c₂ order₂ => (Sound.filterM fun b _ _ => isIntervalType_sound b.type).bind
      fun _ c₃ order₃ _ => .pure ⟨rfl, fromParams.mono (order₂.trans order₃)⟩
  dsimp only
  split
  · exact (checkSizes_sound con.span sort us).bind fun _ c₂ order₂ _ => counted c₂ order₂
  · exact counted c₁ le_rfl

/-- The signature of a data type: its parameters, the context inside of them, and its universe. -/
def DataDecl.header (d : DataDecl) (j : Judge) : Elaborate (Telescope × Context × Universe) := do
  inSignature true
  let (params, Γ, _) ← checkBinders j [] d.params
  match d.sort with
  | some sort => return (params, Γ, sort)
  | none => return (params, Γ, ← freshUniverse)

/-- The constructors, with their parameters and the numbers of their interval dimensions. -/
def DataDecl.inside (d : DataDecl) (j : Judge) (Γ : Context) (sort : Universe) :
    Elaborate (List (DefId × Telescope × Nat)) := do
  if d.sort.isNone && (d.constructors.map (·.id)).length > 1 then
    let _ ← demandBelow d.span .set0 sort
  let elaborated ← d.constructors.mapM (ConstructorDecl.elaborate j Γ d.truncated sort)
  inSignature false
  return elaborated

/-- A data type that has been looked through, and that is still to be settled. -/
def DataDecl.checked (d : DataDecl) :
    Elaborate (Telescope × Universe × List (DefId × Telescope × Nat)) := do
  let j ← judge
  let (params, Γ, sort) ← d.header j
  setDefinition d.id (.data ⟨params, sort, d.constructors.map (·.id), d.truncated, false⟩)
  let elaborated ← d.inside j Γ sort
  return (params, sort, elaborated)

def DataDecl.storeConstructors (d : DataDecl) (levels : LevelSolution)
    (elaborated : List (DefId × Telescope × Nat)) : Elaborate Unit := do
  for (c, conParams, intervals) in elaborated do
    let conParams ← zonkTelescope levels conParams
    setDefinition c (.constructor ⟨d.id, conParams, intervals⟩)

def DataDecl.settled (d : DataDecl) (params : Telescope) (sort : Universe)
    (elaborated : List (DefId × Telescope × Nat)) : Elaborate (Except Failure DefId) := do
  let levels ← finish
  let params ← zonkTelescope levels params
  let sort ← sort.subst levels.get?
  d.storeConstructors levels elaborated
  setDefinition d.id (.data ⟨params, sort, d.constructors.map (·.id), d.truncated, false⟩)
  conclude d.id.name d.id

variable {d : DataDecl}

theorem DataDecl.elaborate_eq : d.elaborate = (do
    let (params, sort, elaborated) ← d.checked
    d.settled params sort elaborated) := by
  unfold DataDecl.elaborate DataDecl.checked DataDecl.header DataDecl.inside DataDecl.settled
    DataDecl.storeConstructors
  simp only [bind_assoc, pure_bind]
  refine bind_congr fun j => bind_congr fun _ => bind_congr fun opened => ?_
  cases d.sort with
  | some sort =>
      simp only [pure_bind]
      refine bind_congr fun _ => ?_
      split <;> simp only [bind_assoc, pure_bind]
  | none =>
      simp only [bind_assoc, pure_bind]
      refine bind_congr fun sort => bind_congr fun _ => ?_
      split <;> simp only [bind_assoc, pure_bind]

theorem DataDecl.header_sound (sound : Judge.Sound g config j) (anything : g.Open) :
    Elaborate.Sound g config c (d.header j)
      fun A r => Telescope.Allowed A r.1 ∧ Context.Allowed A r.2.1 := by
  refine (inSignature_sound true).bind fun _ c₁ _ _ => ?_
  refine (checkBinders_sound sound (List.forall_mem_nil _) fun b _ =>
    b.type.within_open anything.definition anything.error).bind ?_
  rintro ⟨params, Γ, us⟩ c₂ _ ⟨fromParams, given, _⟩
  dsimp only
  split
  · exact .pure ⟨fromParams, given⟩
  · exact freshUniverse_sound.bind fun _ _ order _ =>
      .pure ⟨fromParams.mono order, given.mono order⟩

/-- What is found of the constructors, in their order. -/
def DataDecl.Finds (d : DataDecl) (A : Allowance) (elaborated : List (DefId × Telescope × Nat)) :
    Prop :=
  List.Forall₂ (fun (con : ConstructorDecl) (r : DefId × Telescope × Nat) =>
    r.1 = con.id ∧ Telescope.Allowed A r.2.1) d.constructors elaborated

theorem DataDecl.Finds.mono {A B : Allowance} {elaborated : List (DefId × Telescope × Nat)}
    (finds : d.Finds A elaborated) (order : A ≤ B) : d.Finds B elaborated :=
  List.Forall₂.imp (fun _ _ found => ⟨found.1, found.2.mono order⟩) finds

theorem DataDecl.Finds.ids {A : Allowance} {elaborated : List (DefId × Telescope × Nat)}
    (finds : d.Finds A elaborated) : elaborated.map (·.1) = d.constructors.map (·.id) := by
  unfold DataDecl.Finds at finds
  generalize d.constructors = cons at finds
  induction finds with
  | nil => rfl
  | cons found _ ih => rw [List.map_cons, List.map_cons, found.1, ih]

theorem DataDecl.Finds.allowed {A : Allowance} {elaborated : List (DefId × Telescope × Nat)}
    (finds : d.Finds A elaborated) : ∀ r ∈ elaborated, Telescope.Allowed A r.2.1 := by
  unfold DataDecl.Finds at finds
  generalize d.constructors = cons at finds
  induction finds with
  | nil => exact List.forall_mem_nil _
  | cons found _ ih => exact List.forall_mem_cons.mpr ⟨found.2, ih⟩

theorem DataDecl.inside_sound (sound : Judge.Sound g config j) (anything : g.Open)
    (given : Context.Allowed (c.allowance g) Γ) (sort : Universe) :
    Elaborate.Sound g config c (d.inside j Γ sort) fun A r => d.Finds A r := by
  have rest : ∀ c₁ : Moment, c.allowance g ≤ c₁.allowance g → Elaborate.Sound g config c₁ (do
      let elaborated ← d.constructors.mapM (ConstructorDecl.elaborate j Γ d.truncated sort)
      inSignature false
      return elaborated) fun A r => d.Finds A r := by
    intro c₁ order₁
    refine (Sound.mapM (R := fun A _ => Context.Allowed A Γ) (fun order given => given.mono order)
      (fun order found => ⟨found.1, found.2.mono order⟩) (fun _ _ => given.mono order₁)
      fun con _ c given => ConstructorDecl.elaborate_sound sound anything _ _ con given).bind ?_
    intro elaborated c₂ _ found
    exact (inSignature_sound false).bind fun _ c₃ order₃ _ =>
      .pure (DataDecl.Finds.mono found order₃)
  unfold DataDecl.inside
  dsimp only
  split
  · exact (demandBelow_sound _ _ _).bind fun _ c₁ order₁ _ => rest c₁ order₁
  · exact rest c le_rfl

theorem DataDecl.checked_run (suits : g.Suits config c) (anything : g.Open) {params : Telescope}
    {sort : Universe} {elaborated : List (DefId × Telescope × Nat)}
    (done : d.checked config c.state c.store c.env n =
      .ok (((((params, sort, elaborated), st), s), env), m)) :
    g.Suits config ⟨st, s, env⟩ ∧ Telescope.Allowed (Moment.allowance g ⟨st, s, env⟩) params ∧
      d.Finds (Moment.allowance g ⟨st, s, env⟩) elaborated ∧ c.env.Spares [d.id] env := by
  obtain ⟨j, st₁, s₁, env₁, n₁, judged, next⟩ := elaborate_bind done
  obtain ⟨later₁, suits₁, sound⟩ := judge_sound suits _ _ _ _ _ _ judged
  obtain ⟨⟨params', Γ, sort'⟩, st₂, s₂, env₂, n₂, headed, next⟩ := elaborate_bind next
  obtain ⟨later₂, suits₂, fromParams, given⟩ := DataDecl.header_sound (c := ⟨st₁, s₁, env₁⟩)
    (sound g) anything suits₁ _ _ _ _ _ _ headed
  obtain ⟨_, _, _, _, _, put, next⟩ := elaborate_bind next
  cases put
  obtain ⟨elaborated', st₃, s₃, env₃, n₃, found, final⟩ := elaborate_bind next
  cases elaborate_pure final
  have later := later₁.trans later₂
  have suits₃ := suits₂.set anything d.id
    (d := .data ⟨params, sort, d.constructors.map (·.id), d.truncated, false⟩)
    ⟨fromParams, fun con _ => anything.definition con⟩
  obtain ⟨later₃, suits₄, finds⟩ := DataDecl.inside_sound (c := ⟨st₂, s₂, env₂.set d.id
    (.data ⟨params, sort, d.constructors.map (·.id), d.truncated, false⟩)⟩)
    (sound g) anything given sort suits₃ _ _ _ _ _ _ found
  exact ⟨suits₄, fromParams.mono later₃.order, finds, later.header later₃⟩

theorem DataDecl.storeConstructors_run {levels : LevelSolution} {A : Allowance}
    {before zonking : Environment} {own : List DefId}
    {elaborated : List (DefId × Telescope × Nat)}
    (allowed : ∀ r ∈ elaborated, Telescope.Allowed A r.2.1) (ofData : A.data d.id)
    {st₀ : ElaborationState} {s₀ : Store} {env₀ : Environment} {x : Unit}
    (done : d.storeConstructors levels elaborated config st₀ s₀ env₀ n =
      .ok ((((x, st), s), env), m))
    (stores : before.Stores own zonking levels A env₀) : st = st₀ ∧ s = s₀ ∧
      before.Stores (own ++ elaborated.map (·.1)) zonking levels A env := by
  unfold DataDecl.storeConstructors at done
  induction elaborated generalizing env₀ n own with
  | nil =>
      cases done
      refine ⟨rfl, rfl, ?_⟩
      simpa using stores
  | cons r rest ih =>
      obtain ⟨here, others⟩ := List.forall_mem_cons.mp allowed
      rw [List.forIn_cons] at done
      simp only [bind_assoc, pure_bind] at done
      obtain ⟨params, _, _, _, _, zonked, next⟩ := elaborate_bind done
      obtain ⟨_, _, _, _, _, put, next⟩ := elaborate_bind next
      cases put
      obtain ⟨rfl, rfl, rfl, k, scope, l, run⟩ := zonkTelescope_run zonked
      unfold Subst.applyTelescope at run
      rw [stores.rule] at run
      have found : (Definition.constructor ⟨d.id, r.2.1, r.2.2⟩).ZonksTo zonking levels
          (.constructor ⟨d.id, params, r.2.2⟩) := .constructor ⟨k, scope, l, run⟩ rfl
      have allowed : (Definition.constructor ⟨d.id, r.2.1, r.2.2⟩).Allowed A := ⟨here, ofData⟩
      obtain ⟨state, store, all⟩ := ih others next (stores.set allowed found r.1)
      refine ⟨state, store, ?_⟩
      rw [List.append_assoc] at all
      exact all

theorem DataDecl.settled_run (suits : g.Suits config c) (anything : g.Open) {params : Telescope}
    (fromParams : Telescope.Allowed (c.allowance g) params) {sort : Universe}
    {elaborated : List (DefId × Telescope × Nat)} (finds : d.Finds (c.allowance g) elaborated)
    {r : Except Failure DefId}
    (done : d.settled params sort elaborated config c.state c.store c.env n =
      .ok ((((r, st), s), env), m)) :
    ∃ levels c' k, Settles g config (d.constructors.map (·.id) ++ [d.id]) c n levels c' k env ∧
      ∀ id, r = .ok id → ∀ e ∈ c'.state.reported.toList, e.isWarning = true := by
  obtain ⟨levels, st₁, s₁, env₁, k, finished, next⟩ := elaborate_bind done
  obtain ⟨params', st₂, s₂, env₂, _, zonkedParams, next⟩ := elaborate_bind next
  obtain ⟨sort', st₃, s₃, env₃, _, raised, next⟩ := elaborate_bind next
  obtain ⟨_, st₄, s₄, env₄, _, stored, next⟩ := elaborate_bind next
  obtain ⟨_, _, _, _, _, put, concluded⟩ := elaborate_bind next
  cases put
  obtain ⟨rfl, rfl, rfl, verdict⟩ := conclude_run concluded
  obtain ⟨rfl, rfl, rfl, zonksParams⟩ := zonkTelescope_run zonkedParams
  have finishes := finish_run suits finished
  have order := finishes.order
  obtain ⟨rfl, lifted⟩ := elaborate_lift raised
  obtain ⟨rfl, rfl, _, sorted⟩ := Unify.checked_run lifted
  have ids := finds.ids
  have allowed := (finds.mono order).allowed
  obtain ⟨rfl, rfl, stores⟩ := DataDecl.storeConstructors_run allowed (anything.data d.id) stored
    (finishes.stores levels)
  rw [ids] at stores
  rw [List.nil_append] at stores
  have own : (Definition.data ⟨params, sort, d.constructors.map (·.id), d.truncated,
      false⟩).Allowed (Moment.allowance g ⟨st, s, env₃⟩) :=
    ⟨fromParams.mono order, fun con _ => anything.definition con⟩
  have zonks : (Definition.data ⟨params, sort, d.constructors.map (·.id), d.truncated,
      false⟩).ZonksTo env₃ levels (.data ⟨params', sort', d.constructors.map (·.id), d.truncated,
        false⟩) := .data zonksParams sorted rfl
  exact ⟨levels, ⟨st, s, env₃⟩, k, ⟨finished, finishes, stores.set own zonks d.id⟩,
    fun id accepted => (verdict id accepted).2⟩

end Data

section Class

/-- A class that has been looked through, and that is still to be settled. -/
def ClassDecl.checked (d : ClassDecl) : Elaborate Universe := do
  let j ← judge
  inClass (some d.id)
  inSignature true
  setDefinition d.id (.cls ⟨d.fields.map (·.id), d.classifying, d.sort.getD .std⟩)
  let Γ ← bind [] d.this (.record d.id .std [])
  let us ← d.fields.mapM (FieldDecl.elaborate j Γ d.id d.this)
  inSignature false
  inClass none
  match d.sort with
  | some sort => pure sort
  | none => sortAbove us d.span

def ClassDecl.storeFields (d : ClassDecl) (levels : LevelSolution) (fields : List DefId) :
    Elaborate Unit := do
  for f in fields do
    if let some field := (← Elaborate.env).field? f then
      setDefinition f (.field ⟨d.id, d.this, ← zonk levels field.type⟩)

def ClassDecl.settled (d : ClassDecl) (sort : Universe) : Elaborate (Except Failure DefId) := do
  let levels ← finish
  d.storeFields levels (d.fields.map (·.id))
  let sort ← sort.subst levels.get?
  setDefinition d.id (.cls ⟨d.fields.map (·.id), d.classifying, sort⟩)
  conclude d.id.name d.id

variable {d : ClassDecl}

theorem ClassDecl.elaborate_eq : d.elaborate = (do
    let sort ← d.checked
    d.settled sort) := by
  unfold ClassDecl.elaborate ClassDecl.checked ClassDecl.settled ClassDecl.storeFields
  simp only [bind_assoc, pure_bind]
  refine bind_congr fun j => bind_congr fun _ => bind_congr fun _ => bind_congr fun _ => ?_
  refine bind_congr fun Γ => bind_congr fun us => bind_congr fun _ => bind_congr fun _ => ?_
  cases d.sort <;> rfl

/-- Under the names of fields there are fields, with types that are allowed. -/
def ClassDecl.Holds (d : ClassDecl) (A : Allowance) (fields : List DefId) (env : Environment) :
    Prop :=
  ∀ f ∈ fields, ∀ definition, env.definition? f = some definition →
    ∃ type : Term, definition = .field ⟨d.id, d.this, type⟩ ∧ type.Allowed A

theorem ClassDecl.Holds.set {A : Allowance} {fields : List DefId} (holds : d.Holds A fields env)
    {type : Term} (allowed : type.Allowed A) (f : DefId) :
    d.Holds A (fields ++ [f]) (env.set f (.field ⟨d.id, d.this, type⟩)) := by
  intro x member definition found
  rw [Environment.definition?_set] at found
  split at found
  · cases found
    exact ⟨type, rfl, allowed⟩
  · rename_i elsewhere
    rcases List.mem_append.mp member with old | new
    · exact holds x old definition found
    · cases List.mem_singleton.mp new
      have bound : f.index < env.definitions.size := (Array.getElem?_eq_some_iff.mp found).1
      exact absurd ⟨rfl, bound⟩ elsewhere

theorem ClassDecl.Holds.mono {A B : Allowance} {fields : List DefId}
    (holds : d.Holds A fields env) (order : A ≤ B) : d.Holds B fields env := by
  intro f member definition found
  obtain ⟨type, isField, allowed⟩ := holds f member definition found
  exact ⟨type, isField, allowed.mono order⟩

theorem inClass_sound (ofClass : Option DefId) :
    Elaborate.Sound g config c (inClass ofClass) Anything :=
  state_sound fun _ => rfl

/-- A class whose fields are looked through one after another. -/
structure ClassDecl.Opened (d : ClassDecl) (g : Ground) (config : Config) (before : Environment)
    (fields : List DefId) (c : Moment) : Prop where
  suits : g.Suits config c
  holds : d.Holds (c.allowance g) fields c.env
  spares : before.Spares (fields ++ [d.id]) c.env

theorem ClassDecl.Opened.later {before : Environment} {fields : List DefId} {c' : Moment}
    (opened : d.Opened g config before fields c) (later : c.Later c')
    (suits : g.Suits config c') : d.Opened g config before fields c' := by
  have same : ∀ x, c'.env.definition? x = c.env.definition? x := fun x => by
    unfold Environment.definition?
    rw [later.grows.definitions]
  refine ⟨suits, ?_, opened.spares.trans (later.spares _)⟩
  intro f member definition found
  obtain ⟨type, isField, allowed⟩ := opened.holds f member definition (same f ▸ found)
  exact ⟨type, isField, allowed.mono later.order⟩

theorem FieldDecl.elaborate_run {before : Environment} {fields : List DefId}
    (sound : Judge.Sound g config j) (anything : g.Open)
    (given : Context.Allowed (c.allowance g) Γ) (opened : d.Opened g config before fields c)
    {f : FieldDecl} {u : Universe}
    (done : f.elaborate j Γ d.id d.this config c.state c.store c.env n =
      .ok ((((u, st), s), env), m)) :
    c.allowance g ≤ Moment.allowance g ⟨st, s, env⟩ ∧
      d.Opened g config before (fields ++ [f.id]) ⟨st, s, env⟩ := by
  unfold FieldDecl.elaborate at done
  obtain ⟨⟨type, v⟩, st₁, s₁, env₁, n₁, typed, next⟩ := elaborate_bind done
  obtain ⟨_, _, _, _, _, put, final⟩ := elaborate_bind next
  cases put
  cases elaborate_pure final
  have within := f.type.within_open anything.definition anything.error
  obtain ⟨later, suits, allowed⟩ :=
    inferType_sound sound given within opened.suits _ _ _ _ _ _ typed
  have opened₁ := opened.later later suits
  have suits₁ := suits.set anything f.id (d := .field ⟨d.id, d.this, type⟩)
    ⟨allowed, anything.definition d.id⟩
  refine ⟨later.order, suits₁, opened₁.holds.set allowed f.id, ?_⟩
  have more : fields ++ [d.id] ⊆ fields ++ [f.id] ++ [d.id] := fun y member => by
    simp only [List.mem_append] at member ⊢
    tauto
  exact (opened₁.spares.mono more).trans (.set env₁ (by simp) _)

theorem ClassDecl.fields_run {before : Environment} {fields : List DefId}
    (sound : Judge.Sound g config j) (anything : g.Open)
    (given : Context.Allowed (c.allowance g) Γ) (opened : d.Opened g config before fields c)
    {decls : List FieldDecl} {us : List Universe}
    (done : decls.mapM (FieldDecl.elaborate j Γ d.id d.this) config c.state c.store c.env n =
      .ok ((((us, st), s), env), m)) :
    d.Opened g config before (fields ++ decls.map (·.id)) ⟨st, s, env⟩ := by
  induction decls generalizing c n fields us with
  | nil =>
      rw [List.mapM_nil] at done
      cases elaborate_pure done
      simpa using opened
  | cons f rest ih =>
      rw [List.mapM_cons] at done
      obtain ⟨u, st₁, s₁, env₁, n₁, first, next⟩ := elaborate_bind done
      obtain ⟨us', _, _, _, _, others, final⟩ := elaborate_bind next
      cases elaborate_pure final
      obtain ⟨order, opened₁⟩ := FieldDecl.elaborate_run sound anything given opened first
      have all := ih (c := ⟨st₁, s₁, env₁⟩) (given.mono order) opened₁ others
      rw [List.append_assoc] at all
      exact all

theorem ClassDecl.checked_run (suits : g.Suits config c) (anything : g.Open) {sort : Universe}
    (done : d.checked config c.state c.store c.env n = .ok ((((sort, st), s), env), m)) :
    d.Opened g config c.env (d.fields.map (·.id)) ⟨st, s, env⟩ := by
  obtain ⟨j, st₁, s₁, env₁, n₁, judged, next⟩ := elaborate_bind done
  obtain ⟨later₁, suits₁, sound⟩ := judge_sound suits _ _ _ _ _ _ judged
  obtain ⟨_, st₂, s₂, env₂, n₂, inside, next⟩ := elaborate_bind next
  obtain ⟨later₂, suits₂, _⟩ := inClass_sound (c := ⟨st₁, s₁, env₁⟩) _ suits₁ _ _ _ _ _ _ inside
  obtain ⟨_, st₃, s₃, env₃, n₃, signature, next⟩ := elaborate_bind next
  obtain ⟨later₃, suits₃, _⟩ :=
    inSignature_sound (c := ⟨st₂, s₂, env₂⟩) _ suits₂ _ _ _ _ _ _ signature
  obtain ⟨_, _, _, _, _, put, next⟩ := elaborate_bind next
  cases put
  obtain ⟨Γ, st₄, s₄, env₄, n₄, bound, next⟩ := elaborate_bind next
  have header : (Definition.cls ⟨d.fields.map (·.id), d.classifying, d.sort.getD .std⟩).Allowed
      (Moment.allowance g ⟨st₃, s₃, env₃⟩) := fun f _ => anything.definition f
  have own : (Term.record d.id .std []).Allowed (Moment.allowance g ⟨st₃, s₃, env₃⟩) :=
    Term.allowed_record.mpr ⟨anything.definition d.id, List.forall_mem_nil _⟩
  obtain ⟨later₄, suits₄, given⟩ := bind_sound (c := ⟨st₃, s₃, env₃.set d.id _⟩)
    (List.forall_mem_nil _) d.this own (suits₃.set anything d.id header) _ _ _ _ _ _ bound
  have later := (later₁.trans later₂).trans later₃
  have opened : d.Opened g config c.env [] ⟨st₄, s₄, env₄⟩ :=
    ⟨suits₄, List.forall_mem_nil _, later.header later₄⟩
  obtain ⟨us, st₅, s₅, env₅, n₅, fields, next⟩ := elaborate_bind next
  have opened₅ := ClassDecl.fields_run (c := ⟨st₄, s₄, env₄⟩) (sound g) anything given opened fields
  rw [List.nil_append] at opened₅
  -- what follows only looks for the sort
  have rest : Elaborate.Sound g config ⟨st₅, s₅, env₅⟩ (do
      inSignature false
      inClass none
      match d.sort with
      | some sort => pure sort
      | none => sortAbove us d.span) Anything := by
    refine (inSignature_sound false).bind fun _ _ _ _ => (inClass_sound none).bind fun _ _ _ _ => ?_
    split
    · exact .pure trivial
    · exact sortAbove_sound us d.span
  obtain ⟨later₆, suits₆, _⟩ := rest opened₅.suits _ _ _ _ _ _ next
  exact opened₅.later later₆ suits₆

theorem ClassDecl.storeFields_run {levels : LevelSolution} {A : Allowance}
    {before zonking : Environment} {own all fields : List DefId} (known : zonking.Allowed A)
    (anything : ∀ x, A.definition x)
    {st₀ : ElaborationState} {s₀ : Store} {env₀ : Environment} {x : Unit}
    (done : d.storeFields levels fields config st₀ s₀ env₀ n = .ok ((((x, st), s), env), m))
    (listed : ∀ f ∈ fields, f ∈ all) (holds : d.Holds A all env₀)
    (stores : before.Stores own zonking levels A env₀) : st = st₀ ∧ s = s₀ ∧
      before.Stores (own ++ fields) zonking levels A env := by
  unfold ClassDecl.storeFields at done
  induction fields generalizing env₀ n own with
  | nil =>
      cases done
      refine ⟨rfl, rfl, ?_⟩
      simpa using stores
  | cons f rest ih =>
      obtain ⟨here, others⟩ := List.forall_mem_cons.mp listed
      rw [List.forIn_cons] at done
      simp only [bind_assoc] at done
      obtain ⟨_, _, _, _, _, looked, next⟩ := elaborate_bind done
      cases looked
      cases isField : env₀.field? f with
      | none =>
          have unknown : env₀.definition? f = none := by
            by_contra isSome
            obtain ⟨definition, found⟩ := Option.ne_none_iff_exists'.mp isSome
            obtain ⟨type, rfl, _⟩ := holds f here definition found
            simp [Environment.field?, found, Definition.field?] at isField
          rw [isField] at next
          obtain ⟨state, store, stores⟩ := ih next others holds (stores.skip unknown)
          rw [List.append_assoc] at stores
          exact ⟨state, store, stores⟩
      | some field =>
          rw [isField] at next
          dsimp only at next
          obtain ⟨definition, found, same⟩ := Option.bind_eq_some_iff.mp isField
          obtain ⟨type, rfl, allowed⟩ := holds f here definition found
          cases same
          obtain ⟨_, _, _, _, _, stored, following⟩ := elaborate_bind next
          obtain ⟨type', st₁, s₁, env₁, _, zonked, put⟩ := elaborate_bind stored
          cases put
          obtain ⟨rfl, rfl, rfl, k, l, run⟩ := zonk_run zonked
          unfold Term.zonk Subst.apply at run
          rw [stores.rule] at run
          have zonks : (Definition.field ⟨d.id, d.this, type⟩).ZonksTo zonking levels
              (.field ⟨d.id, d.this, type'⟩) := .field ⟨k, l, run⟩ rfl
          have fromField : (Definition.field ⟨d.id, d.this, type⟩).Allowed A :=
            ⟨allowed, anything d.id⟩
          have after : d.Holds A all (env₁.set f (.field ⟨d.id, d.this, type'⟩)) :=
            fun x member => holds.set (Term.zonk_allowed known.computes _ allowed _ _ _ run) f x
              (List.mem_append_left _ member)
          obtain ⟨state, store, stores⟩ := ih following others after (stores.set fromField zonks f)
          rw [List.append_assoc] at stores
          exact ⟨state, store, stores⟩

theorem ClassDecl.settled_run (anything : g.Open) {before : Environment} {sort : Universe}
    (opened : d.Opened g config before (d.fields.map (·.id)) c) {r : Except Failure DefId}
    (done : d.settled sort config c.state c.store c.env n = .ok ((((r, st), s), env), m)) :
    ∃ levels c' k, Settles g config (d.fields.map (·.id) ++ [d.id]) c n levels c' k env ∧
      ∀ id, r = .ok id → ∀ e ∈ c'.state.reported.toList, e.isWarning = true := by
  obtain ⟨levels, st₁, s₁, env₁, k, finished, next⟩ := elaborate_bind done
  obtain ⟨_, st₂, s₂, env₂, _, stored, next⟩ := elaborate_bind next
  obtain ⟨sort', st₃, s₃, env₃, _, raised, next⟩ := elaborate_bind next
  obtain ⟨_, _, _, _, _, put, concluded⟩ := elaborate_bind next
  cases put
  obtain ⟨rfl, rfl, rfl, verdict⟩ := conclude_run concluded
  have finishes := finish_run opened.suits finished
  obtain ⟨rfl, lifted⟩ := elaborate_lift raised
  obtain ⟨rfl, rfl, _, sorted⟩ := Unify.checked_run lifted
  have holds : d.Holds (Moment.allowance g ⟨st₁, s₁, env₁⟩) (d.fields.map (·.id)) env₁ := by
    have later := opened.holds.mono finishes.order
    intro f member definition found
    unfold Environment.definition? at found
    rw [finishes.definitions] at found
    exact later f member definition found
  obtain ⟨rfl, rfl, stores⟩ := ClassDecl.storeFields_run finishes.known anything.definition stored
    (fun _ member => member) holds (finishes.stores levels)
  rw [List.nil_append] at stores
  have own : (Definition.cls ⟨d.fields.map (·.id), d.classifying, sort⟩).Allowed
      (Moment.allowance g ⟨st, s, env₁⟩) := fun f _ => anything.definition f
  have zonks : (Definition.cls ⟨d.fields.map (·.id), d.classifying, sort⟩).ZonksTo env₁ levels
      (.cls ⟨d.fields.map (·.id), d.classifying, sort'⟩) := .cls sorted rfl
  exact ⟨levels, ⟨st, s, env₁⟩, k, ⟨finished, finishes, stores.set own zonks d.id⟩,
    fun id accepted => (verdict id accepted).2⟩

end Class

section Expression

/-- An expression and its type, before the equations are settled. -/
def Expr.checked (e : Expr) (expected : Option Expr) : Elaborate (Term × Term) := do
  let j ← judge
  match expected with
  | some expected => do
      let (type, _) ← inferType j [] expected
      pure (← j.check [] e type, type)
  | none => j.infer [] e

def Expr.settled (found : Term × Term) : Elaborate (Except Failure (Term × Term)) := do
  let levels ← finish
  let term ← zonk levels found.1
  let type ← zonk levels found.2
  conclude "expression" (term, type)

theorem Expr.elaborate_eq (e : Expr) (expected : Option Expr) : e.elaborate expected = (do
    let found ← e.checked expected
    Expr.settled found) := by
  unfold Expr.elaborate Expr.checked Expr.settled
  cases expected <;> simp only [bind_assoc, pure_bind]

theorem Expr.checked_sound (anything : g.Open) (e : Expr) (expected : Option Expr) :
    Elaborate.Sound g config c (e.checked expected) fun A r => r.1.Allowed A ∧ r.2.Allowed A := by
  have within : ∀ e : Expr, e.Within g.definition g.error :=
    fun e => e.within_open anything.definition anything.error
  refine judge_sound.bind fun j c₁ _ sound => ?_
  cases expected with
  | some expected =>
      refine (inferType_sound (sound g) (List.forall_mem_nil _) (within expected)).bind ?_
      rintro ⟨type, u⟩ c₂ _ fine
      exact ((sound g).check (List.forall_mem_nil _) (within e) fine).bind
        fun t _ order allowed => .pure ⟨allowed, fine.mono order⟩
  | none => exact (sound g).infer (List.forall_mem_nil _) (within e)

theorem Expr.settled_run (suits : g.Suits config c) {found : Term × Term}
    {r : Except Failure (Term × Term)}
    (done : Expr.settled found config c.state c.store c.env n = .ok ((((r, st), s), env), m)) :
    ∃ levels k, finish config c.state c.store c.env n = .ok ((((levels, st), s), env), k) ∧
      g.Finishes c ⟨st, s, env⟩ ∧ ∀ result, r = .ok result →
        found.1.ZonksTo env levels result.1 ∧ found.2.ZonksTo env levels result.2 ∧
          ∀ e ∈ st.reported.toList, e.isWarning = true := by
  obtain ⟨levels, st₁, s₁, env₁, k, finished, next⟩ := elaborate_bind done
  obtain ⟨term, st₂, s₂, env₂, _, zonkedTerm, next⟩ := elaborate_bind next
  obtain ⟨type, st₃, s₃, env₃, _, zonkedType, concluded⟩ := elaborate_bind next
  obtain ⟨rfl, rfl, rfl, verdict⟩ := conclude_run concluded
  obtain ⟨rfl, rfl, rfl, zonksType⟩ := zonk_run zonkedType
  obtain ⟨rfl, rfl, rfl, zonksTerm⟩ := zonk_run zonkedTerm
  refine ⟨levels, k, finished, finish_run suits finished, fun result accepted => ?_⟩
  obtain ⟨rfl, silent⟩ := verdict result accepted
  exact ⟨zonksTerm, zonksType, silent⟩

end Expression

end Surface

end PathTheory
