import PathTheory.Proofs.Matching.Reported
import PathTheory.Proofs.Elaboration.Truncation
import PathTheory.Proofs.Elaboration.Accepted
/-!
Functions given by clauses. The compiler says why it gives no tree, and a function is stored as done
only if nothing was said; so it is stored with a tree then, as long as missing clauses are listed.
With no room for missing clauses in the report the compiler gives up without a word, and a function
without a tree is accepted.
-/
namespace PathTheory

open Surface (FunctionDecl Matched)

section Named

variable {env : Environment} {config : Config}

/-- Anything may be mentioned, but names of data types stand for data types. -/
def Ground.named (env : Environment) : Ground :=
  ⟨False, 0, True, fun _ => True, fun d => (env.data? d).isSome⟩

theorem Ground.named_allowance (env : Environment) (c : Moment) :
    c.allowance (.named env) = .named env := by
  simp [Moment.allowance, Ground.at, Ground.after, Ground.named, Allowance.named]

theorem Ground.named_with (env : Environment) (id : DefId) :
    (Ground.named env).with id = .named env := by
  simp [Ground.with, Ground.named]

theorem Ground.named_suits (named : env.NamesData) (number : (env.data? Library.nat).isSome) :
    (Ground.named env).Suits config (.start env) where
  holds := by
    refine ⟨False.elim, ?_, Store.empty_allowed _⟩
    have same := Ground.named_allowance env (.start env)
    unfold Moment.allowance at same
    rwa [same]
  data := fun _ _ isData => isData
  number := number
  made := False.elim
  limit := .inl trivial

end Named

namespace Surface

open Elaborate

variable {d : FunctionDecl} {config : Config} {st st' : ElaborationState} {s s' : Store}
  {env env' : Environment} {n m : Nat}

theorem FunctionDecl.matched_eq {eliminated : Option (List Var)} {written : List Clause} :
    d.matched eliminated written = (do
      let j ← judge
      let (params, Γ, result) ← d.header j
      setDefinition d.id (.function ⟨params, result, none, false, .inProgress⟩)
      let clauses ← checkClauses j Γ d.span params eliminated written result
      return ⟨params, result, clauses, ← sortOf result⟩) := by
  unfold FunctionDecl.matched FunctionDecl.header
  simp only [bind_assoc, pure_bind]
  refine bind_congr fun j => bind_congr fun _ => bind_congr fun opened => ?_
  refine bind_congr fun declared => bind_congr fun _ => ?_
  cases declared with
  | some result => simp only [pure_bind]
  | none => simp only [bind_assoc, pure_bind]

/-- What is about to be compiled names data types of the environment. -/
theorem FunctionDecl.matched_run (named : env.NamesData)
    (number : (env.data? Library.nat).isSome) {eliminated : Option (List Var)}
    {written : List Clause} {found : Matched}
    (done : d.matched eliminated written config .start .empty env n =
      .ok ((((found, st), s), env'), m)) :
    Telescope.Allowed (.named env) found.params ∧
      (∀ clause ∈ found.clauses, clause.Allowed (.named env)) ∧ env'.Allowed (.named env) ∧
      env.Spares [d.id] env' := by
  have suits : (Ground.named env).Suits config (.start env) := Ground.named_suits named number
  have anything : ∀ x, (Ground.named env).definition x := fun _ => trivial
  rw [FunctionDecl.matched_eq] at done
  obtain ⟨j, st₁, s₁, env₁, n₁, judged, next⟩ := elaborate_bind done
  obtain ⟨later₁, suits₁, sound⟩ := judge_sound (c := .start env) suits _ _ _ _ _ _ judged
  obtain ⟨⟨params, Γ, result⟩, st₂, s₂, env₂, n₂, headed, next⟩ := elaborate_bind next
  obtain ⟨later₂, suits₂, fromParams, given, fromResult, _⟩ :=
    FunctionDecl.header_sound (c := ⟨st₁, s₁, env₁⟩) (sound _)
      (d.within_open anything trivial) suits₁ _ _ _ _ _ _ headed
  obtain ⟨_, _, _, _, _, put, next⟩ := elaborate_bind next
  cases put
  have later := later₁.trans later₂
  have admits : (Ground.named env).Admits d.id env₂ := ⟨.inl trivial, fun _ _ _ => trivial⟩
  have suits₃ := suits₂.declare (f := ⟨params, result, none, false, .inProgress⟩) admits
    ⟨fromParams, fromResult, nofun⟩
  rw [Ground.named_with] at suits₃
  rw [Ground.named_allowance] at fromParams given fromResult
  have within : ∀ clause ∈ written, clause.Within (Ground.named env).definition
      (Ground.named env).error (LastMatched eliminated (params.map Binding.head)) := fun clause _ =>
    ⟨.inl fun p _ => p.within_open anything trivial, fun e _ => e.within_open anything trivial⟩
  obtain ⟨clauses, st₃, s₃, env₃, n₃, checked, next⟩ := elaborate_bind next
  obtain ⟨later₃, suits₄, fromClauses⟩ := checkClauses_sound
    (c := ⟨st₂, s₂, env₂.set d.id (.function ⟨params, result, none, false, .inProgress⟩)⟩)
    (sound _) d.span eliminated within (by rwa [Ground.named_allowance])
    (by rwa [Ground.named_allowance]) (by rwa [Ground.named_allowance]) suits₃ _ _ _ _ _ _ checked
  obtain ⟨sort, st₄, s₄, env₄, n₄, sorted, final⟩ := elaborate_bind next
  obtain ⟨later₄, suits₅, _⟩ :=
    sortOf_sound (c := ⟨st₃, s₃, env₃⟩) result suits₄ _ _ _ _ _ _ sorted
  cases elaborate_pure final
  have known := suits₅.known
  rw [Ground.named_allowance] at known fromClauses
  exact ⟨fromParams, fromClauses, known, later.header (later₃.trans later₄)⟩

/-- Where clauses give no tree, an error has been reported. -/
theorem Matched.compiled_none {A : Allowance} {found : Matched} {span : Span}
    (fromParams : Telescope.Allowed A found.params)
    (fromClauses : ∀ clause ∈ found.clauses, clause.Allowed A)
    (known : Matching.Setting.Known A False ⟨env, config, true, false, found.sort⟩)
    (done : found.compiled span config st s env n = .ok ((((none, st'), s'), env'), m)) :
    ∃ e ∈ st'.reported.toList, e.isWarning = false := by
  obtain ⟨count, _, _, _, _, counted, next⟩ := elaborate_bind done
  cases counted
  split at next
  · rename_i errors
    cases elaborate_pure next
    obtain ⟨e, listed⟩ := List.exists_mem_of_length_pos (Nat.pos_of_ne_zero errors)
    obtain ⟨reported, isError⟩ := List.mem_filter.mp listed
    exact ⟨e, reported, by simpa using isError⟩
  · obtain ⟨result, _, _, _, _, ran, final⟩ := elaborate_bind next
    have same := elaborate_pure final
    obtain ⟨outcome, k, run, rfl, _, _, reported⟩ := compile_run ran
    cases isTree : outcome.tree with
    | some tree =>
        rw [isTree] at same
        cases same
    | none =>
        rw [isTree] at same
        cases same
        obtain ⟨e, noted, isError⟩ :=
          (Matching.compile_none_iff known fromParams fromClauses run).mp isTree
        refine ⟨e, ?_, isError⟩
        rw [reported]
        exact List.mem_append_right _ noted

/-- What is compiled is a tree. -/
theorem Matched.compiled_some {found : Matched} {span : Span} {body : Body}
    (done : found.compiled span config st s env n = .ok ((((some body, st'), s'), env'), m)) :
    ∃ tree, body = .tree tree := by
  obtain ⟨count, _, _, _, _, counted, next⟩ := elaborate_bind done
  split at next
  · cases elaborate_pure next
  · obtain ⟨result, _, _, _, _, _, final⟩ := elaborate_bind next
    have same := elaborate_pure final
    cases result with
    | none => cases same
    | some tree =>
        cases same
        exact ⟨tree, rfl⟩

/-- A function is stored as done only if no error was reported before, and with the tree that it was
    given. -/
theorem FunctionDecl.stored_status {found : Matched} {body : Option Body} {r : Except Failure DefId}
    {f : FunctionDef}
    (done : d.stored found body config st s env n = .ok ((((r, st'), s'), env'), m))
    (isStored : env'.function? d.id = some f) :
    (f.status = .done → ∀ e ∈ st.reported.toList, e.isWarning = true) ∧
      ∀ tree, body = some (.tree tree) → ∃ tree', f.body = some (.tree tree') := by
  unfold FunctionDecl.stored at done
  obtain ⟨levels, st₁, s₁, env₁, _, finished, next⟩ := elaborate_bind done
  obtain ⟨params, _, _, _, _, zonkedParams, next⟩ := elaborate_bind next
  obtain ⟨result, _, _, _, _, zonked, next⟩ := elaborate_bind next
  obtain ⟨body', _, _, _, _, zonkedBody, next⟩ := elaborate_bind next
  obtain ⟨errors, _, _, _, _, counted, next⟩ := elaborate_bind next
  obtain ⟨_, _, _, _, _, put, concluded⟩ := elaborate_bind next
  cases counted
  cases put
  obtain ⟨rfl, rfl, rfl, _⟩ := conclude_run concluded
  obtain ⟨rfl, rfl, rfl, _⟩ := zonkTelescope_run zonkedParams
  obtain ⟨rfl, rfl, rfl, _⟩ := zonk_run zonked
  obtain ⟨rfl, rfl, rfl, _⟩ := zonkBody?_run zonkedBody
  obtain ⟨_, _, _, _, reported⟩ := finish_parts finished
  cases Environment.function?_of_set isStored
  refine ⟨fun isDone e before => ?_, ?_⟩
  · have none : Diagnostic.errorCount st'.reported.toList = 0 := by
      by_contra some
      simp [some] at isDone
    have quiet := List.filter_eq_nil_iff.mp (List.length_eq_zero_iff.mp none) e
    rw [reported] at quiet
    simpa using quiet (List.mem_append_left _ before)
  · rintro tree rfl
    rw [Option.mapM_some, map_eq_pure_bind] at zonkedBody
    obtain ⟨after, _, _, _, _, ran, final⟩ := elaborate_bind zonkedBody
    cases elaborate_pure final
    obtain ⟨_, _, _, zonks⟩ := zonkBody_run ran
    cases after with
    | term t => exact zonks.elim
    | tree tree' => exact ⟨tree', rfl⟩

end Surface

namespace Session

variable {s s' : Session} {d : FunctionDecl}

/-- A function given by clauses that is stored as done is stored with a tree. -/
theorem declared_with_tree (limit : 0 < s.config.missingLimit) (named : s.env.NamesData)
    (number : (s.env.data? Library.nat).isSome)
    (apart : ∀ x, (s.env.data? x).isSome → x.index ≠ d.id.index)
    {eliminated : Option (List Var)} {written : List Surface.Clause}
    (body : d.body = .clauses eliminated written) {r : Except Failure DefId}
    (done : declare (.function d) s = .ok (r, s')) {f : FunctionDef}
    (stored : s'.env.function? d.id = some f) (isDone : f.status = .done) :
    ∃ tree, f.body = some (.tree tree) := by
  obtain ⟨st, store, n, run⟩ := elaborate_run done
  have run : d.elaborate s.config .start .empty s.env s.nextVar =
    .ok ((((r, st), store), s'.env), n) := run
  rw [d.elaborate_eq body] at run
  obtain ⟨found, st₁, s₁, env₁, n₁, matched, next⟩ := Elaborate.elaborate_bind run
  obtain ⟨body', st₂, s₂, env₂, n₂, compiled, settled⟩ := Elaborate.elaborate_bind next
  obtain ⟨silent, kept⟩ := FunctionDecl.stored_status settled stored
  cases body' with
  | none =>
      obtain ⟨fromParams, fromClauses, known, spares⟩ :=
        FunctionDecl.matched_run named number matched
      -- the function itself is the only definition that has changed since it was read
      have isData : ∀ x, (s.env.data? x).isSome → (env₁.data? x).isSome := fun x isData => by
        unfold Environment.data? at isData ⊢
        rwa [spares.definitions x (List.forall_mem_singleton.mpr (apart x isData).symm)]
      obtain ⟨e, reported, isError⟩ := Matched.compiled_none fromParams fromClauses
        ⟨known, fun x own => .inr (isData x own), .inr limit⟩ compiled
      rw [silent isDone e reported] at isError
      cases isError
  | some body' =>
      obtain ⟨tree, rfl⟩ := Matched.compiled_some compiled
      exact kept tree rfl

/-- What is told of a compilation in a session: there is no tree just if an error is noted, and values
    that the clauses do not take are not passed over. Whether levels are inferred, whether it is a
    case expression and what universe the result is in do not matter. -/
structure Tells (s : Session) (params : Telescope) (clauses : List Matching.Clause) (n : Nat)
    (outcome : Matching.Outcome) : Prop where
  tree : outcome.tree = none ↔ ∃ d ∈ outcome.diagnostics, d.isWarning = false
  covers : s.env.Within (fun _ => True) n → Telescope.Below n params → Telescope.Proper params →
    Matching.NoIntervalPattern s.env params clauses → ∀ args : List Term,
      fieldsFit Nameless.Alike s.env args params id .free →
      (∀ clause ∈ clauses, Matching.RowSpares s.env clause.patterns args) →
      (∃ d ∈ outcome.diagnostics, d.isWarning = false) ∨
        ∃ tree, outcome.tree = some tree ∧ tree.Takes s.env args

/-- If missing clauses are listed and names of data types stand for data types, then no compilation
    fails and none succeeds without a word, and a function that is given by clauses and done has a
    tree. -/
theorem never_silent (limit : 0 < s.config.missingLimit) (named : s.env.NamesData) :
    (∀ (acceptsLevels inCase : Bool) (sort : Option Universe) (span : Span) (params : Telescope)
      (clauses : List Matching.Clause) (n : Nat) (outcome : Matching.Outcome) (m : Nat),
      Telescope.Allowed (.named s.env) params →
      (∀ clause ∈ clauses, clause.Allowed (.named s.env)) →
      Matching.compile ⟨s.env, s.config, acceptsLevels, inCase, sort⟩ span params clauses n =
        .ok (outcome, m) → s.Tells params clauses n outcome) ∧
    ∀ (d : FunctionDecl) (eliminated : Option (List Var)) (written : List Surface.Clause)
      (r : Except Failure DefId) (s' : Session) (f : FunctionDef),
      d.body = .clauses eliminated written →
      (s.env.data? Library.nat).isSome → (∀ x, (s.env.data? x).isSome → x.index ≠ d.id.index) →
      declare (.function d) s = .ok (r, s') → s'.env.function? d.id = some f →
      f.status = .done → ∃ tree, f.body = some (.tree tree) := by
  constructor
  · intro acceptsLevels inCase sort span params clauses n outcome m fromParams given done
    have known : Matching.Setting.Known (.named s.env) False
      ⟨s.env, s.config, acceptsLevels, inCase, sort⟩ := ⟨named, fun _ own => .inr own, .inr limit⟩
    refine ⟨Matching.compile_none_iff known fromParams given done, ?_⟩
    intro within old proper noInterval args values spare
    exact Matching.compile_noted_or_takes known fromParams given done within old proper noInterval
      values spare
  · intro d eliminated written r s' f body number apart done stored isDone
    exact declared_with_tree limit named number apart body done stored isDone

section Examples

open Library Surface

/-- The library names its own data types only. -/
theorem library_allowed {A : Allowance} (anything : ∀ d, A.definition d) (number : A.data nat)
    (interval : A.data interval) (path : A.data path) (fuel : Nat) :
    ∀ definition ∈ (Library.environment fuel).definitions.toList, definition.Allowed A := by
  simp [Library.environment, Library.natData, Library.zeroCon, Library.sucCon,
    Library.intervalData, Library.endCon, Library.pathData, Library.pathConstructor,
    Library.eqFunction, Library.atFunction, Library.coeFunction, Library.pathParams,
    Library.sectionType, Library.natType, Library.intervalType, Library.leftTerm,
    Library.rightTerm, Library.constant, Telescope.ofPairs, Definition.Allowed, Body.Allowed,
    Ends.Allowed, anything, number, interval, path]

theorem reserved_named (config : Config) (fuel : Nat) (name : String) :
    ((start config fuel).reserveFunction name).2.env.NamesData where
  definitions := by
    intro x definition _ found
    have found : ((Library.environment fuel).definitions.push
      (.function ⟨[], declared, none, false, .inProgress⟩))[x.index]? = some definition := found
    rw [Array.getElem?_push] at found
    split at found
    · cases found
      exact ⟨Telescope.allowed_nil, Term.allowed_note.mpr trivial, nofun⟩
    · refine library_allowed (fun _ => trivial) rfl rfl rfl fuel definition ?_
      exact Array.mem_toList_iff.mpr (Array.mem_of_getElem? found)
  data := fun _ own => ⟨trivial, .inl trivial⟩
  instances := fun _ _ _ => trivial
  metas := nofun

/-- Addition is declared with a tree. -/
theorem plus_with_tree : ∃ id s' f tree,
    declare (.function plusDecl) reservedPlus = .ok (.ok id, s') ∧
    s'.env.function? plus = some f ∧ f.status = .done ∧ f.body = some (.tree tree) := by
  have accepts : declaresWith (.function plusDecl) reservedPlus plus (fun definition =>
      definition.function?.any fun f => f.status = .done) = true := by
    decide +kernel
  have apart : ∀ x : DefId, (reservedPlus.env.data? x).isSome → x.index ≠ plus.index := by
    rintro ⟨i, name⟩ isData rfl
    cases isData
  obtain ⟨id, s', definition, accepted, stored, done⟩ := declaresWith_run accepts
  obtain ⟨f, isFunction, isDone⟩ := (Option.any_eq_true _ _).mp done
  have stored : s'.env.function? plus = some f := Option.bind_eq_some_iff.mpr ⟨_, stored, isFunction⟩
  have isDone := of_decide_eq_true isDone
  obtain ⟨tree, isTree⟩ := (never_silent (s := reservedPlus) (by decide)
    (reserved_named .standard 20 "plus")).2 plusDecl _ _ _ s' f rfl rfl apart accepted stored isDone
  exact ⟨id, s', f, tree, accepted, stored, isDone, isTree⟩

/-- The number before another one, without a word about those that have one. -/
def predDecl : FunctionDecl where
  span := .none
  id := plus
  params := [⟨.explicit, ⟨29, "n"⟩, .const .none nat⟩]
  result := some (.const .none nat)
  body := .clauses none [⟨.none, [.con .none zero []], some (.number .none 0)⟩]

/-- No missing clause may be listed. -/
def terse : Config := { Config.standard with missingLimit := 0 }

def reservedTersely : Session :=
  { ((start terse 20).reserveFunction "pred").2 with nextVar := 34 }

/-- With no room for missing clauses the compiler gives no tree and says nothing, and the function is
    accepted and stored as done without one. -/
theorem pred_silent : reservedTersely.env.NamesData ∧
    (∃ outcome m, Matching.compile ⟨reservedTersely.env, terse, true, false, none⟩ .none
      (Telescope.ofPairs [(⟨29, "n"⟩, natType)]) [⟨.none, [.ofCon zero []], some zeroTerm⟩] 34 =
        .ok (outcome, m) ∧ outcome.tree = none ∧ outcome.diagnostics = []) ∧
    ∃ id s' f, declare (.function predDecl) reservedTersely = .ok (.ok id, s') ∧
      s'.env.function? plus = some f ∧ f.status = .done ∧ f.body = none := by
  refine ⟨reserved_named terse 20 "pred", ⟨_, _, rfl, rfl, rfl⟩, ?_⟩
  have accepts : declaresWith (.function predDecl) reservedTersely plus (fun definition =>
      definition.function?.any fun f => decide (f.status = .done) && f.body.isNone) = true := by
    decide +kernel
  obtain ⟨id, s', definition, accepted, stored, done⟩ := declaresWith_run accepts
  obtain ⟨f, isFunction, done⟩ := (Option.any_eq_true _ _).mp done
  obtain ⟨isDone, bare⟩ := Bool.and_eq_true_iff.mp done
  exact ⟨id, s', f, accepted, Option.bind_eq_some_iff.mpr ⟨_, stored, isFunction⟩,
    of_decide_eq_true isDone, Option.isNone_iff_eq_none.mp bare⟩

end Examples

end Session

end PathTheory
