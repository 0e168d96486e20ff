import PathTheory.Proofs.Elaboration.Run
import PathTheory.Proofs.Matching.Truncation
/-!
Functions on truncated data. The compiler's demands on inferred levels go to the equation store,
which is settled before the function is stored; so if the universe of the result is known when the
clauses are compiled, the solution makes it at most as high as all truncated data that the stored
tree takes apart. Where that universe is not known nothing is asked, and the function may be accepted
all the same.
-/
namespace PathTheory

namespace Environment

/-- Constructors belong to the data type that lists them, and no sort of a data type is left to
    inference. -/
structure Orderly (env : Environment) : Prop where
  owner : ∀ data ∈ env.definitions.toList.filterMap Definition.data?, ∀ c ∈ data.constructors,
    ∀ con ∈ env.constructor? c, env.data? con.data = some data
  settled : ∀ data ∈ env.definitions.toList.filterMap Definition.data?,
    data.sort.h.hasInference = false

deriving instance DecidableEq for Binding, DataDef

instance (env : Environment) : Decidable env.Orderly :=
  decidable_of_iff (_ ∧ _) ⟨fun both => ⟨both.1, both.2⟩, fun both => ⟨both.owner, both.settled⟩⟩

theorem mem_of_data? {env : Environment} {d : DefId} {data : DataDef}
    (found : env.data? d = some data) :
    data ∈ env.definitions.toList.filterMap Definition.data? := by
  obtain ⟨definition, here, isData⟩ := Option.bind_eq_some_iff.mp found
  refine List.mem_filterMap.mpr ⟨definition, ?_, isData⟩
  exact Array.mem_toList_iff.mpr (Array.mem_of_getElem? here)

end Environment

theorem mem_substChildren {rule : HoleRule} {s : Subst} {children : List (Shape × CaseTree)}
    {result : List (Shape × CaseTree)} {n m : Nat}
    (done : substChildren rule s children n = .ok (result, m)) {shape : Shape} {child' : CaseTree}
    (member : (shape, child') ∈ result) : ∃ child k l, (shape, child) ∈ children ∧
      child.substWith rule s k = .ok (child', l) := by
  induction children generalizing result n with
  | nil =>
      cases fresh_pure done
      cases member
  | cons entry others ih =>
      obtain ⟨shape₀, child⟩ := entry
      unfold substChildren at done
      obtain ⟨first, k, here, done⟩ := fresh_bind done
      obtain ⟨rest, l, later, done⟩ := fresh_bind done
      cases fresh_pure done
      rcases List.mem_cons.mp member with same | member
      · cases same
        exact ⟨child, n, k, List.mem_cons_self, here⟩
      · obtain ⟨child, k', l', among, run⟩ := ih later member
        exact ⟨child, k', l', List.mem_cons_of_mem _ among, run⟩

section Shapes

variable {rule : HoleRule} {s : Subst} {tree : CaseTree} {n m : Nat}

theorem substWith_branch {params' : Telescope} {children' : List (Shape × CaseTree)}
    (done : tree.substWith rule s n = .ok (.branch params' children', m)) :
    ∃ params children inner k l, tree = .branch params children ∧
      substChildren rule inner children k = .ok (children', l) := by
  cases tree with
  | leaf params body =>
      obtain ⟨_, _, _, done⟩ := fresh_bind done
      obtain ⟨_, _, _, done⟩ := fresh_bind done
      cases fresh_pure done
  | branch params children =>
      obtain ⟨⟨_, inner⟩, k, _, done⟩ := fresh_bind done
      obtain ⟨_, l, run, done⟩ := fresh_bind done
      cases fresh_pure done
      exact ⟨params, children, inner, k, _, rfl, run⟩
  | interval params ends rest =>
      obtain ⟨_, _, _, done⟩ := fresh_bind done
      obtain ⟨_, _, _, done⟩ := fresh_bind done
      obtain ⟨_, _, _, done⟩ := fresh_bind done
      cases fresh_pure done

theorem substWith_interval {params' : Telescope} {ends' : List (Ends Term)} {rest' : CaseTree}
    (done : tree.substWith rule s n = .ok (.interval params' ends' (some rest'), m)) :
    ∃ params ends rest k l, tree = .interval params ends (some rest) ∧
      rest.substWith rule s k = .ok (rest', l) := by
  cases tree with
  | leaf params body =>
      obtain ⟨_, _, _, done⟩ := fresh_bind done
      obtain ⟨_, _, _, done⟩ := fresh_bind done
      cases fresh_pure done
  | branch params children =>
      obtain ⟨_, _, _, done⟩ := fresh_bind done
      obtain ⟨_, _, _, done⟩ := fresh_bind done
      cases fresh_pure done
  | interval params ends rest =>
      obtain ⟨_, _, _, done⟩ := fresh_bind done
      obtain ⟨_, _, _, done⟩ := fresh_bind done
      obtain ⟨_, _, run, done⟩ := fresh_bind done
      cases fresh_pure done
      cases rest with
      | none => cases fresh_pure run
      | some rest =>
          obtain ⟨_, _, inner, final⟩ := fresh_bind run
          cases fresh_pure final
          exact ⟨params, ends, rest, _, _, rfl, inner⟩

/-- A substitution leaves the shapes of a tree as they are. -/
theorem CaseTree.Splits.of_subst {c : DefId} {tree' : CaseTree} (splits : tree'.Splits c)
    (done : tree.substWith rule s n = .ok (tree', m)) : tree.Splits c := by
  induction splits generalizing s tree n m with
  | here member =>
      obtain ⟨params, children, inner, _, _, rfl, run⟩ := substWith_branch done
      obtain ⟨child, _, _, among, _⟩ := mem_substChildren run member
      exact .here among
  | deeper member splits ih =>
      obtain ⟨params, children, inner, _, _, rfl, run⟩ := substWith_branch done
      obtain ⟨child, _, _, among, below⟩ := mem_substChildren run member
      exact .deeper among (ih below)
  | rest splits ih =>
      obtain ⟨params, ends, rest, _, _, rfl, run⟩ := substWith_interval done
      exact .rest (ih run)

end Shapes

namespace Surface

open Elaborate

/-- A function given by clauses when these are about to be compiled. -/
structure Matched where
  params : Telescope
  result : Term
  clauses : List Matching.Clause
  -- the universe of the result, if it is known
  sort : Option Universe

variable {α : Type} {d : FunctionDecl}

/-- Elaboration up to the clauses. -/
def FunctionDecl.matched (d : FunctionDecl) (eliminated : Option (List Var))
    (written : List Clause) : Elaborate Matched := do
  let j ← judge
  inSignature true
  let (params, Γ, _) ← checkBinders j [] d.params
  let declared ← d.result.mapM fun e => return (← inferType j Γ e).1
  inSignature false
  let result ← match declared with
    | some result => pure result
    | none => unknownType Γ d.span
  setDefinition d.id (.function ⟨params, result, none, false, .inProgress⟩)
  let clauses ← checkClauses j Γ d.span params eliminated written result
  return ⟨params, result, clauses, ← sortOf result⟩

/-- The clauses compiled, if nothing has gone wrong before. -/
def Matched.compiled (found : Matched) (span : Span) : Elaborate (Option Body) := do
  if (← errorCount) ≠ 0 then return none
  return (← compile span found.params found.clauses found.sort false).map .tree

/-- Elaboration from the body on. -/
def FunctionDecl.stored (d : FunctionDecl) (found : Matched) (body : Option Body) :
    Elaborate (Except Failure DefId) := do
  let levels ← finish
  let params ← zonkTelescope levels found.params
  let result ← zonk levels found.result
  let body ← body.mapM (zonkBody levels)
  let status := if (← errorCount) = 0 then Status.done else .hasErrors
  setDefinition d.id (.function ⟨params, result, body, false, status⟩)
  conclude d.id.name d.id

theorem FunctionDecl.elaborate_eq {eliminated : Option (List Var)} {written : List Clause}
    (body : d.body = .clauses eliminated written) : d.elaborate = (do
      let found ← d.matched eliminated written
      let body ← found.compiled d.span
      d.stored found body) := by
  unfold FunctionDecl.elaborate FunctionDecl.matched FunctionDecl.stored Matched.compiled
  simp only [body, BodyExpr.elaborate, bind_assoc, pure_bind]
  refine bind_congr fun j => bind_congr fun _ => bind_congr fun opened => ?_
  refine bind_congr fun declared => bind_congr fun _ => ?_
  cases declared with
  | some result => simp only [bind_assoc, pure_bind]
  | none => simp only [bind_assoc, pure_bind]

section Run

variable {config : Config} {st st' : ElaborationState} {s s' : Store} {env env' : Environment}
  {n m : Nat}

theorem compiled_run {found : Matched} {span : Span} {tree : CaseTree}
    (done : found.compiled span config st s env n =
      .ok ((((some (.tree tree), st'), s'), env'), m)) : ∃ outcome k,
      Matching.compile ⟨env, config, true, false, found.sort⟩ span found.params found.clauses n =
        .ok (outcome, k) ∧ outcome.tree = some tree ∧ env' = env ∧
        s'.levels = s.levels.recordAll outcome.demands := by
  unfold Matched.compiled at done
  obtain ⟨count, st₁, s₁, env₁, k, counted, next⟩ := elaborate_bind done
  cases counted
  split at next
  · cases elaborate_pure next
  · obtain ⟨result, st₂, s₂, env₂, l, ran, final⟩ := elaborate_bind next
    have same := elaborate_pure final
    obtain ⟨outcome, k', run, rfl, rfl, levels, _⟩ := compile_run ran
    cases given : outcome.tree with
    | none =>
        rw [given] at same
        cases same
    | some tree' =>
        rw [given] at same
        cases same
        exact ⟨outcome, k', run, given, rfl, levels⟩

/-- A tree that has its levels put in takes the same constructors apart. -/
theorem splits_of_zonks {levels : LevelSolution} {body : Body} {tree' : CaseTree}
    (zonks : body.ZonksTo env levels (.tree tree')) :
    ∃ tree, body = .tree tree ∧ ∀ c, tree'.Splits c → tree.Splits c := by
  cases body with
  | term t => exact zonks.elim
  | tree tree =>
      obtain ⟨_, _, applied⟩ := zonks
      exact ⟨tree, rfl, fun c splits => splits.of_subst applied⟩

/-- What is stored of an accepted function, and the levels that it is stored at. -/
structure Stored (d : FunctionDecl) (found : Matched) (body : Option Body) (s : Store)
    (env : Environment) (levels : LevelSolution) (f : FunctionDef) (env' : Environment) :
    Prop where
  data : ∀ x data, env'.data? x = some data → env.data? x = some data
  constructors : ∀ x con, env'.constructor? x = some con → env.constructor? x = some con
  solved : ∃ e : LevelEquations, (∀ c ∈ s.levels.constraints, c ∈ e.constraints) ∧
    e.solve.run = .ok (.ok levels)
  result : ∃ k l, found.result.zonk env' levels.values k = .ok (f.result, l)
  shapes : ∀ tree', f.body = some (.tree tree') → ∃ tree, body = some (.tree tree) ∧
    ∀ c, tree'.Splits c → tree.Splits c

theorem stored_run {found : Matched} {body : Option Body} {id : DefId} {f : FunctionDef}
    (done : d.stored found body config st s env n = .ok ((((.ok id, st'), s'), env'), m))
    (isStored : env'.function? d.id = some f) :
    ∃ levels, Stored d found body s env levels f env' := by
  unfold FunctionDecl.stored at done
  obtain ⟨levels, st₁, s₁, env₁, _, finished, next⟩ := elaborate_bind done
  obtain ⟨params, st₂, s₂, env₂, _, zonkedParams, next⟩ := elaborate_bind next
  obtain ⟨result, st₃, s₃, env₃, _, zonked, next⟩ := elaborate_bind next
  obtain ⟨body', st₄, s₄, env₄, _, zonkedBody, next⟩ := elaborate_bind next
  obtain ⟨errors, st₅, s₅, env₅, _, counted, next⟩ := elaborate_bind next
  obtain ⟨_, st₆, s₆, env₆, _, put, next⟩ := elaborate_bind next
  cases counted
  cases put
  obtain ⟨_, _, rfl, verdict⟩ := conclude_run next
  obtain ⟨_, silent⟩ := verdict _ rfl
  obtain ⟨rfl, rfl, rfl, zonks⟩ := zonkBody?_run zonkedBody
  obtain ⟨rfl, rfl, rfl, applied⟩ := elaborate_reading zonked
  obtain ⟨rfl, rfl, rfl, _⟩ := zonkTelescope_run zonkedParams
  obtain ⟨definitions, settled⟩ := finish_settled finished
  cases Environment.function?_of_set isStored
  refine ⟨levels, ?_, ?_, ?_, ?_, ?_⟩
  · intro x data found
    have before := Environment.data?_of_set found
    rwa [Environment.data?, Environment.definition?, definitions] at before
  · intro x con found
    have before := Environment.constructor?_of_set found
    rwa [Environment.constructor?, Environment.definition?, definitions] at before
  · refine settled.resolve_right ?_
    rintro ⟨e, noted, isError⟩
    rw [silent e noted] at isError
    cases isError
  · exact ⟨_, _, (congrFun (Term.zonk_set _ _ _ _ _) _).trans applied⟩
  · intro tree' isTree
    obtain ⟨before, isBody, zonked⟩ := zonks _ isTree
    obtain ⟨tree, rfl, splits⟩ := splits_of_zonks zonked
    exact ⟨tree, isBody, splits⟩

end Run

/-- If the universe of the result is known when the clauses of an accepted function are compiled,
    then at the levels that it is stored with this universe is at most as high as every truncated
    data type that its tree takes apart. -/
theorem elaborate_truncated {d : FunctionDecl} {eliminated : Option (List Var)}
    {written : List Clause} (body : d.body = .clauses eliminated written) {config : Config}
    {st st₁ st₂ : ElaborationState} {s s₁ s₂ : Store} {env env₁ env₂ : Environment}
    {n n₁ n₂ : Nat} {found : Matched} {result : Universe}
    (matched : d.matched eliminated written config st s env n =
      .ok ((((found, st₁), s₁), env₁), n₁))
    (orderly : env₁.Orderly) (known : found.sort = some result) {id : DefId}
    (accepted : d.elaborate config st s env n = .ok ((((.ok id, st₂), s₂), env₂), n₂))
    {f : FunctionDef} {tree : CaseTree} (isStored : env₂.function? d.id = some f)
    (byCases : f.body = some (.tree tree)) :
    ∃ levels : LevelSolution, (∀ c ∈ s₁.levels.constraints, levels.satisfies c = .ok true) ∧
      (∃ k l, found.result.zonk env₂ levels.values k = .ok (f.result, l)) ∧
      ∀ c con data, tree.Splits c → env₂.constructor? c = some con →
        env₂.data? con.data = some data → data.truncated = true →
        ∀ h, levels.level result.h = .ok h → h.holds data.sort.h .le = .ok true := by
  rw [d.elaborate_eq body] at accepted
  obtain ⟨found', st₁', s₁', env₁', n₁', first, next⟩ := elaborate_bind accepted
  cases matched.symm.trans first
  obtain ⟨body', st₃, s₃, env₃, n₃, compiled, stored⟩ := elaborate_bind next
  obtain ⟨levels, stored⟩ := stored_run stored isStored
  obtain ⟨compiledTree, isTree, splits⟩ := stored.shapes tree byCases
  cases isTree
  obtain ⟨outcome, _, run, given, rfl, demanded⟩ := compiled_run compiled
  have guards := Matching.compile_guards run given
  obtain ⟨e, among, solved⟩ := stored.solved
  obtain ⟨satisfied, _⟩ := LevelEquations.solve_satisfies solved
  refine ⟨levels, fun c listed => ?_, stored.result, ?_⟩
  · apply satisfied c (Array.mem_toList_iff.mpr (among c _))
    rw [demanded]
    exact LevelEquations.recordAll_constraints _ listed
  · intro c con data split isCon isData truncated h level
    obtain ⟨d', data', isData', listed, suits⟩ := guards c (splits c split)
    have member := Environment.mem_of_data? isData'
    have owner := orderly.owner data' member c listed con (stored.constructors c con isCon)
    cases owner.symm.trans (stored.data _ _ isData)
    refine (suits truncated result known).solved (orderly.settled data member) (fun asked => ?_)
      solved level
    obtain ⟨span, recorded⟩ := LevelEquations.recordAll_demanded (e := s₁.levels) asked
    refine ⟨span, among _ ?_⟩
    rw [demanded]
    exact recorded

/-- Truth values that nothing but propositions may be made from by cases, and boxes around elements
    of a type, each in a universe of its own. -/
def bitData : DefId := ⟨11, "Bit"⟩

def bitTrue : DefId := ⟨12, "t"⟩

def bitFalse : DefId := ⟨13, "f"⟩

def boxData : DefId := ⟨14, "Box"⟩

def boxCon : DefId := ⟨15, "box"⟩

def choice : DefId := ⟨16, "choice"⟩

def bits : Environment :=
  let library := Library.environment 20
  let type : Var := ⟨29, "A"⟩
  { library with
    definitions := library.definitions ++ #[
      .data ⟨[], .prop, [bitTrue, bitFalse], true, false⟩,
      .constructor ⟨bitData, [], 0⟩,
      .constructor ⟨bitData, [], 0⟩,
      .data ⟨[⟨.explicit, type, .univ .std⟩], .std, [boxCon], false, false⟩,
      .constructor ⟨boxData, [⟨.explicit, ⟨30, "x"⟩, .ref type⟩], 0⟩,
      .function ⟨[], .error "declared" none, none, false, .inProgress⟩]
    names := library.names ++ #["Bit", "t", "f", "Box", "box", "choice"] }

def bitClauses (ofTrue ofFalse : Expr) : List Clause :=
  [⟨.none, [.con .none bitTrue []], some ofTrue⟩, ⟨.none, [.con .none bitFalse []], some ofFalse⟩]

def byBit (result : Option Expr) (ofTrue ofFalse : Expr) : FunctionDecl where
  span := .none
  id := choice
  params := [⟨.explicit, ⟨31, "b"⟩, .const .none bitData⟩]
  result := result
  body := .clauses none (bitClauses ofTrue ofFalse)

/-- Accepted, stored with a tree that takes truth values apart, and good in one more way. -/
def FunctionDecl.acceptedByBit (d : FunctionDecl) (n : Nat)
    (good : Environment → Nat → FunctionDef → DataDef → Bool) : Bool :=
  match d.elaborate .standard .start .empty bits n with
  | .ok ((((.ok _, _), _), env), m) =>
      match env.function? choice, (env.constructor? bitTrue).bind fun con => env.data? con.data with
      | some f, some data => match f.body with
        | some (.tree (.branch _ ((.con c, _) :: _))) =>
            decide (c = bitTrue ∧ data.truncated = true) && good env m f data
        | _ => false
      | _, _ => false
  | _ => false

theorem acceptedByBit_stored {d : FunctionDecl} {n : Nat}
    {good : Environment → Nat → FunctionDef → DataDef → Bool}
    (accepted : d.acceptedByBit n good = true) : ∃ id st s env m f tree con data,
      d.elaborate .standard .start .empty bits n = .ok ((((.ok id, st), s), env), m) ∧
        env.function? choice = some f ∧ f.body = some (.tree tree) ∧ tree.Splits bitTrue ∧
        env.constructor? bitTrue = some con ∧ env.data? con.data = some data ∧
        data.truncated = true ∧ good env m f data = true := by
  unfold FunctionDecl.acceptedByBit at accepted
  split at accepted
  · rename_i id st s env m run
    split at accepted
    · rename_i f data isStored isData
      split at accepted
      · rename_i params c child others byCases
        obtain ⟨con, isCon, isData⟩ := Option.bind_eq_some_iff.mp isData
        simp only [Bool.and_eq_true, decide_eq_true_eq] at accepted
        obtain ⟨⟨rfl, truncated⟩, isGood⟩ := accepted
        exact ⟨id, st, s, env, m, f, _, con, data, run, isStored, byCases,
          .here List.mem_cons_self, isCon, isData, truncated, isGood⟩
      · cases accepted
    · cases accepted
  · cases accepted

/-- Negation of truth values; the result type is left to inference. -/
def negation : FunctionDecl := byBit none (.const .none bitFalse) (.const .none bitTrue)

/-- Its result is known to live in the universe when its clauses are compiled. -/
def FunctionDecl.matchedAt (d : FunctionDecl) (n : Nat) (clauses : List Clause)
    (result : Universe) : Bool :=
  match d.matched none clauses .standard .start .empty bits n with
  | .ok ((((found, _), _), env), _) => decide (found.sort = some result ∧ env.Orderly)
  | .error _ => false

theorem negation_truncated : ∃ id st s env n f tree,
    negation.elaborate .standard .start .empty bits 32 = .ok ((((.ok id, st), s), env), n) ∧
      env.function? choice = some f ∧ f.body = some (.tree tree) ∧ tree.Splits bitTrue ∧
      ∃ levels : LevelSolution, ∀ h, levels.level (.ofVar (.infer 1 .homotopy)) = .ok h →
        h.holds .prop .le = .ok true := by
  have accepted : negation.acceptedByBit 32
      (fun _ _ _ data => decide (data.sort = .prop)) = true := by
    decide +kernel
  obtain ⟨id, st, s, env, n, f, tree, con, data, run, isStored, byCases, splits, isCon, isData,
    truncated, sort⟩ := acceptedByBit_stored accepted
  have matched : negation.matchedAt 32 (bitClauses (.const .none bitFalse) (.const .none bitTrue))
      ⟨.ofVar (.infer 0 .predicative), .ofVar (.infer 1 .homotopy)⟩ = true := by
    decide +kernel
  unfold FunctionDecl.matchedAt at matched
  split at matched
  · rename_i found st₁ s₁ env₁ n₁ first
    obtain ⟨known, orderly⟩ := of_decide_eq_true matched
    obtain ⟨levels, _, _, low⟩ := elaborate_truncated rfl first orderly known run isStored byCases
    refine ⟨id, st, s, env, n, f, tree, run, isStored, byCases, splits, levels, fun h level => ?_⟩
    have fits := low bitTrue con data splits isCon isData truncated h level
    rwa [of_decide_eq_true sort] at fits
  · cases matched

def boxOfNat : Expr := .app .none (.const .none boxData) [(.explicit, .const .none Library.nat)]

def boxed (n : Nat) : Expr := .app .none (.const .none boxCon) [(.explicit, .number .none n)]

/-- Two boxes of numbers chosen by a truth value. Their types are in universes of their own, of which
    there is no maximum, so nothing is asked of the result, although it is a set. -/
def pick : FunctionDecl := byBit
  (some (.sigma .none [⟨.explicit, ⟨32, "x"⟩, boxOfNat⟩, ⟨.explicit, ⟨33, "y"⟩, boxOfNat⟩]))
  (.tuple .none [boxed 0, boxed 0]) (.tuple .none [boxed 1, boxed 1])

/-- The result lives above the data. -/
def tooHigh (env : Environment) (n : Nat) (f : FunctionDef) (data : DataDef) : Bool :=
  match (f.result.sortOf? env []).run n with
  | .ok (some u, _) => decide (u.h.holds data.sort.h .le = .ok false)
  | _ => false

theorem pick_too_high : ∃ id st s env n f tree con data,
    pick.elaborate .standard .start .empty bits 34 = .ok ((((.ok id, st), s), env), n) ∧
      env.function? choice = some f ∧ f.body = some (.tree tree) ∧ tree.Splits bitTrue ∧
      env.constructor? bitTrue = some con ∧ env.data? con.data = some data ∧
      data.truncated = true ∧ ∃ u m, (f.result.sortOf? env []).run n = .ok (some u, m) ∧
        u.h.holds data.sort.h .le = .ok false := by
  have accepted : pick.acceptedByBit 34 tooHigh = true := by
    decide +kernel
  obtain ⟨id, st, s, env, n, f, tree, con, data, run, isStored, byCases, splits, isCon, isData,
    truncated, high⟩ := acceptedByBit_stored accepted
  unfold tooHigh at high
  split at high
  · rename_i u m sorted
    exact ⟨id, st, s, env, n, f, tree, con, data, run, isStored, byCases, splits, isCon, isData,
      truncated, u, m, sorted, of_decide_eq_true high⟩
  · cases high

end Surface

end PathTheory
