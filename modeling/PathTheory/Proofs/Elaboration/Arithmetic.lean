import PathTheory.Session
import PathTheory.Proofs.Elaboration.Truncation
import PathTheory.Proofs.Reduction.Counting
/-!
Arithmetic in a session, from the clauses of two functions to the numbers that their calls evaluate
to. Elaborating the clauses is a fixed run that leaves nothing to settle; what it stores are trees
whose calls reduce by the equations of addition and multiplication, and the rest is an induction on
the arguments.
-/
namespace PathTheory

open Library

namespace Surface

def Expr.call (f : DefId) (args : List Expr) : Expr :=
  .apply (.const .none f) (args.map fun e => (.explicit, e))

/-- A function by clauses from two numbers to a number. -/
def ofNumbers (id : DefId) (a b : Var) (eliminated : Option (List Var)) (clauses : List Clause) :
    FunctionDecl where
  span := ⟨0, 60⟩
  id
  params := [⟨.explicit, a, .const .none nat⟩, ⟨.explicit, b, .const .none nat⟩]
  result := some (.const .none nat)
  body := .clauses eliminated clauses

/-- By elimination of the second number: zero gives the first number, and a successor gives the
    successor of the sum with one less. -/
def plusClauses (id : DefId) (a b' : Var) : List Clause := [
  ⟨⟨30, 40⟩, [.con .none zero []], some (.var .none a)⟩,
  ⟨⟨41, 60⟩, [.con .none suc [.var b']],
    some (.call suc [.call id [.var .none a, .var .none b']])⟩]

/-- By matching both numbers: zero gives zero, and a successor adds the first number to the product
    with one less. -/
def timesClauses (plus id : DefId) (a b' : Var) : List Clause := [
  ⟨⟨30, 40⟩, [.var a, .number ⟨35, 36⟩ 0], some (.number .none 0)⟩,
  ⟨⟨41, 60⟩, [.var a, .con .none suc [.var b']],
    some (.call plus [.call id [.var .none a, .var .none b'], .var .none a])⟩]

def plusDecl (id : DefId) (a b b' : Var) : FunctionDecl :=
  ofNumbers id a b (some [b]) (plusClauses id a b')

def timesDecl (plus id : DefId) (a b b' : Var) : FunctionDecl :=
  ofNumbers id a b none (timesClauses plus id a b')

end Surface

open Surface (Expr FunctionDecl plusClauses timesClauses plusDecl timesDecl)

/-- A store that has met variables and nothing else. -/
def Store.over (Γ : Context) : Store := { Store.empty with context := Γ }

section Settling

variable (config : Config) (st : ElaborationState) (Γ : Context) (env : Environment) (n : Nat)

theorem Unify.reportUnsolved_over :
    reportUnsolved (.over Γ) env n = .ok ((((), .over Γ), env), n) := by
  have told : ∀ equations, equations = #[] → (do
      set { Store.over Γ with equations }
      (Store.over Γ).pending.forM reportEquation
      (← get).metas.toList.forM reportHole : Unify Unit) (.over Γ) env n =
        .ok ((((), .over Γ), env), n) := by
    rintro _ rfl
    rfl
  exact told _ Array.map_empty

theorem Unify.settle_over : settle (.over Γ) env n = .ok (((⟨[]⟩, .over Γ), env), n) := by
  have prepared : prepare (.over Γ) env n = .ok ((((), .over Γ), env), n) := rfl
  have solved : solveLevels (.over Γ) env n = .ok (((.ok ⟨[]⟩, .over Γ), env), n) := rfl
  rw [settle_eq]
  refine unify_then prepared (unify_then solved ?_)
  change (reportUnsolved >>= fun _ => pure ⟨[]⟩ : Unify LevelSolution) (.over Γ) env n = _
  exact unify_then (reportUnsolved_over Γ env n) rfl

/-- There is nothing to settle, and so there are no levels to put in. -/
theorem Elaborate.finish_over :
    finish config st (.over Γ) env n = .ok ((((⟨[]⟩, st), .over Γ), env), n) :=
  elaborate_then (lift_of (Unify.settle_over Γ env n)) rfl

end Settling

namespace Session

section Declarations

def freshVar (name : String) : StateT Session Checked Var := fun s =>
  .ok (⟨s.nextVar, name⟩, { s with nextVar := s.nextVar + 1 })

/-- Reserves the name, numbers the variables of the clauses, and declares the function. -/
def declareOfNumbers (name : String) (decl : DefId → Var → Var → Var → FunctionDecl) :
    StateT Session Checked (Except Failure DefId) := do
  let s ← get
  let (id, s) := s.reserveFunction name
  set s
  let a ← freshVar "a"
  let b ← freshVar "b"
  let b' ← freshVar "b'"
  declare (.function (decl id a b b'))

def declareArithmetic : StateT Session Checked (Except Failure (DefId × DefId)) := do
  match ← declareOfNumbers "plus" plusDecl with
  | .error failure => return .error failure
  | .ok plus => match ← declareOfNumbers "times" (timesDecl plus) with
    | .error failure => return .error failure
    | .ok times => return .ok (plus, times)

end Declarations

section Steps

variable {α β : Type} {s s' : Session}

theorem run_then {a : StateT Session Checked α} {x : α} (first : a s = .ok (x, s'))
    {f : α → StateT Session Checked β} {r : Checked (β × Session)} (rest : f x s' = r) :
    (a >>= f) s = r := by
  change (a s >>= fun r => f r.1 r.2) = _
  rw [first]
  exact rest

/-- Where nothing is reported, the session goes on with the environment and the next variable. -/
theorem elaborate_silent {e : Elaborate α} {x : α} {store : Store} {env : Environment} {n : Nat}
    (run : e s.config .start .empty s.env s.nextVar = .ok ((((x, .start), store), env), n)) :
    elaborate e s = .ok (x, { s with env, nextVar := n }) := by
  have same : s.diagnostics ++ [] = s.diagnostics := List.append_nil _
  change (e s.config .start .empty s.env s.nextVar >>= _) >>= _ = _
  rw [run]
  exact congrArg (fun diagnostics => Except.ok (x, { s with env, nextVar := n, diagnostics })) same

end Steps

section Functions

def plusId : DefId := ⟨11, "plus"⟩

def timesId : DefId := ⟨12, "times"⟩

def sum (t u : Term) : Term := .call plusId .set0 [t, u]

def product (t u : Term) : Term := .call timesId .set0 [t, u]

def first (v : Nat) : Var := ⟨v, "a"⟩

def second (v : Nat) : Var := ⟨v + 1, "b"⟩

/-- What the second number is the successor of, in a clause. -/
def lesser (v : Nat) : Var := ⟨v + 2, "b'"⟩

/-- What the second number is the successor of, in a tree. -/
def counter (v : Nat) : Var := ⟨v + 3, "n"⟩

def numbers (v : Nat) : Telescope := Telescope.ofPairs [(first v, natType), (second v, natType)]

/-- A function of two numbers; its variables are numbered from the given one on. -/
def numeric (v : Nat) (body : Option Body) (status : Status) : FunctionDef :=
  ⟨numbers v, natType, body, false, status⟩

/-- The second of two numbers is taken apart. -/
def recursion (v : Nat) (base step : Term) : Body :=
  .tree (.branch (Telescope.ofPairs [(first v, natType)]) [
    (.con zero, .leaf [] base),
    (.con suc, .leaf (Telescope.ofPairs [(counter v, natType)]) step)])

def plusBody (v : Nat) : Body :=
  let a := Term.ref (first v)
  recursion v a (sucOf (sum a (.ref (counter v))))

def timesBody (v : Nat) : Body :=
  let a := Term.ref (first v)
  recursion v zeroTerm (sum (product a (.ref (counter v))) a)

/-- A session with further functions behind the library. -/
def storing (fuel v : Nat) (functions : List (String × FunctionDef)) : Session where
  env :=
    let env := environment fuel
    { env with
      definitions := env.definitions ++ (functions.map fun f => .function f.2).toArray
      names := env.names ++ (functions.map Prod.fst).toArray }
  nextVar := v
  config := .standard
  diagnostics := []

def plusFunction : FunctionDef := numeric 29 (some (plusBody 29)) .done

def timesFunction : FunctionDef := numeric 33 (some (timesBody 33)) .done

def arithmetic (fuel : Nat) : Session :=
  storing fuel 37 [("plus", plusFunction), ("times", timesFunction)]

end Functions

section Runs

open Surface Elaborate

/-- What stands for a function whose type is not known yet. -/
def reservation : FunctionDef := ⟨[], declared, none, false, .inProgress⟩

/-- Typed clauses for two numbers. -/
def numericMatched (v : Nat) (clauses : List Matching.Clause) : Matched :=
  ⟨numbers v, natType, clauses, some .set0⟩

def plusTyped (v : Nat) : List Matching.Clause :=
  let a := Term.ref (first v)
  [⟨⟨30, 40⟩, [.binding (first v), .ofCon zero []], some a⟩,
    ⟨⟨41, 60⟩, [.binding (first v), .ofCon suc [.binding (lesser v)]],
      some (sucOf (sum a (.ref (lesser v))))⟩]

def timesTyped (v : Nat) : List Matching.Clause :=
  let a := Term.ref (first v)
  [⟨⟨30, 40⟩, [.binding (first v), .ofCon zero []], some zeroTerm⟩,
    ⟨⟨41, 60⟩, [.binding (first v), .ofCon suc [.binding (lesser v)]],
      some (sum (product a (.ref (lesser v))) a)⟩]

/-- The store has met the parameters, and in each clause what it binds. -/
def numericStore (v : Nat) : Store :=
  .over ([lesser v, first v, first v, second v, first v].map fun x => (x, natType))

theorem natType_zonk (env : Environment) : natType.zonk env [] = pure natType :=
  natType_substWith (Subst.rule env) (Subst.zonking.withLevels [])

/-- A function of two numbers is stored as its clauses are compiled, if nothing comes of them but a
    tree: then there is nothing to settle. -/
theorem numeric_elaborated {d : FunctionDecl} {eliminated : Option (List Var)} {written : List Clause}
    {clauses : List Matching.Clause} {body : Body} {env opened : Environment} {n m v : Nat}
    (isBody : d.body = .clauses eliminated written)
    (matched : d.matched eliminated written .standard .start .empty env n =
      .ok ((((numericMatched v clauses, .start), numericStore v), opened), n))
    (compiled : (numericMatched v clauses).compiled d.span .standard .start (numericStore v) opened n =
      .ok ((((some body, .start), numericStore v), opened), m))
    (zonks : zonkBody ⟨[]⟩ body .standard .start (numericStore v) opened m =
      .ok ((((body, .start), numericStore v), opened), m)) :
    d.elaborate .standard .start .empty env n = .ok ((((.ok d.id, .start), numericStore v),
      opened.set d.id (.function (numeric v (some body) .done))), m) := by
  rw [FunctionDecl.elaborate_eq isBody]
  refine elaborate_then matched (elaborate_then compiled ?_)
  refine elaborate_then (finish_over .standard .start _ opened m) ?_
  refine elaborate_then (x := numbers v) rfl ?_
  refine elaborate_then (reading_of (congrFun (natType_zonk opened) m)) ?_
  refine elaborate_then (x := some body) (elaborate_then (f := fun b => pure (some b)) zonks rfl) ?_
  rfl

/-- The name is reserved, and the variables of the clauses come next. -/
theorem declareOfNumbers_silent {name : String} {decl : DefId → Var → Var → Var → FunctionDecl}
    {s s' : Session} {id : DefId} {r : Except Failure DefId} {store : Store} {env : Environment}
    {m : Nat} (reserved : s.reserveFunction name = (id, s'))
    (run : (decl id (first s'.nextVar) (second s'.nextVar) (lesser s'.nextVar)).elaborate s'.config
      .start .empty s'.env (s'.nextVar + 3) = .ok ((((r, .start), store), env), m)) :
    declareOfNumbers name decl s = .ok (r, { s' with env, nextVar := m }) := by
  cases reserved
  exact elaborate_silent run

set_option maxRecDepth 2000 in
theorem plus_declared (fuel : Nat) :
    declareOfNumbers "plus" plusDecl (.start .standard (fuel + 6)) =
      .ok (.ok plusId, storing (fuel + 6) 33 [("plus", plusFunction)]) := by
  have reserved : (Session.start .standard (fuel + 6)).reserveFunction "plus" =
      (plusId, storing (fuel + 6) 29 [("plus", reservation)]) := rfl
  have matched : (plusDecl plusId (first 29) (second 29) (lesser 29)).matched (some [second 29])
      (plusClauses plusId (first 29) (lesser 29)) .standard .start .empty
      (storing (fuel + 6) 29 [("plus", reservation)]).env 32 =
        .ok ((((numericMatched 29 (plusTyped 29), .start), numericStore 29),
          (storing (fuel + 6) 29 [("plus", numeric 29 none .inProgress)]).env), 32) := rfl
  have compiled : (numericMatched 29 (plusTyped 29)).compiled ⟨0, 60⟩ .standard .start
      (numericStore 29) (storing (fuel + 6) 29 [("plus", numeric 29 none .inProgress)]).env 32 =
        .ok ((((some (plusBody 29), .start), numericStore 29),
          (storing (fuel + 6) 29 [("plus", numeric 29 none .inProgress)]).env), 33) := rfl
  exact declareOfNumbers_silent reserved (numeric_elaborated rfl matched compiled rfl)

set_option maxRecDepth 2000 in
theorem times_declared (fuel : Nat) :
    declareOfNumbers "times" (timesDecl plusId)
      (storing (fuel + 6) 33 [("plus", plusFunction)]) =
        .ok (.ok timesId, arithmetic (fuel + 6)) := by
  have reserved : (storing (fuel + 6) 33 [("plus", plusFunction)]).reserveFunction "times" =
      (timesId, storing (fuel + 6) 33 [("plus", plusFunction), ("times", reservation)]) := rfl
  have matched : (timesDecl plusId timesId (first 33) (second 33) (lesser 33)).matched none
      (timesClauses plusId timesId (first 33) (lesser 33)) .standard .start .empty
      (storing (fuel + 6) 33 [("plus", plusFunction), ("times", reservation)]).env 36 =
        .ok ((((numericMatched 33 (timesTyped 33), .start), numericStore 33),
          (storing (fuel + 6) 33 [("plus", plusFunction),
            ("times", numeric 33 none .inProgress)]).env), 36) := rfl
  have compiled : (numericMatched 33 (timesTyped 33)).compiled ⟨0, 60⟩ .standard .start
      (numericStore 33) (storing (fuel + 6) 33 [("plus", plusFunction),
        ("times", numeric 33 none .inProgress)]).env 36 =
          .ok ((((some (timesBody 33), .start), numericStore 33),
            (storing (fuel + 6) 33 [("plus", plusFunction),
              ("times", numeric 33 none .inProgress)]).env), 37) := rfl
  exact declareOfNumbers_silent reserved (numeric_elaborated rfl matched compiled rfl)

end Runs

section Evaluation

variable {s : Session} {e : Expr} {term type : Term}

/-- An expression whose type is inferred without a trace is the term with its type. -/
theorem elaborate_inferred
    (inferred : (Elaborate.judgeWith s.env.fuel).infer [] e s.config .start .empty s.env s.nextVar =
      .ok (((((term, type), .start), .empty), s.env), s.nextVar))
    (zonksTerm : term.zonk s.env [] = pure term) (zonksType : type.zonk s.env [] = pure type) :
    elaborate (e.elaborate none) s = .ok (.ok (term, type), s) := by
  have run : e.elaborate none s.config .start .empty s.env s.nextVar =
      .ok ((((.ok (term, type), .start), .empty), s.env), s.nextVar) := by
    refine Elaborate.elaborate_then rfl (Elaborate.elaborate_then inferred ?_)
    refine Elaborate.elaborate_then (Elaborate.finish_over s.config .start [] s.env s.nextVar) ?_
    refine Elaborate.elaborate_then (Elaborate.reading_of (congrFun zonksTerm s.nextVar)) ?_
    exact Elaborate.elaborate_then (Elaborate.reading_of (congrFun zonksType s.nextVar)) rfl
  exact elaborate_silent run

/-- The expression evaluates to the number, and the session stays as it is. -/
def EvaluatesTo (s : Session) (e : Expr) (m : Nat) : Prop :=
  ∃ value, evaluate e s = .ok (.ok value, s) ∧ value = numeral m ∧ asNumeral? value = some m

theorem evaluates_counted {fuel m : Nat}
    (elaborated : elaborate (e.elaborate none) s = .ok (.ok (term, type), s))
    (counts : Counts s.env fuel m term) (ample : fuel ≤ s.env.fuel) (more : m + 1 ≤ s.env.fuel) :
    EvaluatesTo s e m := by
  refine ⟨numeral m, ?_, rfl, asNumeral_numeral m⟩
  obtain ⟨extra, isFuel⟩ := Nat.le.dest more
  have normal : term.nf s.env s.nextVar = .ok (numeral m, s.nextVar) := by
    unfold Term.nf
    rw [← isFuel]
    exact counts.nf ample extra s.nextVar
  refine run_then elaborated (run_then (x := s) rfl ?_)
  exact run_then (x := (numeral m, s.nextVar)) (congrArg (· >>= fun r => pure (r, s)) normal) rfl

end Evaluation

section Numbers

variable (fuel : Nat)

theorem arithmetic_adds : (arithmetic fuel).env.Adds sum :=
  ⟨fun _ _ _ => rfl, fun _ _ _ _ => rfl⟩

theorem arithmetic_multiplies : (arithmetic fuel).env.Multiplies sum product := by
  refine ⟨fun t k n => rfl, fun t u k n => ?_⟩
  have unfolds : headStep? (arithmetic fuel).env (whnfWith (arithmetic fuel).env (k + 1))
      (product t (sucOf u)) n = .ok (some (sum (product t u) t), n) := rfl
  exact fresh_then unfolds rfl

theorem call_zonk (env : Environment) (f : DefId) (a b : Nat) :
    (Term.call f .set0 [numeral a, numeral b]).zonk env [] =
      pure (.call f .set0 [numeral a, numeral b]) := by
  unfold Term.zonk Subst.apply Term.substWith
  simp only [substTerms, numeral_substWith, Subst.sort_set0]
  rfl

/-- Numbers are elaborated to their numerals, whatever they are. -/
theorem call_elaborated {f : DefId} (own : f = plusId ∨ f = timesId) (a b : Nat) :
    elaborate ((Expr.call f [.number .none a, .number .none b]).elaborate none)
      (arithmetic (fuel + 6)) =
        .ok (.ok (.call f .set0 [numeral a, numeral b], natType), arithmetic (fuel + 6)) := by
  refine elaborate_inferred ?_ (call_zonk _ f a b) (natType_zonk _)
  rcases own with rfl | rfl
  · rfl
  · rfl

/-- **Arithmetic.** In a new session, addition and multiplication are declared by their clauses, and
    from then on a sum and a product of two numbers evaluate to the numeral of the result. However
    large the numbers are, that much fuel is enough for them. -/
theorem arithmetic_evaluates (fuel : Nat) (ample : 6 ≤ fuel) : ∃ plus times s,
    declareArithmetic (.start .standard fuel) = .ok (.ok (plus, times), s) ∧ ∀ a b : Nat,
      (a + b + 6 ≤ fuel →
        EvaluatesTo s (.call plus [.number .none a, .number .none b]) (a + b)) ∧
      (a * b + 2 * b + 6 ≤ fuel →
        EvaluatesTo s (.call times [.number .none a, .number .none b]) (a * b)) := by
  obtain ⟨extra, rfl⟩ := Nat.exists_eq_add_of_le' ample
  have declared : declareArithmetic (.start .standard (extra + 6)) =
      .ok (.ok (plusId, timesId), arithmetic (extra + 6)) :=
    run_then (plus_declared extra) (run_then (times_declared extra) rfl)
  have adds := arithmetic_adds (extra + 6)
  have multiplies := arithmetic_multiplies (extra + 6)
  refine ⟨plusId, timesId, _, declared, fun a b => ⟨fun enough => ?_, fun enough => ?_⟩⟩
  · have counts := adds.counts (.of_numeral _ a) b
    have few : 2 ≤ extra + 6 := by omega
    have many : a + b + 1 ≤ extra + 6 := by omega
    exact evaluates_counted (call_elaborated extra (.inl rfl) a b) counts few many
  · have counts := multiplies.counts adds a b
    have few : 2 * b + 2 ≤ extra + 6 := by omega
    have many : a * b + 1 ≤ extra + 6 := by omega
    exact evaluates_counted (call_elaborated extra (.inr rfl) a b) counts few many

theorem arithmetic_twelve : ∃ plus times s,
    declareArithmetic (.start .standard 100) = .ok (.ok (plus, times), s) ∧
      EvaluatesTo s (.call plus [.number .none 2, .number .none 3]) 5 ∧
      EvaluatesTo s (.call times [.number .none 3, .number .none 4]) 12 := by
  obtain ⟨plus, times, s, declared, evaluates⟩ := arithmetic_evaluates 100 (by decide)
  exact ⟨plus, times, s, declared, (evaluates 2 3).1 (by decide), (evaluates 3 4).2 (by decide)⟩

end Numbers

end Session

end PathTheory
