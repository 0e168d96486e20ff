import PathTheory.Proofs.Elaboration.Levels
import PathTheory.Proofs.Matching.Agreement
/-!
Clauses that are checked and then compiled. What the elaborator accepts as a pattern is typed, in the
environment in which the clause has its turn; so the compiler, which looks at the same patterns later
and behind constructors of its own, finds them to be patterns for the types of their columns.
-/
namespace PathTheory

/-- If the constructor belongs to a data type, then that one lists it. -/
def Environment.Lists (env : Environment) (c : DefId) : Prop := ∀ con data,
  env.constructor? c = some con → env.data? con.data = some data → c ∈ data.constructors

namespace Pattern

variable {env : Environment}

mutual

/-- A pattern without absurd ones in it, of constructors that belong to their data types, over
    variables older than the counter. -/
def Plain (env : Environment) (n : Nat) : Pattern → Prop
  | binding x => x.id < n
  | shaped (.con c) args => env.Lists c ∧ RowPlain env n args
  | shaped (.tuple _) args => RowPlain env n args
  | absurd => False

def RowPlain (env : Environment) (n : Nat) : List Pattern → Prop
  | [] => True
  | p :: row => Plain env n p ∧ RowPlain env n row

end

mutual

theorem Plain.mono {n m : Nat} (order : n ≤ m) : ∀ {p : Pattern}, p.Plain env n → p.Plain env m
  | binding _, old => Nat.lt_of_lt_of_le old order
  | shaped (.con _) _, ⟨lists, plain⟩ => ⟨lists, RowPlain.mono order plain⟩
  | shaped (.tuple _) _, plain => RowPlain.mono order plain
  | absurd, impossible => impossible

theorem RowPlain.mono {n m : Nat} (order : n ≤ m) : ∀ {row : List Pattern},
    RowPlain env n row → RowPlain env m row
  | [], _ => trivial
  | _ :: _, ⟨here, later⟩ => ⟨here.mono order, later.mono order⟩

end

end Pattern

/-- Where everything is in scope, a pattern that is accepted is typed, and the environment stays as it
    is. -/
def PatternCheck.Types (env : Environment) (check : PatternCheck) : Prop :=
  ∀ {config : Config} {Γ Γ' : Context} {type term : Term} {p : Pattern} {st st' : ElaborationState}
    {s s' : Store} {env' : Environment} {n m : Nat},
    env.Within (fun _ => True) n → type.Below n → p.Plain env n →
    check Γ type config st s env n = .ok ((((some (Γ', p, term), st'), s'), env'), m) →
    env' = env ∧ n ≤ m ∧ term.Below m ∧ ∃ faced, p.Typed env type term faced

namespace Elaborate

open Surface (Pat)

variable {config : Config} {Γ Γ' : Context} {st st' : ElaborationState} {s s' : Store}
  {env env' : Environment} {n m : Nat} {type term : Term} {p : Pattern} {patterns : List Pattern}
  {parts : List PatternCheck} {params : Telescope} {u : Subst} {terms : List Term}

section Patterns

theorem reportNothing_none {α : Type} {span : Span} {problem : Problem} {found : Option α}
    (done : reportNothing span problem config st s env n = .ok ((((found, st'), s'), env'), m)) :
    found = none := by
  obtain ⟨_, _, _, _, _, _, final⟩ := elaborate_bind done
  cases elaborate_pure final
  rfl

theorem foreign_none {α : Type} {span : Span} {name : String} {head : Term} {found : Option α}
    (done : (do reportNothing span (.expectedConstructor name (← head.text)) :
      Elaborate (Option α)) config st s env n = .ok ((((found, st'), s'), env'), m)) :
    found = none := by
  obtain ⟨_, _, _, _, _, _, reported⟩ := elaborate_bind done
  exact reportNothing_none reported

theorem bind_run {x : Var} (done : bind Γ x type config st s env n =
    .ok ((((Γ', st'), s'), env'), m)) : Γ' = (x, type) :: Γ ∧ st' = st ∧ env' = env ∧ m = n := by
  obtain ⟨_, _, _, _, _, bound, final⟩ := elaborate_bind done
  cases elaborate_pure final
  obtain ⟨rfl, run⟩ := elaborate_lift bound
  cases run
  exact ⟨rfl, rfl, rfl, rfl⟩

theorem below_within (below : term.Below n) : term.Within (fun _ => True) n :=
  ⟨below, fun _ _ => trivial⟩

/-- Components are typed one after the other, each against a type over the ones before it. -/
theorem checkParts_typed (known : env.Within (fun _ => True) n) (below : Telescope.Below n params)
    (put : u.Within (fun _ => True) n) (each : ∀ part ∈ parts, part.Types env)
    (arity : parts.length = params.length) (plain : Pattern.RowPlain env n patterns)
    (done : checkParts params parts u Γ config st s env n =
      .ok ((((some (Γ', patterns, terms), st'), s'), env'), m)) :
    env' = env ∧ n ≤ m ∧ (∀ t ∈ terms, t.Below m) ∧
      ∃ faced, Pattern.RowTyped env patterns params u terms faced := by
  induction params generalizing parts u Γ st s n patterns terms with
  | nil =>
      cases parts with
      | nil =>
          cases elaborate_pure done
          exact ⟨rfl, Nat.le_refl _, List.forall_mem_nil _, [], .nil u⟩
      | cons part parts => cases arity
  | cons b rest ih =>
      cases parts with
      | nil => cases arity
      | cons part parts =>
          obtain ⟨⟨_, belowHere⟩, belowRest⟩ := List.forall_mem_cons.mp below
          obtain ⟨here, others⟩ := List.forall_mem_cons.mp each
          unfold checkParts at done
          obtain ⟨type, _, _, _, k, substituted, next⟩ := elaborate_bind done
          obtain ⟨rfl, rfl, rfl, applied⟩ := elaborate_reading substituted
          obtain ⟨order, typeIn, reading⟩ :=
            put.yields ⟨belowHere, fun _ _ => .inl trivial⟩ _ _ applied
          obtain ⟨first, st₁, s₁, env₁, l, checked, next⟩ := elaborate_bind next
          cases first with
          | none => cases elaborate_pure next
          | some r =>
              obtain ⟨Γ₁, p, term⟩ := r
              obtain ⟨found, _, _, _, _, later, final⟩ := elaborate_bind next
              cases found with
              | none => cases elaborate_pure final
              | some r =>
                  obtain ⟨Γ₂, patterns', terms'⟩ := r
                  cases elaborate_pure final
                  obtain ⟨plainHere, plainRest⟩ := plain
                  obtain ⟨rfl, order', termBelow, faced, typed⟩ := here (known.mono order)
                    typeIn.below (plainHere.mono order) checked
                  have low := order.trans order'
                  have put := (put.mono low).add (x := b.var) (below_within termBelow)
                  obtain ⟨rfl, order'', termsBelow, others, rows⟩ := ih (known.mono low)
                    (Telescope.Below.mono belowRest low) put others (Nat.succ.inj arity)
                    (plainRest.mono low) later
                  exact ⟨rfl, low.trans order'', List.forall_mem_cons.mpr
                    ⟨termBelow.mono order'', termsBelow⟩, faced ++ others, .cons reading typed rows⟩

theorem checkCon_types (span : Span) (c : DefId) (each : ∀ part ∈ parts, part.Types env) :
    (checkCon span c parts).Types env := by
  intro config Γ Γ' type term p st st' s s' env' n m known below plain done
  unfold checkCon at done
  obtain ⟨_, _, _, _, _, ask, looking⟩ := elaborate_bind done
  cases ask
  obtain ⟨head, _, _, env₁, k, shown, matched⟩ := elaborate_bind looking
  obtain ⟨rfl, rfl, rfl, reduced⟩ := elaborate_reading shown
  obtain ⟨order, headIn⟩ := Term.whnf_within known _ _ (Nat.le_refl n) (below_within below) _ _ reduced
  cases defined : env₁.constructor? c with
  | none =>
      rw [defined] at matched
      cases head <;> cases foreign_none matched
  | some con =>
      rw [defined] at matched
      cases head with
      | data d levels args =>
          dsimp only at matched
          cases isData : env₁.data? d with
          | none =>
              rw [isData] at matched
              cases foreign_none matched
          | some data =>
              rw [isData] at matched
              dsimp only at matched
              split at matched
              · cases foreign_none matched
              · rename_i own
                split at matched
                · cases reportNothing_none matched
                · rename_i enough
                  split at matched
                  · cases reportNothing_none matched
                  · rename_i fits
                    obtain ⟨found, _, _, _, _, parted, final⟩ := elaborate_bind matched
                    cases found with
                    | none => cases elaborate_pure final
                    | some r =>
                        obtain ⟨Γ₁, patterns, terms⟩ := r
                        cases elaborate_pure final
                        obtain ⟨lists, plain⟩ := plain
                        have argsIn := Term.within_data.mp headIn
                        have put := (Subst.within_empty.bind data.params argsIn).addStd levels
                        have low := known.mono order
                        obtain ⟨rfl, order', termsBelow, faced, rows⟩ := checkParts_typed low
                          (low.constructors c con defined) put each (by omega) (plain.mono order)
                          parted
                        refine ⟨rfl, order.trans order', Term.below_con.mpr ⟨fun a member =>
                          (argsIn a member).below.mono order', termsBelow⟩, type :: faced, ?_⟩
                        have member := lists con data defined (not_not.mp own ▸ isData)
                        exact .con (Term.reduces known below reduced) isData defined member rows
      | _ => cases foreign_none matched

theorem checkTuplePattern_types (span : Span) (each : ∀ part ∈ parts, part.Types env) :
    (checkTuplePattern span parts).Types env := by
  intro config Γ Γ' type term p st st' s s' env' n m known below plain done
  unfold checkTuplePattern at done
  obtain ⟨head, _, _, env₁, k, shown, matched⟩ := elaborate_bind done
  obtain ⟨rfl, rfl, rfl, reduced⟩ := elaborate_reading shown
  obtain ⟨order, headIn⟩ := Term.whnf_within known _ _ (Nat.le_refl n) (below_within below) _ _ reduced
  dsimp only at matched
  split at matched
  · rename_i params
    split at matched
    · cases foreign_none matched
    · rename_i arity
      obtain ⟨found, _, _, _, _, parted, final⟩ := elaborate_bind matched
      cases found with
      | none => cases elaborate_pure final
      | some r =>
          obtain ⟨Γ₁, patterns, terms⟩ := r
          cases elaborate_pure final
          have low := known.mono order
          obtain ⟨rfl, order', termsBelow, faced, rows⟩ := checkParts_typed low
            (Term.below_sigma.mp headIn.below) Subst.within_empty each (not_not.mp arity).symm
            (plain.mono order) parted
          refine ⟨rfl, order.trans order', Term.below_tuple.mpr
            ⟨termsBelow, headIn.below.mono order'⟩, type :: faced, ?_⟩
          have typed := Pattern.Typed.tuple (Term.reduces known below reduced) rows
          rwa [← rows.length] at typed
  · cases foreign_none matched

theorem checkNumber_types (span : Span) (k : Nat) : (checkNumber span k).Types env := by
  induction k with
  | zero => exact checkCon_types span _ (List.forall_mem_nil _)
  | succ k ih => exact checkCon_types span _ (List.forall_mem_singleton.mpr ih)

theorem checkVar_types (x : Var) : (checkPattern (.var x)).Types env := by
  intro config Γ Γ' type term p st st' s s' env' n m known below plain done
  obtain ⟨Γ₁, _, _, _, _, bound, final⟩ := elaborate_bind done
  obtain ⟨rfl, rfl, rfl, rfl⟩ := bind_run bound
  cases elaborate_pure final
  exact ⟨rfl, Nat.le_refl _, Term.below_ref.mpr plain, [], .binding x type⟩

theorem checkAbsurd_types (span : Span) : (checkPattern (.absurd span)).Types env := by
  intro config Γ Γ' type term p st st' s s' env' n m known below plain done
  cases elaborate_pure done
  exact plain.elim

mutual

theorem checkPattern_types : ∀ pat : Pat, (checkPattern pat).Types env
  | .var x => checkVar_types x
  | .absurd span => checkAbsurd_types span
  | .number span k => checkNumber_types span k
  | .con span c args => checkCon_types span c (checkPatterns_types args)
  | .tuple span args => checkTuplePattern_types span (checkPatterns_types args)

theorem checkPatterns_types : ∀ pats : List Pat, ∀ part ∈ checkPatterns pats, part.Types env
  | [] => List.forall_mem_nil _
  | pat :: rest => List.forall_mem_cons.mpr ⟨checkPattern_types pat, checkPatterns_types rest⟩

end

end Patterns

section Rows

/-- A row that goes on behind its first pattern is typed if what follows is. -/
theorem checkRow_next_typed {isMatched : Binding Term → Bool} {b : Binding Term} {pat : Pat}
    {rest : Telescope} {others : List Pat} {u' : Subst}
    (known : env.Within (fun _ => True) n) (below : Telescope.Below n rest)
    (put : u.Within (fun _ => True) n) (typeBelow : type.Below n)
    (reading : type.reading = b.type.reading.inst u.onUniverse fun z => (u.image z).reading)
    (plain : Pattern.RowPlain env n patterns)
    (later : ∀ {Γ : Context} {u : Subst} {st : ElaborationState} {s : Store} {n : Nat}
      {patterns : List Pattern}, env.Within (fun _ => True) n → Telescope.Below n rest →
        u.Within (fun _ => True) n → Pattern.RowPlain env n patterns →
        checkRow rest isMatched others u Γ config st s env n =
          .ok ((((some (Γ', patterns, u'), st'), s'), env'), m) →
        ∃ terms faced, Pattern.RowTyped env patterns rest u terms faced)
    (done : (do
      match ← checkPattern pat Γ type with
      | none => return none
      | some (Γ, pattern, term) => do
          match ← checkRow rest isMatched others (u.add b.var term) Γ with
          | none => return none
          | some (Γ, patterns, s) => return some (Γ, pattern :: patterns, s) :
      Elaborate (Option (Context × List Pattern × Subst))) config st s env n =
        .ok ((((some (Γ', patterns, u'), st'), s'), env'), m)) :
    ∃ terms faced, Pattern.RowTyped env patterns (b :: rest) u terms faced := by
  obtain ⟨first, st₁, s₁, env₁, l, checked, next⟩ := elaborate_bind done
  cases first with
  | none => cases elaborate_pure next
  | some r =>
      obtain ⟨Γ₁, p, term⟩ := r
      obtain ⟨found, _, _, _, _, following, final⟩ := elaborate_bind next
      cases found with
      | none => cases elaborate_pure final
      | some r =>
          obtain ⟨Γ₂, patterns', u₂⟩ := r
          cases elaborate_pure final
          obtain ⟨plainHere, plainRest⟩ := plain
          obtain ⟨rfl, order, termBelow, faced, typed⟩ :=
            checkPattern_types pat known typeBelow plainHere checked
          obtain ⟨terms, others, rows⟩ := later (known.mono order)
            (Telescope.Below.mono below order) ((put.mono order).add (below_within termBelow))
            (plainRest.mono order) following
          exact ⟨term :: terms, faced ++ others, .cons reading typed rows⟩

/-- A row is typed pattern by pattern, those that are written and those that are filled in. -/
theorem checkRow_typed {isMatched : Binding Term → Bool} {pats : List Pat} {u' : Subst}
    (known : env.Within (fun _ => True) n) (below : Telescope.Below n params)
    (put : u.Within (fun _ => True) n) (plain : Pattern.RowPlain env n patterns)
    (done : checkRow params isMatched pats u Γ config st s env n =
      .ok ((((some (Γ', patterns, u'), st'), s'), env'), m)) :
    ∃ terms faced, Pattern.RowTyped env patterns params u terms faced := by
  induction params generalizing pats u Γ st s n patterns with
  | nil =>
      cases elaborate_pure done
      exact ⟨[], [], .nil _⟩
  | cons b rest ih =>
      obtain ⟨⟨_, belowHere⟩, belowRest⟩ := List.forall_mem_cons.mp below
      unfold checkRow at done
      obtain ⟨type, st₀, s₀, env₀, k, substituted, next⟩ := elaborate_bind done
      obtain ⟨rfl, rfl, rfl, applied⟩ := elaborate_reading substituted
      obtain ⟨order, typeIn, reading⟩ := put.yields ⟨belowHere, fun _ _ => .inl trivial⟩ _ _ applied
      -- whichever pattern stands here
      cases isMatched b <;> cases pats <;>
        exact checkRow_next_typed (known.mono order) (Telescope.Below.mono belowRest order)
          (put.mono order) typeIn.below reading (plain.mono order) ih next

/-- The patterns of a clause that is accepted are typed against the parameters. -/
theorem checkClause_typed {j : Judge} {isMatched : Binding Term → Bool} {result : Term}
    {clause : Surface.Clause} {found : Matching.Clause} (known : env.Within (fun _ => True) n)
    (below : Telescope.Below n params) (plain : Pattern.RowPlain env n found.patterns)
    (done : checkClause j Γ params isMatched result clause config st s env n =
      .ok ((((some found, st'), s'), env'), m)) :
    ∃ terms faced, Pattern.RowTyped env found.patterns params .empty terms faced := by
  unfold checkClause at done
  split at done
  · cases reportNothing_none done
  · split at done
    · cases reportNothing_none done
    · obtain ⟨row, _, _, _, _, checked, next⟩ := elaborate_bind done
      cases row with
      | none => cases elaborate_pure next
      | some r =>
          obtain ⟨Γ₁, patterns, u⟩ := r
          obtain ⟨type, _, _, _, _, _, next⟩ := elaborate_bind next
          obtain ⟨body, _, _, _, _, _, final⟩ := elaborate_bind next
          cases elaborate_pure final
          exact checkRow_typed known below Subst.within_empty plain checked

end Rows

section Turns

variable {j : Judge} {result : Term} {eliminated : Option (List Var)} {written : List Surface.Clause}
  {c : Moment} {found : List Matching.Clause}

/-- Whether patterns are written for a parameter: if it is among those that are eliminated, or
    explicit where none are named. -/
def matchedBy (eliminated : Option (List Var)) (b : Binding Term) : Bool := match eliminated with
  | some xs => xs.contains b.var
  | none => b.mode == .explicit

/-- Clauses have their turns one after the other. One of them has its turn at a moment, when the
    counter is the last number, and is accepted. -/
inductive Turn (check : Surface.Clause → Elaborate (Option Matching.Clause)) (config : Config) :
    List Surface.Clause → Moment → Nat → Moment → Nat → Matching.Clause → Prop
  | here {clause : Surface.Clause} {rest : List Surface.Clause} {c : Moment} {n m : Nat}
      {found : Matching.Clause} {st : ElaborationState} {s : Store} {env : Environment} :
      check clause config c.state c.store c.env n = .ok ((((some found, st), s), env), m) →
      Turn check config (clause :: rest) c n c n found
  | later {clause : Surface.Clause} {rest : List Surface.Clause} {c c' : Moment} {n m k : Nat}
      {r : Option Matching.Clause} {found : Matching.Clause} {st : ElaborationState} {s : Store}
      {env : Environment} :
      check clause config c.state c.store c.env n = .ok ((((r, st), s), env), m) →
      Turn check config rest ⟨st, s, env⟩ m c' k found →
      Turn check config (clause :: rest) c n c' k found

/-- Whatever becomes of a clause, nothing is forgotten that is known of metavariables. -/
theorem checkClause_further {fuel : Nat} {isMatched : Binding Term → Bool} {clause : Surface.Clause}
    {r : Option Matching.Clause}
    (done : checkClause (judgeWith fuel) Γ params isMatched result clause config c.state c.store
      c.env n = .ok ((((r, st'), s'), env'), m)) : c.env.Further env' := by
  have free : Allowance.Free (c.allowance .free) :=
    ⟨fun _ impossible => impossible.elim, .inl (.inl trivial), fun _ => trivial, fun _ => trivial⟩
  have within : clause.Within Ground.free.definition Ground.free.error False :=
    ⟨.inl fun p _ => p.within_open (fun _ => trivial) trivial,
      fun e _ => e.within_open (fun _ => trivial) trivial⟩
  obtain ⟨later, _, _⟩ := checkClause_sound (judgeWith_sound fuel) isMatched within False.elim
    (fun entry _ => entry.2.allowed_of_free free) (fun b _ => b.type.allowed_of_free free)
    (result.allowed_of_free free) (Ground.free_suits c) _ _ _ _ _ _ done
  exact ⟨later.grows.definitions, later.grows.solution⟩

/-- Each clause that is found has had its turn, and all that was known then is known at the end. -/
theorem turns_of_filterMapM {check : Surface.Clause → Elaborate (Option Matching.Clause)}
    (keeps : ∀ {clause c n r st s env m}, check clause config c.state c.store c.env n =
      .ok ((((r, st), s), env), m) → Environment.Further (Moment.env c) env)
    (done : written.filterMapM check config c.state c.store c.env n =
      .ok ((((found, st'), s'), env'), m)) :
    c.env.Further env' ∧ ∀ clause ∈ found, ∃ c' k, Turn check config written c n c' k clause ∧
      c'.env.Further env' := by
  induction written generalizing c n found with
  | nil =>
      cases elaborate_pure done
      exact ⟨.refl _, List.forall_mem_nil _⟩
  | cons clause rest ih =>
      rw [List.filterMapM_cons] at done
      obtain ⟨r, st₁, s₁, env₁, k, first, next⟩ := elaborate_bind done
      have further := keeps first
      -- those that come later have their turns among the rest
      have onward : ∀ {others}, rest.filterMapM check config st₁ s₁ env₁ k =
          .ok ((((others, st'), s'), env'), m) → c.env.Further env' ∧
          ∀ clause' ∈ others, ∃ c' k, Turn check config (clause :: rest) c n c' k clause' ∧
            c'.env.Further env' := by
        intro others run
        obtain ⟨further', turns⟩ := ih (c := ⟨st₁, s₁, env₁⟩) run
        refine ⟨further.trans further', fun clause' listed => ?_⟩
        obtain ⟨c', l, turn, further'⟩ := turns clause' listed
        exact ⟨c', l, .later first turn, further'⟩
      cases r with
      | none => exact onward next
      | some here =>
          obtain ⟨others, _, _, _, _, run, final⟩ := elaborate_bind next
          cases elaborate_pure final
          obtain ⟨further', turns⟩ := onward run
          exact ⟨further', List.forall_mem_cons.mpr ⟨⟨c, n, .here first, further'⟩, turns⟩⟩

/-- What is looked through when a clause has its turn is older than the counter, and each pattern of
    the clause is a plain one. -/
structure Scoped (env : Environment) (n : Nat) (params : Telescope) (clause : Matching.Clause) :
    Prop where
  known : env.Within (fun _ => True) n
  params : Telescope.Below n params
  patterns : Pattern.RowPlain env n clause.patterns

/-- Of what is passed over when the types are reduced that the constructors and tuples of the clause
    are checked against, no rule for an end comes to apply in the second environment when variables
    are taken apart. -/
def Steady (env env' : Environment) (params : Telescope) (clause : Matching.Clause) : Prop :=
  ∀ terms faced, Pattern.RowTyped env clause.patterns params .empty terms faced →
    ∀ t ∈ faced, t.Keeps env env'

theorem checkClauses_turns {fuel : Nat} {span : Span}
    (done : checkClauses (judgeWith fuel) Γ span params eliminated written result config c.state
      c.store c.env n = .ok ((((found, st'), s'), env'), m)) :
    ∀ clause ∈ found, ∃ c' k,
      Turn (checkClause (judgeWith fuel) Γ params (matchedBy eliminated) result) config written c n
        c' k clause ∧ c'.env.Further env' := by
  unfold checkClauses at done
  cases misplaced : eliminated.bind (outOfOrder? params none) with
  | some x =>
      rw [misplaced] at done
      obtain ⟨_, _, _, _, _, _, final⟩ := elaborate_bind done
      cases elaborate_pure final
      exact List.forall_mem_nil _
  | none =>
      rw [misplaced] at done
      exact (turns_of_filterMapM checkClause_further done).2

/-- A clause that has had its turn is typed, for all that the compiler knows. -/
theorem Turn.typed {fuel : Nat} {isMatched : Binding Term → Bool} {c' : Moment} {k : Nat}
    {clause : Matching.Clause} (turn : Turn (checkClause (judgeWith fuel) Γ params isMatched result)
      config written c n c' k clause) (further : c'.env.Further env')
    (inScope : Scoped c'.env k params clause) (steady : Steady c'.env env' params clause) :
    Matching.WellTyped env' params clause.patterns := by
  induction turn with
  | here run =>
      obtain ⟨terms, faced, typed⟩ :=
        checkClause_typed inScope.known inScope.params inScope.patterns run
      exact ⟨_, terms, faced, further, typed, steady terms faced typed⟩
  | later _ _ ih => exact ih further inScope steady

/-- **Both ways of checking patterns agree.** What has been accepted clause by clause, under the
    patterns of each clause by itself, the compiler finds to be patterns for the types that it
    arrives at by splitting: it reports no misfit. -/
theorem checkClauses_compile_agrees {fuel k l : Nat} {span : Span} {outcome : Matching.Outcome}
    {setting : Matching.Setting}
    (checked : checkClauses (judgeWith fuel) Γ span params eliminated written result config c.state
      c.store c.env n = .ok ((((found, st'), s'), setting.env), m))
    (turns : ∀ c' k clause, Turn (checkClause (judgeWith fuel) Γ params (matchedBy eliminated)
      result) config written c n c' k clause →
        Scoped c'.env k params clause ∧ Steady c'.env setting.env params clause)
    (only : setting.env.OnlyCoe) (apart : setting.env.EndsApart) (distinct : params.vars.Nodup)
    (known : setting.env.Within (fun _ => True) k) (below : Telescope.Below k params)
    (compiled : Matching.compile setting span params found k = .ok (outcome, l)) :
    ∀ d ∈ outcome.diagnostics, d.problem.ofMisfit = false := by
  have scope := Matching.telescope_inScope (V := fun _ => True) below fun _ _ => trivial
  refine Matching.compile_agrees only apart known scope distinct (fun clause listed => ?_) compiled
  obtain ⟨c', k', turn, further⟩ := checkClauses_turns checked clause listed
  obtain ⟨inScope, steady⟩ := turns c' k' clause turn
  exact turn.typed further inScope steady

end Turns

section Examples

open Library Matching

def pairType : Term := .sigma (Telescope.ofPairs [(⟨29, "a"⟩, natType), (⟨30, "b"⟩, natType)])

/-- One value for zero and one for all successors. -/
def byNumber (result atZero atSuc : Term) : Definition := .function
  { params := Telescope.ofPairs [(⟨31, "n"⟩, natType)]
    result
    body := some (.tree (.branch [] [(.con zero, .leaf [] atZero),
      (.con suc, .leaf (Telescope.ofPairs [(⟨32, "n"⟩, natType)]) atSuc)]))
    transports := false
    status := .done }

/-- One value for the left end and one for all other points. -/
def byPoint (result atLeft elsewhere : Term) : Definition :=
  let params := Telescope.ofPairs [(⟨33, "i"⟩, intervalType)]
  .function
    { params
      result
      body := some (.tree (.interval params [⟨some atLeft, none⟩] (some (.leaf params elsewhere))))
      transports := false
      status := .done }

def endOf : DefId := ⟨11, "endOf"⟩

def cells : DefId := ⟨12, "cells"⟩

def cellsAt : DefId := ⟨13, "cellsAt"⟩

/-- The library with an end for each number, and with types of cells that hold one number or a pair,
    for each number and for each point. -/
def cellsEnvironment : Environment := { environment 100 with
  definitions := (environment 100).definitions ++ #[byNumber intervalType leftTerm rightTerm,
    byNumber (.univ .set0) natType pairType, byPoint (.univ .set0) pairType natType]
  names := (environment 100).names ++ #["endOf", "cells", "cellsAt"] }

def cellsSetting : Setting := ⟨cellsEnvironment, .standard, true, false, some .set0⟩

def cellsMoment : Moment := ⟨.start, .empty, cellsEnvironment⟩

theorem cells_within : cellsEnvironment.Within (fun _ => True) 34 :=
  (Environment.within_of_below (by decide) fun _ => rfl).widen fun _ _ => trivial

theorem cells_onlyCoe : cellsEnvironment.OnlyCoe := by
  refine Environment.onlyCoe_of_definitions ?_
  simp [cellsEnvironment, environment, natData, zeroCon, sucCon, intervalData, endCon, pathData,
    pathConstructor, eqFunction, atFunction, coeFunction, byNumber, byPoint, Definition.function?]

theorem cells_endsApart : cellsEnvironment.EndsApart := by
  intro d data known notInterval
  obtain ⟨definition, known, isData⟩ := Option.bind_eq_some_iff.mp known
  have all : ∀ definition ∈ cellsEnvironment.definitions.toList, ∀ data ∈ definition.data?,
      data.interval = false → ∀ c ∈ data.constructors, cellsEnvironment.endpoint? c = none := by
    decide
  exact all definition (Array.mem_toList_iff.mpr (Array.mem_of_getElem? known)) data isData
    notInterval

def firstParams : Telescope := Telescope.ofPairs
  [(⟨40, "n"⟩, natType), (⟨41, "x"⟩, .call cells .std [.ref ⟨40, "n"⟩])]

/-- The first number in a cell. -/
def firstClauses : List Surface.Clause := [
  ⟨.none, [.con .none zero [], .var ⟨42, "y"⟩], some (.var .none ⟨42, "y"⟩)⟩,
  ⟨.none, [.con .none suc [.var ⟨43, "m"⟩], .tuple .none [.var ⟨44, "a"⟩, .var ⟨45, "b"⟩]],
    some (.var .none ⟨44, "a"⟩)⟩]

def firstFound : List Matching.Clause := [
  ⟨.none, [.ofCon zero [], .binding ⟨42, "y"⟩], some (.ref ⟨42, "y"⟩)⟩,
  ⟨.none, [.ofCon suc [.binding ⟨43, "m"⟩], .ofTuple [.binding ⟨44, "a"⟩, .binding ⟨45, "b"⟩]],
    some (.ref ⟨44, "a"⟩)⟩]

theorem first_turns {c : Moment} {n : Nat} {clause : Matching.Clause}
    (turn : Turn (checkClause (judgeWith 20) [] firstParams (matchedBy none) natType) .standard
      firstClauses cellsMoment 46 c n clause) :
    c.env = cellsEnvironment ∧ n = 46 ∧ clause ∈ firstFound := by
  cases turn with
  | here run =>
      cases run
      exact ⟨rfl, rfl, .head _⟩
  | later run turn =>
      cases run
      cases turn with
      | here run =>
          cases run
          exact ⟨rfl, rfl, .tail _ (.head _)⟩
      | later _ turn => cases turn

theorem first_scoped : ∀ clause ∈ firstFound, Scoped cellsEnvironment 46 firstParams clause := by
  have lists : ∀ c ∈ [zero, suc], cellsEnvironment.Lists c := by
    refine List.forall_mem_cons.mpr ⟨?_, List.forall_mem_singleton.mpr ?_⟩
    all_goals
      intro con data defined known
      cases defined
      cases known
      decide
  have low : ∀ k < 46, k < 46 := fun _ => id
  have known := cells_within.mono (by decide : 34 ≤ 46)
  refine List.forall_mem_cons.mpr ⟨?_, List.forall_mem_singleton.mpr ?_⟩
  · exact ⟨known, by decide, ⟨lists _ (.head _), trivial⟩, low 42 (by decide), trivial⟩
  · exact ⟨known, by decide, ⟨lists _ (.tail _ (.head _)), low 43 (by decide), trivial⟩,
      ⟨low 44 (by decide), low 45 (by decide), trivial⟩, trivial⟩

theorem first_steady : ∀ clause ∈ firstFound,
    Steady cellsEnvironment cellsEnvironment firstParams clause := by
  -- types that are read like these pass nothing over
  have keeps : ∀ {t : Term} (u : Term), t.reading = u.reading →
      u.passesAll cellsEnvironment = [] → t.Keeps cellsEnvironment cellsEnvironment := by
    intro t u same none
    refine Term.keeps_of_none ?_
    rwa [Term.passesAll, same]
  refine List.forall_mem_cons.mpr ⟨?_, List.forall_mem_singleton.mpr ?_⟩
  · rintro _ _ (_ | ⟨reading, first, _ | ⟨_, second, ⟨⟩⟩⟩)
    obtain ⟨_, _, _, _, rfl, rfl⟩ := Pattern.Typed.con_bindings [] first
    cases second
    exact List.forall_mem_singleton.mpr (keeps natType reading rfl)
  · rintro _ _ (_ | ⟨reading, first, _ | ⟨reading', second, ⟨⟩⟩⟩)
    obtain ⟨d, u, args, reduced, rfl, rfl⟩ := Pattern.Typed.con_bindings [⟨43, "m"⟩] first
    cases Pattern.Typed.tuple_bindings [⟨44, "a"⟩, ⟨45, "b"⟩] second
    have shown : natType.reading = (Term.data d u args).reading := by
      have run := reduced.reading
      rw [reading] at run
      exact Option.some.inj run
    refine List.forall_mem_cons.mpr ⟨keeps natType reading rfl, List.forall_mem_singleton.mpr ?_⟩
    cases args with
    | nil =>
        cases shown
        exact keeps (.call cells .std [sucOf (.ref ⟨43, "m"⟩)]) reading' rfl
    | cons a args => cases shown

/-- The cell of a number is of a type that is known once it is known whether the number is zero. -/
theorem first_agrees : ∃ st s outcome m,
    checkClauses (judgeWith 20) [] .none firstParams none firstClauses natType .standard
      cellsMoment.state cellsMoment.store cellsMoment.env 46 =
        .ok ((((firstFound, st), s), cellsSetting.env), 46) ∧
    Matching.compile cellsSetting .none firstParams firstFound 46 = .ok (outcome, m) ∧
    ∀ d ∈ outcome.diagnostics, d.problem.ofMisfit = false := by
  have checked : ∃ st s, checkClauses (judgeWith 20) [] .none firstParams none firstClauses natType
      .standard cellsMoment.state cellsMoment.store cellsMoment.env 46 =
        .ok ((((firstFound, st), s), cellsSetting.env), 46) := ⟨_, _, rfl⟩
  have compiled : ∃ outcome m, Matching.compile cellsSetting .none firstParams firstFound 46 =
      .ok (outcome, m) := ⟨_, _, rfl⟩
  obtain ⟨st, s, checked⟩ := checked
  obtain ⟨outcome, m, compiled⟩ := compiled
  refine ⟨st, s, outcome, m, checked, compiled, ?_⟩
  refine checkClauses_compile_agrees checked (fun c k clause turn => ?_) cells_onlyCoe
    cells_endsApart (by decide) (cells_within.mono (by decide)) (by decide) compiled
  obtain ⟨same, rfl, listed⟩ := first_turns turn
  rw [same]
  exact ⟨first_scoped clause listed, first_steady clause listed⟩

def mixedParams : Telescope := Telescope.ofPairs
  [(⟨40, "n"⟩, natType), (⟨41, "x"⟩, .call cellsAt .std [.call endOf .std [.ref ⟨40, "n"⟩]])]

/-- At an end that is not known the cell is a number, at the left end it is a pair. -/
def mixedClauses : List Surface.Clause := [
  ⟨.none, [.con .none zero [], .tuple .none [.var ⟨42, "a"⟩, .var ⟨43, "b"⟩]],
    some (.var .none ⟨42, "a"⟩)⟩,
  ⟨.none, [.var ⟨44, "m"⟩, .con .none zero []], some (.number .none 0)⟩,
  ⟨.none, [.var ⟨45, "m"⟩, .var ⟨46, "y"⟩], some (.number .none 1)⟩]

def mixedFound : List Matching.Clause := [
  ⟨.none, [.ofCon zero [], .ofTuple [.binding ⟨42, "a"⟩, .binding ⟨43, "b"⟩]],
    some (.ref ⟨42, "a"⟩)⟩,
  ⟨.none, [.binding ⟨44, "m"⟩, .ofCon zero []], some (numeral 0)⟩,
  ⟨.none, [.binding ⟨45, "m"⟩, .binding ⟨46, "y"⟩], some (numeral 1)⟩]

/-- Every clause is accepted and nothing is reported; but once the number has been split, the pattern
    for a number stands at a pair. -/
theorem mixed_disagree :
    (checkClauses (judgeWith 20) [] .none mixedParams none mixedClauses natType .standard
      cellsMoment.state cellsMoment.store cellsMoment.env 47).map
        (fun r => (r.1.1.1.1, r.1.1.1.2.reported, r.1.1.2.diagnostics, r.1.2, r.2)) =
      .ok (mixedFound, #[], #[], cellsEnvironment, 47) ∧
    mixedFound.length = mixedClauses.length ∧
    (Matching.compile cellsSetting .none mixedParams mixedFound 47).map
        (fun r => r.1.diagnostics.map (·.problem)) =
      .ok [.expectedConstructor "zero" "\\Sigma (a : Nat) (b : Nat)"] :=
  ⟨rfl, rfl, rfl⟩

end Examples

end Elaborate

end PathTheory
