import PathTheory.Proofs.Matching.Columns
import PathTheory.Proofs.Reduction.Refined
/-!
Rows of typed patterns over columns. A pattern is typed against a type that knows what the patterns
before it stand for; the column that it is matched in has a type of its own, over the variables of
the columns before it and over the constructors that they have been split into. Both types agree
apart from that, and splitting a column keeps them in agreement.
-/
namespace PathTheory

mutual

/-- The pattern is one for the type; with the term that it stands for and the types that the
    constructors and tuples in it are patterns for. -/
inductive Pattern.Typed (env : Environment) : Pattern → Term → Term → List Term → Prop
  | binding (x : Var) (type : Term) : Pattern.Typed env (.binding x) type (.ref x) []
  | con {c d : DefId} {u : Universe} {params terms faced : List Term} {data : DataDef}
      {con : ConstructorDef} {args : List Pattern} {type : Term} :
      type.Reduces env (.data d u params) → env.data? d = some data →
      env.constructor? c = some con → c ∈ data.constructors →
      Pattern.RowTyped env args con.params ((Subst.instantiate data.params params).addStd u) terms
        faced →
      Pattern.Typed env (.shaped (.con c) args) type (.con c u params terms) (type :: faced)
  | tuple {params : Telescope} {terms faced : List Term} {args : List Pattern} {type : Term} :
      type.Reduces env (.sigma params) → Pattern.RowTyped env args params .empty terms faced →
      Pattern.Typed env (.shaped (.tuple params.length) args) type (.tuple terms (.sigma params))
        (type :: faced)

/-- Patterns for the bindings of a telescope; each type is over the terms of the patterns before. -/
inductive Pattern.RowTyped (env : Environment) :
    List Pattern → Telescope → Subst → List Term → List Term → Prop
  | nil (s : Subst) : Pattern.RowTyped env [] [] s [] []
  | cons {p : Pattern} {args : List Pattern} {b : Binding Term} {params : Telescope} {s : Subst}
      {type term : Term} {terms faced others : List Term} :
      type.reading = b.type.reading.inst s.onUniverse (fun z => (s.image z).reading) →
      Pattern.Typed env p type term faced →
      Pattern.RowTyped env args params (s.add b.var term) terms others →
      Pattern.RowTyped env (p :: args) (b :: params) s (term :: terms) (faced ++ others)

end

theorem Pattern.RowTyped.length {env : Environment} {args : List Pattern} {params : Telescope}
    {s : Subst} {terms faced : List Term} (typed : RowTyped env args params s terms faced) :
    args.length = params.length := by
  induction params generalizing args s terms faced with
  | nil =>
      cases typed
      rfl
  | cons b params ih =>
      cases typed with
      | cons _ _ later => exact congrArg (· + 1) (ih later)

/-- Variables stand for themselves, and are not patterns for anything in particular. -/
theorem Pattern.RowTyped.of_bindings {env : Environment} {xs : List Var} {params : Telescope}
    {s : Subst} {terms faced : List Term}
    (typed : RowTyped env (xs.map .binding) params s terms faced) :
    terms = xs.map .ref ∧ faced = [] := by
  induction xs generalizing params s terms faced with
  | nil =>
      cases typed
      exact ⟨rfl, rfl⟩
  | cons x xs ih =>
      cases typed with
      | cons _ here later =>
          cases here
          obtain ⟨rfl, rfl⟩ := ih later
          exact ⟨rfl, rfl⟩

theorem Pattern.Typed.con_bindings {env : Environment} {c : DefId} {type term : Term}
    {faced : List Term} (xs : List Var)
    (typed : Typed env (.ofCon c (xs.map .binding)) type term faced) :
    ∃ d u args, type.Reduces env (.data d u args) ∧ term = .con c u args (xs.map .ref) ∧
      faced = [type] := by
  cases typed with
  | con reduced _ _ _ rows =>
      obtain ⟨rfl, rfl⟩ := rows.of_bindings
      exact ⟨_, _, _, reduced, rfl, rfl⟩

theorem Pattern.Typed.tuple_bindings {env : Environment} {type term : Term} {faced : List Term}
    (xs : List Var) (typed : Typed env (.ofTuple (xs.map .binding)) type term faced) :
    faced = [type] := by
  unfold Pattern.ofTuple at typed
  generalize (xs.map Pattern.binding).length = i at typed
  cases typed with
  | tuple _ rows =>
      obtain ⟨-, rfl⟩ := rows.of_bindings
      rfl

namespace Matching

variable {env env' : Environment} {spot other : Nameless → Nameless → Prop} {V : Var → Prop}
  {n m : Nat}

/-- One more place where terms may differ. -/
def Also (spot : Nameless → Nameless → Prop) (a b : Nameless) : Nameless → Nameless → Prop :=
  fun c d => spot c d ∨ c = a ∧ d = b

theorem Also.mono (more : ∀ a b, spot a b → other a b) (a b c d : Nameless)
    (here : Also spot a b c d) : Also other a b c d := here.imp_left (more c d)

/-- The types of two telescopes agree place by place, whatever terms the variables of the first one
    stand for and whatever variables those of the second one are renamed to. -/
def Alongside (spot : Nameless → Nameless → Prop) : Telescope → Subst → Telescope → Subst → Prop
  | [], _, [], _ => True
  | b :: rest, s, b' :: rest', s' =>
      (b.type.reading.inst s.onUniverse fun z => (s.image z).reading).UpTo spot
        (b'.type.reading.inst s'.onUniverse fun z => (s'.image z).reading) ∧
      ∀ (t : Term) (y : Var), Alongside (Also spot t.reading (.free y)) rest (s.add b.var t) rest'
        (s'.add b'.var (.ref y))
  | _, _, _, _ => False

section Telescopes

variable {s s' : Subst}

theorem Alongside.length {params params' : Telescope} (along : Alongside spot params s params' s') :
    params.length = params'.length := by
  induction params generalizing spot params' s s' with
  | nil =>
      cases params' with
      | nil => rfl
      | cons b' params' => exact along.elim
  | cons b params ih =>
      cases params' with
      | nil => exact along.elim
      | cons b' params' => exact congrArg (· + 1) (ih (along.2 (.ref b.var) b.var))

/-- Images of like substitutions are alike when one variable more stands for like terms. -/
theorem add_upTo (same : ∀ z, (s.image z).reading.UpTo spot (s'.image z).reading) (x : Var)
    {t t' : Term} (here : t.reading.UpTo spot t'.reading) (z : Var) :
    ((s.add x t).image z).reading.UpTo spot ((s'.add x t').image z).reading := by
  simp only [Subst.image, Subst.get?_add]
  split
  · exact here
  · exact same z

theorem alongside_same (levels : s.levels = s'.levels)
    (same : ∀ z, (s.image z).reading.UpTo spot (s'.image z).reading) (params : Telescope) :
    Alongside spot params s params s' := by
  induction params generalizing spot s s' with
  | nil => trivial
  | cons b rest ih =>
      refine ⟨?_, fun t y => ih levels ?_⟩
      · rw [onUniverse_levels levels]
        exact .inst _ fun x _ => same x
      · exact add_upTo (fun z => (same z).mono fun _ _ => .inl) b.var (.swap (.inr ⟨rfl, rfl⟩))

/-- Telescopes that agree when they are read agree in their types. -/
theorem alongside_read (shut : Shut spot) {params params' : Telescope} {scope scope' : List Var}
    {ρ ρ' : List Nameless} (agrees : s.Agrees scope ρ) (agrees' : s'.Agrees scope' ρ')
    (plain : s.levels = Subst.empty.levels) (plain' : s'.levels = Subst.empty.levels)
    (values : AllUpTo spot ρ ρ') (same : ((telescopeParts params .nil).read scope).UpTo spot
      ((telescopeParts params' .nil).read scope')) : Alongside spot params s params' s' := by
  induction params generalizing spot s s' params' scope scope' ρ ρ' with
  | nil =>
      cases params' with
      | nil => trivial
      | cons b' rest' => cases same
  | cons b rest ih =>
      cases params' with
      | nil => cases same
      | cons b' rest' =>
          obtain ⟨mode, x, A⟩ := b
          obtain ⟨mode', x', A'⟩ := b'
          cases same with
          | part type inner =>
              cases inner with
              | binder _ inner =>
                  have none : ∀ {s : Subst}, s.levels = Subst.empty.levels → s.onUniverse = id :=
                    fun plain => (onUniverse_levels plain).trans rfl
                  refine ⟨?_, fun t y => ?_⟩
                  · rw [none plain, none plain', ← agrees.reading_id, ← agrees'.reading_id]
                    exact type.fill shut values 0
                  · have more : ∀ a b, spot a b → Also spot t.reading (.free y) a b :=
                      fun _ _ => .inl
                    refine ih ?_ (agrees.add x t) (agrees'.add x' (.ref y)) plain plain'
                      (.cons (.swap (.inr ⟨rfl, rfl⟩)) (values.imp fun _ _ same => same.mono more))
                      (inner.mono more)
                    rintro _ _ (here | ⟨rfl, rfl⟩)
                    · exact shut here
                    · exact ⟨t.reading_closed, trivial⟩

end Telescopes

/-- Patterns for columns. Each one is typed against a type that agrees with the one of its column,
    but has the terms of the patterns before it where the column has the variables of theirs. -/
inductive RowFits (env env' : Environment) :
    (Nameless → Nameless → Prop) → List Column → List Pattern → Prop
  | nil (spot : Nameless → Nameless → Prop) : RowFits env env' spot [] []
  | cons {spot : Nameless → Nameless → Prop} {column : Column} {columns : List Column} {p : Pattern}
      {patterns : List Pattern} {type term : Term} {faced : List Term} :
      p.Typed env type term faced → (∀ t ∈ faced, t.Keeps env env') →
      type.reading.UpTo spot column.2.reading →
      RowFits env env' (Also spot term.reading (.free column.1)) columns patterns →
      RowFits env env' spot (column :: columns) (p :: patterns)

namespace RowFits

variable {column : Column} {columns columns' before rest : List Column}
  {patterns args others : List Pattern} {s s' : Subst}

theorem mono (fits : RowFits env env' spot columns patterns) (more : ∀ a b, spot a b → other a b) :
    RowFits env env' other columns patterns := by
  induction fits generalizing other with
  | nil _ => exact .nil other
  | cons typed keeps same _ ih => exact .cons typed keeps (same.mono more) (ih (Also.mono more _ _))

theorem length (fits : RowFits env env' spot columns patterns) :
    patterns.length = columns.length := by
  induction fits with
  | nil _ => rfl
  | cons _ _ _ _ ih => exact congrArg (· + 1) ih

/-- Behind columns that the row binds by variables. -/
theorem pass (fits : RowFits env env' spot (before ++ rest) patterns)
    (bound : ∀ p ∈ patterns.take before.length, p.isBinding = true)
    (refined : ∀ a b, spot a b → Refining env' a b) :
    RowFits env env' (Refining env') rest (patterns.drop before.length) := by
  induction before generalizing spot patterns with
  | nil => exact fits.mono refined
  | cons c before ih =>
      cases fits with
      | cons typed _ _ fits =>
          obtain ⟨here, later⟩ := List.forall_mem_cons.mp bound
          cases typed with
          | binding x type =>
              refine ih fits later ?_
              rintro _ _ (inside | ⟨rfl, rfl⟩)
              · exact refined _ _ inside
              · exact refining_var env' x c.1
          | _ => cases here

/-- At the root, columns stand for the parameters themselves. -/
theorem root {params : Telescope} {terms faced : List Term}
    (typed : Pattern.RowTyped env patterns params s terms faced)
    (keeps : ∀ t ∈ faced, t.Keeps env env') (plain : s.levels = Subst.empty.levels)
    (same : ∀ z, (s.image z).reading.UpTo spot (.free z)) :
    RowFits env env' spot (columnsOf params) patterns := by
  induction params generalizing patterns s terms faced spot with
  | nil =>
      cases typed
      exact .nil spot
  | cons b params ih =>
      cases typed with
      | @cons _ _ _ _ _ _ term _ _ _ instanced here later =>
          obtain ⟨keepsHere, keepsLater⟩ := List.forall_mem_append.mp keeps
          refine .cons here keepsHere ?_ (ih later keepsLater plain fun z => ?_)
          · have levels : s.onUniverse = id := (onUniverse_levels plain).trans rfl
            have instances := Nameless.UpTo.inst (f := id) b.type.reading fun x _ => same x
            rwa [b.type.reading.inst_free, ← levels, ← instanced] at instances
          · by_cases hit : z = b.var
            · subst hit
              simpa [Subst.image, Subst.get?_add] using Nameless.UpTo.swap (.inr ⟨rfl, rfl⟩)
            · have image : (s.add b.var term).image z = s.image z := by
                simp [Subst.image, Subst.get?_add, hit]
              rw [image]
              exact (same z).mono fun _ _ => .inl

/-- Patterns for a telescope fit the new columns for it. -/
theorem fields {params params' : Telescope} {terms faced : List Term} {fields : List Column}
    (typed : Pattern.RowTyped env args params s terms faced)
    (keeps : ∀ t ∈ faced, t.Keeps env env') (along : Alongside spot params s params' s')
    (put : s'.Within V n) (scope : InScope (s'.Reach V) n (columnsOf params'))
    (fresh : freshen env' s' (columnsOf params') n = .ok (fields, m))
    (after : ∀ other, (∀ a b, spot a b → other a b) →
      AllUpTo other (terms.map Term.reading) (fields.map fun f => .free f.1) →
        RowFits env env' other rest others) :
    RowFits env env' spot (fields ++ rest) (args ++ others) := by
  induction params generalizing args s s' terms faced spot params' V n fields with
  | nil =>
      cases typed
      cases params' with
      | nil =>
          cases fresh_pure fresh
          exact after spot (fun _ _ => id) .nil
      | cons b' params' => exact along.elim
  | cons b params ih =>
      cases params' with
      | nil => exact along.elim
      | cons b' params' =>
          cases typed with
          | @cons p args _ _ _ type term terms faced _ instanced here later =>
              obtain ⟨keepsHere, keepsLater⟩ := List.forall_mem_append.mp keeps
              obtain ⟨_, typeIn, restIn⟩ := scope
              obtain ⟨type', k, tail, applied, renamed, rfl⟩ := freshen_cons fresh
              obtain ⟨order, _, reading⟩ := put.yields typeIn _ _ applied
              refine .cons here keepsHere ?_ (ih later keepsLater (along.2 term _)
                (freshen_put put order _ (Nat.lt_succ_self k))
                (freshen_scope (restIn.mono (order.trans (Nat.le_succ k)))) renamed
                fun other more values => ?_)
              · rw [instanced, reading]
                exact along.1
              · exact after other (fun a b inside => more a b (.inl inside))
                  (.cons (.swap (more _ _ (.inr ⟨rfl, rfl⟩))) values)

/-- Terms are put for variables of the columns other than their own. -/
theorem replace {k : Nat} (fits : RowFits env env' spot columns patterns) (put : s.Within V n)
    (levels : s.onUniverse = id) (scope : InScope (s.Reach V) k columns) (order : k ≤ n)
    (apart : ∀ c ∈ columns, s.image c.1 = .ref c.1)
    (each : ∀ a b, spot a b → a.UpTo other (b.put s.image))
    (done : replaceIn env' s columns n = .ok (columns', m)) :
    RowFits env env' other columns' patterns := by
  induction fits generalizing V n columns' other with
  | nil spot =>
      unfold replaceIn at done
      rw [List.mapM_nil] at done
      cases fresh_pure done
      exact .nil other
  | @cons spot column columns p patterns type term faced typed keeps same fits ih =>
      obtain ⟨x, columnType⟩ := column
      obtain ⟨_, typeIn, restIn⟩ := scope
      obtain ⟨apartHere, apartLater⟩ := List.forall_mem_cons.mp apart
      obtain ⟨type', l, tail, applied, replaced, rfl⟩ := replaceIn_cons done
      obtain ⟨later, _, reading⟩ := put.yields (typeIn.mono order) _ _ applied
      have restIn' : InScope (s.Reach fun z => V z ∨ z = x) k columns := by
        refine restIn.widen fun z inScope => ?_
        rcases inScope with reach | rfl
        · exact reach.imp Or.inl id
        · exact .inl (.inr rfl)
      refine .cons typed keeps ?_ (ih ((put.mono later).widen fun _ => Or.inl) restIn'
        (order.trans later) apartLater ?_ replaced)
      · rw [reading, levels]
        exact same.put each
      · rintro a b (inside | ⟨rfl, rfl⟩)
        · exact (each a b inside).mono fun _ _ => .inl
        · refine .swap (.inr ⟨rfl, ?_⟩)
          exact congrArg Term.reading apartHere

/-- New columns may be bound by their own variables. -/
theorem bindings (fields : List Column)
    (fits : RowFits env env' (Refining env') columns patterns) :
    RowFits env env' (Refining env') (fields ++ columns)
      (fields.map (fun f => .binding f.1) ++ patterns) := by
  have own : ∀ spot : Nameless → Nameless → Prop, (∀ a b, Refining env' a b → spot a b) →
      RowFits env env' spot (fields ++ columns)
        (fields.map (fun f => .binding f.1) ++ patterns) := by
    induction fields with
    | nil => exact fun spot more => fits.mono more
    | cons f fields ih =>
        intro spot more
        refine .cons (.binding f.1 f.2) nofun ((f.2.reading.refining_self env').mono more) ?_
        exact ih _ fun a b inside => .inl (more a b inside)
  exact own _ fun _ _ => id

end RowFits

end Matching

end PathTheory
