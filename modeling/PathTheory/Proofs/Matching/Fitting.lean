import PathTheory.Proofs.Matching.FirstMatch
import PathTheory.Proofs.Matching.Typed
/-!
Typed rows below a split. The type of the inspected column is the one that the pattern was typed
against, refined by what the columns before it have been split into, so it has the constructors or
the components that the pattern asks for; and below each of them, the row fits the columns again.
-/
namespace PathTheory

/-- Only the interval has ends. -/
def Environment.EndsApart (env : Environment) : Prop := ∀ d data, env.data? d = some data →
  data.interval = false → ∀ c ∈ data.constructors, env.endpoint? c = none

/-- The outermost shape of the pattern is one that values of the type have, which is in weak head
    normal form. -/
def Pattern.Meets (env : Environment) (type : Term) : Pattern → Prop
  | .binding _ => True
  | .shaped (.con c) _ => ∃ d u args data,
      type = .data d u args ∧ env.data? d = some data ∧ c ∈ data.constructors
  | .shaped (.tuple i) _ => ∃ params, type = .sigma params ∧ i = params.length
  | .absurd => False

section Types

variable {env : Environment} {type : Term} {p : Pattern}

theorem Pattern.Meets.notAbsurd (meets : p.Meets env type) : Matching.isAbsurd p = false := by
  cases p with
  | absurd => exact meets.elim
  | _ => rfl

theorem Pattern.Meets.notForeign {d : DefId} {u : Universe} {args : List Term} {data : DataDef}
    (meets : p.Meets env (.data d u args)) (known : env.data? d = some data) :
    Matching.isForeign data p = false := by
  cases p with
  | shaped shape parts =>
      cases shape with
      | con c =>
          obtain ⟨_, _, _, _, isData, known', listed⟩ := meets
          cases isData
          cases known.symm.trans known'
          simpa [Matching.isForeign] using listed
      | tuple i =>
          obtain ⟨_, isSigma, _⟩ := meets
          cases isSigma
  | _ => rfl

end Types

namespace Matching

variable {env env' : Environment} {spot other : Nameless → Nameless → Prop} {V : Var → Prop}
  {n m k : Nat}

section Data

theorem parts_upTo {l l' : List Nameless} (same : AllUpTo spot l l') {rest rest' : NamelessParts}
    (after : rest.UpTo spot rest') :
    (Nameless.parts l rest).UpTo spot (Nameless.parts l' rest') := by
  induction same with
  | nil => exact after
  | cons here _ ih => exact .part here ih

theorem con_upTo (c : DefId) (u : Universe) {params params' args args' : List Nameless}
    (params_same : AllUpTo spot params params') (args_same : AllUpTo spot args args') :
    (Nameless.con c u params args).UpTo spot (Nameless.con c u params' args') :=
  .node _ (.part (.node _ (parts_upTo params_same .nil)) (parts_upTo args_same .nil))

theorem tuple_upTo {components components' : List Nameless} {type type' : Nameless}
    (same : AllUpTo spot components components') (types : type.UpTo spot type') :
    (Nameless.tuple components type).UpTo spot (Nameless.tuple components' type') :=
  .node _ (parts_upTo same (.part (.node _ (.part types .nil)) .nil))

/-- Like arguments make like substitutions. -/
theorem bind_upTo {s s' : Subst}
    (same : ∀ z, (s.image z).reading.UpTo spot (s'.image z).reading) (params : Telescope)
    {args args' : List Term} (alike : AllUpTo spot (args.map Term.reading) (args'.map Term.reading))
    (z : Var) :
    ((s.bind params args).image z).reading.UpTo spot ((s'.bind params args').image z).reading := by
  induction params generalizing s s' args args' with
  | nil => exact same z
  | cons b params ih =>
      cases args with
      | nil =>
          cases args' with
          | nil => exact same z
          | cons a' args' => cases alike
      | cons a args =>
          cases args' with
          | nil => cases alike
          | cons a' args' =>
              cases alike with
              | cons here alike => exact ih (add_upTo same b.var here) alike

/-- A value over new columns is made of data and variables, unless it is an end. -/
theorem shown_datum {value : Term} {shape : Shape} {fields : List Column}
    (shown : value.shape? = some (shape, fields.map fun f => .ref f.1))
    (noEnd : value.endpoint? env = none) : value.reading.Datum env := by
  have shownReading : value.reading.shape? =
      some (shape, (fields.map fun f => Term.ref f.1).map Term.reading) := by
    rw [Term.shape?_reading, shown]
    rfl
  refine .made shownReading (by rw [Term.endpoint?_reading, noEnd]) fun c member => ?_
  obtain ⟨_, isRef, rfl⟩ := List.mem_map.mp member
  obtain ⟨f, _, rfl⟩ := List.mem_map.mp isRef
  exact .var f.1

end Data

/-- Columns for the components of a value, which takes the place of the inspected column. -/
structure Opened (env : Environment) (V : Var → Prop) (n : Nat) (fields : List Column) (value : Term)
    (m : Nat) : Prop where
  order : n ≤ m
  scope : InScope V m fields
  new : ∀ f ∈ fields, n ≤ f.1.id
  distinct : (fields.map Prod.fst).Nodup
  valueIn : value.Within (Beside V fields) m
  datum : value.reading.Datum env

theorem opened_con {data : DataDef} {u : Universe} {args : List Term} {c : DefId}
    {con : ConstructorDef} {fields : List Column} (known : env.Within V n)
    (argsIn : ∀ a ∈ args, a.Within V n) (defined : env.constructor? c = some con)
    (noEnd : env.endpoint? c = none)
    (fresh : freshen env ((Subst.instantiate data.params args).addStd u) (columnsOf con.params) n =
      .ok (fields, m)) : Opened env V n fields (conValue c u args fields) m := by
  obtain ⟨order, scope, ⟨new, distinct⟩, valueIn⟩ := conFields known argsIn defined fresh
  exact ⟨order, scope, new, distinct, valueIn, shown_datum rfl noEnd⟩

theorem opened_tuple {params : Telescope} {fields : List Column}
    (typeIn : (Term.sigma params).Within V n)
    (fresh : freshen env .empty (columnsOf params) n = .ok (fields, m)) :
    Opened env V n fields (tupleValue (.sigma params) fields) m := by
  obtain ⟨order, scope, ⟨new, distinct⟩, valueIn⟩ := tupleFields typeIn fresh
  exact ⟨order, scope, new, distinct, valueIn, shown_datum rfl rfl⟩

namespace RowFits

variable {column : Column} {rest rest' fields : List Column} {args others : List Pattern} {p : Pattern}
  {w value : Term} {x : Var} {c d : DefId} {u : Universe}

section Heads

variable (further : env.Further env') (only : env'.OnlyCoe) (reduced : column.2.Reduces env' w)
include further only reduced

/-- A constructor pattern was typed against a data type that the column has the instance of. -/
theorem con_inv
    (fits : RowFits env env' (Refining env') (column :: rest) (.shaped (.con c) args :: others)) :
    ∃ d u params params' con data terms faced, w = .data d u params' ∧
      AllUpTo (Refining env') (params.map Term.reading) (params'.map Term.reading) ∧
      env'.data? d = some data ∧ env'.constructor? c = some con ∧ c ∈ data.constructors ∧
      Pattern.RowTyped env args con.params ((Subst.instantiate data.params params).addStd u) terms
        faced ∧
      (∀ t ∈ faced, t.Keeps env env') ∧
      RowFits env env' (Also (Refining env') (Term.con c u params terms).reading (.free column.1)) rest
        others := by
  cases fits with
  | cons typed keeps same later =>
      cases typed with
      | @con _ d u params terms faced data con _ _ shown known defined listed rows =>
          obtain ⟨keepsHere, keepsInside⟩ := List.forall_mem_cons.mp keeps
          have refined :=
            Term.reduces_refined further (further.onlyCoe only) shown reduced keepsHere same rfl
          obtain ⟨params', isData, alike⟩ := upTo_data (refining_puts env') refined
          rw [← further.data?] at known
          rw [← further.constructor?] at defined
          exact ⟨d, u, params, params', con, data, terms, faced, isData, alike, known, defined, listed,
            rows, keepsInside, later⟩

/-- A tuple pattern was typed against a tuple type that the column has the instance of. -/
theorem tuple_inv {i : Nat}
    (fits : RowFits env env' (Refining env') (column :: rest) (.shaped (.tuple i) args :: others)) :
    ∃ params params' terms faced, w = .sigma params' ∧ i = params'.length ∧
      (Term.sigma params).reading.UpTo (Refining env') (Term.sigma params').reading ∧
      Alongside (Refining env') params .empty params' .empty ∧
      Pattern.RowTyped env args params .empty terms faced ∧ (∀ t ∈ faced, t.Keeps env env') ∧
      RowFits env env' (Also (Refining env') (Term.tuple terms (.sigma params)).reading
        (.free column.1)) rest others := by
  cases fits with
  | cons typed keeps same later =>
      cases typed with
      | @tuple params terms faced _ _ shown rows =>
          obtain ⟨keepsHere, keepsInside⟩ := List.forall_mem_cons.mp keeps
          have refined :=
            Term.reduces_refined further (further.onlyCoe only) shown reduced keepsHere same rfl
          obtain ⟨params', rfl, alike⟩ := upTo_sigma (refining_puts env') refined
          have along := alongside_read (refining_puts env').shut Subst.agrees_empty
            Subst.agrees_empty rfl rfl .nil alike
          exact ⟨params, params', terms, faced, rfl, along.length, refined, along, rows, keepsInside,
            later⟩

/-- The inspected column is of the type that the pattern is for. -/
theorem meets (fits : RowFits env env' (Refining env') (column :: rest) (p :: others)) :
    p.Meets env' w := by
  cases p with
  | binding x => trivial
  | shaped shape args =>
      cases shape with
      | con c =>
          obtain ⟨d, u, _, params', _, data, _, _, rfl, _, known, _, listed, _⟩ :=
            fits.con_inv further only reduced
          exact ⟨d, u, params', data, rfl, known, listed⟩
      | tuple i =>
          obtain ⟨_, params', _, _, rfl, arity, _⟩ := fits.tuple_inv further only reduced
          exact ⟨params', rfl, arity⟩
  | absurd =>
      cases fits with
      | cons typed _ _ _ => cases typed

end Heads

section Entering

variable (opened : Opened env' V n fields value m) (scope : InScope V n (column :: rest))
  (distinct : ((column :: rest).map Prod.fst).Nodup)
  (replaced : replaceIn env' (.single column.1 value) rest m = .ok (rest', k))
include opened scope distinct replaced

/-- The columns after the inspected one, with the value in its place. -/
theorem behind {t : Nameless}
    (fits : RowFits env env' (Also (Refining env') t (.free column.1)) rest others)
    (more : ∀ a b, Refining env' a b → spot a b) (same : t.UpTo spot value.reading) :
    RowFits env env' spot rest' others := by
  have image : ∀ z, (Subst.single column.1 value).image z =
      if z = column.1 then value else .ref z := by
    intro z
    rw [Subst.image, Subst.single, Subst.get?_add]
    split <;> rfl
  refine fits.replace (single_put opened.valueIn) rfl (single_scope scope.2.2 fun _ => Or.inl)
    opened.order (fun c member => ?_) ?_ replaced
  · rw [image, if_neg]
    rintro same
    exact (List.nodup_cons.mp distinct).1 (same ▸ List.mem_map_of_mem member)
  · rintro a b (inside | ⟨rfl, rfl⟩)
    · refine .swap (more _ _ (inside.put fun z => ?_))
      rw [image]
      split
      · exact opened.datum
      · exact .var z
    · have put : (Nameless.free column.1).put (Subst.single column.1 value).image = value.reading :=
        congrArg Term.reading ((image _).trans (if_pos rfl))
      rwa [put]

/-- A variable stands for the value, and new ones for its components. -/
theorem enter_binding
    (fits : RowFits env env' (Refining env') (column :: rest) (.binding x :: others)) :
    RowFits env env' (Refining env') (fields ++ rest')
      (fields.map (fun f => .binding f.1) ++ others) := by
  cases fits with
  | cons typed _ _ later =>
      cases typed
      refine .bindings fields (later.behind opened scope distinct replaced (fun _ _ => id) (.swap ?_))
      exact ⟨⟨x, rfl⟩, value.reading_closed, opened.datum⟩

end Entering

section Shapes

variable (further : env.Further env') (only : env'.OnlyCoe) (scope : InScope V n (column :: rest))
  (distinct : ((column :: rest).map Prod.fst).Nodup)
include further only scope distinct

/-- Below a constructor, its arguments fit the columns for them. -/
theorem enter_con {args' : List Term} {data : DataDef} {con : ConstructorDef}
    (known : env'.Within V n) (argsIn : ∀ a ∈ args', a.Within V n)
    (reduced : column.2.Reduces env' (.data d u args')) (isData : env'.data? d = some data)
    (defined : env'.constructor? c = some con)
    (opened : Opened env' V n fields (conValue c u args' fields) m)
    (fresh : freshen env' ((Subst.instantiate data.params args').addStd u) (columnsOf con.params) n =
      .ok (fields, m))
    (replaced : replaceIn env' (.single column.1 (conValue c u args' fields)) rest m = .ok (rest', k))
    (fits : RowFits env env' (Refining env') (column :: rest) (.shaped (.con c) args :: others)) :
    RowFits env env' (Refining env') (fields ++ rest') (args ++ others) := by
  obtain ⟨_, _, params, _, _, data', terms, faced, isType, alike, isData', defined', _, rows, keeps,
    later⟩ := fits.con_inv further only reduced
  cases isType
  cases defined.symm.trans defined'
  cases isData.symm.trans isData'
  have put := (Subst.within_empty.bind data.params argsIn).addStd u
  have fieldsIn := (telescope_inScope (known.constructors c con defined)
    (known.shapes c con defined)).widen fun x inScope =>
      (Or.inl inScope : ((Subst.instantiate data.params args').addStd u).Reach V x)
  have levels : ((Subst.instantiate data.params params).addStd u).levels =
      ((Subst.instantiate data.params args').addStd u).levels := by
    simp [Subst.addStd, Subst.addLevel, Subst.instantiate, Subst.bind_levels]
  have along := alongside_same levels
    (bind_upTo (fun _ => Nameless.refining_self env' _) data.params alike) con.params
  refine RowFits.fields rows keeps along put fieldsIn fresh fun other more values => ?_
  refine later.behind opened scope distinct replaced more ?_
  rw [conValue, Term.con_reading, Term.con_reading]
  refine con_upTo c u (alike.imp fun _ _ same => same.mono more) ?_
  rwa [List.map_map]

/-- Below a tuple, its components fit the columns for them. -/
theorem enter_tuple {params : Telescope} {i : Nat} (typeIn : (Term.sigma params).Within V n)
    (reduced : column.2.Reduces env' (.sigma params))
    (opened : Opened env' V n fields (tupleValue (.sigma params) fields) m)
    (fresh : freshen env' .empty (columnsOf params) n = .ok (fields, m))
    (replaced : replaceIn env' (.single column.1 (tupleValue (.sigma params) fields)) rest m =
      .ok (rest', k))
    (fits : RowFits env env' (Refining env') (column :: rest) (.shaped (.tuple i) args :: others)) :
    RowFits env env' (Refining env') (fields ++ rest') (args ++ others) := by
  obtain ⟨params₀, _, terms, faced, isType, _, alike, along, rows, keeps, later⟩ :=
    fits.tuple_inv further only reduced
  cases isType
  have fieldsIn := (telescope_inScope (Term.below_sigma.mp typeIn.below) typeIn.free).widen
    fun x inScope => (Or.inl inScope : Subst.empty.Reach V x)
  refine RowFits.fields rows keeps along Subst.within_empty fieldsIn fresh fun other more values => ?_
  refine later.behind opened scope distinct replaced more ?_
  rw [tupleValue, Term.tuple_reading, Term.tuple_reading]
  refine tuple_upTo ?_ (alike.mono more)
  rwa [List.map_map]

end Shapes

end RowFits

/-- The patterns were typed against the types of the columns, in an environment that the present one
    has come from. -/
def Fits (env : Environment) (columns : List Column) (patterns : List Pattern) : Prop :=
  ∃ earlier : Environment, earlier.Further env ∧ RowFits earlier env (Refining env) columns patterns

/-- Rows of typed patterns over columns. -/
structure Fitting (env : Environment) (V : Var → Prop) (n : Nat) (columns : List Column)
    (rows : List Row) : Prop where
  known : env.Within V n
  scope : InScope V n columns
  distinct : (columns.map Prod.fst).Nodup
  simple : RowsSimple rows
  fits : ∀ row ∈ rows, Fits env columns row.patterns

namespace Fitting

variable {columns before rest rest' fields : List Column} {column : Column} {rows : List Row}
  {w value : Term} {shape : Shape}

theorem mono (fitting : Fitting env V n columns rows) (order : n ≤ m) :
    Fitting env V m columns rows where
  known := fitting.known.mono order
  scope := fitting.scope.mono order
  distinct := fitting.distinct
  simple := fitting.simple
  fits := fitting.fits

theorem width (fitting : Fitting env V n columns rows) :
    ∀ row ∈ rows, row.patterns.length = columns.length := by
  intro row isRow
  obtain ⟨_, _, fits⟩ := fitting.fits row isRow
  exact fits.length

/-- At the inspected column, the rows have bound the columns before it. -/
theorem inspect (fitting : Fitting env V n (before ++ column :: rest) rows)
    (inspects : Inspects before rows) (w : Term) (m : Nat)
    (reduced : column.2.whnf env n = .ok (w, m)) :
    n ≤ m ∧ w.Within (Beside V before) m ∧ column.2.Reduces env w ∧
      Fitting env (Beside V before) m (column :: rest) (rows.map (·.pass before)) := by
  obtain ⟨order, within, known, scope⟩ := inspected fitting.known fitting.scope reduced
  have below := (fitting.scope.column column (by simp)).2
  refine ⟨order, within, Term.reduces fitting.known below reduced, known, scope, ?_,
    pass_simple fitting.simple before, fun row member => ?_⟩
  · have distinct := fitting.distinct
    rw [List.map_append] at distinct
    exact (List.nodup_append.mp distinct).2.1
  · obtain ⟨original, isRow, rfl⟩ := List.mem_map.mp member
    obtain ⟨earlier, further, fits⟩ := fitting.fits original isRow
    exact ⟨earlier, further, fits.pass (inspects.bound original isRow) fun _ _ => id⟩

/-- Every pattern that stands for the inspected column is one for its type. -/
theorem meets (fitting : Fitting env V n (column :: rest) rows) (only : env.OnlyCoe)
    (reduced : column.2.Reduces env w) (default : Pattern) :
    ∀ row ∈ rows, (row.patterns.headD default).Meets env w := by
  intro row isRow
  obtain ⟨_, further, fits⟩ := fitting.fits row isRow
  cases isPatterns : row.patterns with
  | nil =>
      rw [isPatterns] at fits
      cases fits
  | cons p others =>
      rw [isPatterns] at fits
      exact fits.meets further only reduced

/-- Below the shape of a value, the rows fit the columns for the components and those after. -/
theorem enter (fitting : Fitting env V n (column :: rest) rows)
    (opened : Opened env V n fields value m)
    (replaced : replaceIn env (.single column.1 value) rest m = .ok (rest', k))
    (shaped : ∀ args others, Fits env (column :: rest) (.shaped shape args :: others) →
      Fits env (fields ++ rest') (args ++ others)) :
    m ≤ k ∧ Fitting env V k (fields ++ rest') (rows.filterMap (·.enter shape value fields)) := by
  have fits : ∀ row ∈ rows.filterMap (·.enter shape value fields),
      Fits env (fields ++ rest') row.patterns := by
    intro row member
    obtain ⟨original, isRow, entered⟩ := List.mem_filterMap.mp member
    have here := fitting.fits original isRow
    rcases enter_cases entered with ⟨args, others, isPatterns, rfl⟩ | ⟨x, others, isPatterns, rfl⟩
    · rw [isPatterns] at here
      exact shaped args others here
    · rw [isPatterns] at here
      obtain ⟨earlier, further, fits⟩ := here
      exact ⟨earlier, further,
        fits.enter_binding opened fitting.scope fitting.distinct replaced⟩
  have enters : Enters env column rest rows shape value fields m (fields ++ rest')
      (rows.filterMap (·.enter shape value fields)) k :=
    ⟨⟨rest', replaced, rfl⟩, rfl, fun row member => (fits row member).elim fun _ fits => fits.2.length⟩
  obtain ⟨order, scope⟩ := enters.inScope fitting.scope opened.order opened.scope opened.valueIn
  have later := opened.order.trans order
  refine ⟨order, fitting.known.mono later, scope, ?_, enters.simple fitting.simple, fits⟩
  rw [List.map_append, replaceIn_vars replaced]
  refine List.nodup_append.mpr
    ⟨opened.distinct, (List.nodup_cons.mp fitting.distinct).2, fun x isField y isColumn same => ?_⟩
  obtain ⟨f, member, rfl⟩ := List.mem_map.mp isField
  obtain ⟨c, member', rfl⟩ := List.mem_map.mp isColumn
  have old := (fitting.scope.column c (List.mem_cons_of_mem _ member')).1
  rw [← same] at old
  exact Nat.not_lt.mpr (opened.new f member) old

/-- Below a constructor; then the type of the column is a data type other than the interval. -/
theorem enter_con {d c : DefId} {u : Universe} {args : List Term} {data : DataDef}
    {con : ConstructorDef} (fitting : Fitting env V n (column :: rest) rows) (only : env.OnlyCoe)
    (argsIn : ∀ a ∈ args, a.Within V n) (reduced : column.2.Reduces env (.data d u args))
    (known : env.data? d = some data) (defined : env.constructor? c = some con)
    (noEnd : env.endpoint? c = none) (fields : List Column) (m : Nat)
    (fresh : freshen env ((Subst.instantiate data.params args).addStd u) (columnsOf con.params) n =
      .ok (fields, m)) : n ≤ m ∧ ∀ rest' k,
      replaceIn env (.single column.1 (conValue c u args fields)) rest m = .ok (rest', k) →
        m ≤ k ∧ Fitting env V k (fields ++ rest')
          (rows.filterMap (·.enter (.con c) (conValue c u args fields) fields)) := by
  have opened := opened_con fitting.known argsIn defined noEnd fresh
  refine ⟨opened.order, fun rest' k replaced => fitting.enter opened replaced ?_⟩
  rintro patterns others ⟨earlier, further, fits⟩
  exact ⟨earlier, further, fits.enter_con further only fitting.scope fitting.distinct fitting.known
    argsIn reduced known defined opened fresh replaced⟩

theorem enter_tuple {params : Telescope} (fitting : Fitting env V n (column :: rest) rows)
    (only : env.OnlyCoe) (typeIn : (Term.sigma params).Within V n)
    (reduced : column.2.Reduces env (.sigma params)) (fields : List Column) (m : Nat)
    (fresh : freshen env .empty (columnsOf params) n = .ok (fields, m)) : n ≤ m ∧ ∀ rest' k,
      replaceIn env (.single column.1 (tupleValue (.sigma params) fields)) rest m = .ok (rest', k) →
        m ≤ k ∧ Fitting env V k (fields ++ rest') (rows.filterMap
          (·.enter (.tuple params.length) (tupleValue (.sigma params) fields) fields)) := by
  have opened := opened_tuple typeIn fresh
  refine ⟨opened.order, fun rest' k replaced => fitting.enter opened replaced ?_⟩
  rintro patterns others ⟨earlier, further, fits⟩
  exact ⟨earlier, further, fits.enter_tuple further only fitting.scope fitting.distinct typeIn
    reduced opened fresh replaced⟩

end Fitting

/-- The patterns were typed against the parameters, in an environment that the present one has come
    from. No end rule that was passed over when their types were reduced comes to apply when more is
    known and variables are taken apart. -/
def WellTyped (env : Environment) (params : Telescope) (patterns : List Pattern) : Prop :=
  ∃ (earlier : Environment) (terms faced : List Term), earlier.Further env ∧
    Pattern.RowTyped earlier patterns params .empty terms faced ∧ ∀ t ∈ faced, t.Keeps earlier env

namespace WellTyped

variable {params : Telescope} {patterns : List Pattern} {rows : List Row} {fresh : List Column}

theorem fits (typed : WellTyped env params patterns) : Fits env (columnsOf params) patterns := by
  obtain ⟨earlier, _, _, further, rows, keeps⟩ := typed
  exact ⟨earlier, further, .root rows keeps rfl fun z => .swap (refining_var env z z)⟩

theorem length (typed : WellTyped env params patterns) : patterns.length = params.length := by
  obtain ⟨_, _, _, _, rows, _⟩ := typed
  exact rows.length

theorem fits_fresh (typed : WellTyped env params patterns) (scope : InScope V n (columnsOf params))
    (freshened : freshen env .empty (columnsOf params) n = .ok (fresh, m)) :
    Fits env fresh patterns := by
  obtain ⟨earlier, _, _, further, rows, keeps⟩ := typed
  have along : Alongside (Refining env) params .empty params .empty :=
    alongside_same rfl (fun z => (Subst.empty.image z).reading.refining_self env) params
  have fits := RowFits.fields rows keeps along Subst.within_empty (scope.widen fun _ => Or.inl)
    freshened fun other _ _ => .nil other
  rw [List.append_nil, List.append_nil] at fits
  exact ⟨earlier, further, fits⟩

/-- Rows of typed patterns over the parameters themselves. -/
theorem root (known : env.Within V n) (scope : InScope V n (columnsOf params))
    (distinct : params.vars.Nodup) (simple : RowsSimple rows)
    (typed : ∀ row ∈ rows, WellTyped env params row.patterns) :
    Fitting env V n (columnsOf params) rows where
  known := known
  scope := scope
  distinct := by simpa [columnsOf, Telescope.vars, Function.comp_def] using distinct
  simple := simple
  fits row isRow := (typed row isRow).fits

/-- The same over new columns for them. -/
theorem root_fresh (known : env.Within V n) (scope : InScope V n (columnsOf params))
    (simple : RowsSimple rows) (typed : ∀ row ∈ rows, WellTyped env params row.patterns)
    (freshened : freshen env .empty (columnsOf params) n = .ok (fresh, m)) :
    n ≤ m ∧ Fitting env V m fresh rows := by
  have reach : InScope (Subst.empty.Reach V) n (columnsOf params) := scope.widen fun _ => Or.inl
  obtain ⟨order, freshIn, _⟩ := freshen_inScope Subst.within_empty reach freshened
  exact ⟨order, known.mono order, freshIn, freshen_nodup Subst.within_empty reach freshened, simple,
    fun row isRow => (typed row isRow).fits_fresh scope freshened⟩

end WellTyped

end Matching

end PathTheory
