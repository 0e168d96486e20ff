import PathTheory.Proofs.Matching.Columns
/-!
Nodes of a tree under construction. What holds of columns, rows and values where a node is built
holds again at the nodes below it, so it holds wherever the compiler gets on its way through the
values.
-/
namespace PathTheory

/-- No variable is bound twice, and no type mentions its own variable or a later one. -/
def Telescope.Proper : Telescope → Prop
  | [] => True
  | b :: params => (∀ x ∈ b.type.freeVars, x ≠ b.var ∧ x ∉ params.map Binding.var) ∧
      b.var ∉ params.map Binding.var ∧ Proper params

namespace Matching

section Rows

/-- Substitutions of the rows put in terms only. -/
def RowsSimple (rows : List Row) : Prop := ∀ row ∈ rows, row.subst.Simple

theorem bindColumns_simple {s : Subst} (simple : s.Simple) (row : List Pattern)
    (columns : List Column) : (bindColumns s row columns).Simple := by
  unfold bindColumns
  induction row.zip columns generalizing s with
  | nil => exact simple
  | cons entry entries ih =>
      obtain ⟨p, c⟩ := entry
      apply ih
      cases p with
      | binding x =>
          dsimp only
          split
          · exact simple
          · exact simple.add x _
      | _ => exact simple

/-- A row goes on with the parts of its pattern, or with variables for all components. -/
theorem enter_cases {row inner : Row} {shape : Shape} {value : Term} {fields : List Column}
    (entered : row.enter shape value fields = some inner) :
    (∃ args rest, row.patterns = .shaped shape args :: rest ∧
      inner = { row with patterns := args ++ rest }) ∨
    ∃ x rest, row.patterns = .binding x :: rest ∧ inner = { row with
      patterns := (fields.map fun f => .binding f.1) ++ rest
      subst := row.subst.add x value } := by
  unfold Row.enter at entered
  split at entered
  · rename_i k args rest here
    split at entered
    · rename_i same
      subst same
      exact .inl ⟨args, rest, here, (Option.some.inj entered).symm⟩
    · cases entered
  · rename_i x rest here
    exact .inr ⟨x, rest, here, (Option.some.inj entered).symm⟩
  · cases entered

theorem pass_simple {rows : List Row} (simple : RowsSimple rows) (before : List Column) :
    RowsSimple (rows.map (·.pass before)) := by
  intro row member
  obtain ⟨original, isRow, rfl⟩ := List.mem_map.mp member
  exact bindColumns_simple (simple original isRow) _ _

theorem Enters.simple {env : Environment} {column : Column} {rest fields columns : List Column}
    {rows inner : List Row} {shape : Shape} {value : Term} {n m : Nat}
    (enters : Enters env column rest rows shape value fields n columns inner m)
    (simple : RowsSimple rows) : RowsSimple inner := by
  rw [enters.rows]
  intro row member
  obtain ⟨original, isRow, entered⟩ := List.mem_filterMap.mp member
  rcases enter_cases entered with ⟨_, _, _, rfl⟩ | ⟨x, _, _, rfl⟩
  · exact simple original isRow
  · exact (simple original isRow).add x value

end Rows

section Order

variable {env : Environment}

theorem lacksConstructors_data {type : Term} (lacks : lacksConstructors env type = true) :
    ∃ d u args data, type = .data d u args ∧ env.data? d = some data ∧ data.constructors = [] := by
  cases type with
  | data d u args =>
      unfold lacksConstructors at lacks
      cases found : env.data? d with
      | none => simp [found] at lacks
      | some data => exact ⟨d, u, args, data, rfl, found, by simpa [found] using lacks⟩
  | _ => cases lacks

/-- Where no row is left, some column has a type without constructors. -/
theorem beforeEmpty_some {V : Var → Prop} : ∀ {columns before : List Column} {n m : Nat},
    env.Within V n → InScope V n columns → beforeEmpty env columns n = .ok (some before, m) →
    n ≤ m ∧ ∃ column rest k l d u args data, columns = before ++ column :: rest ∧ n ≤ k ∧
      column.2.whnf env k = .ok (.data d u args, l) ∧ env.data? d = some data ∧
      data.constructors = []
  | [], before, n, m, _, _, done => by
      cases fresh_pure done
  | (x, type) :: columns, before, n, m, known, scope, done => by
      unfold beforeEmpty at done
      obtain ⟨shape, k, reduced, next⟩ := fresh_bind done
      obtain ⟨_, typeIn, restIn⟩ := scope
      have order := (Term.whnf_within known _ _ (Nat.le_refl n) typeIn _ _ reduced).1
      split at next
      · rename_i lacks
        cases fresh_pure next
        obtain ⟨d, u, args, data, rfl, found, none⟩ := lacksConstructors_data lacks
        exact ⟨order, (x, type), columns, n, _, d, u, args, data, rfl, Nat.le_refl n, reduced,
          found, none⟩
      · obtain ⟨inner, l, later, final⟩ := fresh_bind next
        cases inner with
        | none => cases fresh_pure final
        | some inner =>
            cases fresh_pure final
            obtain ⟨next', column, rest, i, j, d, u, args, data, rfl, start, reduced', found, none⟩ :=
              beforeEmpty_some ((known.mono order).widen fun _ => Or.inl) (restIn.mono order) later
            exact ⟨order.trans next', column, rest, i, j, d, u, args, data, rfl, order.trans start,
              reduced', found, none⟩

mutual

/-- The counter never goes down while a tree is built. -/
theorem Built.order : ∀ {V : Var → Prop} {n m : Nat} {columns : List Column} {rows : List Row}
    {tree : CaseTree}, Built env n columns rows tree m → env.Within V n → InScope V n columns →
    RowsSimple rows → n ≤ m
  | V, n, m, columns, _, _, .leaf _ _ applied, known, scope, simple =>
      Subst.apply_order (bindColumns_simple (simple _ List.mem_cons_self) _ _).still applied
  | V, n, m, columns, _, _, .empty found, known, scope, _ => (beforeEmpty_some known scope found).1
  | V, n, m, _, _, _, .absurd _ reduced _ _ _, known, scope, _ => (inspected known scope reduced).1
  | V, n, m, _, _, _, .data _ reduced _ _ children, known, scope, simple => by
      obtain ⟨order, shapeIn, known', here⟩ := inspected known scope reduced
      exact order.trans (children.order known' here (Term.within_data.mp shapeIn)
        (pass_simple simple _))
  | V, n, m, _, _, _, .tuple _ reduced fresh enters child, known, scope, simple => by
      obtain ⟨order, shapeIn, known', here⟩ := inspected known scope reduced
      obtain ⟨later, fieldsIn, _, valueIn⟩ := tupleFields shapeIn fresh
      obtain ⟨next, columnsIn⟩ := enters.inScope here later fieldsIn valueIn
      have inner := child.order (known'.mono (later.trans next)) columnsIn
        (enters.simple (pass_simple simple _))
      exact order.trans (later.trans (next.trans inner))

theorem BuiltAll.order : ∀ {V : Var → Prop} {n m : Nat} {data : DataDef} {u : Universe}
    {args : List Term} {column : Column} {rest : List Column} {rows : List Row} {live : List DefId}
    {children : List (Shape × CaseTree)},
    BuiltAll env data u args column rest rows n live children m → env.Within V n →
    InScope V n (column :: rest) → (∀ a ∈ args, a.Within V n) → RowsSimple rows → n ≤ m
  | _, _, _, _, _, _, _, _, _, _, _, .nil, _, _, _, _ => Nat.le_refl _
  | V, n, m, _, _, _, _, _, _, _, _, .skip _ others, known, scope, argsIn, simple =>
      others.order known scope argsIn simple
  | V, n, m, _, _, _, _, _, _, _, _, .child defined fresh enters tree others, known, scope, argsIn,
      simple => by
      obtain ⟨later, fieldsIn, _, valueIn⟩ := conFields known argsIn defined fresh
      obtain ⟨next, columnsIn⟩ := enters.inScope scope later fieldsIn valueIn
      have start := later.trans next
      have inner := tree.order (known.mono start) columnsIn (enters.simple simple)
      have after := start.trans inner
      exact after.trans (others.order (known.mono after) (scope.mono after)
        (within_later argsIn after) simple)

end

end Order

section Nodes

variable {R : Nameless → Nameless → Prop} {env : Environment} {V : Var → Prop} {n m : Nat}

theorem aligned_append {σ : Var → Nameless} {columns rest : List Column} {args : List Term}
    (aligned : Aligned R env σ (columns ++ rest) args) : ∃ first others, args = first ++ others ∧
      first.length = columns.length ∧ Aligned R env σ columns first ∧ Aligned R env σ rest others := by
  induction columns generalizing args with
  | nil => exact ⟨[], args, rfl, rfl, .nil, aligned⟩
  | cons c columns ih =>
      cases aligned with
      | cons here later =>
          obtain ⟨first, others, rfl, length, firstAligned, restAligned⟩ := ih later
          exact ⟨_ :: first, others, rfl, congrArg (· + 1) length, .cons here firstAligned,
            restAligned⟩

/-- What holds of columns, rows and values at a node. -/
structure Node (R : Nameless → Nameless → Prop) (env : Environment) (V : Var → Prop) (n : Nat)
    (columns : List Column) (rows : List Row) (args : List Term) (σ : Var → Nameless) : Prop where
  known : env.Within V n
  scope : InScope V n columns
  simple : RowsSimple rows
  width : ∀ row ∈ rows, row.patterns.length = columns.length
  aligned : Aligned R env σ columns args

variable {σ : Var → Nameless} {column : Column} {rest fields columns : List Column}
  {rows inner : List Row} {shape : Shape} {value v : Term} {args others : List Term} {l : Nat}

theorem Node.mono (node : Node R env V n columns rows args σ) (order : n ≤ m) :
    Node R env V m columns rows args σ where
  known := node.known.mono order
  scope := node.scope.mono order
  simple := node.simple
  width := node.width
  aligned := node.aligned

/-- At the inspected column, the type is reduced and the value fits its shape. -/
theorem Node.inspect (likeness : Likeness R) {before : List Column} {shape : Term}
    (node : Node R env V n (before ++ column :: rest) rows args σ)
    (reduced : column.2.whnf env n = .ok (shape, m)) : ∃ first v others,
      args = first ++ v :: others ∧ first.length = before.length ∧ Aligned R env σ before first ∧
      n ≤ m ∧ shape.Within (Beside V before) m ∧ v.Fits R env shape σ ∧
      Node R env (Beside V before) m (column :: rest) (rows.map (·.pass before)) (v :: others) σ := by
  obtain ⟨order, shapeIn, known, here⟩ := inspected node.known node.scope reduced
  obtain ⟨first, later, rfl, length, firstAligned, aligned⟩ := aligned_append node.aligned
  cases aligned with
  | @cons _ v _ others stands restAligned =>
      have fits := stands.2.fits likeness (node.known.widen fun _ _ => trivial)
        (node.scope.column column (by simp)).2 reduced
      refine ⟨first, v, others, rfl, length, firstAligned, order, shapeIn, fits, known, here,
        pass_simple node.simple _, ?_, .cons stands restAligned⟩
      intro row member
      obtain ⟨original, isRow, rfl⟩ := List.mem_map.mp member
      have width := node.width original isRow
      simp [Row.pass, width]

/-- A value taken apart: new columns stand for its components, and over them it reads as it did. -/
structure Taken (R : Nameless → Nameless → Prop) (env : Environment) (V : Var → Prop) (n m : Nat)
    (v value : Term) (fields : List Column) (args : List Term) (σ σ' : Var → Nameless) : Prop where
  order : n ≤ m
  agree : ∀ z, z.id < n → σ' z = σ z
  new : ∀ f ∈ fields, n ≤ f.1.id
  distinct : (fields.map Prod.fst).Nodup
  mentions : ∀ f ∈ fields, f.1 ∈ value.freeVars
  scope : InScope V m fields
  valueIn : value.Within (Beside V fields) m
  aligned : Aligned R env σ' fields args
  like : R v.reading (value.reading.inst id σ')

theorem mem_fieldRefs {f : Column} (isField : f ∈ fields) :
    f.1 ∈ termsFree (fields.map fun f => .ref f.1) :=
  mem_termsFree.mpr ⟨.ref f.1, List.mem_map.mpr ⟨f, isField, rfl⟩, List.mem_singleton.mpr rfl⟩

/-- Below a shape of the value, columns stand for its components and the values after. -/
theorem Node.enter (likeness : Likeness R) {σ' : Var → Nameless} {k : Nat}
    (node : Node R env V k (column :: rest) rows (v :: others) σ)
    (taken : Taken R env V k n v value fields args σ σ')
    (enters : Enters env column rest rows shape value fields n columns inner m) :
    n ≤ m ∧ Node R env V m columns inner (args ++ others) σ' := by
  obtain ⟨later, columnsIn⟩ := enters.inScope node.scope taken.order taken.scope taken.valueIn
  obtain ⟨old, _⟩ := node.scope.column column List.mem_cons_self
  obtain ⟨⟨here, _⟩, restAligned⟩ := List.forall₂_cons.mp node.aligned
  have restIn : InScope (fun x => V x ∨ x = column.1) k rest := node.scope.2.2
  refine ⟨later, node.known.mono (taken.order.trans later), columnsIn, enters.simple node.simple,
    enters.width, ?_⟩
  refine enters.aligned likeness node.scope taken.order taken.valueIn taken.aligned
    (Aligned.agree restAligned restIn taken.agree) ?_
  rw [taken.agree column.1 old, here]
  exact likeness.symm taken.like

theorem Node.taken_con {data : DataDef} {u : Universe} {dataArgs : List Term}
    {c : DefId} {con : ConstructorDef}
    (node : Node R env V n (column :: rest) rows (v :: others) σ)
    (argsIn : ∀ a ∈ dataArgs, a.Within V n) (made : v.MadeBy R env σ data u dataArgs c con args)
    (fresh : freshen env ((Subst.instantiate data.params dataArgs).addStd u)
      (columnsOf con.params) n = .ok (fields, m)) :
    ∃ σ', Taken R env V n m v (conValue c u dataArgs fields) fields args σ σ' := by
  obtain ⟨order, fieldsIn, new, valueIn⟩ := conFields node.known argsIn made.defined fresh
  have below := node.known.constructors c con made.defined
  have put := (Subst.within_empty.bind data.params argsIn).addStd u
  have inReach := (telescope_inScope below (node.known.shapes c con made.defined)).widen
    fun x inScope => (Or.inl inScope : ((Subst.instantiate data.params dataArgs).addStd u).Reach V x)
  have levels : ((Subst.instantiate data.params dataArgs).addStd u).levels =
      (Subst.std u).levels := by
    simp [Subst.addStd, Subst.addLevel, Subst.std, Subst.instantiate, Subst.bind_levels]
  have fits := made.fits
  rw [← onUniverse_levels levels] at fits
  obtain ⟨σ', agree, aligned⟩ := freshen_aligned put inReach below (Nat.le_refl n) fits
    (fun _ _ => rfl) fresh
  refine ⟨σ', order, agree, new.1, new.2,
    fun f isField => List.mem_append_right _ (mem_fieldRefs isField), fieldsIn, valueIn, aligned, ?_⟩
  have same : dataArgs.map (·.reading.inst id σ') = dataArgs.map (·.reading.inst id σ) :=
    List.map_congr_left fun a member => inst_old (argsIn a member).below agree
  rw [conValue, Term.con_reading, Nameless.con_inst, List.map_map, List.map_map, List.map_map,
    fieldRefs_readings aligned]
  exact same ▸ made.like

theorem taken_tuple {params : Telescope} (typeIn : (Term.sigma params).Within V n)
    (made : v.TupleOf R env σ params args)
    (fresh : freshen env .empty (columnsOf params) n = .ok (fields, m)) :
    ∃ σ', Taken R env V n m v (tupleValue (.sigma params) fields) fields args σ σ' := by
  obtain ⟨order, fieldsIn, new, valueIn⟩ := tupleFields typeIn fresh
  have below := Term.below_sigma.mp typeIn.below
  have inReach := (telescope_inScope below typeIn.free).widen
    fun x inScope => (Or.inl inScope : Subst.empty.Reach V x)
  obtain ⟨σ', agree, aligned⟩ := freshen_aligned Subst.within_empty inReach below
    (Nat.le_refl n) made.fits (fun _ _ => rfl) fresh
  refine ⟨σ', order, agree, new.1, new.2,
    fun f isField => List.mem_append_left _ (mem_fieldRefs isField), fieldsIn, valueIn, aligned, ?_⟩
  rw [tupleValue, Term.tuple_reading, Nameless.tuple_inst, List.map_map, List.map_map,
    fieldRefs_readings aligned, inst_old typeIn.below agree]
  exact made.like

end Nodes

section Root

variable {R : Nameless → Nameless → Prop} {env : Environment} {σ : Var → Nameless}

/-- Values that fit the parameters stand for their variables. -/
theorem params_aligned {params : Telescope} {args : List Term} (proper : Telescope.Proper params)
    (fits : fieldsFit R env args params id σ) : ∃ σ', (∀ z, z ∉ params.vars → σ' z = σ z) ∧
      Aligned R env σ' (columnsOf params) args := by
  induction params generalizing args σ with
  | nil =>
      cases args with
      | nil => exact ⟨σ, fun _ _ => rfl, .nil⟩
      | cons a args => exact fits.elim
  | cons b params ih =>
      cases args with
      | nil => exact fits.elim
      | cons a args =>
          obtain ⟨type, here, rest⟩ := proper
          obtain ⟨σ', agree, aligned⟩ := ih rest fits.2
          have outside : ∀ z, z ≠ b.var → z ∉ Telescope.vars params → σ' z = σ z := by
            intro z apart unbound
            rw [agree z unbound, Function.update_of_ne apart]
          refine ⟨σ', fun z unbound => ?_, .cons ⟨?_, ?_⟩ aligned⟩
          · obtain ⟨apart, unbound⟩ := not_or.mp (List.mem_cons.not.mp unbound)
            exact outside z apart unbound
          · rw [agree _ here, Function.update_self]
          · have same : b.type.reading.inst id σ' = b.type.reading.inst id σ := by
              apply Nameless.inst_congr
              intro z member
              obtain ⟨apart, unbound⟩ := type z (Term.mem_reading_freeVars.mp member)
              exact outside z apart unbound
            rw [same]
            exact fits.1

theorem mem_numbered {clauses : List Clause} {row : Row} (member : row ∈ numbered clauses) :
    ∃ clause ∈ clauses, row.clause = clause ∧ row.patterns = clause.patterns ∧
      row.subst = .empty := by
  obtain ⟨⟨clause, number⟩, inClauses, rfl⟩ := List.mem_map.mp member
  exact ⟨clause, List.fst_mem_of_mem_zipIdx inClauses, rfl, rfl, rfl⟩

/-- At the root, a node stands over the parameters, and every row is a clause. -/
theorem root_node {V : Var → Prop} {n : Nat} {params : Telescope} {clauses : List Clause}
    {args : List Term} (known : env.Within V n) (old : Telescope.Below n params)
    (free : ∀ x ∈ telescopeFree params [], V x)
    (width : ∀ c ∈ clauses, c.patterns.length = params.length)
    (aligned : Aligned R env σ (columnsOf params) args) :
    Node R env V n (columnsOf params) (numbered clauses) args σ where
  known := known
  scope := telescope_inScope old free
  simple := by
    intro row member
    obtain ⟨_, _, _, _, empty⟩ := mem_numbered member
    rw [empty]
    exact ⟨rfl, rfl⟩
  width := by
    intro row member
    obtain ⟨clause, isClause, _, patterns, _⟩ := mem_numbered member
    rw [patterns, width clause isClause]
    simp [columnsOf]
  aligned := aligned

end Root

end Matching

end PathTheory
