import PathTheory.Proofs.Matching.Allowed
import PathTheory.Proofs.Matching.Coverage
import PathTheory.Proofs.Matching.Explored
import PathTheory.Proofs.Matching.FirstMatch
/-!
Rows and examples as values see them. An example has no value in common with any row; and of all
values of the types of the columns, the first row that matches is one of those that are led to, and
if no row matches then an example does.
-/
namespace PathTheory.Matching

open Pattern

variable {env : Environment} {n m k : Nat} {columns fields rest before : List Column}
  {column : Column} {rows inner : List Row} {row : Row} {shape : Shape} {value v : Term}
  {args first others components : List Term} {used : List Nat} {examples : List (List Pattern)}

section Rows

/-- Patterns of a row that binds the first columns fit if those after them do. -/
theorem pass_fits (length : first.length = before.length)
    (bound : ∀ p ∈ row.patterns.take before.length, p.isBinding = true)
    (width : before.length ≤ row.patterns.length) :
    rowFits (row.pass before).patterns others = rowFits row.patterns (first ++ others) := by
  have sized : (row.patterns.take before.length).length = first.length := by
    rw [List.length_take, length]
    exact Nat.min_eq_left width
  have whole : rowFits (row.patterns.take before.length ++ row.patterns.drop before.length)
      (first ++ others) = _ := rowFits_append sized
  rw [List.take_append_drop, rowFits_bindings bound sized] at whole
  exact whole.symm

/-- What is left of the rows below the shape of a value fits just as the rows do. -/
theorem Enters.fits (enters : Enters env column rest rows shape value fields n columns inner m)
    (shown : v.shape? = some (shape, components)) (sized : fields.length = components.length)
    (total : columns.length = (components ++ others).length) (isRow : row ∈ rows)
    (width : row.patterns.length = (v :: others).length) :
    (row.enter shape value fields).any (fun inner => rowFits inner.patterns (components ++ others)) =
      rowFits row.patterns (v :: others) := by
  refine enter_fits shown sized width fun inner entered => ?_
  rw [← total]
  apply enters.width
  rw [enters.rows]
  exact List.mem_filterMap.mpr ⟨row, isRow, entered⟩

theorem Enters.length (enters : Enters env column rest rows shape value fields n columns inner m) :
    columns.length = fields.length + rest.length := by
  obtain ⟨others, replaced, rfl⟩ := enters.types
  have names := congrArg List.length (replaceIn_vars replaced)
  simp only [List.length_map] at names
  rw [List.length_append, names]

theorem Frame.wrap_length (frame : Frame) {e : List Pattern} (enough : frame.arity ≤ e.length) :
    (frame.wrap e).length + frame.arity = frame.before.length + e.length + 1 := by
  simp only [Frame.wrap, List.length_append, List.length_map, List.length_cons, List.length_drop]
  omega

/-- A wrapped example fits if the value has the shape and the example fits below it. -/
theorem Frame.wrap_fits {frame : Frame} {e : List Pattern}
    (length : first.length = frame.before.length) (shown : v.shape? = some (frame.shape, components))
    (arity : components.length = frame.arity) (enough : frame.arity ≤ e.length) :
    rowFits (frame.wrap e) (first ++ v :: others) = rowFits e (components ++ others) := by
  have bound : ∀ p ∈ frame.before.map Pattern.binding, p.isBinding = true := by
    intro p member
    obtain ⟨_, _, rfl⟩ := List.mem_map.mp member
    rfl
  have sized : (frame.before.map Pattern.binding).length = first.length := by
    rw [List.length_map, length]
  have taken : (e.take frame.arity).length = components.length := by
    rw [List.length_take, arity]
    exact Nat.min_eq_left enough
  rw [Frame.wrap, rowFits_append sized, rowFits_bindings bound sized, Bool.true_and]
  conv => rhs; rw [← List.take_append_drop frame.arity e, rowFits_append taken]
  simp [rowFits, fits, shown]

theorem rowFits_length {patterns : List Pattern} (fits : rowFits patterns args = true) :
    patterns.length = args.length := by
  induction patterns generalizing args with
  | nil =>
      cases args with
      | nil => rfl
      | cons a args => cases fits
  | cons p patterns ih =>
      cases args with
      | nil => cases fits
      | cons a args =>
          simp only [rowFits, Bool.and_eq_true] at fits
          exact congrArg (· + 1) (ih fits.2)

/-- What a wrapped example fits has the shape. -/
theorem Frame.wrap_shown {frame : Frame} {e : List Pattern} (enough : frame.arity ≤ e.length)
    (fits : rowFits (frame.wrap e) args = true) : ∃ first v others components,
      args = first ++ v :: others ∧ first.length = frame.before.length ∧
        v.shape? = some (frame.shape, components) ∧ components.length = frame.arity := by
  have total := rowFits_length fits
  rw [Frame.wrap] at total fits
  simp only [List.length_append, List.length_map, List.length_cons] at total
  have split := List.take_append_drop frame.before.length args
  have length : (args.take frame.before.length).length = frame.before.length := by
    rw [List.length_take]
    omega
  rw [← split, rowFits_append (by rw [List.length_map, length]), Bool.and_eq_true] at fits
  cases left : args.drop frame.before.length with
  | nil =>
      rw [left] at fits
      cases fits.2
  | cons v others =>
      rw [left] at split fits
      obtain ⟨here, _⟩ := Bool.and_eq_true_iff.mp fits.2
      cases shown : v.shape? with
      | none => simp [Pattern.fits, shown] at here
      | some entry =>
          obtain ⟨shape, components⟩ := entry
          simp only [Pattern.fits, shown, Bool.and_eq_true, decide_eq_true_eq] at here
          obtain ⟨same, inner⟩ := here
          have arity := rowFits_length inner
          rw [List.length_take, Nat.min_eq_left enough] at arity
          exact ⟨_, v, others, components, split.symm, length, by rw [shown, same], arity.symm⟩

end Rows

section Apart

/-- Nothing that fits the example fits a row. -/
def Apart (rows : List Row) (e : List Pattern) : Prop :=
  ∀ args, rowFits e args = true → ∀ row ∈ rows, rowFits row.patterns args = false

/-- The same for rows whose patterns stand after those of as many columns. -/
def ApartAfter (passed : Nat) (rows : List Row) (e : List Pattern) : Prop :=
  ∀ args, rowFits e args = true → ∃ first others, args = first ++ others ∧ first.length = passed ∧
    ∀ row ∈ rows, rowFits row.patterns others = false

/-- Rows and examples below a shape of the inspected column are apart, so they are above it. -/
theorem Apart.wrap {passed : List Var} {e : List Pattern}
    (enters : Enters env column rest rows shape value fields n columns inner m)
    (width : ∀ row ∈ rows, row.patterns.length = rest.length + 1)
    (length : e.length = columns.length) (apart : Apart inner e) :
    (Frame.wrap ⟨passed, shape, fields.length⟩ e).length = passed.length + (rest.length + 1) ∧
      ApartAfter passed.length rows (Frame.wrap ⟨passed, shape, fields.length⟩ e) := by
  have wide := enters.length
  have enough : fields.length ≤ e.length := by omega
  refine ⟨?_, fun args fits => ?_⟩
  · have wrapped := Frame.wrap_length ⟨passed, shape, fields.length⟩ enough
    dsimp only at wrapped
    omega
  · obtain ⟨first, v, others, components, rfl, sized, shown, arity⟩ := Frame.wrap_shown enough fits
    rw [Frame.wrap_fits sized shown arity enough] at fits
    have total := rowFits_length fits
    refine ⟨first, v :: others, rfl, sized, fun row isRow => ?_⟩
    have outer : row.patterns.length = (v :: others).length := by
      rw [width row isRow]
      simp only [List.length_append, List.length_cons] at total arity ⊢
      omega
    rw [← enters.fits shown arity.symm (length.symm.trans total) isRow outer, Option.any_eq_false]
    intro inner' entered
    refine apart _ fits inner' ?_
    rw [enters.rows]
    exact List.mem_filterMap.mpr ⟨row, isRow, entered⟩

/-- Rows that bind the columns before are apart from what they are apart from after them. -/
theorem ApartAfter.pass {e : List Pattern} (inspects : Inspects before rows)
    (width : ∀ row ∈ rows, before.length ≤ row.patterns.length)
    (apart : ApartAfter before.length (rows.map (·.pass before)) e) : Apart rows e := by
  intro args fits row isRow
  obtain ⟨first, others, rfl, sized, none⟩ := apart args fits
  rw [← pass_fits sized (inspects.bound row isRow) (width row isRow)]
  exact none _ (List.mem_map_of_mem isRow)

theorem passed_width (width : ∀ row ∈ rows, row.patterns.length = (before ++ column :: rest).length) :
    ∀ row ∈ rows.map (·.pass before), row.patterns.length = rest.length + 1 := by
  intro row member
  obtain ⟨original, isRow, rfl⟩ := List.mem_map.mp member
  simp [Row.pass, width original isRow]

mutual

/-- Every example is as long as there are columns, and has nothing in common with the rows. -/
theorem Explored.apart : ∀ {n m : Nat} {columns : List Column} {rows : List Row} {used : List Nat}
    {examples : List (List Pattern)}, Explored env n columns rows used examples m →
    (∀ row ∈ rows, row.patterns.length = columns.length) →
    ∀ e ∈ examples, e.length = columns.length ∧ Apart rows e
  | _, _, _, _, _, _, .leaf _ _, _ | _, _, _, _, _, _, .empty _, _
  | _, _, _, _, _, _, .unknown _ _ _, _ | _, _, _, _, _, _, .absurd _ _ _ _ _, _ =>
      List.forall_mem_nil _
  | _, _, _, _, _, _, .missing _, _ =>
      List.forall_mem_singleton.mpr ⟨List.length_map .., fun _ _ => List.forall_mem_nil _⟩
  | _, _, _, _, _, _, .data inspects _ _ _ children, width => by
      intro e listed
      obtain ⟨length, apart⟩ := children.apart (passed_width width) e listed
      rw [List.length_map] at length apart
      refine ⟨by rw [length]; simp, apart.pass inspects fun row isRow => ?_⟩
      simp [width row isRow]
  | _, _, _, _, _, _, .tuple inspects _ _ enters child, width => by
      intro e listed
      obtain ⟨inner, isExample, rfl⟩ := List.mem_map.mp listed
      obtain ⟨length, apart⟩ := child.apart enters.width inner isExample
      obtain ⟨length, apart⟩ := apart.wrap enters (passed_width width) length
      rw [List.length_map] at apart
      refine ⟨by rw [length]; simp, apart.pass inspects fun row isRow => ?_⟩
      simp [width row isRow]

theorem ExploredAll.apart : ∀ {data : DataDef} {u : Universe} {args : List Term} {passed : List Var}
    {column : Column} {rest : List Column} {rows : List Row} {n m : Nat} {live : List DefId}
    {used : List Nat} {examples : List (List Pattern)},
    ExploredAll env data u args passed column rest rows n live used examples m →
    (∀ row ∈ rows, row.patterns.length = rest.length + 1) →
    ∀ e ∈ examples, e.length = passed.length + (rest.length + 1) ∧ ApartAfter passed.length rows e
  | _, _, _, _, _, _, _, _, _, _, _, _, .nil, _ => List.forall_mem_nil _
  | _, _, _, _, _, _, _, _, _, _, _, _, .skip _ others, width => others.apart width
  | _, _, _, _, _, _, _, _, _, _, _, _, .child _ _ enters explored others, width => by
      refine List.forall_mem_append.mpr ⟨fun e listed => ?_, others.apart width⟩
      obtain ⟨inner, isExample, rfl⟩ := List.mem_map.mp listed
      obtain ⟨length, apart⟩ := explored.apart enters.width inner isExample
      exact apart.wrap enters width length

end

end Apart

section Complete

variable (env) in
/-- As many arguments as the shape has components. -/
def Suits (shape : Shape) (arity : Nat) : Prop :=
  match shape with
  | .con c => ∃ con, env.constructor? c = some con ∧ arity = con.params.length
  | .tuple n => arity = n

mutual

/-- Variables, and shapes with a pattern for each component. -/
def Complete (env : Environment) : Pattern → Prop
  | .binding _ => True
  | .shaped shape args => Suits env shape args.length ∧ RowComplete env args
  | .absurd => False

def RowComplete (env : Environment) : List Pattern → Prop
  | [] => True
  | p :: row => Complete env p ∧ RowComplete env row

end

theorem rowComplete_iff {row : List Pattern} : RowComplete env row ↔ ∀ p ∈ row, Complete env p := by
  induction row with
  | nil => simp [RowComplete]
  | cons p row ih => simp [RowComplete, ih]

theorem rowComplete_bindings {α : Type} (f : α → Var) (l : List α) :
    RowComplete env (l.map fun a => .binding (f a)) := by
  refine rowComplete_iff.mpr fun p member => ?_
  obtain ⟨_, _, rfl⟩ := List.mem_map.mp member
  trivial

theorem RowComplete.wrap {frame : Frame} {e : List Pattern} (complete : RowComplete env e)
    (suits : Suits env frame.shape frame.arity) (enough : frame.arity ≤ e.length) :
    RowComplete env (frame.wrap e) := by
  have here : Complete env (.shaped frame.shape (e.take frame.arity)) := by
    refine ⟨?_, rowComplete_iff.mpr fun p member => ?_⟩
    · rwa [List.length_take, Nat.min_eq_left enough]
    · exact rowComplete_iff.mp complete p (List.mem_of_mem_take member)
  refine rowComplete_iff.mpr (List.forall_mem_append.mpr ⟨?_, List.forall_mem_cons.mpr ⟨here, ?_⟩⟩)
  · exact rowComplete_iff.mp (rowComplete_bindings id _)
  · exact fun p member => rowComplete_iff.mp complete p (List.mem_of_mem_drop member)

theorem columnsOf_length (params : Telescope) : (columnsOf params).length = params.length :=
  List.length_map ..

mutual

/-- Examples say of every shape what its components look like. -/
theorem Explored.complete : ∀ {n m : Nat} {columns : List Column} {rows : List Row} {used : List Nat}
    {examples : List (List Pattern)}, Explored env n columns rows used examples m →
    (∀ row ∈ rows, row.patterns.length = columns.length) → ∀ e ∈ examples, RowComplete env e
  | _, _, _, _, _, _, .leaf _ _, _ | _, _, _, _, _, _, .empty _, _
  | _, _, _, _, _, _, .unknown _ _ _, _ | _, _, _, _, _, _, .absurd _ _ _ _ _, _ =>
      List.forall_mem_nil _
  | _, _, _, _, _, _, .missing _, _ => List.forall_mem_singleton.mpr (rowComplete_bindings _ _)
  | _, _, _, _, _, _, .data _ _ _ _ children, width => children.complete (passed_width width)
  | _, _, _, _, _, _, .tuple _ _ fresh enters child, width => by
      intro e listed
      obtain ⟨inner, isExample, rfl⟩ := List.mem_map.mp listed
      have sized := freshen_length _ _ _ fresh
      rw [columnsOf_length] at sized
      have enough := (child.apart enters.width inner isExample).1
      rw [enters.length] at enough
      exact (child.complete enters.width inner isExample).wrap sized (by dsimp only; omega)

theorem ExploredAll.complete : ∀ {data : DataDef} {u : Universe} {args : List Term}
    {passed : List Var} {column : Column} {rest : List Column} {rows : List Row} {n m : Nat}
    {live : List DefId} {used : List Nat} {examples : List (List Pattern)},
    ExploredAll env data u args passed column rest rows n live used examples m →
    (∀ row ∈ rows, row.patterns.length = rest.length + 1) → ∀ e ∈ examples, RowComplete env e
  | _, _, _, _, _, _, _, _, _, _, _, _, .nil, _ => List.forall_mem_nil _
  | _, _, _, _, _, _, _, _, _, _, _, _, .skip _ others, width => others.complete width
  | _, _, _, _, _, _, _, _, _, _, _, _, .child defined fresh enters explored others, width => by
      refine List.forall_mem_append.mpr ⟨fun e listed => ?_, others.complete width⟩
      obtain ⟨inner, isExample, rfl⟩ := List.mem_map.mp listed
      have sized := freshen_length _ _ _ fresh
      rw [columnsOf_length] at sized
      have enough := (explored.apart enters.width inner isExample).1
      rw [enters.length] at enough
      exact (explored.complete enters.width inner isExample).wrap ⟨_, defined, sized⟩
        (by dsimp only; omega)

end

end Complete

section Order

theorem beforeEmpty_order {V : Var → Prop} {found : Option (List Column)}
    (known : env.Within V n) (scope : InScope V n columns)
    (done : beforeEmpty env columns n = .ok (found, m)) : n ≤ m := by
  induction columns generalizing V n found with
  | nil =>
      cases fresh_pure done
      exact Nat.le_refl _
  | cons c columns ih =>
      obtain ⟨x, type⟩ := c
      obtain ⟨_, typeIn, restIn⟩ := scope
      unfold beforeEmpty at done
      obtain ⟨shape, k, reduced, next⟩ := fresh_bind done
      have order := (Term.whnf_within known _ _ (Nat.le_refl n) typeIn _ _ reduced).1
      split at next
      · cases fresh_pure next
        exact order
      · obtain ⟨inner, l, later, final⟩ := fresh_bind next
        cases fresh_pure final
        exact order.trans
          (ih ((known.mono order).widen fun _ => Or.inl) (restIn.mono order) later)

mutual

/-- The counter never goes down on the way. -/
theorem Explored.order : ∀ {V : Var → Prop} {n m : Nat} {columns : List Column} {rows : List Row}
    {used : List Nat} {examples : List (List Pattern)},
    Explored env n columns rows used examples m → env.Within V n → InScope V n columns →
    RowsSimple rows → n ≤ m
  | V, n, m, columns, _, _, _, .leaf _ applied, _, _, simple =>
      Subst.apply_order (bindColumns_simple (simple _ List.mem_cons_self) _ _).still applied
  | V, n, m, columns, _, _, _, .empty found, known, scope, _
  | V, n, m, columns, _, _, _, .missing found, known, scope, _ => beforeEmpty_order known scope found
  | V, n, m, _, _, _, _, .unknown _ reduced _, known, scope, _
  | V, n, m, _, _, _, _, .absurd _ reduced _ _ _, known, scope, _ => (inspected known scope reduced).1
  | V, n, m, _, _, _, _, .data _ reduced _ _ children, known, scope, simple => by
      obtain ⟨order, shapeIn, known', here⟩ := inspected known scope reduced
      exact order.trans (children.order known' here (Term.within_data.mp shapeIn)
        (pass_simple simple _))
  | V, n, m, _, _, _, _, .tuple _ reduced fresh enters child, known, scope, simple => by
      obtain ⟨order, shapeIn, known', here⟩ := inspected known scope reduced
      obtain ⟨later, fieldsIn, _, valueIn⟩ := tupleFields shapeIn fresh
      obtain ⟨next, columnsIn⟩ := enters.inScope here later fieldsIn valueIn
      have inner := child.order (known'.mono (later.trans next)) columnsIn
        (enters.simple (pass_simple simple _))
      exact order.trans (later.trans (next.trans inner))

theorem ExploredAll.order : ∀ {V : Var → Prop} {n m : Nat} {data : DataDef} {u : Universe}
    {args : List Term} {passed : List Var} {column : Column} {rest : List Column} {rows : List Row}
    {live : List DefId} {used : List Nat} {examples : List (List Pattern)},
    ExploredAll env data u args passed column rest rows n live used examples m → env.Within V n →
    InScope V n (column :: rest) → (∀ a ∈ args, a.Within V n) → RowsSimple rows → n ≤ m
  | _, _, _, _, _, _, _, _, _, _, _, _, _, .nil, _, _, _, _ => Nat.le_refl _
  | V, n, m, _, _, _, _, _, _, _, _, _, _, .skip _ others, known, scope, argsIn, simple =>
      others.order known scope argsIn simple
  | V, n, m, _, _, _, _, _, _, _, _, _, _, .child defined fresh enters explored others, known, scope,
      argsIn, simple => by
      obtain ⟨later, fieldsIn, _, valueIn⟩ := conFields known argsIn defined fresh
      obtain ⟨next, columnsIn⟩ := enters.inScope scope later fieldsIn valueIn
      have start := later.trans next
      have inner := explored.order (known.mono start) columnsIn (enters.simple simple)
      have after := start.trans inner
      exact after.trans (others.order (known.mono after) (scope.mono after)
        (within_later argsIn after) simple)

end

end Order

section Seen

/-- The first row that fits is marked, and if none does then an example fits. -/
structure Seen (rows : List Row) (args : List Term) (used : List Nat) (exemplified : Prop) :
    Prop where
  led : ∀ row, rows.find? (fun row => rowFits row.patterns args) = some row → row.number ∈ used
  left : rows.find? (fun row => rowFits row.patterns args) = none → exemplified

namespace Seen

variable {exemplified exemplified' : Prop} {used' : List Nat}

theorem mono (seen : Seen rows args used exemplified) (more : ∀ i ∈ used, i ∈ used')
    (implied : exemplified → exemplified') : Seen rows args used' exemplified' where
  led row found := more _ (seen.led row found)
  left none := implied (seen.left none)

theorem pass (seen : Seen (rows.map (·.pass before)) others used exemplified)
    (inspects : Inspects before rows) (width : ∀ row ∈ rows, before.length ≤ row.patterns.length)
    (length : first.length = before.length) : Seen rows (first ++ others) used exemplified := by
  have same : (rows.map (·.pass before)).find? (fun row => rowFits row.patterns others) =
      (rows.find? fun row => rowFits row.patterns (first ++ others)).map (·.pass before) := by
    rw [List.find?_map]
    exact congrArg _ (List.find?_congr fun row isRow =>
      pass_fits length (inspects.bound row isRow) (width row isRow))
  refine ⟨fun row found => ?_, fun none => seen.left ?_⟩
  · rw [found] at same
    exact seen.led (row.pass before) same
  · rw [same, none]
    rfl

theorem enter (seen : Seen inner (components ++ others) used exemplified)
    (enters : Enters env column rest rows shape value fields n columns inner m)
    (shown : v.shape? = some (shape, components)) (sized : fields.length = components.length)
    (total : columns.length = (components ++ others).length)
    (width : ∀ row ∈ rows, row.patterns.length = (v :: others).length) :
    Seen rows (v :: others) used exemplified := by
  have same : inner.find? (fun row => rowFits row.patterns (components ++ others)) =
      (rows.find? fun row => rowFits row.patterns (v :: others)).bind
        (·.enter shape value fields) := by
    rw [enters.rows, List.find?_filterMap]
    exact congrArg (Option.bind · _) (List.find?_congr fun row isRow =>
      enters.fits shown sized total isRow (width row isRow))
  refine ⟨fun row found => ?_, fun none => seen.left ?_⟩
  · have fits := enters.fits shown sized total (List.mem_of_find?_eq_some found)
      (width row (List.mem_of_find?_eq_some found))
    rw [List.find?_some found] at fits
    obtain ⟨inner', entered, _⟩ := (Option.any_eq_true _ _).mp fits
    rw [found, Option.bind_some, entered] at same
    have number : inner'.number = row.number := by
      rcases enter_cases entered with ⟨_, _, _, rfl⟩ | ⟨_, _, _, rfl⟩ <;> rfl
    exact number ▸ seen.led inner' same
  · rw [same, none]
    rfl

end Seen

/-- Some example fits. -/
def Exemplified (examples : List (List Pattern)) (args : List Term) : Prop :=
  ∃ e ∈ examples, rowFits e args = true

theorem Exemplified.wrap {passed : List Var} {arity : Nat}
    (exemplified : Exemplified examples (components ++ others))
    (length : first.length = passed.length) (shown : v.shape? = some (shape, components))
    (sized : components.length = arity) :
    Exemplified (examples.map (Frame.wrap ⟨passed, shape, arity⟩)) (first ++ v :: others) := by
  obtain ⟨e, listed, fits⟩ := exemplified
  have enough : arity ≤ e.length := by
    rw [rowFits_length fits, List.length_append]
    omega
  exact ⟨_, List.mem_map_of_mem listed, by rw [Frame.wrap_fits length shown sized enough, fits]⟩

theorem bindings_fit (columns : List Column) (length : columns.length = args.length) :
    rowFits (columns.map fun c => .binding c.1) args = true := by
  refine rowFits_bindings (fun p member => ?_) (by rw [List.length_map, length])
  obtain ⟨_, _, rfl⟩ := List.mem_map.mp member
  rfl

variable {R : Nameless → Nameless → Prop}

mutual

/-- Of values of the types of the columns, the row that takes them is marked, or an example is. -/
theorem Explored.seen (likeness : Likeness R) : ∀ {V : Var → Prop} {n m : Nat}
    {columns : List Column} {rows : List Row} {used : List Nat} {examples : List (List Pattern)}
    {args : List Term} {σ : Var → Nameless}, Explored env n columns rows used examples m →
    Node R env V n columns rows args σ → RowsSpare env rows args →
    Seen rows args used (Exemplified examples args)
  | V, n, m, columns, row :: others, _, _, args, σ, .leaf allBinding _, node, _ => by
      have width := node.width row List.mem_cons_self
      have fits : rowFits row.patterns args = true := by
        refine rowFits_bindings (List.all_eq_true.mp allBinding) ?_
        rw [width, List.Forall₂.length_eq node.aligned]
      have first : (row :: others).find? (fun row => rowFits row.patterns args) = some row :=
        List.find?_cons_of_pos fits
      refine ⟨fun row' found => ?_, fun none => ?_⟩
      · cases first.symm.trans found
        exact List.mem_singleton_self _
      · cases first.symm.trans none
  | V, n, m, columns, _, _, _, args, σ, .empty found, node, _ => by
      obtain ⟨_, column, rest, k, l, d, u, dataArgs, data, rfl, order, reduced, known, lacks⟩ :=
        beforeEmpty_some node.known node.scope found
      obtain ⟨_, v, _, _, _, _, _, _, fits, _⟩ := (node.mono order).inspect likeness reduced
      obtain ⟨data', c, con, _, known', isCon, _⟩ := fits.data
      cases known.symm.trans known'
      rw [lacks] at isCon
      cases isCon
  | V, n, m, columns, _, _, _, args, σ, .missing _, node, _ =>
      ⟨nofun, fun _ => ⟨_, List.mem_singleton_self _,
        bindings_fit columns (List.Forall₂.length_eq node.aligned)⟩⟩
  | V, n, m, _, _, _, _, args, σ, .unknown inspects reduced unknown, node, _ => by
      obtain ⟨_, v, _, _, _, _, _, _, fits, _⟩ := node.inspect likeness reduced
      obtain ⟨data', c, con, _, known, _⟩ := fits.data
      cases unknown.symm.trans known
  | V, n, m, _, _, _, _, args, σ, .absurd inspects reduced found lacks _, node, spare => by
      obtain ⟨first, v, others, rfl, length, _, _, _, fits, _⟩ := node.inspect likeness reduced
      obtain ⟨data', c, con, args, known', isCon, made⟩ := fits.data
      cases found.symm.trans known'
      have untruncated := spare.untruncated length inspects c args made.shown _ _ found isCon
      rw [lacks untruncated] at isCon
      cases isCon
  | V, n, m, _, rows, _, _, args, σ, .data inspects reduced found complete children, node, spare => by
      obtain ⟨first, v, others, rfl, length, _, _, shapeIn, fits, below⟩ :=
        node.inspect likeness reduced
      obtain ⟨data', c, con, args, known', isCon, made⟩ := fits.data
      cases found.symm.trans known'
      have untruncated := spare.untruncated length inspects c args made.shown _ _ found isCon
      rw [← complete untruncated] at isCon
      have sized := length.trans (List.length_map Prod.fst).symm
      have seen := children.seen likeness below (spare.pass length) (Term.within_data.mp shapeIn)
        made isCon sized
      exact seen.pass inspects (fun row isRow => by simp [node.width row isRow]) length
  | V, n, m, _, rows, _, _, args, σ, .tuple inspects reduced fresh enters child, node, spare => by
      obtain ⟨first, v, others, rfl, length, _, _, shapeIn, fits, here⟩ :=
        node.inspect likeness reduced
      obtain ⟨components, made⟩ := fits.sigma
      obtain ⟨σ', taken⟩ := taken_tuple shapeIn made fresh
      obtain ⟨_, below⟩ := here.enter likeness taken enters
      have shown := made.shown
      rw [made.fits.length] at shown
      have sized := List.Forall₂.length_eq taken.aligned
      have outer := List.Forall₂.length_eq here.aligned
      have seen := child.seen likeness below ((spare.pass length).enter here enters below shown)
      have entered := seen.enter enters shown sized (List.Forall₂.length_eq below.aligned)
        fun row isRow => (here.width row isRow).trans outer
      refine (entered.mono (fun _ => id) fun exemplified => ?_).pass inspects
        (fun row isRow => by simp [node.width row isRow]) length
      exact exemplified.wrap (by rw [List.length_map, length]) shown sized.symm

theorem ExploredAll.seen (likeness : Likeness R) : ∀ {V : Var → Prop} {n m : Nat} {data : DataDef}
    {u : Universe} {dataArgs : List Term} {passed : List Var} {column : Column} {rest : List Column}
    {rows : List Row} {live : List DefId} {used : List Nat} {examples : List (List Pattern)}
    {c : DefId} {con : ConstructorDef} {v : Term} {first args others : List Term}
    {σ : Var → Nameless},
    ExploredAll env data u dataArgs passed column rest rows n live used examples m →
    Node R env V n (column :: rest) rows (v :: others) σ → RowsSpare env rows (v :: others) →
    (∀ a ∈ dataArgs, a.Within V n) → v.MadeBy R env σ data u dataArgs c con args → c ∈ live →
    first.length = passed.length →
    Seen rows (v :: others) used (Exemplified examples (first ++ v :: others))
  | _, _, _, _, _, _, _, _, _, _, _, _, _, c, _, _, _, _, _, _, .nil, _, _, _, _, member, _ => by
      cases member
  | V, n, m, _, _, _, _, _, _, _, _, _, _, c, con, v, first, args, others, σ, .skip undefined below,
      node, spare, argsIn, made, member, length => by
      rcases List.mem_cons.mp member with rfl | later
      · cases undefined.symm.trans made.defined
      · exact below.seen likeness node spare argsIn made later length
  | V, n, m, _, _, _, passed, _, _, _, here :: _, _, _, c, con, v, first, args, others, σ,
      .child defined fresh enters tree below, node, spare, argsIn, made, member, length => by
      by_cases same : c = here
      · subst same
        cases defined.symm.trans made.defined
        obtain ⟨σ', taken⟩ := node.taken_con argsIn made fresh
        obtain ⟨_, inner⟩ := node.enter likeness taken enters
        have sized := List.Forall₂.length_eq taken.aligned
        have outer := List.Forall₂.length_eq node.aligned
        have seen := tree.seen likeness inner (spare.enter node enters inner made.shown)
        have entered := seen.enter enters made.shown sized (List.Forall₂.length_eq inner.aligned)
          fun row isRow => (node.width row isRow).trans outer
        refine entered.mono (fun i => List.mem_append_right _) fun exemplified => ?_
        obtain ⟨e, listed, fits⟩ := exemplified.wrap length made.shown sized.symm
        exact ⟨e, List.mem_append_left _ listed, fits⟩
      · have single : ExploredAll env _ _ _ passed _ _ _ n [here] _ _ _ :=
          .child defined fresh enters tree .nil
        have order := single.order node.known node.scope argsIn node.simple
        have later := below.seen likeness (node.mono order) spare (within_later argsIn order) made
          ((List.mem_cons.mp member).resolve_left same) length
        refine later.mono (fun i => List.mem_append_left _) fun ⟨e, listed, fits⟩ => ?_
        exact ⟨e, List.mem_append_right _ listed, fits⟩

end

end Seen

end PathTheory.Matching
