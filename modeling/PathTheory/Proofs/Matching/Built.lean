import PathTheory.Matching
import PathTheory.Proofs.Syntax.Freshness
import Mathlib.Data.List.Forall2
/-!
Case trees as they are built. The compiler reports, counts and gives up on its way; where it gives a
tree, the tree stands in a relation to the columns and the rows that says only which node was made
from what. The counter before and after is part of the relation, because the new variables of a
node are numbered by it.
-/
namespace PathTheory.Matching

section Compile

variable {α β : Type} {setting : Setting} {p : Progress} {n : Nat}

theorem compile_bind {a : Compile α} {f : α → Compile β} {r : (β × Progress) × Nat}
    (done : (a >>= f) setting p n = .ok r) :
    ∃ x q m, a setting p n = .ok ((x, q), m) ∧ f x setting q m = .ok r := by
  obtain ⟨⟨x, q⟩, m, first, rest⟩ := fresh_bind (a := a setting p)
    (f := fun r => f r.1 setting r.2) done
  exact ⟨x, q, m, first, rest⟩

theorem compile_pure {x : α} {r : (α × Progress) × Nat}
    (done : (pure x : Compile α) setting p n = .ok r) : r = ((x, p), n) := fresh_pure done

theorem compile_reading {f : Environment → Fresh α} {r : (α × Progress) × Nat}
    (done : reading f setting p n = .ok r) :
    ∃ x m, f setting.env n = .ok (x, m) ∧ r = ((x, p), m) := by
  obtain ⟨_, _, _, ask, rest⟩ := compile_bind done
  cases ask
  obtain ⟨⟨x, m⟩, first, final⟩ := bind_ok (a := f setting.env n)
    (f := fun r => pure ((r.1, p), r.2)) rest
  exact ⟨x, m, first, (Except.ok.inj final).symm⟩

theorem compile_then {a : Compile α} {x : α} {q : Progress} {m : Nat}
    (first : a setting p n = .ok ((x, q), m)) {f : α → Compile β} {r : (β × Progress) × Nat}
    (rest : f x setting q m = .ok r) : (a >>= f) setting p n = .ok r :=
  fresh_then (a := a setting p) (f := fun r => f r.1 setting r.2) first rest

theorem reading_ok {f : Environment → Fresh α} {x : α} {m : Nat}
    (done : f setting.env n = .ok (x, m)) : reading f setting p n = .ok ((x, p), m) := by
  change (f setting.env n >>= fun r => pure ((r.1, p), r.2)) = _
  rw [done]
  rfl

theorem refuse_false {rows : List Row} {bad : Pattern → Bool}
    {problem : Pattern → Checked Problem} {q : Progress} {m : Nat}
    (done : refuse rows bad problem setting p n = .ok ((false, q), m)) : q = p ∧ m = n := by
  unfold refuse at done
  cases found : rows.find? fun r => bad (r.patterns.headD .absurd) with
  | none =>
      rw [found] at done
      cases compile_pure done
      exact ⟨rfl, rfl⟩
  | some row =>
      rw [found] at done
      obtain ⟨_, _, _, _, rest⟩ := compile_bind done
      obtain ⟨_, _, _, _, final⟩ := compile_bind rest
      cases compile_pure final

end Compile

/-- Every row binds the columns before, and one of them takes the next one apart. -/
structure Inspects (before : List Column) (rows : List Row) : Prop where
  bound : ∀ row ∈ rows, ∀ p ∈ row.patterns.take before.length, p.isBinding = true
  apart : ∃ row ∈ rows, ∃ p, row.patterns[before.length]? = some p ∧ p.isBinding = false

/-- Columns and rows below a shape. -/
structure Enters (env : Environment) (column : Column) (rest : List Column) (rows : List Row)
    (shape : Shape) (value : Term) (fields : List Column) (n : Nat) (columns : List Column)
    (inner : List Row) (m : Nat) : Prop where
  types : ∃ others, replaceIn env (.single column.1 value) rest n = .ok (others, m) ∧
    columns = fields ++ others
  rows : inner = rows.filterMap (·.enter shape value fields)
  width : ∀ row ∈ inner, row.patterns.length = columns.length

/-- The value that a shape stands for, over the columns for its components. -/
def conValue (c : DefId) (u : Universe) (params : List Term) (fields : List Column) : Term :=
  .con c u params (fields.map fun f => .ref f.1)

def tupleValue (type : Term) (fields : List Column) : Term :=
  .tuple (fields.map fun f => .ref f.1) type

mutual

/-- The tree for columns and rows; the counter goes from the first number to the last. -/
inductive Built (env : Environment) : Nat → List Column → List Row → CaseTree → Nat → Prop
  | leaf {n m : Nat} {columns : List Column} {row : Row} {others : List Row} {body result : Term} :
      row.patterns.all Pattern.isBinding = true → row.clause.body = some body →
      (bindColumns row.subst row.patterns columns).apply env body n = .ok (result, m) →
      Built env n columns (row :: others) (.leaf (Telescope.ofPairs columns) result) m
  | empty {n m : Nat} {columns before : List Column} :
      beforeEmpty env columns n = .ok (some before, m) →
      Built env n columns [] (.branch (Telescope.ofPairs before) []) m
  | absurd {n m : Nat} {before rest : List Column} {column : Column} {rows : List Row} {d : DefId}
      {u : Universe} {args : List Term} {data : DataDef} :
      Inspects before rows → column.2.whnf env n = .ok (.data d u args, m) →
      env.data? d = some data → (data.truncated = false → data.constructors = []) →
      (∃ row ∈ rows, row.patterns[before.length]? = some .absurd) →
      Built env n (before ++ column :: rest) rows (.branch (Telescope.ofPairs before) []) m
  | data {n m k : Nat} {before rest : List Column} {column : Column} {rows : List Row} {d : DefId}
      {u : Universe} {args : List Term} {data : DataDef} {live : List DefId}
      {children : List (Shape × CaseTree)} :
      Inspects before rows → column.2.whnf env n = .ok (.data d u args, m) →
      env.data? d = some data → (data.truncated = false → live = data.constructors) →
      BuiltAll env data u args column rest (rows.map (·.pass before)) m live children k →
      Built env n (before ++ column :: rest) rows (.branch (Telescope.ofPairs before) children) k
  | tuple {n m k l i : Nat} {before rest columns fields : List Column} {column : Column}
      {rows inner : List Row} {params : Telescope} {child : CaseTree} :
      Inspects before rows → column.2.whnf env n = .ok (.sigma params, m) →
      freshen env .empty (columnsOf params) m = .ok (fields, k) →
      Enters env column rest (rows.map (·.pass before)) (.tuple params.length)
        (tupleValue (.sigma params) fields) fields k columns inner l →
      Built env l columns inner child i →
      Built env n (before ++ column :: rest) rows
        (.branch (Telescope.ofPairs before) [(.tuple params.length, child)]) i

/-- The children for constructors; those that are not defined have none. -/
inductive BuiltAll (env : Environment) : DataDef → Universe → List Term → Column → List Column →
    List Row → Nat → List DefId → List (Shape × CaseTree) → Nat → Prop
  | nil {data : DataDef} {u : Universe} {args : List Term} {column : Column} {rest : List Column}
      {rows : List Row} {n : Nat} : BuiltAll env data u args column rest rows n [] [] n
  | skip {data : DataDef} {u : Universe} {args : List Term} {column : Column} {rest : List Column}
      {rows : List Row} {n m : Nat} {c : DefId} {others : List DefId}
      {children : List (Shape × CaseTree)} : env.constructor? c = none →
      BuiltAll env data u args column rest rows n others children m →
      BuiltAll env data u args column rest rows n (c :: others) children m
  | child {data : DataDef} {u : Universe} {args : List Term} {column : Column} {rest : List Column}
      {rows inner : List Row} {n m k l i : Nat} {c : DefId} {con : ConstructorDef}
      {others : List DefId} {fields columns : List Column} {tree : CaseTree}
      {children : List (Shape × CaseTree)} : env.constructor? c = some con →
      freshen env ((Subst.instantiate data.params args).addStd u) (columnsOf con.params) n =
        .ok (fields, m) →
      Enters env column rest rows (.con c) (conValue c u args fields) fields m columns inner k →
      Built env k columns inner tree l →
      BuiltAll env data u args column rest rows l others children i →
      BuiltAll env data u args column rest rows n (c :: others) ((.con c, tree) :: children) i

end

section Inversion

variable {build : Build} {setting : Setting}

/-- What is asked of the function that builds the children. -/
def Builds (build : Build) (setting : Setting) : Prop :=
  ∀ columns rows path p n tree q m, (∀ row ∈ rows, row.patterns.length = columns.length) →
    build columns rows path setting p n = .ok ((some tree, q), m) →
    Built setting.env n columns rows tree m

theorem split_built (builds : Builds build setting) {column : Column} {rest : List Column}
    {rows : List Row} {path : List Frame} {before : List Var} {shape : Shape} {value : Term}
    {fields : List Column} {p q : Progress} {n m : Nat} {tree : CaseTree}
    (done : split build column rest rows path before shape value fields setting p n =
      .ok ((some tree, q), m)) : ∃ columns inner k,
        Enters setting.env column rest rows shape value fields n columns inner k ∧
          Built setting.env k columns inner tree m := by
  unfold split at done
  obtain ⟨others, _, k, replaced, next⟩ := compile_bind done
  obtain ⟨_, _, types, same⟩ := compile_reading replaced
  cases same
  dsimp only at next
  cases misfit : (rows.filterMap (·.enter shape value fields)).find?
      (·.patterns.length ≠ (fields ++ others).length) with
  | some row =>
    rw [misfit] at next
    obtain ⟨_, _, _, _, final⟩ := compile_bind next
    cases compile_pure final
  | none =>
    rw [misfit] at next
    have width : ∀ row ∈ rows.filterMap (·.enter shape value fields),
        row.patterns.length = (fields ++ others).length := by
      intro row member
      simpa using List.find?_eq_none.mp misfit row member
    exact ⟨_, _, k, ⟨⟨others, types, rfl⟩, rfl, width⟩, builds _ _ _ _ _ _ _ _ width next⟩

theorem splitAll_built (builds : Builds build setting) {column : Column} {rest : List Column}
    {rows : List Row} {path : List Frame} {before : List Var} {data : DataDef} {u : Universe}
    {args : List Term} : ∀ (live : List DefId) {p q : Progress} {n m : Nat}
    {children : List (Shape × CaseTree)},
    splitAll (branchConstructor build column rest rows path before data u args) live setting p n =
      .ok ((some children, q), m) →
    BuiltAll setting.env data u args column rest rows n live children m
  | [], p, q, n, m, children, done => by
      cases compile_pure done
      exact .nil
  | c :: live, p, q, n, m, children, done => by
      unfold splitAll at done
      obtain ⟨first, p₁, k, here, next⟩ := compile_bind done
      obtain ⟨others, p₂, l, later, final⟩ := compile_bind next
      unfold branchConstructor at here
      obtain ⟨_, _, _, ask, here⟩ := compile_bind here
      cases ask
      cases known : setting.env.constructor? c with
      | none =>
          simp only [known] at here
          cases compile_pure here
          cases compile_pure final
          exact .skip known (splitAll_built builds live later)
      | some con =>
          simp only [known] at here
          obtain ⟨fields, _, i, renamed, here⟩ := compile_bind here
          obtain ⟨_, _, fresh, same⟩ := compile_reading renamed
          cases same
          obtain ⟨child, p₃, k', built, here⟩ := compile_bind here
          cases compile_pure here
          cases child with
          | none => cases compile_pure final
          | some tree =>
              cases others with
              | none => cases compile_pure final
              | some others =>
                  cases compile_pure final
                  obtain ⟨columns, inner, j, enters, tree⟩ := split_built builds built
                  exact .child known fresh enters tree (splitAll_built builds live later)

theorem truncationLevel_untruncated {rows : List Row} {data : DataDef} {type : Term}
    {p q : Progress} {n m : Nat} {level : Option Int} (untruncated : data.truncated = false)
    (done : truncationLevel rows data type setting p n = .ok ((some level, q), m)) :
    level = none := by
  unfold truncationLevel at done
  simp only [untruncated] at done
  cases compile_pure done
  rfl

theorem live_none (env : Environment) (data : DataDef) : live env data none = data.constructors := by
  simp [live]

/-- Where the patterns of a row stand once those before the inspected column are bound. -/
theorem pass_head {row : Row} {before : List Column} (default : Pattern) {p : Pattern}
    (stands : (row.pass before).patterns.headD default = p) (other : p ≠ default) :
    row.patterns[before.length]? = some p := by
  unfold Row.pass at stands
  rw [List.headD_eq_head?_getD, List.head?_drop] at stands
  cases here : row.patterns[before.length]? with
  | none => simp [here, Ne.symm other] at stands
  | some p' => simpa [here] using stands

theorem branchLive_built (builds : Builds build setting) {before : List Column} {column : Column}
    {rest : List Column} {rows : List Row} {path : List Frame} {d : DefId} {u : Universe}
    {type : Term} {args : List Term} {data : DataDef} {level : Option Int} {p q : Progress}
    {n m k : Nat} {tree : CaseTree} (inspects : Inspects before rows)
    (reduced : column.2.whnf setting.env n = .ok (.data d u args, m))
    (known : setting.env.data? d = some data)
    (all : data.truncated = false → level = none)
    (done : branchLive build column rest (rows.map (·.pass before)) path before type data u args
      level setting p m = .ok ((some tree, q), k)) :
    Built setting.env n (before ++ column :: rest) rows tree k := by
  have complete : data.truncated = false → live setting.env data level = data.constructors := by
    intro untruncated
    rw [all untruncated, live_none]
  unfold branchLive at done
  obtain ⟨_, _, _, ask, next⟩ := compile_bind done
  cases ask
  dsimp only at next
  cases absurd : (rows.map (·.pass before)).find? fun r =>
      isAbsurd (r.patterns.headD (.ofTuple [])) with
  | some row =>
      rw [absurd] at next
      dsimp only at next
      split at next
      · rename_i isEmpty
        obtain ⟨_, _, _, mark, final⟩ := compile_bind next
        cases mark
        cases compile_pure final
        have member := List.mem_of_find?_eq_some absurd
        obtain ⟨original, isRow, rfl⟩ := List.mem_map.mp member
        have stands := List.find?_some absurd
        refine .absurd inspects reduced known (fun untruncated => ?_) ⟨original, isRow, ?_⟩
        · rw [← complete untruncated]
          exact List.isEmpty_iff.mp isEmpty
        · apply pass_head (.ofTuple [])
          · cases shown : (original.pass before).patterns.headD (.ofTuple []) <;>
              simp_all [isAbsurd]
          · simp [Pattern.ofTuple]
      · obtain ⟨_, _, _, _, rest⟩ := compile_bind next
        obtain ⟨_, _, _, _, final⟩ := compile_bind rest
        cases compile_pure final
  | none =>
      rw [absurd] at next
      obtain ⟨refused, _, _, checked, rest⟩ := compile_bind next
      cases refused with
      | true => cases compile_pure rest
      | false =>
          obtain ⟨rfl, rfl⟩ := refuse_false checked
          obtain ⟨children, _, _, built, final⟩ := compile_bind rest
          cases children with
          | none => cases compile_pure final
          | some children =>
              cases compile_pure final
              exact .data inspects reduced known complete (splitAll_built builds _ built)

/-- Computations that make no variables. -/
def Still {α : Type} (a : Compile α) : Prop :=
  ∀ setting p n r, a setting p n = .ok r → r.2 = n

theorem Still.pure {α : Type} (x : α) : Still (pure x) := by
  intro setting p n r done
  cases compile_pure done
  rfl

theorem Still.bind {α β : Type} {a : Compile α} {f : α → Compile β} (first : Still a)
    (next : ∀ x, Still (f x)) : Still (a >>= f) := by
  intro setting p n r done
  obtain ⟨x, q, m, start, rest⟩ := compile_bind done
  cases first _ _ _ _ start
  exact next x _ _ _ _ rest

theorem Still.lift {α : Type} (a : Checked α) : Still (liftM a : Compile α) := by
  intro setting p n r done
  cases a with
  | error fault => cases done
  | ok x =>
      cases done
      rfl

theorem Still.read : Still (read : Compile Setting) := by
  intro setting p n r done
  cases done
  rfl

theorem Still.modify (f : Progress → Progress) : Still (modify f : Compile Unit) := by
  intro setting p n r done
  cases done
  rfl

theorem compareLevels_still (a b : Level) : Still (compareLevels a b) :=
  Still.read.bind fun _ => (Still.lift _).bind fun _ => (Still.modify _).bind fun _ => Still.pure _

theorem levelFits_still (result data : Level) : Still (levelFits result data) := by
  refine (Still.lift _).bind fun level => (Still.lift _).bind fun dataLevel => ?_
  split
  · split
    · exact Still.pure _
    · exact compareLevels_still _ _
  · exact compareLevels_still _ _

theorem truncationLevel_still (rows : List Row) (data : DataDef) (type : Term) :
    Still (truncationLevel rows data type) := by
  unfold truncationLevel
  split
  · exact Still.pure _
  · refine Still.read.bind fun setting => ?_
    split
    · refine (levelFits_still _ _).bind fun fits => ?_
      split
      · exact (Still.lift _).bind fun _ => Still.pure _
      · exact (Still.lift _).bind fun _ => (Still.lift _).bind fun _ =>
          (Still.modify _).bind fun _ => Still.pure _
    · exact Still.pure _

theorem branchData_built (builds : Builds build setting) {before : List Column} {column : Column}
    {rest : List Column} {rows : List Row} {path : List Frame} {d : DefId} {u : Universe}
    {type : Term} {args : List Term} {p q : Progress} {n m k : Nat} {tree : CaseTree}
    (inspects : Inspects before rows)
    (reduced : column.2.whnf setting.env n = .ok (.data d u args, m))
    (done : branchData build column rest (rows.map (·.pass before)) path before type d u args
      setting p m = .ok ((some tree, q), k)) :
    Built setting.env n (before ++ column :: rest) rows tree k := by
  unfold branchData at done
  obtain ⟨_, _, _, ask, next⟩ := compile_bind done
  cases ask
  cases known : setting.env.data? d with
  | none =>
      rw [known] at next
      cases compile_pure next
  | some data =>
      rw [known] at next
      dsimp only at next
      have leveled : ∀ {atLevel : Option (Option Int) → Compile (Option CaseTree)},
          atLevel none = pure none → (∀ level, atLevel (some level) = branchLive build column rest
            (rows.map (·.pass before)) path before type data u args level) → ∀ p',
          (truncationLevel (rows.map (·.pass before)) data type >>= atLevel) setting p' m =
              .ok ((some tree, q), k) →
            Built setting.env n (before ++ column :: rest) rows tree k := by
        intro atLevel noLevel isLevel p' run
        obtain ⟨level, _, m', leveled, live⟩ := compile_bind run
        have still : m' = m := truncationLevel_still _ _ _ _ _ _ _ leveled
        subst still
        cases level with
        | none =>
            rw [noLevel] at live
            cases compile_pure live
        | some level =>
            rw [isLevel] at live
            refine branchLive_built builds inspects reduced known (fun untruncated => ?_) live
            exact truncationLevel_untruncated untruncated leveled
      split at next
      · obtain ⟨refused, _, _, checked, rest⟩ := compile_bind next
        cases refused with
        | true => cases compile_pure rest
        | false =>
            obtain ⟨rfl, rfl⟩ := refuse_false checked
            exact leveled rfl (fun _ => rfl) _ rest
      · exact leveled rfl (fun _ => rfl) _ next

theorem branchTuple_built (builds : Builds build setting) {before : List Column} {column : Column}
    {rest : List Column} {rows : List Row} {path : List Frame} {params : Telescope}
    {p q : Progress} {n m k : Nat} {tree : CaseTree} (inspects : Inspects before rows)
    (reduced : column.2.whnf setting.env n = .ok (.sigma params, m))
    (done : branchTuple build column rest (rows.map (·.pass before)) path before (.sigma params)
      params setting p m = .ok ((some tree, q), k)) :
    Built setting.env n (before ++ column :: rest) rows tree k := by
  unfold branchTuple at done
  obtain ⟨refused, _, _, checked, next⟩ := compile_bind done
  cases refused with
  | true => cases compile_pure next
  | false =>
      obtain ⟨rfl, rfl⟩ := refuse_false checked
      obtain ⟨fields, _, l, renamed, rest'⟩ := compile_bind next
      obtain ⟨_, _, fresh, same⟩ := compile_reading renamed
      cases same
      obtain ⟨child, _, _, built, final⟩ := compile_bind rest'
      cases child with
      | none => cases compile_pure final
      | some child =>
          cases compile_pure final
          obtain ⟨columns, inner, i, enters, tree⟩ := split_built builds built
          exact .tuple inspects reduced fresh enters tree

theorem branch_built (builds : Builds build setting) {before : List Column} {column : Column}
    {rest : List Column} {rows : List Row} {path : List Frame} {p q : Progress} {n k : Nat}
    {tree : CaseTree} (inspects : Inspects before rows)
    (done : branch build before column rest rows path setting p n = .ok ((some tree, q), k)) :
    Built setting.env n (before ++ column :: rest) rows tree k := by
  unfold branch at done
  obtain ⟨type, _, m, reading, next⟩ := compile_bind done
  obtain ⟨_, _, reduced, same⟩ := compile_reading reading
  cases same
  split at next
  · exact branchData_built builds inspects reduced next
  · exact branchTuple_built builds inspects reduced next
  · obtain ⟨_, _, _, _, final⟩ := compile_bind next
    cases compile_pure final

/-- The rows in front of the split column are variables, and one row has none there. -/
theorem splitColumn_inspects {columns : List Column} {rows : List Row}
    (width : ∀ row ∈ rows, row.patterns.length = columns.length)
    (unsplit : ∃ row ∈ rows, row.patterns.all Pattern.isBinding = false) :
    splitColumn columns rows < columns.length ∧
      Inspects (columns.take (splitColumn columns rows)) rows := by
  obtain ⟨row, member, notAll⟩ := unsplit
  obtain ⟨p, inRow, notBinding⟩ := List.all_eq_false.mp notAll
  obtain ⟨i, stands⟩ := List.mem_iff_getElem?.mp inRow
  unfold splitColumn
  cases found : (List.range columns.length).find? fun i =>
      rows.any fun r => !(r.patterns[i]?.any Pattern.isBinding) with
  | none =>
      have inRange : i < columns.length := by
        rw [← width row member]
        exact (List.getElem?_eq_some_iff.mp stands).1
      have quiet := List.find?_eq_none.mp found i (List.mem_range.mpr inRange)
      exact absurd (List.any_eq_true.mpr ⟨row, member, by simp [stands, notBinding]⟩) quiet
  | some k =>
      obtain ⟨here, inRange, earlier⟩ := List.find?_range_eq_some.mp found
      have inColumns := List.mem_range.mp inRange
      have length : (columns.take k).length = k := by
        rw [List.length_take]
        exact Nat.min_eq_left (Nat.le_of_lt inColumns)
      refine ⟨inColumns, ⟨?_, ?_⟩⟩
      · intro r isRow p inFront
        obtain ⟨j, place⟩ := List.mem_iff_getElem?.mp inFront
        rw [Option.getD_some, length, List.getElem?_take] at place
        split at place
        · rename_i before
          have quiet := earlier j before
          simp only [Bool.not_eq_true', List.any_eq_false] at quiet
          simpa [place] using quiet r isRow
        · cases place
      · obtain ⟨r, isRow, bad⟩ := List.any_eq_true.mp here
        have inRow : k < r.patterns.length := by
          rw [width r isRow]
          exact inColumns
        refine ⟨r, isRow, r.patterns[k], ?_, ?_⟩
        · rw [Option.getD_some, length]
          exact List.getElem?_eq_getElem inRow
        · simpa [inRow] using bad

theorem build_built : ∀ fuel : Nat, Builds (Matching.build fuel) setting := by
  intro fuel
  induction fuel with
  | zero =>
      intro columns rows path p n tree q m width done
      cases done
  | succ fuel ih =>
      intro columns rows path p n tree q m width done
      unfold Matching.build at done
      cases rows with
      | nil =>
          obtain ⟨found, _, _, search, next⟩ := compile_bind done
          obtain ⟨_, _, reached, same⟩ := compile_reading search
          cases same
          cases found with
          | some before =>
              cases compile_pure next
              exact .empty reached
          | none =>
              obtain ⟨_, _, _, _, final⟩ := compile_bind next
              cases compile_pure final
      | cons first others =>
          dsimp only at done
          by_cases allBinding : first.patterns.all Pattern.isBinding = true
          · rw [if_pos allBinding] at done
            obtain ⟨_, _, _, mark, next⟩ := compile_bind done
            cases mark
            cases isBody : first.clause.body with
            | none =>
                rw [isBody] at next
                obtain ⟨_, _, _, _, final⟩ := compile_bind next
                cases compile_pure final
            | some body =>
                rw [isBody] at next
                obtain ⟨result, _, _, applied, final⟩ := compile_bind next
                obtain ⟨_, _, substituted, same⟩ := compile_reading applied
                cases same
                cases compile_pure final
                exact .leaf allBinding isBody substituted
          · rw [if_neg allBinding] at done
            obtain ⟨inColumns, inspects⟩ := splitColumn_inspects width
              ⟨first, List.mem_cons_self, by simpa using allBinding⟩
            cases left : columns.drop (splitColumn columns (first :: others)) with
            | nil =>
                rw [left] at done
                cases compile_pure done
            | cons column rest =>
                rw [left] at done
                have built := branch_built ih inspects done
                rwa [← left, List.take_append_drop] at built

end Inversion

section Clauses

variable {setting : Setting}

theorem compile_mapM {α β : Type} {f : α → Compile β} {R : α → β → Prop} {k : Nat} :
    ∀ (l : List α) {p q : Progress} {n m : Nat} {ys : List β}, k ≤ n →
    (∀ x ∈ l, ∀ p n y q m, k ≤ n → f x setting p n = .ok ((y, q), m) → n ≤ m ∧ R x y) →
    l.mapM f setting p n = .ok ((ys, q), m) → n ≤ m ∧ List.Forall₂ R l ys
  | [], p, q, n, m, ys, _, _, done => by
      rw [List.mapM_nil] at done
      cases compile_pure done
      exact ⟨Nat.le_refl n, .nil⟩
  | x :: l, p, q, n, m, ys, order, each, done => by
      rw [List.mapM_cons] at done
      obtain ⟨y, _, _, first, next⟩ := compile_bind done
      obtain ⟨others, _, _, later, final⟩ := compile_bind next
      cases compile_pure final
      obtain ⟨here, head⟩ := each x List.mem_cons_self _ _ _ _ _ order first
      obtain ⟨rest, tail⟩ := compile_mapM l (order.trans here)
        (fun z member => each z (List.mem_cons_of_mem x member)) later
      exact ⟨here.trans rest, .cons head tail⟩

/-- Clauses of another length are reported, so where nothing is reported there are none. -/
theorem checkArity_silent {arity : Nat} : ∀ (clauses : List Clause) {p q : Progress} {n m : Nat},
    checkArity arity clauses setting p n = .ok (((), q), m) → q.diagnostics = [] →
    p.diagnostics = [] ∧ m = n ∧ ∀ c ∈ clauses, c.patterns.length = arity
  | [], p, q, n, m, done, silent => by
      cases done
      exact ⟨silent, rfl, by simp⟩
  | c :: clauses, p, q, n, m, done, silent => by
      unfold checkArity at done
      rw [List.forM_eq_forM, List.forM_cons] at done
      obtain ⟨_, _, k, first, rest⟩ := compile_bind done
      obtain ⟨before, rfl, lengths⟩ := checkArity_silent clauses rest silent
      split at first
      · cases first
        simp at before
      · split at first
        · cases first
          simp at before
        · cases compile_pure first
          refine ⟨before, rfl, List.forall_mem_cons.mpr ⟨?_, lengths⟩⟩
          omega

/-- Some run takes the type to a data type that is an interval. -/
def IntervalType (env : Environment) (type : Term) : Prop :=
  ∃ n d u args m data, type.whnf env n = .ok (.data d u args, m) ∧ env.data? d = some data ∧
    data.interval = true

theorem isInterval_true {type : Term} {p q : Progress} {n m : Nat}
    (done : isInterval type setting p n = .ok ((true, q), m)) : IntervalType setting.env type := by
  unfold isInterval at done
  obtain ⟨_, _, _, ask, next⟩ := compile_bind done
  cases ask
  obtain ⟨t, _, k, reading, final⟩ := compile_bind next
  obtain ⟨_, _, reduced, same⟩ := compile_reading reading
  cases same
  cases t with
  | data d u args =>
      have found := congrArg (·.1.1) (compile_pure final)
      cases known : setting.env.data? d with
      | none => simp [known] at found
      | some data =>
          refine ⟨n, d, u, args, _, data, reduced, known, ?_⟩
          simpa [known] using found
  | _ => cases compile_pure final

theorem isInterval_order {low : Nat} {V : Var → Prop} (known : setting.env.Within V low)
    {type : Term} {r : Bool} {p q : Progress} {n m : Nat} (order : low ≤ n)
    (within : type.Within V low) (done : isInterval type setting p n = .ok ((r, q), m)) :
    n ≤ m := by
  unfold isInterval at done
  obtain ⟨_, _, _, ask, next⟩ := compile_bind done
  cases ask
  obtain ⟨t, _, k, reading, final⟩ := compile_bind next
  obtain ⟨_, _, reduced, same⟩ := compile_reading reading
  cases same
  have later := (Term.whnf_within known _ _ order (within.mono order) _ _ reduced).1
  cases t <;> cases compile_pure final <;> exact later

/-- No clause matches an end of the interval. -/
def NoIntervalPattern (env : Environment) (params : Telescope) (clauses : List Clause) : Prop :=
  ∀ clause ∈ clauses, ∀ entry ∈ clause.patterns.zip params, entry.1.constructor?.isSome = true →
    ¬ IntervalType env entry.2.type

theorem intervalPattern?_none {env : Environment} {params : Telescope} {clauses : List Clause}
    {intervals : List Bool} (noInterval : NoIntervalPattern env params clauses)
    (types : List.Forall₂ (fun c r => r = true → IntervalType env c.2) (columnsOf params)
      intervals) : intervalPattern? intervals clauses = none := by
  unfold intervalPattern?
  rw [List.findSome?_eq_none_iff]
  intro clause member
  have quiet := noInterval clause member
  rw [Option.map_eq_none_iff, List.find?_eq_none]
  generalize clause.patterns = patterns at quiet
  clear noInterval member
  induction params generalizing patterns intervals with
  | nil =>
      cases types
      simp
  | cons b params ih =>
      cases types with
      | cons here rest =>
          cases patterns with
          | nil => simp
          | cons p patterns =>
              rw [List.zip_cons_cons] at quiet ⊢
              obtain ⟨head, tail⟩ := List.forall_mem_cons.mp quiet
              refine List.forall_mem_cons.mpr ⟨?_, ?_⟩
              · simp only [Bool.and_eq_true, not_and]
                exact fun isInterval isCon => head isCon (here isInterval)
              · exact ih rest patterns tail

/-- Whoever asks of every parameter whether it is an interval learns which ones are. -/
theorem isIntervals_answers {params : Telescope} {intervals : List Bool} {V : Var → Prop}
    {p q : Progress} {n m : Nat} (known : setting.env.Within V n)
    (types : ∀ b ∈ params, b.type.Within V n)
    (asked : (columnsOf params).mapM (fun c => isInterval c.2) setting p n =
      .ok ((intervals, q), m)) :
    n ≤ m ∧ List.Forall₂ (fun c r => r = true → IntervalType setting.env c.2) (columnsOf params)
      intervals := by
  refine compile_mapM (columnsOf params) (Nat.le_refl n) ?_ asked
  intro c member p' n' r q' m' later run
  obtain ⟨b, isParam, rfl⟩ := List.mem_map.mp member
  refine ⟨isInterval_order known later (types b isParam) run, ?_⟩
  rintro rfl
  exact isInterval_true run

/-- Without interval patterns, the tree stands over the columns of the parameters. -/
theorem clausesTree_built {params : Telescope} {clauses : List Clause} {V : Var → Prop}
    {p q : Progress} {n m : Nat} {tree : CaseTree} (known : setting.env.Within V n)
    (types : ∀ b ∈ params, b.type.Within V n)
    (width : ∀ c ∈ clauses, c.patterns.length = params.length)
    (noInterval : NoIntervalPattern setting.env params clauses)
    (done : clausesTree params clauses setting p n = .ok ((some tree, q), m)) :
    ∃ k, n ≤ k ∧ Built setting.env k (columnsOf params) (numbered clauses) tree m := by
  unfold clausesTree at done
  obtain ⟨_, _, _, ask, next⟩ := compile_bind done
  cases ask
  obtain ⟨intervals, _, k, asked, next⟩ := compile_bind next
  obtain ⟨order, answers⟩ := isIntervals_answers known types asked
  rw [intervalPattern?_none noInterval answers] at next
  refine ⟨k, order, build_built _ _ _ _ _ _ _ _ _ ?_ next⟩
  intro row isRow
  obtain ⟨⟨clause, number⟩, inClauses, rfl⟩ := List.mem_map.mp isRow
  rw [columnsOf, List.length_map]
  exact width clause (List.fst_mem_of_mem_zipIdx inClauses)

theorem failed_false {p q : Progress} {n m : Nat}
    (done : failed setting p n = .ok ((false, q), m)) : q = p ∧ m = n ∧ p.diagnostics = [] := by
  have same := Except.ok.inj done
  simp only [Prod.mk.injEq, Bool.not_eq_eq_eq_not, Bool.not_false, List.isEmpty_iff] at same
  exact ⟨same.1.2.symm, same.2.symm, same.1.1⟩

theorem failed_true {p q : Progress} {n m : Nat}
    (done : failed setting p n = .ok ((true, q), m)) : q = p ∧ m = n ∧ p.diagnostics ≠ [] := by
  have same := Except.ok.inj done
  simp only [Prod.mk.injEq, Bool.not_eq_eq_eq_not, Bool.not_true] at same
  exact ⟨same.1.2.symm, same.2.symm, by simpa using same.1.1⟩

theorem Still.forM {α : Type} {f : α → Compile Unit} (still : ∀ x, Still (f x)) (l : List α) :
    Still (l.forM f) := by
  induction l with
  | nil => exact Still.pure _
  | cons x l ih => exact (still x).bind fun _ => ih

theorem reportRedundant_still (clauses : List Clause) : Still (reportRedundant clauses) := by
  have asked : Still (get : Compile Progress) := by
    intro setting p n r done
    cases done
    rfl
  refine asked.bind fun progress => Still.forM (fun entry => ?_) _
  obtain ⟨c, number⟩ := entry
  dsimp only
  split
  · exact Still.modify _
  · exact Still.pure _

theorem unlessFailed_some {clauses : List Clause} {found : Option CaseTree} {tree : CaseTree}
    {p q : Progress} {n m : Nat}
    (done : unlessFailed clauses found setting p n = .ok ((some tree, q), m)) :
    found = some tree ∧ m = n := by
  unfold unlessFailed at done
  obtain ⟨isFailed, _, _, ask, next⟩ := compile_bind done
  cases isFailed with
  | true => cases compile_pure next
  | false =>
      obtain ⟨_, rfl, _⟩ := failed_false ask
      cases found with
      | none => cases compile_pure next
      | some t =>
          obtain ⟨_, _, _, asked, next⟩ := compile_bind next
          cases asked
          split at next
          · obtain ⟨_, _, _, reported, final⟩ := compile_bind next
            cases compile_pure final
            exact ⟨rfl, reportRedundant_still clauses _ _ _ _ reported⟩
          · cases compile_pure next
            exact ⟨rfl, rfl⟩

/-- A tree that the compiler gives stands over the columns of the parameters. -/
theorem compileClauses_built {span : Span} {params : Telescope} {clauses : List Clause}
    {V : Var → Prop} {p q : Progress} {n m : Nat} {tree : CaseTree}
    (known : setting.env.Within V n) (types : ∀ b ∈ params, b.type.Within V n)
    (noInterval : NoIntervalPattern setting.env params clauses)
    (done : compileClauses span params clauses setting p n = .ok ((some tree, q), m)) :
    (∀ c ∈ clauses, c.patterns.length = params.length) ∧
      ∃ k, n ≤ k ∧ Built setting.env k (columnsOf params) (numbered clauses) tree m := by
  unfold compileClauses at done
  obtain ⟨_, _, _, arity, gated⟩ := compile_bind done
  obtain ⟨isFailed, _, _, ask, rest⟩ := compile_bind gated
  cases isFailed with
  | true => cases compile_pure rest
  | false =>
      obtain ⟨rfl, rfl, silent⟩ := failed_false ask
      obtain ⟨_, rfl, width⟩ := checkArity_silent clauses arity silent
      rw [if_neg Bool.false_ne_true] at rest
      obtain ⟨found, _, l, treed, next⟩ := compile_bind rest
      obtain ⟨_, _, _, ask, next⟩ := compile_bind next
      cases ask
      dsimp only at next
      have isTree : found = some tree ∧ m = l := by
        split at next
        · obtain ⟨_, _, _, reported, next⟩ := compile_bind next
          cases reported
          exact unlessFailed_some next
        · exact unlessFailed_some next
      obtain ⟨rfl, rfl⟩ := isTree
      obtain ⟨k, order, built⟩ := clausesTree_built known types width noInterval treed
      exact ⟨width, k, order, built⟩

theorem compile_built {span : Span} {params : Telescope} {clauses : List Clause}
    {V : Var → Prop} {n m : Nat} {outcome : Outcome} {tree : CaseTree}
    (known : setting.env.Within V n) (types : ∀ b ∈ params, b.type.Within V n)
    (noInterval : NoIntervalPattern setting.env params clauses)
    (done : compile setting span params clauses n = .ok (outcome, m))
    (given : outcome.tree = some tree) :
    (∀ c ∈ clauses, c.patterns.length = params.length) ∧
      ∃ k, n ≤ k ∧ Built setting.env k (columnsOf params) (numbered clauses) tree m := by
  obtain ⟨⟨found, p⟩, k, ran, final⟩ := fresh_bind done
  cases fresh_pure final
  cases given
  exact compileClauses_built known types noInterval ran

end Clauses

end PathTheory.Matching
