import PathTheory.Proofs.Matching.Parted
import PathTheory.Proofs.Matching.Allowed
import PathTheory.Proofs.Matching.Coverage
/-!
The interval is matched at the root and nowhere else. A tree that the compiler gives without clauses
for ends, or below them, inspects arguments of other data types and tuples only, at any depth and with
whatever has been put for the variables of the types by then: a constructor pattern of the interval is
turned down there, an absurd pattern needs a type without constructors, and a column of variables is
not inspected at all.
-/
namespace PathTheory

open Library

/-- Data types that are the interval have constructors, which count in every universe. -/
def Environment.ProperIntervals (env : Environment) : Prop :=
  ∀ d data, env.data? d = some data → data.interval = true →
    data.truncated = false ∧ data.constructors ≠ []

theorem library_properIntervals (fuel : Nat) : (environment fuel).ProperIntervals := by
  intro d data known
  obtain ⟨definition, known, isData⟩ := Option.bind_eq_some_iff.mp known
  have member := Array.mem_toList_iff.mpr (Array.mem_of_getElem? known)
  have all : ∀ e ∈ [natData, zeroCon, sucCon, intervalData, endCon, endCon, pathData,
      pathConstructor, eqFunction, atFunction, coeFunction], ∀ data, e.data? = some data →
        data.interval = true → data.truncated = false ∧ data.constructors ≠ [] := by
    simp [natData, zeroCon, sucCon, intervalData, endCon, pathData, pathConstructor, eqFunction,
      atFunction, coeFunction, Definition.data?]
  exact all definition member data isData

mutual

/-- No node is for the ends of the interval. -/
def CaseTree.endless : CaseTree → Bool
  | .leaf _ _ => true
  | .branch _ children => childrenEndless children
  | .interval _ _ _ => false
termination_by structural tree => tree

def childrenEndless : List (Shape × CaseTree) → Bool
  | [] => true
  | (_, child) :: others => child.endless && childrenEndless others
termination_by structural children => children

end

namespace Matching

variable {setting : Setting} {env : Environment} {p q : Progress} {n m k : Nat}

mutual

/-- A tree over columns with the types that the compiler has for them. Every argument that a node
    inspects is of a data type that is not the interval, or of a tuple type. The counter goes from the
    first number to the last. -/
inductive OffInterval (env : Environment) : Nat → List Column → CaseTree → Nat → Prop
  | leaf {n m : Nat} {columns : List Column} {body : Term} :
      OffInterval env n columns (.leaf (Telescope.ofPairs columns) body) m
  | childless {n m i j : Nat} {before rest : List Column} {column : Column} {d : DefId}
      {u : Universe} {args : List Term} {data : DataDef} :
      column.2.whnf env i = .ok (.data d u args, j) → env.data? d = some data →
      data.interval = false →
      OffInterval env n (before ++ column :: rest) (.branch (Telescope.ofPairs before) []) m
  | data {n m k : Nat} {before rest : List Column} {column : Column} {d : DefId} {u : Universe}
      {args : List Term} {data : DataDef} {children : List (Shape × CaseTree)} :
      column.2.whnf env n = .ok (.data d u args, m) → env.data? d = some data →
      data.interval = false → ConstructorsOff env data u args column rest m children k →
      OffInterval env n (before ++ column :: rest) (.branch (Telescope.ofPairs before) children) k
  | tuple {n m k l i : Nat} {before rest fields others : List Column} {column : Column}
      {params : Telescope} {child : CaseTree} :
      column.2.whnf env n = .ok (.sigma params, m) →
      freshen env .empty (columnsOf params) m = .ok (fields, k) →
      replaceIn env (.single column.1 (tupleValue (.sigma params) fields)) rest k = .ok (others, l) →
      OffInterval env l (fields ++ others) child i →
      OffInterval env n (before ++ column :: rest)
        (.branch (Telescope.ofPairs before) [(.tuple params.length, child)]) i

/-- The same below constructors: the column is replaced by the parameters of each. -/
inductive ConstructorsOff (env : Environment) : DataDef → Universe → List Term → Column →
    List Column → Nat → List (Shape × CaseTree) → Nat → Prop
  | nil {data : DataDef} {u : Universe} {args : List Term} {column : Column} {rest : List Column}
      {n : Nat} : ConstructorsOff env data u args column rest n [] n
  | child {data : DataDef} {u : Universe} {args : List Term} {column : Column}
      {rest fields others : List Column} {n m k l i : Nat} {c : DefId} {con : ConstructorDef}
      {tree : CaseTree} {children : List (Shape × CaseTree)} :
      env.constructor? c = some con →
      freshen env ((Subst.instantiate data.params args).addStd u) (columnsOf con.params) n =
        .ok (fields, m) →
      replaceIn env (.single column.1 (conValue c u args fields)) rest m = .ok (others, k) →
      OffInterval env k (fields ++ others) tree l →
      ConstructorsOff env data u args column rest l children i →
      ConstructorsOff env data u args column rest n ((.con c, tree) :: children) i

end

mutual

theorem OffInterval.endless : ∀ {n m : Nat} {columns : List Column} {tree : CaseTree},
    OffInterval env n columns tree m → tree.endless = true
  | _, _, _, _, .leaf => rfl
  | _, _, _, _, .childless _ _ _ => rfl
  | _, _, _, _, .data _ _ _ children => children.endless
  | _, _, _, _, .tuple _ _ _ child => by
      simp [CaseTree.endless, childrenEndless, child.endless]

theorem ConstructorsOff.endless : ∀ {data : DataDef} {u : Universe} {args : List Term}
    {column : Column} {rest : List Column} {n m : Nat} {children : List (Shape × CaseTree)},
    ConstructorsOff env data u args column rest n children m → childrenEndless children = true
  | _, _, _, _, _, _, _, _, .nil => rfl
  | _, _, _, _, _, _, _, _, .child _ _ _ tree others => by
      simp [childrenEndless, tree.endless, others.endless]

end

section Building

variable {build : Build}

/-- What is asked of the function that builds the children. -/
def BuildsOff (build : Build) (setting : Setting) : Prop :=
  ∀ columns rows path p n tree q m, (∀ row ∈ rows, row.patterns.length = columns.length) →
    build columns rows path setting p n = .ok ((some tree, q), m) →
    OffInterval setting.env n columns tree m

theorem split_off (builds : BuildsOff build setting) {column : Column} {rest : List Column}
    {rows : List Row} {path : List Frame} {before : List Var} {shape : Shape} {value : Term}
    {fields : List Column} {tree : CaseTree}
    (done : split build column rest rows path before shape value fields setting p n =
      .ok ((some tree, q), m)) : ∃ others k,
        replaceIn setting.env (.single column.1 value) rest n = .ok (others, k) ∧
          OffInterval setting.env k (fields ++ others) tree m := by
  unfold split at done
  obtain ⟨others, _, k, replaced, next⟩ := compile_bind done
  obtain ⟨_, _, types, same⟩ := compile_reading replaced
  cases same
  dsimp only at next
  cases misfit : (rows.filterMap (·.enter shape value fields)).find?
      (·.patterns.length ≠ (fields ++ others).length) with
  | some row =>
      rw [misfit] at next
      obtain ⟨_, _, _, _, final⟩ := compile_bind next
      cases compile_pure final
  | none =>
      rw [misfit] at next
      refine ⟨others, _, types, builds _ _ _ _ _ _ _ _ (fun row member => ?_) next⟩
      simpa using List.find?_eq_none.mp misfit row member

theorem splitAll_off (builds : BuildsOff build setting) {column : Column} {rest : List Column}
    {rows : List Row} {path : List Frame} {before : List Var} {data : DataDef} {u : Universe}
    {args : List Term} {live : List DefId} {children : List (Shape × CaseTree)}
    (done : splitAll (branchConstructor build column rest rows path before data u args) live setting
      p n = .ok ((some children, q), m)) :
    ConstructorsOff setting.env data u args column rest n children m := by
  induction live generalizing p n children with
  | nil =>
      cases compile_pure done
      exact .nil
  | cons c live ih =>
      unfold splitAll at done
      obtain ⟨first, _, _, here, next⟩ := compile_bind done
      obtain ⟨others, _, _, later, final⟩ := compile_bind next
      unfold branchConstructor at here
      obtain ⟨_, _, _, ask, here⟩ := compile_bind here
      cases ask
      cases known : setting.env.constructor? c with
      | none =>
          simp only [known] at here
          cases compile_pure here
          cases compile_pure final
          exact ih later
      | some con =>
          simp only [known] at here
          obtain ⟨fields, _, _, renamed, here⟩ := compile_bind here
          obtain ⟨_, _, fresh, same⟩ := compile_reading renamed
          cases same
          obtain ⟨child, _, _, built, here⟩ := compile_bind here
          cases compile_pure here
          cases child with
          | none => cases compile_pure final
          | some tree =>
              cases others with
              | none => cases compile_pure final
              | some others =>
                  cases compile_pure final
                  obtain ⟨_, _, types, tree⟩ := split_off builds built
                  exact .child known fresh types tree (ih later)

theorem refuse_passed {rows : List Row} {bad : Pattern → Bool} {problem : Pattern → Checked Problem}
    (done : refuse rows bad problem setting p n = .ok ((false, q), m)) :
    q = p ∧ m = n ∧ ∀ row ∈ rows, bad (row.patterns.headD .absurd) = false := by
  obtain ⟨rfl, rfl⟩ := refuse_false done
  refine ⟨rfl, rfl, fun row member => ?_⟩
  unfold refuse at done
  cases found : rows.find? fun r => bad (r.patterns.headD .absurd) with
  | none => simpa using List.find?_eq_none.mp found row member
  | some row =>
      rw [found] at done
      obtain ⟨_, _, _, _, rest⟩ := compile_bind done
      obtain ⟨_, _, _, _, final⟩ := compile_bind rest
      cases compile_pure final

theorem pass_headD {row : Row} {before : List Column} {p : Pattern}
    (stands : row.patterns[before.length]? = some p) (default : Pattern) :
    (row.pass before).patterns.headD default = p := by
  rw [Row.pass, List.headD_eq_head?_getD, List.head?_drop, stands]
  rfl

/-- Where no row has an absurd pattern, a foreign one or a constructor of the interval, none is left to
    inspect the column for. -/
theorem Inspects.not_interval {before : List Column} {rows : List Row} {data : DataDef}
    (inspects : Inspects before rows)
    (noAbsurd : ∀ row ∈ rows, isAbsurd ((row.pass before).patterns.headD (.ofTuple [])) = false)
    (known : ∀ row ∈ rows, isForeign data ((row.pass before).patterns.headD .absurd) = false)
    (allowed : data.interval = true →
      ∀ row ∈ rows, ((row.pass before).patterns.headD .absurd).constructor?.isSome = false) :
    data.interval = false := by
  obtain ⟨row, member, p, stands, notBinding⟩ := inspects.apart
  have first := noAbsurd row member
  have second := known row member
  have third := fun interval => allowed interval row member
  rw [pass_headD stands] at first second third
  rw [Bool.eq_false_iff]
  intro interval
  cases p with
  | binding x => cases notBinding
  | absurd => cases first
  | shaped k args =>
      cases k with
      | con c => cases third interval
      | tuple i => cases second

theorem branchLive_off (proper : setting.env.ProperIntervals) (builds : BuildsOff build setting)
    {before : List Column} {column : Column} {rest : List Column} {rows : List Row}
    {path : List Frame} {d : DefId} {u : Universe} {type : Term} {args : List Term} {data : DataDef}
    {level : Option Int} {tree : CaseTree} (inspects : Inspects before rows)
    (reduced : column.2.whnf setting.env n = .ok (.data d u args, m))
    (known : setting.env.data? d = some data) (all : data.truncated = false → level = none)
    (allowed : data.interval = true →
      ∀ row ∈ rows, ((row.pass before).patterns.headD .absurd).constructor?.isSome = false)
    (done : branchLive build column rest (rows.map (·.pass before)) path before type data u args
      level setting p m = .ok ((some tree, q), k)) :
    OffInterval setting.env n (before ++ column :: rest) tree k := by
  unfold branchLive at done
  obtain ⟨_, _, _, ask, next⟩ := compile_bind done
  cases ask
  dsimp only at next
  cases absurd : (rows.map (·.pass before)).find? fun r =>
      isAbsurd (r.patterns.headD (.ofTuple [])) with
  | some row =>
      rw [absurd] at next
      dsimp only at next
      split at next
      · rename_i isEmpty
        obtain ⟨_, _, _, mark, final⟩ := compile_bind next
        cases mark
        cases compile_pure final
        refine .childless reduced known (Bool.eq_false_iff.mpr fun interval => ?_)
        obtain ⟨untruncated, constructors⟩ := proper d data known interval
        rw [all untruncated, live_none] at isEmpty
        exact constructors (List.isEmpty_iff.mp isEmpty)
      · obtain ⟨_, _, _, _, rest⟩ := compile_bind next
        obtain ⟨_, _, _, _, final⟩ := compile_bind rest
        cases compile_pure final
  | none =>
      rw [absurd] at next
      obtain ⟨refused, _, _, checked, rest⟩ := compile_bind next
      cases refused with
      | true => cases compile_pure rest
      | false =>
          obtain ⟨rfl, rfl, native⟩ := refuse_passed checked
          obtain ⟨children, _, _, built, final⟩ := compile_bind rest
          cases children with
          | none => cases compile_pure final
          | some children =>
              cases compile_pure final
              refine .data reduced known (inspects.not_interval (fun row member => ?_)
                (fun row member => native _ (List.mem_map_of_mem member)) allowed)
                (splitAll_off builds built)
              simpa using List.find?_eq_none.mp absurd _ (List.mem_map_of_mem member)

theorem branchData_off (proper : setting.env.ProperIntervals) (builds : BuildsOff build setting)
    {before : List Column} {column : Column} {rest : List Column} {rows : List Row}
    {path : List Frame} {d : DefId} {u : Universe} {type : Term} {args : List Term}
    {tree : CaseTree} (inspects : Inspects before rows)
    (reduced : column.2.whnf setting.env n = .ok (.data d u args, m))
    (done : branchData build column rest (rows.map (·.pass before)) path before type d u args
      setting p m = .ok ((some tree, q), k)) :
    OffInterval setting.env n (before ++ column :: rest) tree k := by
  unfold branchData at done
  obtain ⟨_, _, _, ask, next⟩ := compile_bind done
  cases ask
  cases known : setting.env.data? d with
  | none =>
      rw [known] at next
      cases compile_pure next
  | some data =>
      rw [known] at next
      dsimp only at next
      have leveled : ∀ {atLevel : Option (Option Int) → Compile (Option CaseTree)},
          atLevel none = pure none → (∀ level, atLevel (some level) = branchLive build column rest
            (rows.map (·.pass before)) path before type data u args level) →
          (data.interval = true →
            ∀ row ∈ rows, ((row.pass before).patterns.headD .absurd).constructor?.isSome = false) →
          ∀ p', (truncationLevel (rows.map (·.pass before)) data type >>= atLevel) setting p' m =
              .ok ((some tree, q), k) →
            OffInterval setting.env n (before ++ column :: rest) tree k := by
        intro atLevel noLevel isLevel allowed p' run
        obtain ⟨level, _, m', bounded, live⟩ := compile_bind run
        have still : m' = m := truncationLevel_still _ _ _ _ _ _ _ bounded
        subst still
        cases level with
        | none =>
            rw [noLevel] at live
            cases compile_pure live
        | some level =>
            rw [isLevel] at live
            exact branchLive_off proper builds inspects reduced known
              (fun untruncated => truncationLevel_untruncated untruncated bounded) allowed live
      split at next
      · obtain ⟨refused, _, _, checked, rest⟩ := compile_bind next
        cases refused with
        | true => cases compile_pure rest
        | false =>
            obtain ⟨rfl, rfl, passed⟩ := refuse_passed checked
            exact leveled rfl (fun _ => rfl)
              (fun _ row member => passed _ (List.mem_map_of_mem member)) _ rest
      · rename_i notInterval
        exact leveled rfl (fun _ => rfl) (fun interval => absurd interval notInterval) _ next

theorem branchTuple_off (builds : BuildsOff build setting) {before : List Column} {column : Column}
    {rest : List Column} {rows : List Row} {path : List Frame} {params : Telescope}
    {tree : CaseTree} (reduced : column.2.whnf setting.env n = .ok (.sigma params, m))
    (done : branchTuple build column rest (rows.map (·.pass before)) path before (.sigma params)
      params setting p m = .ok ((some tree, q), k)) :
    OffInterval setting.env n (before ++ column :: rest) tree k := by
  unfold branchTuple at done
  obtain ⟨refused, _, _, checked, next⟩ := compile_bind done
  cases refused with
  | true => cases compile_pure next
  | false =>
      obtain ⟨rfl, rfl⟩ := refuse_false checked
      obtain ⟨fields, _, l, renamed, entered⟩ := compile_bind next
      obtain ⟨_, _, fresh, same⟩ := compile_reading renamed
      cases same
      obtain ⟨child, _, _, built, final⟩ := compile_bind entered
      cases child with
      | none => cases compile_pure final
      | some child =>
          cases compile_pure final
          obtain ⟨others, _, types, tree⟩ := split_off builds built
          exact .tuple reduced fresh types tree

theorem branch_off (proper : setting.env.ProperIntervals) (builds : BuildsOff build setting)
    {before : List Column} {column : Column} {rest : List Column} {rows : List Row}
    {path : List Frame} {tree : CaseTree} (inspects : Inspects before rows)
    (done : branch build before column rest rows path setting p n = .ok ((some tree, q), k)) :
    OffInterval setting.env n (before ++ column :: rest) tree k := by
  unfold branch at done
  obtain ⟨type, _, m, reading, next⟩ := compile_bind done
  obtain ⟨_, _, reduced, same⟩ := compile_reading reading
  cases same
  split at next
  · exact branchData_off proper builds inspects reduced next
  · exact branchTuple_off builds reduced next
  · obtain ⟨_, _, _, _, final⟩ := compile_bind next
    cases compile_pure final

/-- The columns before one whose type is a data type without constructors, which is not the
    interval. -/
theorem beforeEmpty_off (proper : env.ProperIntervals) {columns before : List Column}
    (done : beforeEmpty env columns n = .ok (some before, m)) :
    OffInterval env n columns (.branch (Telescope.ofPairs before) []) m := by
  have found : ∃ column rest d u args data i j, columns = before ++ column :: rest ∧
      column.2.whnf env i = .ok (.data d u args, j) ∧ env.data? d = some data ∧
      data.constructors = [] := by
    induction columns generalizing before n m with
    | nil => cases fresh_pure done
    | cons c columns ih =>
        obtain ⟨x, type⟩ := c
        obtain ⟨t, j, reduced, next⟩ := fresh_bind done
        split at next
        · rename_i lacks
          cases fresh_pure next
          cases t with
          | data d u args =>
              rw [lacksConstructors, Option.any_eq_true] at lacks
              obtain ⟨data, known, none⟩ := lacks
              exact ⟨_, columns, d, u, args, data, n, _, rfl, reduced, known,
                List.isEmpty_iff.mp none⟩
          | _ => cases lacks
        · obtain ⟨later, _, searched, final⟩ := fresh_bind next
          obtain ⟨some, _⟩ := Prod.mk.inj (fresh_pure final)
          obtain ⟨front, rfl, rfl⟩ := Option.map_eq_some_iff.mp some.symm
          obtain ⟨column, rest, d, u, args, data, i, j, rfl, here⟩ := ih searched
          exact ⟨column, rest, d, u, args, data, i, j, rfl, here⟩
  obtain ⟨column, rest, d, u, args, data, i, j, rfl, reduced, known, none⟩ := found
  refine .childless reduced known (Bool.eq_false_iff.mpr fun interval => ?_)
  exact (proper d data known interval).2 none

theorem build_off (proper : setting.env.ProperIntervals) (fuel : Nat) :
    BuildsOff (Matching.build fuel) setting := by
  induction fuel with
  | zero =>
      intro columns rows path p n tree q m width done
      cases done
  | succ fuel ih =>
      intro columns rows path p n tree q m width done
      unfold Matching.build at done
      cases rows with
      | nil =>
          obtain ⟨found, _, _, search, next⟩ := compile_bind done
          obtain ⟨_, _, reached, same⟩ := compile_reading search
          cases same
          cases found with
          | some before =>
              cases compile_pure next
              exact beforeEmpty_off proper reached
          | none =>
              obtain ⟨_, _, _, _, final⟩ := compile_bind next
              cases compile_pure final
      | cons first others =>
          dsimp only at done
          by_cases allBinding : first.patterns.all Pattern.isBinding = true
          · rw [if_pos allBinding] at done
            obtain ⟨_, _, _, mark, next⟩ := compile_bind done
            cases mark
            cases isBody : first.clause.body with
            | none =>
                rw [isBody] at next
                obtain ⟨_, _, _, _, final⟩ := compile_bind next
                cases compile_pure final
            | some body =>
                rw [isBody] at next
                obtain ⟨result, _, _, applied, final⟩ := compile_bind next
                cases compile_pure final
                exact .leaf
          · rw [if_neg allBinding] at done
            obtain ⟨inColumns, inspects⟩ := splitColumn_inspects width
              ⟨first, List.mem_cons_self, by simpa using allBinding⟩
            cases left : columns.drop (splitColumn columns (first :: others)) with
            | nil =>
                rw [left] at done
                cases compile_pure done
            | cons column rest =>
                rw [left] at done
                have built := branch_off proper ih inspects done
                rwa [← left, List.take_append_drop] at built

end Building

section Root

variable {params : Telescope} {clauses : List Clause} {intervals : List Bool}

theorem isIntervals_true {columns : List Column}
    (asked : columns.mapM (fun c => isInterval c.2) setting p n = .ok ((intervals, q), m)) {j : Nat}
    (marked : intervals[j]? = some true) :
    ∃ c, columns[j]? = some c ∧ IntervalType setting.env c.2 := by
  induction columns generalizing p n intervals j with
  | nil =>
      rw [List.mapM_nil] at asked
      cases compile_pure asked
      cases marked
  | cons c columns ih =>
      rw [List.mapM_cons] at asked
      obtain ⟨r, _, _, first, next⟩ := compile_bind asked
      obtain ⟨others, _, _, later, final⟩ := compile_bind next
      cases compile_pure final
      cases j with
      | zero =>
          cases marked
          exact ⟨c, rfl, isInterval_true first⟩
      | succ j => exact ih later marked

/-- What stands at an end of the root node stands in a column that is marked as an interval. -/
theorem Filled.marked {columns : List Column} {rows : List Row} {first j : Nat}
    {ends : List (Ends Term)} (filled : Filled env columns intervals rows n first ends)
    {e : Ends Term} (here : ends[j]? = some e) (notEmpty : e.isEmpty = false) :
    intervals[first + j]? = some true := by
  obtain ⟨side, body, stands⟩ := Ends.at?_of_notEmpty notEmpty
  obtain ⟨r, member, place, _⟩ := filled.source here stands
  obtain ⟨_, _, _, interval⟩ := endColumn?_some (mem_endRows.mp member).2
  rwa [← place]

/-- **The interval is matched at the root only.** Of a tree that the compiler gives no node inspects an
    argument that is of the interval by then. A node for the ends stands at the root, if anywhere, and
    only where functions may match the interval; each of its cases that has a body is one of a parameter
    whose type is the interval. -/
theorem compile_interval_at_root {span : Span} {outcome : Outcome} {tree : CaseTree}
    (proper : setting.env.ProperIntervals)
    (done : compile setting span params clauses n = .ok (outcome, m))
    (given : outcome.tree = some tree) :
    (tree.endless = true ∧ ∃ k, OffInterval setting.env k (columnsOf params) tree m) ∨
      ∃ shown ends rest, tree = .interval shown ends rest ∧ setting.inCase = false ∧
        setting.config.allowInterval = true ∧
        (∀ j e, ends[j]? = some e → e.isEmpty = false →
          ∃ b, params[params.length - ends.length + j]? = some b ∧
            IntervalType setting.env b.type) ∧
        ∀ t ∈ rest, t.endless = true ∧ ∃ fresh k l,
          freshen setting.env .empty (columnsOf params) k = .ok (fresh, l) ∧
            OffInterval setting.env l fresh t m := by
  obtain ⟨width, p, q, silent, treed⟩ := compile_tree done given
  have rowWidth : ∀ row ∈ numbered clauses, row.patterns.length = params.length := by
    intro row isRow
    obtain ⟨c, isClause, _, patterns, _⟩ := mem_numbered isRow
    rw [patterns, width c isClause]
  have columnsLength : (columnsOf params).length = params.length := List.length_map _
  obtain ⟨intervals, k, asked, ⟨_, rows⟩ | ⟨⟨notCase, allowed⟩, built⟩⟩ := clausesTree_some treed
  · have off := build_off proper _ _ _ _ _ _ _ _ _ (columnsLength ▸ rowWidth) rows
    exact .inl ⟨off.endless, k, off⟩
  · obtain ⟨first, filled, rest, i, isFilled, _, isTree, below⟩ := buildInterval_some built silent
    refine .inr ⟨_, _, rest, isTree, notCase, allowed, fun j e here notEmpty => ?_, fun t isRest => ?_⟩
    · rw [getElem?_dropWhile] at here
      obtain ⟨c, isColumn, interval⟩ := isIntervals_true asked (isFilled.marked here notEmpty)
      have inRange := (List.getElem?_eq_some_iff.mp here).1
      have length := isFilled.length
      have shorter := (@List.dropWhile_sublist _ filled Ends.isEmpty).length_le
      obtain ⟨b, isParam, rfl⟩ := by simpa [columnsOf] using isColumn
      refine ⟨b, ?_, interval⟩
      rw [← isParam]
      congr 1
      omega
    · obtain ⟨fresh, l, p', freshened, rows⟩ := below t isRest
      have freshLength := freshen_length _ _ _ freshened
      have off := build_off proper _ _ _ _ _ _ _ _ _ (fun row member => ?_) rows
      · exact ⟨off.endless, fresh, i, l, freshened, off⟩
      · rw [freshLength, columnsLength]
        exact rowWidth row (List.mem_filter.mp member).1

end Root

section Examples

def numberAtEnd : Telescope :=
  Telescope.ofPairs [(⟨29, "n"⟩, natType), (⟨30, "i"⟩, intervalType)]

/-- A number at the left end, and the one before it elsewhere. -/
def lesseningPath : List Clause := [
  ⟨.none, [.binding ⟨31, "n"⟩, .ofCon left []], some (.ref ⟨31, "n"⟩)⟩,
  ⟨.none, [.ofCon zero [], .binding ⟨32, "i"⟩], some (numeral 0)⟩,
  ⟨.none, [.ofCon suc [.binding ⟨33, "k"⟩], .binding ⟨34, "i"⟩], some (.ref ⟨33, "k"⟩)⟩]

def lesseningRest : CaseTree := .branch [] [
  (.con zero, .leaf (Telescope.ofPairs [(⟨36, "i"⟩, intervalType)]) (numeral 0)),
  (.con suc, .leaf (Telescope.ofPairs [(⟨37, "n"⟩, natType), (⟨36, "i"⟩, intervalType)])
    (.ref ⟨37, "n"⟩))]

def lesseningTree : CaseTree :=
  .interval numberAtEnd [⟨some (.ref ⟨29, "n"⟩), none⟩] (some lesseningRest)

theorem lesseningPath_compiled : (compile plainSetting .none numberAtEnd lesseningPath 35).map
    (fun r => (r.1.tree, r.2)) = .ok (some lesseningTree, 38) := rfl

theorem lesseningPath_at_root : ∃ outcome,
    compile plainSetting .none numberAtEnd lesseningPath 35 = .ok (outcome, 38) ∧
      outcome.tree = some lesseningTree ∧ IntervalType (environment 100) intervalType ∧
      lesseningRest.endless = true ∧ ∃ fresh k l,
        freshen (environment 100) .empty (columnsOf numberAtEnd) k = .ok (fresh, l) ∧
          OffInterval (environment 100) l fresh lesseningRest 38 := by
  obtain ⟨⟨outcome, m⟩, done, same⟩ := map_ok lesseningPath_compiled
  obtain ⟨given, rfl⟩ := Prod.mk.inj same
  refine ⟨outcome, done, given, ?_⟩
  rcases compile_interval_at_root (library_properIntervals 100) done given with
    ⟨endless, _⟩ | ⟨shown, ends, rest, isTree, _, _, atInterval, below⟩
  · cases endless
  · cases isTree
    obtain ⟨b, isParam, interval⟩ := atInterval 0 _ rfl rfl
    cases isParam
    exact ⟨interval, below _ rfl⟩

end Examples

end Matching

end PathTheory
