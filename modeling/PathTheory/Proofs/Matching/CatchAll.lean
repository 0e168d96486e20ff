import PathTheory.Proofs.Matching.Later
import PathTheory.Proofs.Matching.Exact
/-!
A clause of variables after clauses that leave nothing out. Such a clause takes part in every choice
the compiler makes and changes none: another row of variables is never the first one to look at a
column, is never turned down, and is never the first row where the others are not at their end. So
the second compilation goes the way of the first one, with the counter where it stands by then.
-/
namespace PathTheory

mutual

/-- No branch is without children. -/
def CaseTree.noDeadEnd : CaseTree → Bool
  | .leaf _ _ => true
  | .branch _ children => !children.isEmpty && childrenNoDeadEnd children
  | .interval _ _ rest => restNoDeadEnd rest

def childrenNoDeadEnd : List (Shape × CaseTree) → Bool
  | [] => true
  | (_, child) :: others => child.noDeadEnd && childrenNoDeadEnd others

def restNoDeadEnd : Option CaseTree → Bool
  | none => true
  | some tree => tree.noDeadEnd

end

namespace Matching

open Pattern

variable {setting : Setting} {low d n m k : Nat} {p q : Progress}

section Rows

variable {ρ : Var → Var} {rows extra : List Row} {columns before fields : List Column}

/-- Rows of variables, one for each of so many columns. -/
def CatchAll (width : Nat) (rows : List Row) : Prop :=
  ∀ row ∈ rows, row.patterns.length = width ∧ row.patterns.all Pattern.isBinding = true

theorem CatchAll.pass (catchAll : CatchAll (before.length + k) extra) :
    CatchAll k (extra.map (·.pass before)) := by
  intro row member
  obtain ⟨original, isRow, rfl⟩ := List.mem_map.mp member
  obtain ⟨length, bindings⟩ := catchAll original isRow
  refine ⟨by simp [Row.pass, length], ?_⟩
  rw [List.all_eq_true] at bindings ⊢
  exact fun p inRow => bindings p (List.mem_of_mem_drop inRow)

theorem CatchAll.enter (catchAll : CatchAll (k + 1) extra) (shape : Shape) (value : Term)
    (fields : List Column) :
    CatchAll (fields.length + k) (extra.filterMap (·.enter shape value fields)) := by
  intro row member
  obtain ⟨original, isRow, entered⟩ := List.mem_filterMap.mp member
  obtain ⟨length, bindings⟩ := catchAll original isRow
  rcases enter_cases entered with ⟨args, rest, patterns, rfl⟩ | ⟨x, rest, patterns, rfl⟩
  · rw [patterns] at bindings
    cases bindings
  · rw [patterns] at length bindings
    obtain ⟨_, others⟩ := (Bool.and_eq_true _ _).mp bindings
    refine ⟨by simpa using length, ?_⟩
    rw [List.all_append, others, Bool.and_true, List.all_map]
    exact List.all_eq_true.mpr fun _ _ => rfl

/-- Where no row has a bad pattern first, none has with the variables renamed and rows of variables
    behind. -/
theorem CatchAll.heads {bad : Pattern → Bool} {default : Pattern}
    (catchAll : CatchAll (k + 1) extra) (still : ∀ p, bad (p.mapVars ρ) = bad p)
    (binds : ∀ x, bad (.binding x) = false) (kept : default.mapVars ρ = default)
    (fine : ∀ row ∈ rows, bad (row.patterns.headD default) = false) :
    ∀ row ∈ rows.map (Row.mapVars ρ) ++ extra, bad (row.patterns.headD default) = false := by
  refine List.forall_mem_append.mpr ⟨fun row member => ?_, fun row isRow => ?_⟩
  · obtain ⟨original, isRow, rfl⟩ := List.mem_map.mp member
    have mapped := List.headD_map (f := Pattern.mapVars ρ) (l := original.patterns) (a := default)
    rw [kept] at mapped
    rw [show (original.mapVars ρ).patterns.headD default = _ from mapped, still]
    exact fine original isRow
  · obtain ⟨length, bindings⟩ := catchAll row isRow
    cases patterns : row.patterns with
    | nil =>
        rw [patterns] at length
        cases length
    | cons p rest =>
        rw [patterns] at bindings
        cases p with
        | binding x => exact binds x
        | shaped _ _ => cases bindings
        | absurd => cases bindings

theorem find?_of_fine {α : Type} {bad : α → Bool} {l : List α} (fine : ∀ a ∈ l, bad a = false) :
    l.find? bad = none :=
  List.find?_eq_none.mpr fun a member => by simp [fine a member]

theorem refuse_ok {bad : Pattern → Bool} {problem : Pattern → Checked Problem}
    (fine : ∀ row ∈ rows, bad (row.patterns.headD .absurd) = false) :
    refuse rows bad problem setting p n = .ok ((false, p), n) := by
  unfold refuse
  rw [find?_of_fine fine]
  rfl

theorem refuse_fine {bad : Pattern → Bool} {problem : Pattern → Checked Problem}
    (done : refuse rows bad problem setting p n = .ok ((false, q), m)) :
    ∀ row ∈ rows, bad (row.patterns.headD .absurd) = false := by
  obtain ⟨rfl, _⟩ := refuse_false done
  exact (refuse_silent done rfl).2.2.2

/-- Rows of variables do not look at any column. -/
theorem splitColumn_extended (catchAll : CatchAll columns.length extra) :
    splitColumn (columns.map (Column.mapVars ρ)) (rows.map (Row.mapVars ρ) ++ extra) =
      splitColumn columns rows := by
  unfold splitColumn
  rw [List.length_map]
  congr 1
  refine List.find?_congr fun i inRange => ?_
  have quiet : (extra.any fun r => !(r.patterns[i]?.any Pattern.isBinding)) = false := by
    refine List.any_eq_false.mpr fun row isRow => ?_
    obtain ⟨length, bindings⟩ := catchAll row isRow
    have inRow : i < row.patterns.length := by
      rw [length]
      exact List.mem_range.mp inRange
    have here := List.all_eq_true.mp bindings _ (List.getElem_mem inRow)
    simp [List.getElem?_eq_getElem inRow, here]
  rw [List.any_append, quiet, Bool.or_false, List.any_map]
  congr 1
  funext row
  simp only [Function.comp_apply, Row.mapVars, List.getElem?_map, Option.any_map]
  congr 2
  funext p
  exact p.isBinding_mapVars

/-- Bodies of clauses have old variables only. -/
def BodiesBelow (low : Nat) (rows : List Row) : Prop :=
  ∀ row ∈ rows, ∀ body ∈ row.clause.body, body.Below low

theorem BodiesBelow.pass (bodies : BodiesBelow low rows) (before : List Column) :
    BodiesBelow low (rows.map (·.pass before)) := by
  intro row member
  obtain ⟨original, isRow, rfl⟩ := List.mem_map.mp member
  exact bodies original isRow

theorem BodiesBelow.enter {shape : Shape} {value : Term} (bodies : BodiesBelow low rows) :
    BodiesBelow low (rows.filterMap (·.enter shape value fields)) := by
  intro row member
  obtain ⟨original, isRow, entered⟩ := List.mem_filterMap.mp member
  rcases enter_cases entered with ⟨_, _, _, rfl⟩ | ⟨_, _, _, rfl⟩ <;> exact bodies original isRow

theorem Enters.number {env : Environment} {column : Column} {rest inner' : List Column}
    {inner : List Row} {shape : Shape} {value : Term} {i : Nat}
    (enters : Enters env column rest rows shape value fields n inner' inner m)
    (found : ∃ row ∈ inner, row.number = i) : ∃ row ∈ rows, row.number = i := by
  obtain ⟨row, member, number⟩ := found
  rw [enters.rows] at member
  obtain ⟨original, isRow, entered⟩ := List.mem_filterMap.mp member
  rcases enter_cases entered with ⟨_, _, _, rfl⟩ | ⟨_, _, _, rfl⟩ <;>
    exact ⟨original, isRow, number⟩

end Rows

section Simulation

variable {build : Build} {column : Column} {before rest : List Column} {rows extra : List Row}
  {path : List Frame}

/-- What is asked of the function that builds the children: where it gives a tree without dead ends,
    it gives the tree again with the counter ahead and rows of variables behind. -/
def Repeats (build : Build) (setting : Setting) (low d : Nat) : Prop :=
  ∀ columns rows extra path path' p n tree q m, low ≤ n →
    (∀ row ∈ rows, row.patterns.length = columns.length) → BodiesBelow low rows →
    CatchAll columns.length extra → tree.noDeadEnd = true →
    build columns rows path setting p n = .ok ((some tree, q), m) →
    low ≤ m ∧ build (columns.map (Column.mapVars (Var.later low d)))
      (rows.map (Row.mapVars (Var.later low d)) ++ extra) path' setting p (n + d) =
        .ok ((some (tree.mapVars (Var.later low d)), q), m + d)

theorem split_repeats (known : setting.env.Within (fun _ => True) low)
    (repeats : Repeats build setting low d) {shape : Shape} {value : Term} {fields : List Column}
    {names : List Var} (path' : List Frame) (names' : List Var) {tree : CaseTree} (order : low ≤ n)
    (bodies : BodiesBelow low rows) (catchAll : CatchAll (rest.length + 1) extra)
    (alive : tree.noDeadEnd = true)
    (done : split build column rest rows path names shape value fields setting p n =
      .ok ((some tree, q), m)) :
    low ≤ m ∧ split build (column.mapVars (Var.later low d))
      (rest.map (Column.mapVars (Var.later low d)))
      (rows.map (Row.mapVars (Var.later low d)) ++ extra) path' names' shape
      (value.mapVars (Var.later low d)) (fields.map (Column.mapVars (Var.later low d))) setting p
      (n + d) = .ok ((some (tree.mapVars (Var.later low d)), q), m + d) := by
  have apart := Var.later_injective low d
  unfold split at done
  obtain ⟨others, _, k, replaced, next⟩ := compile_bind done
  obtain ⟨_, _, types, same⟩ := compile_reading replaced
  cases same
  dsimp only at next
  cases misfit : (rows.filterMap (·.enter shape value fields)).find?
      (·.patterns.length ≠ (fields ++ others).length) with
  | some row =>
      rw [misfit] at next
      obtain ⟨_, _, _, _, final⟩ := compile_bind next
      cases compile_pure final
  | none =>
      rw [misfit] at next
      have width : ∀ row ∈ rows.filterMap (·.enter shape value fields),
          row.patterns.length = (fields ++ others).length := by
        intro row member
        simpa using List.find?_eq_none.mp misfit row member
      obtain ⟨later, there⟩ := replaceIn_ahead (d := d)
        (fun m t solved => (known.solutions m t solved).below) _ rest _ _ _ order types
      rw [Subst.single_mapVars apart] at there
      have wide : others.length = rest.length := by
        simpa using congrArg List.length (replaceIn_vars types)
      have extended : CatchAll (fields ++ others).length (extra.filterMap
          (·.enter shape (value.mapVars (Var.later low d))
            (fields.map (Column.mapVars (Var.later low d))))) := by
        have entered := catchAll.enter shape (value.mapVars (Var.later low d))
          (fields.map (Column.mapVars (Var.later low d)))
        rwa [List.length_map, ← wide, ← List.length_append] at entered
      have entered : (rows.map (Row.mapVars (Var.later low d)) ++ extra).filterMap
            (·.enter shape (value.mapVars (Var.later low d))
              (fields.map (Column.mapVars (Var.later low d)))) =
          (rows.filterMap (·.enter shape value fields)).map (Row.mapVars (Var.later low d)) ++
            extra.filterMap (·.enter shape (value.mapVars (Var.later low d))
              (fields.map (Column.mapVars (Var.later low d)))) := by
        rw [List.filterMap_append, List.filterMap_map, List.map_filterMap]
        congr 1
        exact List.filterMap_congr fun row _ => row.enter_mapVars apart shape value fields
      obtain ⟨last, again⟩ := repeats _ _ _ _
        (⟨names', shape, (fields.map (Column.mapVars (Var.later low d))).length⟩ :: path')
        _ _ _ _ _ later width bodies.enter extended alive next
      refine ⟨last, ?_⟩
      unfold split
      refine compile_then (reading_ok there) ?_
      have fit : ∀ row ∈ (rows.filterMap (·.enter shape value fields)).map
            (Row.mapVars (Var.later low d)) ++ extra.filterMap
              (·.enter shape (value.mapVars (Var.later low d))
                (fields.map (Column.mapVars (Var.later low d)))),
          decide (row.patterns.length ≠ (fields.map (Column.mapVars (Var.later low d)) ++
            others.map (Column.mapVars (Var.later low d))).length) = false := by
        rw [← List.map_append, List.length_map]
        refine List.forall_mem_append.mpr ⟨fun row member => ?_, fun row isRow => ?_⟩
        · obtain ⟨original, isRow, rfl⟩ := List.mem_map.mp member
          simp [Row.mapVars, width original isRow]
        · simp [(extended row isRow).1]
      rw [entered, find?_of_fine fit, ← List.map_append]
      exact again

theorem splitAll_repeats (known : setting.env.Within (fun _ => True) low)
    (repeats : Repeats build setting low d) {names : List Var} (path' : List Frame)
    (names' : List Var) {data : DataDef} {u : Universe} {args : List Term} {live : List DefId}
    {children : List (Shape × CaseTree)}
    (old : Telescope.Below low data.params) (order : low ≤ n) (bodies : BodiesBelow low rows)
    (catchAll : CatchAll (rest.length + 1) extra) (alive : childrenNoDeadEnd children = true)
    (done : splitAll (branchConstructor build column rest rows path names data u args) live setting
      p n = .ok ((some children, q), m)) :
    low ≤ m ∧ splitAll (branchConstructor build (column.mapVars (Var.later low d))
      (rest.map (Column.mapVars (Var.later low d)))
      (rows.map (Row.mapVars (Var.later low d)) ++ extra) path' names' data u
      (args.map (Term.mapVars (Var.later low d)))) live setting p (n + d) =
        .ok ((some (mapChildren (Var.later low d) children), q), m + d) := by
  have keeps := Var.later_keeps low d
  induction live generalizing p n children with
  | nil =>
      cases compile_pure done
      exact ⟨order, rfl⟩
  | cons c live ih =>
      unfold splitAll at done
      obtain ⟨first, p₁, k, here, next⟩ := compile_bind done
      obtain ⟨others, p₂, l, later, final⟩ := compile_bind next
      unfold branchConstructor at here
      obtain ⟨_, _, _, ask, here⟩ := compile_bind here
      cases ask
      cases defined : setting.env.constructor? c with
      | none =>
          simp only [defined] at here
          cases compile_pure here
          cases compile_pure final
          obtain ⟨last, again⟩ := ih order alive later
          refine ⟨last, ?_⟩
          unfold splitAll
          have skipped : branchConstructor build (column.mapVars (Var.later low d))
              (rest.map (Column.mapVars (Var.later low d)))
              (rows.map (Row.mapVars (Var.later low d)) ++ extra) path' names' data u
              (args.map (Term.mapVars (Var.later low d))) c setting p (n + d) =
                .ok ((none, p), n + d) := by
            unfold branchConstructor
            refine compile_then rfl ?_
            simp only [defined]
            rfl
          exact compile_then skipped (compile_then again rfl)
      | some con =>
          simp only [defined] at here
          obtain ⟨fields, _, i, renamed, here⟩ := compile_bind here
          obtain ⟨_, _, fresh, same⟩ := compile_reading renamed
          cases same
          obtain ⟨child, p₃, k', built, here⟩ := compile_bind here
          cases compile_pure here
          cases child with
          | none => cases compile_pure final
          | some tree =>
              cases others with
              | none => cases compile_pure final
              | some others =>
                  cases compile_pure final
                  obtain ⟨aliveHere, aliveLater⟩ := (Bool.and_eq_true _ _).mp alive
                  obtain ⟨started, there⟩ := freshen_ahead (d := d)
                    (fun m t solved => (known.solutions m t solved).below) _ _ _ _ _ order fresh
                  rw [Subst.addStd_mapVars, Subst.instantiate_mapVars (Var.later_injective low d),
                    mapTelescope_below keeps data.params old, ← columnsOf_mapVars,
                    mapTelescope_below keeps con.params (known.constructors c con defined)] at there
                  obtain ⟨reached, again⟩ := split_repeats known repeats path' names' started
                    bodies catchAll aliveHere built
                  obtain ⟨last, rest'⟩ := ih reached aliveLater later
                  refine ⟨last, ?_⟩
                  unfold splitAll
                  have first : branchConstructor build (column.mapVars (Var.later low d))
                      (rest.map (Column.mapVars (Var.later low d)))
                      (rows.map (Row.mapVars (Var.later low d)) ++ extra) path' names' data u
                      (args.map (Term.mapVars (Var.later low d))) c setting p (n + d) =
                        .ok ((some (some (.con c, tree.mapVars (Var.later low d))), p₁),
                          k + d) := by
                    unfold branchConstructor
                    refine compile_then rfl ?_
                    simp only [defined]
                    refine compile_then (reading_ok there) ?_
                    rw [Term.mapVars, mapTerms_eq, mapTerms_eq, ← fieldRefs_mapVars] at again
                    exact compile_then again rfl
                  exact compile_then first (compile_then rest' rfl)

theorem branchLive_repeats (known : setting.env.Within (fun _ => True) low)
    (repeats : Repeats build setting low d) (path' : List Frame) {data : DataDef} {u : Universe}
    {type : Term} (type' : Term) {args : List Term} {level : Option Int} {tree : CaseTree}
    (old : Telescope.Below low data.params) (order : low ≤ n) (bodies : BodiesBelow low rows)
    (catchAll : CatchAll (rest.length + 1) extra) (alive : tree.noDeadEnd = true)
    (done : branchLive build column rest rows path before type data u args level setting p n =
      .ok ((some tree, q), m)) :
    low ≤ m ∧ branchLive build (column.mapVars (Var.later low d))
      (rest.map (Column.mapVars (Var.later low d)))
      (rows.map (Row.mapVars (Var.later low d)) ++ extra) path'
      (before.map (Column.mapVars (Var.later low d))) type' data u
      (args.map (Term.mapVars (Var.later low d))) level setting p (n + d) =
        .ok ((some (tree.mapVars (Var.later low d)), q), m + d) := by
  unfold branchLive at done
  obtain ⟨_, _, _, ask, next⟩ := compile_bind done
  cases ask
  dsimp only at next
  cases absurd : rows.find? fun r => isAbsurd (r.patterns.headD (.ofTuple [])) with
  | some row =>
      rw [absurd] at next
      dsimp only at next
      split at next
      · -- a branch without children
        obtain ⟨_, _, _, mark, final⟩ := compile_bind next
        cases compile_pure final
        cases alive
      · obtain ⟨_, _, _, _, rest⟩ := compile_bind next
        obtain ⟨_, _, _, _, final⟩ := compile_bind rest
        cases compile_pure final
  | none =>
      rw [absurd] at next
      obtain ⟨refused, _, _, checked, after⟩ := compile_bind next
      cases refused with
      | true => cases compile_pure after
      | false =>
          have native := refuse_fine checked
          obtain ⟨rfl, rfl⟩ := refuse_false checked
          obtain ⟨children, _, _, built, final⟩ := compile_bind after
          cases children with
          | none => cases compile_pure final
          | some children =>
              cases compile_pure final
              obtain ⟨_, aliveBelow⟩ := (Bool.and_eq_true _ _).mp alive
              obtain ⟨last, again⟩ := splitAll_repeats known repeats path'
                ((before.map (Column.mapVars (Var.later low d))).map (·.1)) old order bodies
                catchAll aliveBelow built
              refine ⟨last, ?_⟩
              have present : ∀ row ∈ rows, isAbsurd (row.patterns.headD (.ofTuple [])) = false := by
                simpa using absurd
              have present' := catchAll.heads (ρ := Var.later low d) isAbsurd_mapVars
                (fun _ => rfl) rfl present
              have native' := catchAll.heads (ρ := Var.later low d) (isForeign_mapVars data)
                (fun _ => rfl) rfl native
              unfold branchLive
              refine compile_then rfl ?_
              rw [find?_of_fine present']
              refine compile_then (refuse_ok native') (compile_then again ?_)
              rw [ofPairs_mapVars]
              rfl

/-- How high data is does not depend on the rows, if it is not too high. -/
theorem truncationLevel_again {rows rows' : List Row} {data : DataDef} {type type' : Term}
    {level : Option Int} (order : low ≤ n)
    (done : truncationLevel rows data type setting p n = .ok ((some level, q), m)) :
    low ≤ m ∧ truncationLevel rows' data type' setting p (n + d) =
      .ok ((some level, q), m + d) := by
  unfold truncationLevel at done ⊢
  split at done
  · rename_i untruncated
    rw [if_pos untruncated]
    cases compile_pure done
    exact ⟨order, rfl⟩
  · rename_i truncated
    rw [if_neg truncated]
    obtain ⟨_, _, _, ask, next⟩ := compile_bind done
    cases ask
    cases sort : setting.resultSort with
    | none =>
        rw [sort] at next
        cases compile_pure next
        refine ⟨order, compile_then rfl ?_⟩
        rw [sort]
        rfl
    | some result =>
        rw [sort] at next
        obtain ⟨fits, _, _, compared, next⟩ := compile_bind next
        obtain ⟨later, there⟩ := levelFits_ahead (d := d) _ _ _ _ _ _ order compared
        cases fits with
        | true =>
            obtain ⟨_, _, _, bounded, final⟩ := compile_bind next
            cases compile_pure final
            obtain ⟨last, here⟩ := AheadIn.lift (d := d) _ _ _ _ _ later bounded
            refine ⟨last, compile_then rfl ?_⟩
            rw [sort]
            exact compile_then there (compile_then here rfl)
        | false =>
            obtain ⟨_, _, _, _, next⟩ := compile_bind next
            obtain ⟨_, _, _, _, next⟩ := compile_bind next
            obtain ⟨_, _, _, _, final⟩ := compile_bind next
            cases compile_pure final

theorem branchData_repeats (known : setting.env.Within (fun _ => True) low)
    (repeats : Repeats build setting low d) (path' : List Frame) {c : DefId} {u : Universe}
    {type : Term} (type' : Term) {args : List Term} {tree : CaseTree} (order : low ≤ n)
    (bodies : BodiesBelow low rows) (catchAll : CatchAll (rest.length + 1) extra)
    (alive : tree.noDeadEnd = true)
    (done : branchData build column rest rows path before type c u args setting p n =
      .ok ((some tree, q), m)) :
    low ≤ m ∧ branchData build (column.mapVars (Var.later low d))
      (rest.map (Column.mapVars (Var.later low d)))
      (rows.map (Row.mapVars (Var.later low d)) ++ extra) path'
      (before.map (Column.mapVars (Var.later low d))) type' c u
      (args.map (Term.mapVars (Var.later low d))) setting p (n + d) =
        .ok ((some (tree.mapVars (Var.later low d)), q), m + d) := by
  unfold branchData at done
  obtain ⟨_, _, _, ask, next⟩ := compile_bind done
  cases ask
  cases isData : setting.env.data? c with
  | none =>
      rw [isData] at next
      cases compile_pure next
  | some data =>
      rw [isData] at next
      dsimp only at next
      have leveled : ∀ {atLevel : Option (Option Int) → Compile (Option CaseTree)},
          atLevel none = pure none → (∀ level, atLevel (some level) = branchLive build column rest
            rows path before type data u args level) →
          (truncationLevel rows data type >>= atLevel) setting p n = .ok ((some tree, q), m) →
          low ≤ m ∧ ∀ {atLevel' : Option (Option Int) → Compile (Option CaseTree)},
            (∀ level, atLevel' (some level) = branchLive build (column.mapVars (Var.later low d))
              (rest.map (Column.mapVars (Var.later low d)))
              (rows.map (Row.mapVars (Var.later low d)) ++ extra) path'
              (before.map (Column.mapVars (Var.later low d))) type' data u
              (args.map (Term.mapVars (Var.later low d))) level) →
            (truncationLevel (rows.map (Row.mapVars (Var.later low d)) ++ extra) data type' >>=
              atLevel') setting p (n + d) =
                .ok ((some (tree.mapVars (Var.later low d)), q), m + d) := by
        intro atLevel noLevel isLevel run
        obtain ⟨level, _, _, leveled, live⟩ := compile_bind run
        cases level with
        | none =>
            rw [noLevel] at live
            cases compile_pure live
        | some level =>
            rw [isLevel] at live
            obtain ⟨later, there⟩ := truncationLevel_again (d := d) order leveled
            obtain ⟨last, again⟩ := branchLive_repeats known repeats path' type'
              (known.data c data isData) later bodies catchAll alive live
            refine ⟨last, fun isLevel' => compile_then there ?_⟩
            rw [isLevel']
            exact again
      unfold branchData
      split at next
      · rename_i interval
        obtain ⟨refused, _, _, checked, after⟩ := compile_bind next
        cases refused with
        | true => cases compile_pure after
        | false =>
            have fine := refuse_fine checked
            obtain ⟨rfl, rfl⟩ := refuse_false checked
            obtain ⟨last, again⟩ := leveled rfl (fun _ => rfl) after
            refine ⟨last, compile_then rfl ?_⟩
            rw [isData]
            dsimp only
            rw [if_pos interval]
            refine compile_then (refuse_ok (catchAll.heads (fun p => ?_) (fun _ => rfl) rfl fine))
              (again fun _ => rfl)
            rw [constructor?_mapVars]
      · rename_i interval
        obtain ⟨last, again⟩ := leveled rfl (fun _ => rfl) next
        refine ⟨last, compile_then rfl ?_⟩
        rw [isData]
        dsimp only
        rw [if_neg interval]
        exact again fun _ => rfl

theorem branchTuple_repeats (known : setting.env.Within (fun _ => True) low)
    (repeats : Repeats build setting low d) (path' : List Frame) {params : Telescope}
    {type : Term} {tree : CaseTree} (order : low ≤ n) (bodies : BodiesBelow low rows)
    (catchAll : CatchAll (rest.length + 1) extra) (alive : tree.noDeadEnd = true)
    (done : branchTuple build column rest rows path before type params setting p n =
      .ok ((some tree, q), m)) :
    low ≤ m ∧ branchTuple build (column.mapVars (Var.later low d))
      (rest.map (Column.mapVars (Var.later low d)))
      (rows.map (Row.mapVars (Var.later low d)) ++ extra) path'
      (before.map (Column.mapVars (Var.later low d))) (type.mapVars (Var.later low d))
      (mapTelescope (Var.later low d) params) setting p (n + d) =
        .ok ((some (tree.mapVars (Var.later low d)), q), m + d) := by
  unfold branchTuple at done
  obtain ⟨refused, _, _, checked, next⟩ := compile_bind done
  cases refused with
  | true => cases compile_pure next
  | false =>
      have fine := refuse_fine checked
      obtain ⟨rfl, rfl⟩ := refuse_false checked
      obtain ⟨fields, _, k, renamed, after⟩ := compile_bind next
      obtain ⟨_, _, fresh, same⟩ := compile_reading renamed
      cases same
      obtain ⟨child, _, _, built, final⟩ := compile_bind after
      cases child with
      | none => cases compile_pure final
      | some child =>
          cases compile_pure final
          obtain ⟨started, there⟩ := freshen_ahead (d := d)
            (fun m t solved => (known.solutions m t solved).below) _ _ _ _ _ order fresh
          rw [← columnsOf_mapVars] at there
          have aliveBelow : child.noDeadEnd = true := by
            simpa [CaseTree.noDeadEnd, childrenNoDeadEnd] using alive
          obtain ⟨last, again⟩ := split_repeats known repeats path'
            ((before.map (Column.mapVars (Var.later low d))).map (·.1)) started bodies catchAll
            aliveBelow built
          refine ⟨last, ?_⟩
          rw [← length_mapTelescope (ρ := Var.later low d) params] at fine
          unfold branchTuple
          refine compile_then (refuse_ok (catchAll.heads (fun p => ?_) (fun _ => rfl) rfl fine))
            (compile_then (reading_ok there) ?_)
          · cases p <;> rfl
          rw [Term.mapVars, mapTerms_eq, ← fieldRefs_mapVars,
            ← length_mapTelescope (ρ := Var.later low d) params] at again
          refine compile_then again ?_
          rw [ofPairs_mapVars, length_mapTelescope]
          rfl

theorem branch_repeats (known : setting.env.Within (fun _ => True) low)
    (repeats : Repeats build setting low d) (path' : List Frame) {tree : CaseTree}
    (order : low ≤ n) (bodies : BodiesBelow low rows)
    (catchAll : CatchAll (before.length + (rest.length + 1)) extra) (alive : tree.noDeadEnd = true)
    (done : branch build before column rest rows path setting p n = .ok ((some tree, q), m)) :
    low ≤ m ∧ branch build (before.map (Column.mapVars (Var.later low d)))
      (column.mapVars (Var.later low d)) (rest.map (Column.mapVars (Var.later low d)))
      (rows.map (Row.mapVars (Var.later low d)) ++ extra) path' setting p (n + d) =
        .ok ((some (tree.mapVars (Var.later low d)), q), m + d) := by
  unfold branch at done
  obtain ⟨type, _, k, reduced, next⟩ := compile_bind done
  obtain ⟨_, _, ran, same⟩ := compile_reading reduced
  cases same
  obtain ⟨later, there⟩ := Term.whnf_ahead (d := d) known _ _ _ _ order ran
  have extended : CatchAll (rest.length + 1)
      (extra.map (·.pass (before.map (Column.mapVars (Var.later low d))))) := by
    apply CatchAll.pass
    rwa [List.length_map]
  have passed : (rows.map (Row.mapVars (Var.later low d)) ++ extra).map
        (·.pass (before.map (Column.mapVars (Var.later low d)))) =
      (rows.map (·.pass before)).map (Row.mapVars (Var.later low d)) ++
        extra.map (·.pass (before.map (Column.mapVars (Var.later low d)))) := by
    rw [List.map_append, List.map_map, List.map_map]
    congr 1
    exact List.map_congr_left fun row _ => row.pass_mapVars (Var.later_injective low d) before
  unfold branch
  rw [passed]
  cases type with
  | data c u args =>
      obtain ⟨last, again⟩ := branchData_repeats known repeats path'
        ((Term.data c u args).mapVars (Var.later low d)) later (bodies.pass before) extended alive
        next
      refine ⟨last, compile_then (reading_ok there) ?_⟩
      simp only [Term.mapVars, mapTerms_eq] at again ⊢
      exact again
  | sigma params =>
      obtain ⟨last, again⟩ := branchTuple_repeats known repeats path' later
        (bodies.pass before) extended alive next
      refine ⟨last, compile_then (reading_ok there) ?_⟩
      exact again
  | _ =>
      obtain ⟨_, _, _, _, final⟩ := compile_bind next
      cases compile_pure final

theorem build_repeats (known : setting.env.Within (fun _ => True) low) (fuel : Nat) :
    Repeats (Matching.build fuel) setting low d := by
  have apart := Var.later_injective low d
  induction fuel with
  | zero =>
      intro columns rows extra path path' p n tree q m _ _ _ _ _ done
      cases done
  | succ fuel ih =>
      intro columns rows extra path path' p n tree q m order width bodies catchAll alive done
      unfold Matching.build at done
      cases rows with
      | nil =>
          -- no row is left: there is a branch without children, or no tree
          obtain ⟨found, _, _, _, next⟩ := compile_bind done
          cases found with
          | some before =>
              cases compile_pure next
              cases alive
          | none =>
              obtain ⟨_, _, _, _, final⟩ := compile_bind next
              cases compile_pure final
      | cons first others =>
          dsimp only at done
          unfold Matching.build
          rw [List.map_cons, List.cons_append]
          dsimp only
          by_cases allBinding : first.patterns.all Pattern.isBinding = true
          · have allBinding' : (first.mapVars (Var.later low d)).patterns.all isBinding = true :=
              (all_isBinding_mapVars first.patterns).trans allBinding
            rw [if_pos allBinding] at done
            rw [if_pos allBinding']
            obtain ⟨_, _, _, mark, next⟩ := compile_bind done
            cases mark
            cases isBody : first.clause.body with
            | none =>
                rw [isBody] at next
                obtain ⟨_, _, _, _, final⟩ := compile_bind next
                cases compile_pure final
            | some body =>
                rw [isBody] at next
                obtain ⟨result, _, _, applied, final⟩ := compile_bind next
                obtain ⟨_, _, substituted, same⟩ := compile_reading applied
                cases same
                cases compile_pure final
                have isBody' : (first.mapVars (Var.later low d)).clause.body = some body := isBody
                obtain ⟨last, there⟩ := Subst.apply_ahead (d := d)
                  (fun m t solved => (known.solutions m t solved).below) _ body _ _ _ order
                  substituted
                rw [bindColumns_mapVars apart, body.mapVars_below (Var.later_keeps low d)
                  (bodies first List.mem_cons_self body isBody)] at there
                refine ⟨last, ?_⟩
                unfold leaf
                refine compile_then rfl ?_
                rw [isBody']
                refine compile_then (reading_ok there) ?_
                rw [ofPairs_mapVars]
                rfl
          · have notBinding' : ¬ (first.mapVars (Var.later low d)).patterns.all isBinding = true :=
              fun all => allBinding ((all_isBinding_mapVars first.patterns).symm.trans all)
            rw [if_neg allBinding] at done
            rw [if_neg notBinding', ← List.cons_append, ← List.map_cons,
              splitColumn_extended catchAll, ← List.map_drop, ← List.map_take]
            cases left : columns.drop (splitColumn columns (first :: others)) with
            | nil =>
                rw [left] at done
                cases compile_pure done
            | cons column rest =>
                rw [left] at done
                refine branch_repeats known ih path' order bodies ?_ alive done
                have whole := congrArg List.length
                  (List.take_append_drop (splitColumn columns (first :: others)) columns)
                rw [left, List.length_append, List.length_cons] at whole
                rwa [whole]

end Simulation

section Clauses

variable {ρ : Var → Var} {span : Span} {params : Telescope} {clauses : List Clause} {c : Clause}

/-- A clause over old variables. -/
structure Clause.Below (n : Nat) (clause : Clause) : Prop where
  patterns : ∀ x ∈ rowVars clause.patterns, x.id < n
  body : ∀ body ∈ clause.body, body.Below n

theorem numbered_concat (clauses : List Clause) (c : Clause) :
    numbered (clauses ++ [c]) = numbered clauses ++ [⟨clauses.length, c, c.patterns, .empty⟩] := by
  simp [numbered, List.zipIdx_append]

theorem Row.mapVars_old {row : Row} (keeps : FixesBelow ρ n) (empty : row.subst = .empty)
    (old : ∀ x ∈ rowVars row.patterns, x.id < n) : row.mapVars ρ = row := by
  obtain ⟨number, clause, patterns, s⟩ := row
  cases empty
  rw [Row.mapVars, ← mapPatterns_eq, mapPatterns_below keeps patterns old]
  rfl

theorem numbered_old (keeps : FixesBelow ρ n) (given : ∀ clause ∈ clauses, clause.Below n) :
    (numbered clauses).map (Row.mapVars ρ) = numbered clauses := by
  refine (List.map_congr_left fun row isRow => ?_).trans (List.map_id _)
  obtain ⟨clause, isClause, _, patterns, empty⟩ := mem_numbered isRow
  refine Row.mapVars_old keeps empty ?_
  rw [patterns]
  exact (given clause isClause).patterns

mutual

/-- Rows that are led to are rows of the node. -/
theorem Explored.numbers {env : Environment} : ∀ {n m : Nat} {columns : List Column}
    {rows : List Row} {used : List Nat} {examples : List (List Pattern)},
    Explored env n columns rows used examples m → ∀ i ∈ used, ∃ row ∈ rows, row.number = i
  | _, _, _, _, _, _, .leaf _ _ =>
      List.forall_mem_singleton.mpr ⟨_, List.mem_cons_self, rfl⟩
  | _, _, _, _, _, _, .empty _ | _, _, _, _, _, _, .missing _
  | _, _, _, _, _, _, .unknown _ _ _ => List.forall_mem_nil _
  | _, _, _, _, _, _, .absurd _ _ _ _ isRow => List.forall_mem_singleton.mpr ⟨_, isRow, rfl⟩
  | _, _, _, _, _, _, .data _ _ _ _ children => by
      intro i isUsed
      obtain ⟨row, member, number⟩ := children.numbers i isUsed
      obtain ⟨original, isRow, rfl⟩ := List.mem_map.mp member
      exact ⟨original, isRow, number⟩
  | _, _, _, _, _, _, .tuple _ _ _ enters child => by
      intro i isUsed
      obtain ⟨row, member, number⟩ := enters.number (child.numbers i isUsed)
      obtain ⟨original, isRow, rfl⟩ := List.mem_map.mp member
      exact ⟨original, isRow, number⟩

theorem ExploredAll.numbers {env : Environment} : ∀ {data : DataDef} {u : Universe}
    {args : List Term} {passed : List Var} {column : Column} {rest : List Column}
    {rows : List Row} {n m : Nat} {live : List DefId} {used : List Nat}
    {examples : List (List Pattern)},
    ExploredAll env data u args passed column rest rows n live used examples m →
    ∀ i ∈ used, ∃ row ∈ rows, row.number = i
  | _, _, _, _, _, _, _, _, _, _, _, _, .nil => List.forall_mem_nil _
  | _, _, _, _, _, _, _, _, _, _, _, _, .skip _ others => others.numbers
  | _, _, _, _, _, _, _, _, _, _, _, _, .child _ _ enters explored others =>
      List.forall_mem_append.mpr ⟨others.numbers, fun i isUsed =>
        enters.number (explored.numbers i isUsed)⟩

end

theorem checkArity_ok {arity : Nat} (width : ∀ clause ∈ clauses, clause.patterns.length = arity) :
    checkArity arity clauses setting p n = .ok (((), p), n) := by
  unfold checkArity
  induction clauses with
  | nil => rfl
  | cons clause clauses ih =>
      obtain ⟨here, rest⟩ := List.forall_mem_cons.mp width
      rw [List.forM_eq_forM, List.forM_cons, if_neg (by omega), if_neg (by omega)]
      exact compile_then rfl (ih rest)

/-- What comes after a tree of which nothing bad is known. -/
theorem coverage_ok {tree : CaseTree} (reports : setting.config.reportRedundant = true)
    (complete : p.missing = []) (silent : p.diagnostics = []) :
    (do
      if !p.missing.isEmpty then
        fail span (.missingClauses p.missing p.missingTruncated)
      unlessFailed clauses (some tree) : Compile (Option CaseTree)) setting p n =
        .ok ((some tree, { p with diagnostics := redundant p.used clauses.zipIdx }), n) := by
  have quiet : (!p.missing.isEmpty) = false := by
    rw [complete]
    rfl
  have fine : failed setting p n = .ok ((false, p), n) := by
    unfold failed
    refine compile_then (x := p) rfl ?_
    rw [silent]
    rfl
  have reported : reportRedundant clauses setting p n = _ := reportRedundant_ok clauses
  rw [silent, List.nil_append] at reported
  dsimp only
  rw [quiet, if_neg Bool.false_ne_true]
  unfold unlessFailed
  refine compile_then fine ?_
  rw [if_neg Bool.false_ne_true]
  dsimp only
  refine compile_then (x := setting) rfl ?_
  rw [if_pos reports]
  exact compile_then reported rfl

/-- Where there is a tree in the end, nothing bad was known. -/
theorem coverage_some {found : Option CaseTree} {tree : CaseTree}
    (done : (do
      if !p.missing.isEmpty then
        fail span (.missingClauses p.missing p.missingTruncated)
      unlessFailed clauses found : Compile (Option CaseTree)) setting p n =
        .ok ((some tree, q), m)) :
    found = some tree ∧ p.missing = [] ∧ p.diagnostics = [] := by
  obtain ⟨_, complete, _⟩ := coverage_run done
  have quiet : (!p.missing.isEmpty) = false := by
    rw [complete rfl]
    rfl
  dsimp only at done
  rw [quiet, if_neg Bool.false_ne_true] at done
  exact ⟨(unlessFailed_some done).1, complete rfl, (unlessFailed_run done).2.1 rfl⟩

theorem NoIntervalPattern.concat {env : Environment}
    (noInterval : NoIntervalPattern env params clauses)
    (all : c.patterns.all isBinding = true) : NoIntervalPattern env params (clauses ++ [c]) := by
  refine List.forall_mem_append.mpr ⟨noInterval, List.forall_mem_singleton.mpr ?_⟩
  intro entry member isCon
  have binds := List.all_eq_true.mp all entry.1 (List.of_mem_zip member).1
  obtain ⟨p, b⟩ := entry
  cases p with
  | binding x => cases isCon
  | shaped _ _ => cases binds
  | absurd => cases binds

/-- The rows of all clauses and a row of variables are compiled as the rows of the clauses are. -/
theorem buildRows_repeats (known : setting.env.Within (fun _ => True) low)
    (old : Telescope.Below low params) (given : ∀ clause ∈ clauses, clause.Below low)
    (width : ∀ clause ∈ clauses, clause.patterns.length = params.length)
    (arity : c.patterns.length = params.length) (all : c.patterns.all isBinding = true)
    {tree : CaseTree} (alive : tree.noDeadEnd = true) (order : low ≤ n)
    (done : buildRows (columnsOf params) (numbered clauses) setting p n =
      .ok ((some tree, q), m)) :
    low ≤ m ∧ buildRows (columnsOf params) (numbered (clauses ++ [c])) setting p (n + d) =
      .ok ((some (tree.mapVars (Var.later low d)), q), m + d) := by
  have keeps := Var.later_keeps low d
  have bodies : BodiesBelow low (numbered clauses) := by
    intro row isRow
    obtain ⟨clause, isClause, same, _⟩ := mem_numbered isRow
    rw [same]
    exact (given clause isClause).body
  have catchAll : CatchAll (columnsOf params).length [⟨clauses.length, c, c.patterns, .empty⟩] := by
    refine List.forall_mem_singleton.mpr ⟨?_, all⟩
    rw [columnsOf_length]
    exact arity
  obtain ⟨last, again⟩ := build_repeats (d := d) known _ _ _ _ _ [] _ _ _ _ _ order
    (numbered_width width) bodies catchAll alive done
  rw [← columnsOf_mapVars, mapTelescope_below keeps params old, numbered_old keeps given] at again
  refine ⟨last, ?_⟩
  unfold buildRows
  rw [numbered_concat, List.foldr_append, List.foldr_cons, List.foldr_nil, rowSplits_bindings all]
  exact again

theorem clausesTree_repeats (known : setting.env.Within (fun _ => True) low)
    (old : Telescope.Below low params) (given : ∀ clause ∈ clauses, clause.Below low)
    (width : ∀ clause ∈ clauses, clause.patterns.length = params.length)
    (noInterval : NoIntervalPattern setting.env params clauses)
    (arity : c.patterns.length = params.length) (all : c.patterns.all isBinding = true)
    {tree : CaseTree} (alive : tree.noDeadEnd = true)
    (done : clausesTree params clauses setting p low = .ok ((some tree, q), m)) :
    low ≤ m ∧ clausesTree params (clauses ++ [c]) setting p (low + d) =
      .ok ((some (tree.mapVars (Var.later low d)), q), m + d) := by
  unfold clausesTree at done
  obtain ⟨_, _, _, ask, next⟩ := compile_bind done
  cases ask
  obtain ⟨intervals, _, k, asked, rows⟩ := compile_bind next
  obtain rfl := isIntervals_run asked
  obtain ⟨order, answers⟩ := isIntervals_answers known
    (fun b isParam => ⟨(old b isParam).2, fun _ _ => trivial⟩) asked
  obtain ⟨_, there⟩ := isIntervals_ahead (d := d) known _ _ _ _ _ (Nat.le_refl low) asked
  rw [← columnsOf_mapVars, mapTelescope_below (Var.later_keeps low d) params old] at there
  rw [intervalPattern?_none noInterval answers] at rows
  obtain ⟨last, again⟩ := buildRows_repeats (d := d) known old given width arity all alive order
    rows
  refine ⟨last, ?_⟩
  unfold clausesTree
  refine compile_then (x := setting) rfl (compile_then there ?_)
  rw [id, intervalPattern?_none (noInterval.concat all) answers]
  exact again

theorem redundant_concat {used : List Nat} (unused : clauses.length ∉ used) :
    redundant used (clauses ++ [c]).zipIdx = redundant used clauses.zipIdx ++
      [⟨c.span, .redundantClause (rowText c.patterns)⟩] := by
  simp [redundant, List.zipIdx_append, unused]

/-- **Catch-all clauses.** If clauses that match no end of the interval have a tree without dead
    ends, then they have a tree together with a clause of variables behind them, whatever the
    counter is by then: the same tree with the variables that the compiler made renamed. Nothing
    else is noted but that the clause is redundant, and nothing else is asked of levels. The two
    trees are the same up to the names of bound variables just if the counter is the same or no
    variable that the compiler made is free in the tree. -/
theorem compile_catchAll {outcome : Outcome} {tree : CaseTree}
    (known : setting.env.Within (fun _ => True) n) (old : Telescope.Below n params)
    (given : ∀ clause ∈ clauses, clause.Below n)
    (noInterval : NoIntervalPattern setting.env params clauses)
    (reports : setting.config.reportRedundant = true)
    (done : compile setting span params clauses n = .ok (outcome, m))
    (isTree : outcome.tree = some tree) (alive : tree.noDeadEnd = true)
    (arity : c.patterns.length = params.length) (all : c.patterns.all isBinding = true)
    (later : n ≤ k) :
    ∃ again l, compile setting span params (clauses ++ [c]) k = .ok (again, l) ∧
      again.diagnostics = outcome.diagnostics ++
        [⟨c.span, .redundantClause (rowText c.patterns)⟩] ∧
      again.demands = outcome.demands ∧
      ∃ tree', again.tree = some tree' ∧ tree' = tree.mapVars (Var.later n (k - n)) ∧
        (tree'.reading = tree.reading ↔ k = n ∨ ∀ x ∈ tree.freeVars, x.id < n) := by
  obtain ⟨d, rfl⟩ := Nat.exists_eq_add_of_le later
  obtain ⟨⟨found, q⟩, _, ran, final⟩ := fresh_bind done
  cases fresh_pure final
  cases isTree
  unfold compileClauses at ran
  obtain ⟨_, p₁, _, counted, gated⟩ := compile_bind ran
  obtain ⟨isFailed, _, _, ask, rest⟩ := compile_bind gated
  cases isFailed with
  | true => cases compile_pure rest
  | false =>
      have width := (checkArity_silent clauses counted (failed_false ask).2.2).2.2
      cases (checkArity_ok width).symm.trans counted
      cases ask
      rw [if_neg Bool.false_ne_true] at rest
      obtain ⟨found, q₁, l, treed, next⟩ := compile_bind rest
      obtain ⟨_, _, _, ask, next⟩ := compile_bind next
      cases ask
      obtain ⟨rfl, complete, quiet⟩ := coverage_some next
      cases (coverage_ok reports complete quiet).symm.trans next
      -- the rows that are led to are those of the clauses
      obtain ⟨_, _, rows⟩ := clausesTree_rows known
        (fun b isParam => ⟨(old b isParam).2, fun _ _ => trivial⟩) noInterval treed
      obtain ⟨used, examples, explored, result⟩ :=
        (build_explores _).2 _ _ _ _ _ _ _ _ (numbered_width width) rows quiet
      have unused : clauses.length ∉ q₁.used := by
        intro isUsed
        rw [result.used, show Progress.start.used = [] from rfl, List.append_nil] at isUsed
        obtain ⟨row, isRow, number⟩ := explored.numbers _ isUsed
        obtain ⟨entry, listed, rfl⟩ := List.mem_map.mp isRow
        have inside := List.snd_lt_of_mem_zipIdx listed
        dsimp only at number
        omega
      obtain ⟨_, again⟩ := clausesTree_repeats (d := d) known old given width noInterval arity all
        alive treed
      have width' : ∀ clause ∈ clauses ++ [c], clause.patterns.length = params.length :=
        List.forall_mem_append.mpr ⟨width, List.forall_mem_singleton.mpr arity⟩
      have ran' : compileClauses span params (clauses ++ [c]) setting .start (n + d) =
          .ok ((some (tree.mapVars (Var.later n d)), { q₁ with
            diagnostics := redundant q₁.used (clauses ++ [c]).zipIdx }), m + d) := by
        unfold compileClauses
        refine compile_then (checkArity_ok width') (compile_then (x := false) rfl ?_)
        rw [if_neg Bool.false_ne_true]
        refine compile_then again (compile_then (x := q₁) rfl ?_)
        exact coverage_ok reports complete quiet
      refine ⟨_, _, fresh_then ran' rfl, redundant_concat unused, rfl, _, rfl, ?_, ?_⟩
      · rw [Nat.add_sub_cancel_left]
      · rw [CaseTree.reading_mapVars_iff (Var.later_injective n d)]
        simp only [Var.later_eq_self]
        by_cases same : d = 0
        · simp [same]
        · simp [same]

open Library

/-- A clause for whatever is left. -/
def otherwise (x : Var) : Clause := ⟨.none, [.binding x], some (.ref x)⟩

/-- The predecessor of every number. -/
def lessOne : List Clause := [
  ⟨.none, [.ofCon zero []], some zeroTerm⟩,
  ⟨.none, [.ofCon suc [.binding ⟨30, "n"⟩]], some (.ref ⟨30, "n"⟩)⟩]

theorem lessOne_catchAll : ∃ outcome m tree again l tree',
    compile plainSetting .none counted lessOne 32 = .ok (outcome, m) ∧ outcome.tree = some tree ∧
      tree.noDeadEnd = true ∧
      compile plainSetting .none counted (lessOne ++ [otherwise ⟨33, "k"⟩]) 34 = .ok (again, l) ∧
      again.tree = some tree' ∧ tree'.reading = tree.reading ∧
      again.diagnostics = outcome.diagnostics ++ [⟨.none, .redundantClause "k"⟩] := by
  have run : ∃ outcome m tree, compile plainSetting .none counted lessOne 32 = .ok (outcome, m) ∧
      outcome.tree = some tree ∧ tree.noDeadEnd = true ∧ ∀ x ∈ tree.freeVars, x.id < 32 :=
    ⟨_, _, _, rfl, rfl, rfl, by decide⟩
  obtain ⟨outcome, m, tree, done, isTree, alive, bound⟩ := run
  have known : plainSetting.env.Within (fun _ => True) 32 :=
    ((library_within 100).mono (by decide)).widen fun _ _ => trivial
  have patterns : ∀ clause ∈ lessOne, ∀ x ∈ rowVars clause.patterns, x.id < 32 := by decide
  have bodies : ∀ clause ∈ lessOne, ∀ body ∈ clause.body, body.Below 32 := by decide
  obtain ⟨again, l, ran, noted, _, tree', isTree', _, same⟩ := compile_catchAll
    (c := otherwise ⟨33, "k"⟩) (k := 34) known (by decide)
    (fun clause isClause => ⟨patterns clause isClause, bodies clause isClause⟩)
    (counted_plain _) rfl done isTree alive rfl rfl (by decide)
  exact ⟨outcome, m, tree, again, l, tree', done, isTree, alive, ran, isTree',
    same.mpr (.inr bound), noted⟩

/-- Where a variable that the compiler made is free in the tree, another clause behind the others
    leads to another tree: the variable is made once more. -/
theorem twoLess_catchAll :
    plainSetting.config.reportRedundant = true ∧
    NoIntervalPattern plainSetting.env counted twoLess ∧
    (compile plainSetting .none counted twoLess 32).map (fun r => (r.1.tree, r.2)) =
      .ok (some twoLessTree, 34) ∧
    twoLessTree.noDeadEnd = true ∧
    ∃ again l tree', compile plainSetting .none counted (twoLess ++ [otherwise ⟨34, "m"⟩]) 35 =
        .ok (again, l) ∧ again.tree = some tree' ∧ tree'.reading ≠ twoLessTree.reading := by
  have run : ∃ again l tree', compile plainSetting .none counted
      (twoLess ++ [otherwise ⟨34, "m"⟩]) 35 = .ok (again, l) ∧ again.tree = some tree' ∧
        ⟨32, "n"⟩ ∉ tree'.freeVars := ⟨_, _, _, rfl, rfl, by decide⟩
  obtain ⟨again, l, tree', ran, isTree', absent⟩ := run
  refine ⟨rfl, counted_plain _, twoLess_compiled, rfl, again, l, tree', ran, isTree', ?_⟩
  intro same
  have free : ⟨32, "n"⟩ ∈ twoLessTree.freeVars := by decide
  rw [← CaseTree.mem_reading_freeVars, ← same, CaseTree.mem_reading_freeVars] at free
  exact absent free

end Clauses

end Matching

end PathTheory
