import PathTheory.Proofs.Matching.Fitting
import PathTheory.Proofs.Matching.Inspected
import PathTheory.Proofs.Matching.Seen
/-!
Agreement of the two sides that look at patterns. Where every row was typed before, the compiler
never finds a pattern to be one for another type, nor a row to have too many or too few of them,
whatever else it finds wrong.
-/
namespace PathTheory

/-- The problems of patterns that are not ones for the type of their column. -/
def Problem.ofMisfit : Problem → Bool
  | .notEnoughPatterns _ | .tooManyPatterns _ | .expectedConstructor _ _ => true
  | _ => false

namespace Matching

variable {setting : Setting} {V : Var → Prop} {n m k : Nat}

/-- If the computation ends, no pattern has been found to be one for another type, the counter has not
    gone down, and the result has the property. -/
def Agreeing {α : Type} (setting : Setting) (n : Nat) (a : Compile α) (Q : α → Nat → Prop) : Prop :=
  ∀ p x q m, a setting p n = .ok ((x, q), m) → p.Onward Problem.ofMisfit q ∧ n ≤ m ∧ Q x m

abbrev Whatever {α : Type} : α → Nat → Prop := fun _ _ => True

namespace Agreeing

variable {α β : Type} {a : Compile α} {f : α → Compile β} {P : α → Nat → Prop}
  {Q : β → Nat → Prop}

theorem pure {x : β} (holds : Q x n) : Agreeing setting n (pure x) Q := by
  intro p y q m done
  cases compile_pure done
  exact ⟨.same rfl, Nat.le_refl n, holds⟩

theorem bind (first : Agreeing setting n a P)
    (next : ∀ x m, n ≤ m → P x m → Agreeing setting m (f x) Q) : Agreeing setting n (a >>= f) Q := by
  intro p y r k done
  obtain ⟨x, q, m, start, rest⟩ := compile_bind done
  obtain ⟨noted, order, holds⟩ := first _ _ _ _ start
  obtain ⟨noted', order', final⟩ := next x m order holds _ _ _ _ rest
  exact ⟨noted.trans noted', order.trans order', final⟩

theorem weaken (first : Agreeing setting n a P) {R : α → Nat → Prop}
    (holds : ∀ x m, P x m → R x m) : Agreeing setting n a R := by
  intro p x q m done
  obtain ⟨noted, order, result⟩ := first p x q m done
  exact ⟨noted, order, holds x m result⟩

theorem read {f : Setting → Compile β} (next : Agreeing setting n (f setting) Q) :
    Agreeing setting n (read >>= f) Q := next

theorem still (noting : Noting Problem.ofMisfit a) (rests : Still a) :
    Agreeing setting n a fun _ m => m = n := by
  intro p x q m done
  have same := rests _ _ _ _ done
  exact ⟨noting _ _ _ _ _ _ done, same.ge, same⟩

theorem reading {f : Environment → Fresh α}
    (order : ∀ x m, f setting.env n = .ok (x, m) → n ≤ m) :
    Agreeing setting n (reading f) fun x m => f setting.env n = .ok (x, m) := by
  intro p x q m done
  obtain ⟨_, _, run, same⟩ := compile_reading done
  cases same
  exact ⟨.same rfl, order _ _ run, run⟩

end Agreeing

theorem refuse_still (rows : List Row) (bad : Pattern → Bool) (problem : Pattern → Checked Problem) :
    Still (refuse rows bad problem) := by
  unfold refuse
  split
  · exact .pure _
  · exact (Still.lift _).bind fun _ => (Still.modify _).bind fun _ => .pure _

/-- Rows without bad patterns are not turned down. -/
theorem refuse_none {rows : List Row} {bad : Pattern → Bool} {problem : Pattern → Checked Problem}
    (good : ∀ row ∈ rows, bad (row.patterns.headD .absurd) = false) :
    refuse rows bad problem = pure false := by
  unfold refuse
  have none : (rows.find? fun r => bad (r.patterns.headD .absurd)) = none :=
    List.find?_eq_none.mpr fun row isRow => by
      rw [good row isRow]
      exact Bool.false_ne_true
  rw [none]

theorem refuse_agrees {rows : List Row} {bad : Pattern → Bool} {problem : Pattern → Checked Problem}
    (other : ∀ p r, problem p = .ok r → r.ofMisfit = false) :
    Agreeing setting n (refuse rows bad problem) fun refused m => m = n ∧
      (refused = false → ∀ row ∈ rows, bad (row.patterns.headD .absurd) = false) := by
  intro p refused q m done
  have same := refuse_still rows bad problem _ _ _ _ done
  refine ⟨refuse_noting other _ _ _ _ _ _ done, same.ge, same, ?_⟩
  rintro rfl
  exact (refuse_passed done).2.2

section Building

variable {build : Build}

/-- What is asked of the function that builds the children. -/
def Build.Agrees (build : Build) (setting : Setting) : Prop :=
  ∀ V n columns rows path, Fitting setting.env V n columns rows →
    Agreeing setting n (build columns rows path) Whatever

variable (builds : build.Agrees setting)
include builds

theorem split_agrees {column : Column} {rest fields : List Column} {rows : List Row}
    {path : List Frame} {before : List Var} {shape : Shape} {value : Term}
    (fits : ∀ rest' k, replaceIn setting.env (.single column.1 value) rest n = .ok (rest', k) →
      n ≤ k ∧ Fitting setting.env V k (fields ++ rest')
        (rows.filterMap (·.enter shape value fields))) :
    Agreeing setting n (split build column rest rows path before shape value fields) Whatever := by
  refine (Agreeing.reading fun rest' k replaced => (fits rest' k replaced).1).bind
    fun rest' k _ replaced => ?_
  have fitting := (fits rest' k replaced).2
  have none : (rows.filterMap (·.enter shape value fields)).find?
      (·.patterns.length ≠ (fields ++ rest').length) = none :=
    List.find?_eq_none.mpr fun row isRow => by simpa using fitting.width row isRow
  dsimp only
  rw [none]
  exact builds _ _ _ _ _ fitting

omit builds in
theorem splitAll_agrees {splitOne : DefId → Compile (Option (Option (Shape × CaseTree)))}
    {live : List DefId}
    (each : ∀ c ∈ live, ∀ k, n ≤ k → Agreeing setting k (splitOne c) Whatever) :
    Agreeing setting n (splitAll splitOne live) Whatever := by
  induction live generalizing n with
  | nil => exact .pure trivial
  | cons c live ih =>
      obtain ⟨here, later⟩ := List.forall_mem_cons.mp each
      refine (here n (Nat.le_refl n)).bind fun first m order _ => ?_
      refine (ih fun c member k after => later c member k (order.trans after)).bind
        fun others _ _ _ => ?_
      cases first <;> exact .pure trivial

variable (only : setting.env.OnlyCoe) (apart : setting.env.EndsApart)
include only apart

theorem branchConstructor_agrees {column : Column} {rest : List Column} {rows : List Row}
    {path : List Frame} {before : List Var} {d c : DefId} {data : DataDef} {u : Universe}
    {args : List Term} (fitting : Fitting setting.env V n (column :: rest) rows)
    (argsIn : ∀ a ∈ args, a.Within V n) (reduced : column.2.Reduces setting.env (.data d u args))
    (known : setting.env.data? d = some data) (notInterval : data.interval = false)
    (member : c ∈ data.constructors) : Agreeing setting n
      (branchConstructor build column rest rows path before data u args c) Whatever := by
  refine .read ?_
  dsimp only
  cases defined : setting.env.constructor? c with
  | none => exact .pure trivial
  | some con =>
      have enter := fitting.enter_con only argsIn reduced known defined
        (apart d data known notInterval c member)
      refine (Agreeing.reading fun fields m fresh => (enter fields m fresh).1).bind
        fun fields m _ fresh => ?_
      exact (split_agrees builds (enter fields m fresh).2).bind fun child _ _ _ => .pure trivial

theorem branchLive_agrees {before : List Column} {column : Column} {rest : List Column}
    {rows : List Row} {path : List Frame} {d : DefId} {data : DataDef} {u : Universe}
    {args : List Term} {level : Option Int}
    (fitting : Fitting setting.env V n (column :: rest) rows) (argsIn : ∀ a ∈ args, a.Within V n)
    (reduced : column.2.Reduces setting.env (.data d u args))
    (known : setting.env.data? d = some data) (notInterval : data.interval = false) :
    Agreeing setting n (branchLive build column rest rows path before (.data d u args) data u args
      level) Whatever := by
  refine .read ?_
  have none : (rows.find? fun r => isAbsurd (r.patterns.headD (.ofTuple []))) = none :=
    List.find?_eq_none.mpr fun row isRow => by
      rw [(fitting.meets only reduced _ row isRow).notAbsurd]
      exact Bool.false_ne_true
  dsimp only
  rw [none, refuse_none fun row isRow =>
    (fitting.meets only reduced _ row isRow).notForeign known]
  refine (splitAll_agrees fun c member k order => ?_).bind fun children _ _ _ => .pure trivial
  exact branchConstructor_agrees builds only apart (fitting.mono order) (within_later argsIn order)
    reduced known notInterval (List.mem_filter.mp member).1

theorem branchData_agrees {before : List Column} {column : Column} {rest : List Column}
    {rows : List Row} {path : List Frame} {d : DefId} {u : Universe} {args : List Term}
    (inspects : Inspects before rows)
    (fitting : Fitting setting.env V n (column :: rest) (rows.map (·.pass before)))
    (argsIn : ∀ a ∈ args, a.Within V n) (reduced : column.2.Reduces setting.env (.data d u args)) :
    Agreeing setting n (branchData build column rest (rows.map (·.pass before)) path before
      (.data d u args) d u args) Whatever := by
  refine .read ?_
  cases known : setting.env.data? d with
  | none => exact .pure trivial
  | some data =>
      dsimp only
      have leveled : ∀ {atLevel : Option (Option Int) → Compile (Option CaseTree)},
          atLevel none = pure none → (∀ level, atLevel (some level) = branchLive build column rest
            (rows.map (·.pass before)) path before (.data d u args) data u args level) →
          data.interval = false → Agreeing setting n
            (truncationLevel (rows.map (·.pass before)) data (.data d u args) >>= atLevel)
            Whatever := by
        intro atLevel noLevel isLevel notInterval
        refine (Agreeing.still (truncationLevel_noting (fun _ _ => rfl) _ _ _)
          (truncationLevel_still _ _ _)).bind fun level m _ same => ?_
        subst same
        cases level with
        | none =>
            rw [noLevel]
            exact .pure trivial
        | some level =>
            rw [isLevel]
            exact branchLive_agrees builds only apart fitting argsIn reduced known notInterval
      split
      · refine (refuse_agrees fun p r said => ?_).bind fun refused m _ checked => ?_
        · cases said
          rfl
        · obtain ⟨rfl, passed⟩ := checked
          cases refused with
          | true => exact .pure trivial
          | false =>
              have meets := fun default (row : Row) isRow =>
                fitting.meets only reduced default (row.pass before) (List.mem_map_of_mem isRow)
              refine leveled rfl (fun _ => rfl) (inspects.not_interval
                (fun row isRow => (meets _ row isRow).notAbsurd)
                (fun row isRow => (meets _ row isRow).notForeign known) fun _ row isRow => ?_)
              exact passed rfl _ (List.mem_map_of_mem isRow)
      · rename_i notInterval
        exact leveled rfl (fun _ => rfl) (Bool.eq_false_iff.mpr notInterval)

omit apart in
theorem branchTuple_agrees {before : List Column} {column : Column} {rest : List Column}
    {rows : List Row} {path : List Frame} {params : Telescope}
    (fitting : Fitting setting.env V n (column :: rest) rows)
    (typeIn : (Term.sigma params).Within V n)
    (reduced : column.2.Reduces setting.env (.sigma params)) :
    Agreeing setting n (branchTuple build column rest rows path before (.sigma params) params)
      Whatever := by
  unfold branchTuple
  dsimp only
  rw [refuse_none, pure_bind, if_neg Bool.false_ne_true]
  · have enter := fitting.enter_tuple only typeIn reduced
    refine (Agreeing.reading fun fields m fresh => (enter fields m fresh).1).bind
      fun fields m _ fresh => ?_
    exact (split_agrees builds (enter fields m fresh).2).bind fun child _ _ _ => .pure trivial
  · intro row isRow
    have meets := fitting.meets only reduced .absurd row isRow
    cases here : row.patterns.headD .absurd with
    | binding x => rfl
    | absurd =>
        rw [here] at meets
        exact meets.elim
    | shaped shape args =>
        rw [here] at meets
        cases shape with
        | con c =>
            obtain ⟨_, _, _, _, impossible, _⟩ := meets
            cases impossible
        | tuple i =>
            obtain ⟨_, isType, rfl⟩ := meets
            cases isType
            simp

theorem branch_agrees {before : List Column} {column : Column} {rest : List Column}
    {rows : List Row} {path : List Frame} (inspects : Inspects before rows)
    (fitting : Fitting setting.env V n (before ++ column :: rest) rows) :
    Agreeing setting n (branch build before column rest rows path) Whatever := by
  have inspect := fitting.inspect inspects
  refine (Agreeing.reading fun w m reduced => (inspect w m reduced).1).bind fun w m _ run => ?_
  obtain ⟨_, within, reduced, passed⟩ := inspect w m run
  have meets := passed.meets only reduced .absurd
  split
  · exact branchData_agrees builds only apart inspects passed (Term.within_data.mp within) reduced
  · exact branchTuple_agrees builds only passed within reduced
  · rename_i notData notSigma
    have refused : refuse (rows.map (·.pass before)) (!·.isBinding) (notConstructor w) =
        pure false := by
      refine refuse_none fun row isRow => ?_
      have here := meets row isRow
      cases isHead : row.patterns.headD .absurd with
      | binding x => rfl
      | absurd =>
          rw [isHead] at here
          exact here.elim
      | shaped shape args =>
          rw [isHead] at here
          cases shape with
          | con c =>
              obtain ⟨d, u, params, _, isData, _⟩ := here
              exact (notData d u params isData).elim
          | tuple i =>
              obtain ⟨params, isSigma, _⟩ := here
              exact (notSigma params isSigma).elim
    rw [refused]
    exact .pure trivial

end Building

section Rows

variable {columns : List Column} {rows : List Row}

theorem recordMissing_still (row : List Pattern) : Still (recordMissing row) :=
  Still.read.bind fun _ => .modify _

theorem uncovered_agrees (fitting : Fitting setting.env V n columns rows) (path : List Frame) :
    Agreeing setting n (uncovered columns path) Whatever := by
  refine (Agreeing.reading fun found m search =>
    beforeEmpty_order fitting.known fitting.scope search).bind fun found m _ _ => ?_
  cases found with
  | some before => exact .pure trivial
  | none =>
      refine (Agreeing.still (recordMissing_noting _) (recordMissing_still _)).bind fun _ _ _ _ => ?_
      exact .pure trivial

theorem leaf_agrees {row : Row} (simple : row.subst.Simple) (columns : List Column) :
    Agreeing setting n (leaf columns row) Whatever := by
  have marked : Agreeing setting n (markUsed row) fun _ m => m = n :=
    .still (.modify fun _ => rfl) (.modify _)
  refine marked.bind fun _ _ _ _ => ?_
  cases row.clause.body with
  | none => exact (Agreeing.still (.fail _ rfl) (.modify _)).bind fun _ _ _ _ => .pure trivial
  | some body =>
      refine (Agreeing.reading fun result m applied => ?_).bind fun _ _ _ _ => .pure trivial
      exact Subst.apply_order (bindColumns_simple simple _ _).still applied

variable (only : setting.env.OnlyCoe) (apart : setting.env.EndsApart)
include only apart

theorem build_agrees (fuel : Nat) : (Matching.build fuel).Agrees setting := by
  induction fuel with
  | zero =>
      intro V n columns rows path fitting p x q m impossible
      cases impossible
  | succ fuel ih =>
      intro V n columns rows path fitting
      unfold Matching.build
      cases rows with
      | nil => exact uncovered_agrees fitting path
      | cons first others =>
          dsimp only
          by_cases allBinding : first.patterns.all Pattern.isBinding = true
          · rw [if_pos allBinding]
            exact leaf_agrees (fitting.simple first List.mem_cons_self) columns
          · rw [if_neg allBinding]
            obtain ⟨inColumns, inspects⟩ := splitColumn_inspects fitting.width
              ⟨first, List.mem_cons_self, by simpa using allBinding⟩
            cases left : columns.drop (splitColumn columns (first :: others)) with
            | nil => exact .pure trivial
            | cons column rest =>
                have whole := fitting
                rw [← List.take_append_drop (splitColumn columns (first :: others)) columns, left]
                  at whole
                exact branch_agrees ih only apart inspects whole

theorem buildRows_agrees (fitting : Fitting setting.env V n columns rows) :
    Agreeing setting n (buildRows columns rows) Whatever :=
  build_agrees only apart _ _ _ _ _ _ fitting

end Rows

section Root

variable {params : Telescope} {clauses : List Clause} {intervals : List Bool} {rows : List Row}

theorem partRows_agrees (intervals : List Bool) (rows : List Row) :
    Agreeing setting n (partRows intervals rows) fun parted _ => ∀ row ∈ parted.2, row ∈ rows := by
  induction rows generalizing n with
  | nil => exact .pure (List.forall_mem_nil _)
  | cons row rest ih =>
      unfold partRows
      dsimp only
      split
      · refine ih.bind fun parted _ _ inside => .pure ?_
        exact List.forall_mem_cons.mpr ⟨List.mem_cons_self, fun r isRow =>
          List.mem_cons_of_mem row (inside r isRow)⟩
      · split
        · refine (Agreeing.still (.fail _ rfl) (.modify _)).bind fun _ _ _ _ => ?_
          exact ih.weaken fun _ _ inside r isRow => List.mem_cons_of_mem row (inside r isRow)
        · exact ih.bind fun parted _ _ inside => .pure fun r isRow =>
            List.mem_cons_of_mem row (inside r isRow)

theorem failed_noting {kind : Problem → Bool} : Noting kind failed := by
  intro setting p n isFailed q m done
  cases done
  exact .same rfl

/-- The root node for the ends is given or not, and nothing is noted. -/
theorem root_noting {kind : Problem → Bool} (columns : List Column) (ends : List (Ends Term))
    (rest : Option CaseTree) : Noting kind (do
      if (← failed) || !(← get).missing.isEmpty then return none
      return some (.interval (Telescope.ofPairs columns) (ends.dropWhile Ends.isEmpty) rest) :
        Compile (Option CaseTree)) := by
  have asked : Noting kind (get : Compile Progress) := by
    intro setting p n r q m done
    cases done
    exact .same rfl
  refine failed_noting.bind fun _ => asked.bind fun _ => ?_
  split <;> exact .pure _

theorem fillEnds_agrees (columns : List Column) (first : Nat) (rows : List EndRow)
    (ends : List (Ends Term)) : Agreeing setting n (fillEnds columns first rows ends) Whatever := by
  induction rows generalizing n ends with
  | nil => exact .pure trivial
  | cons e rest ih =>
      unfold fillEnds
      refine .read ?_
      dsimp only
      split
      · split
        · exact ih _
        · split
          · exact (Agreeing.still (.fail _ rfl) (.modify _)).bind fun _ _ _ _ => ih _
          · refine (Agreeing.reading fun body m applied => ?_).bind fun body m _ _ => ?_
            · exact Subst.apply_order (renameRow_simple _ _).still applied
            · have marked : Agreeing setting m (markUsed e.row) fun _ k => k = m :=
                .still (.modify fun _ => rfl) (.modify _)
              exact marked.bind fun _ _ _ _ => ih _
      · exact ih _

variable (only : setting.env.OnlyCoe) (apart : setting.env.EndsApart) (known : setting.env.Within V n)
  (scope : InScope V n (columnsOf params))
include only apart known scope

theorem buildInterval_agrees {p q : Progress} {tree : Option CaseTree} (order : n ≤ k)
    (simple : RowsSimple rows) (typed : ∀ row ∈ rows, WellTyped setting.env params row.patterns)
    (done : buildInterval (columnsOf params) intervals rows setting p k = .ok ((tree, q), m)) :
    p.Onward Problem.ofMisfit q := by
  unfold buildInterval at done
  obtain ⟨⟨ends, others⟩, p₁, i, parted, matched⟩ := compile_bind done
  obtain ⟨parting, later, inside⟩ := partRows_agrees intervals rows _ _ _ _ parted
  dsimp only at matched inside
  cases least : (ends.map EndRow.column).min? with
  | none =>
      rw [least] at matched
      cases compile_pure matched
      exact parting
  | some first =>
      rw [least] at matched
      obtain ⟨_, p₂, j, refused, gated⟩ := compile_bind matched
      have refusing : p₁.Onward Problem.ofMisfit p₂ :=
        refuseAfter_noting (fun _ => rfl) _ _ _ _ _ _ _ _ refused
      obtain rfl : j = i := refuseAfter_still _ _ _ _ _ _ refused
      have soFar := parting.trans refusing
      obtain ⟨isFailed, p₃, _, ask, going⟩ := compile_bind gated
      cases isFailed with
      | true =>
          obtain ⟨rfl, rfl, _⟩ := failed_true ask
          cases compile_pure going
          exact soFar
      | false =>
          obtain ⟨rfl, rfl, _⟩ := failed_false ask
          rw [if_neg Bool.false_ne_true] at going
          obtain ⟨filled, p₄, l, filling, left⟩ := compile_bind going
          obtain ⟨fills, filledOrder, _⟩ := fillEnds_agrees _ _ _ _ _ _ _ _ filling
          refine soFar.trans (fills.trans ?_)
          split at left
          · -- no clause is left for the arguments that are no ends
            have rooting : ∀ rest, Noting Problem.ofMisfit _ := root_noting (columnsOf params) filled
            split at left
            · exact ((missingEnds_noting _ _ _).bind fun _ => (Noting.pure none).bind rooting)
                _ _ _ _ _ _ left
            · exact ((Noting.pure none).bind rooting) _ _ _ _ _ _ left
          · obtain ⟨fresh, _, l', copied, built⟩ := compile_bind left
            obtain ⟨_, _, freshened, same⟩ := compile_reading copied
            cases same
            obtain ⟨rest, p₅, _, rest, last⟩ := compile_bind built
            have low : n ≤ l := order.trans (later.trans filledOrder)
            obtain ⟨_, fitting⟩ := WellTyped.root_fresh (known.mono low) (scope.mono low)
              (fun row isRow => simple row (inside row isRow))
              (fun row isRow => typed row (inside row isRow)) freshened
            obtain ⟨building, _⟩ := buildRows_agrees only apart fitting _ _ _ _ rest
            exact building.trans (root_noting _ _ _ _ _ _ _ _ _ last)

theorem clausesTree_agrees {p q : Progress} {tree : Option CaseTree} (distinct : params.vars.Nodup)
    (typed : ∀ c ∈ clauses, WellTyped setting.env params c.patterns)
    (done : clausesTree params clauses setting p n = .ok ((tree, q), m)) :
    p.Onward Problem.ofMisfit q := by
  have everywhere := known.widen (W := fun _ => True) fun _ _ => trivial
  have types : ∀ b ∈ params, b.type.Within (fun _ => True) n := fun b isParam =>
    ⟨(scope.column (b.var, b.type) (List.mem_map_of_mem isParam)).2, fun _ _ => trivial⟩
  have simple : RowsSimple (numbered clauses) := by
    intro row member
    obtain ⟨_, _, _, _, empty⟩ := mem_numbered member
    rw [empty]
    exact ⟨rfl, rfl⟩
  have rows : ∀ row ∈ numbered clauses, WellTyped setting.env params row.patterns := by
    intro row member
    obtain ⟨c, isClause, _, patterns, _⟩ := mem_numbered member
    rw [patterns]
    exact typed c isClause
  unfold clausesTree at done
  obtain ⟨_, _, _, ask, next⟩ := compile_bind done
  cases ask
  obtain ⟨intervals, _, k, asked, matched⟩ := compile_bind next
  obtain rfl := isIntervals_run asked
  obtain ⟨order, _⟩ := isIntervals_answers everywhere types asked
  cases found : intervalPattern? intervals clauses with
  | none =>
      rw [found] at matched
      have fitting := WellTyped.root (known.mono order) (scope.mono order) distinct simple rows
      exact (buildRows_agrees only apart fitting _ _ _ _ matched).1
  | some entry =>
      rw [found] at matched
      dsimp only at matched
      split at matched
      · exact ((Noting.fail _ rfl).bind fun _ => Noting.pure _) _ _ _ _ _ _ matched
      · exact buildInterval_agrees only apart known scope order simple rows matched

omit only apart known scope in
/-- Nothing is wrong with the number of patterns of typed clauses. -/
theorem checkArity_noting_of_width (width : ∀ c ∈ clauses, c.patterns.length = params.length) :
    Noting Problem.ofMisfit (checkArity params.length clauses) := by
  induction clauses with
  | nil => exact .pure _
  | cons c clauses ih =>
      obtain ⟨here, later⟩ := List.forall_mem_cons.mp width
      refine .bind ?_ fun _ => ih later
      dsimp only
      rw [if_neg here.not_lt, if_neg here.not_gt]
      exact .pure _

omit only apart known scope in
theorem redundant_other (used : List Nat) (clauses : List (Clause × Nat)) :
    ∀ d ∈ redundant used clauses, d.problem.ofMisfit = false := by
  intro d member
  obtain ⟨c, _, rfl⟩ := List.mem_map.mp member
  rfl

/-- **The compiler finds no misfit among typed clauses.** -/
theorem compile_agrees {span : Span} {outcome : Outcome} (distinct : params.vars.Nodup)
    (typed : ∀ c ∈ clauses, WellTyped setting.env params c.patterns)
    (done : compile setting span params clauses n = .ok (outcome, m)) :
    ∀ d ∈ outcome.diagnostics, d.problem.ofMisfit = false := by
  obtain ⟨⟨tree, q⟩, _, ran, final⟩ := fresh_bind done
  cases fresh_pure final
  have onward : Progress.start.Onward Problem.ofMisfit q := by
    unfold compileClauses at ran
    obtain ⟨_, p₁, _, arity, gated⟩ := compile_bind ran
    have checking : Progress.start.Onward Problem.ofMisfit p₁ :=
      checkArity_noting_of_width (fun c isClause => (typed c isClause).length) _ _ _ _ _ _ arity
    obtain ⟨isFailed, _, _, ask, rest⟩ := compile_bind gated
    cases isFailed with
    | true =>
        obtain ⟨rfl, rfl, _⟩ := failed_true ask
        cases compile_pure rest
        exact checking
    | false =>
        obtain ⟨rfl, rfl, silent⟩ := failed_false ask
        obtain ⟨_, rfl, _⟩ := checkArity_silent clauses arity silent
        rw [if_neg Bool.false_ne_true] at rest
        obtain ⟨found, p₂, _, treed, next⟩ := compile_bind rest
        obtain ⟨_, _, _, ask, next⟩ := compile_bind next
        cases ask
        have building := clausesTree_agrees only apart known scope distinct typed treed
        obtain ⟨_, _, same⟩ := coverage_run next
        refine checking.trans (building.trans ⟨_, same.trans (List.append_assoc _ _ _), ?_⟩)
        refine List.forall_mem_append.mpr ⟨?_, ?_⟩ <;> split
        · exact List.forall_mem_nil _
        · exact List.forall_mem_singleton.mpr rfl
        · exact redundant_other _ _
        · exact List.forall_mem_nil _
  obtain ⟨noted, same, other⟩ := onward
  rw [same]
  exact other

end Root

end Matching

end PathTheory
