import PathTheory.Proofs.Matching.Noted
import PathTheory.Proofs.Matching.Nodes
/-!
What the compiler sees of the rows. Where it notes nothing, whether it gives a tree or not, its way
through the columns stands in a relation to the numbers of the rows that it has led to and to the
examples that no row is left for. Examples are kept as patterns for the columns at a node; the
frames on the path make patterns for the columns at the root of them.
-/
namespace PathTheory.Matching

variable {setting : Setting} {p q r : Progress} {n m : Nat}

/-- Patterns for the columns below a shape as patterns for the columns at the node. -/
def Frame.wrap (frame : Frame) (row : List Pattern) : List Pattern :=
  frame.before.map .binding ++ .shaped frame.shape (row.take frame.arity) :: row.drop frame.arity

mutual

/-- Columns and rows, with the numbers of the rows that are led to and the examples that no row is
    left for; the counter goes from the first number to the last. -/
inductive Explored (env : Environment) :
    Nat → List Column → List Row → List Nat → List (List Pattern) → Nat → Prop
  | leaf {n m : Nat} {columns : List Column} {row : Row} {others : List Row} {body result : Term} :
      row.patterns.all Pattern.isBinding = true →
      (bindColumns row.subst row.patterns columns).apply env body n = .ok (result, m) →
      Explored env n columns (row :: others) [row.number] [] m
  | empty {n m : Nat} {columns before : List Column} :
      beforeEmpty env columns n = .ok (some before, m) → Explored env n columns [] [] [] m
  | missing {n m : Nat} {columns : List Column} : beforeEmpty env columns n = .ok (none, m) →
      Explored env n columns [] [] [columns.map fun c => .binding c.1] m
  -- types of data that is not there have no values
  | unknown {n m : Nat} {before rest : List Column} {column : Column} {rows : List Row} {d : DefId}
      {u : Universe} {args : List Term} :
      Inspects before rows → column.2.whnf env n = .ok (.data d u args, m) → env.data? d = none →
      Explored env n (before ++ column :: rest) rows [] [] m
  | absurd {n m : Nat} {before rest : List Column} {column : Column} {rows : List Row} {row : Row}
      {d : DefId} {u : Universe} {args : List Term} {data : DataDef} :
      Inspects before rows → column.2.whnf env n = .ok (.data d u args, m) →
      env.data? d = some data → (data.truncated = false → data.constructors = []) → row ∈ rows →
      Explored env n (before ++ column :: rest) rows [row.number] [] m
  | data {n m k : Nat} {before rest : List Column} {column : Column} {rows : List Row} {d : DefId}
      {u : Universe} {args : List Term} {data : DataDef} {live : List DefId} {used : List Nat}
      {examples : List (List Pattern)} :
      Inspects before rows → column.2.whnf env n = .ok (.data d u args, m) →
      env.data? d = some data → (data.truncated = false → live = data.constructors) →
      ExploredAll env data u args (before.map Prod.fst) column rest (rows.map (·.pass before)) m
        live used examples k →
      Explored env n (before ++ column :: rest) rows used examples k
  | tuple {n m k l i : Nat} {before rest columns fields : List Column} {column : Column}
      {rows inner : List Row} {params : Telescope} {used : List Nat}
      {examples : List (List Pattern)} :
      Inspects before rows → column.2.whnf env n = .ok (.sigma params, m) →
      freshen env .empty (columnsOf params) m = .ok (fields, k) →
      Enters env column rest (rows.map (·.pass before)) (.tuple params.length)
        (tupleValue (.sigma params) fields) fields k columns inner l →
      Explored env l columns inner used examples i →
      Explored env n (before ++ column :: rest) rows used
        (examples.map (Frame.wrap ⟨before.map Prod.fst, .tuple params.length, fields.length⟩)) i

/-- The same below each constructor that is defined. -/
inductive ExploredAll (env : Environment) : DataDef → Universe → List Term → List Var → Column →
    List Column → List Row → Nat → List DefId → List Nat → List (List Pattern) → Nat → Prop
  | nil {data : DataDef} {u : Universe} {args : List Term} {before : List Var} {column : Column}
      {rest : List Column} {rows : List Row} {n : Nat} :
      ExploredAll env data u args before column rest rows n [] [] [] n
  | skip {data : DataDef} {u : Universe} {args : List Term} {before : List Var} {column : Column}
      {rest : List Column} {rows : List Row} {n m : Nat} {c : DefId} {others : List DefId}
      {used : List Nat} {examples : List (List Pattern)} : env.constructor? c = none →
      ExploredAll env data u args before column rest rows n others used examples m →
      ExploredAll env data u args before column rest rows n (c :: others) used examples m
  | child {data : DataDef} {u : Universe} {args : List Term} {before : List Var} {column : Column}
      {rest : List Column} {rows inner : List Row} {n m k l i : Nat} {c : DefId}
      {con : ConstructorDef} {others : List DefId} {fields columns : List Column}
      {used used' : List Nat} {examples examples' : List (List Pattern)} :
      env.constructor? c = some con →
      freshen env ((Subst.instantiate data.params args).addStd u) (columnsOf con.params) n =
        .ok (fields, m) →
      Enters env column rest rows (.con c) (conValue c u args fields) fields m columns inner k →
      Explored env k columns inner used examples l →
      ExploredAll env data u args before column rest rows l others used' examples' i →
      ExploredAll env data u args before column rest rows n (c :: others) (used' ++ used)
        (examples.map (Frame.wrap ⟨before, .con c, fields.length⟩) ++ examples') i

end

section Exploring

/-- An example is added to those that are listed, unless there is no room for it. -/
def listed (limit : Nat) (p : List String × Bool) (text : String) : List String × Bool :=
  if p.1.length ≥ limit then (p.1, true) else (p.1 ++ [text], p.2)

/-- What is listed, and whether the list is cut short. -/
def Progress.listing (p : Progress) : List String × Bool := (p.missing, p.missingTruncated)

/-- Rows are marked and examples are listed. -/
structure Explores (limit : Nat) (path : List Frame) (p q : Progress) (used : List Nat)
    (examples : List (List Pattern)) : Prop where
  used : q.used = used ++ p.used
  listing : q.listing =
    (examples.map fun e => Pattern.rowText (rebuild path e)).foldl (listed limit) p.listing

namespace Explores

variable {limit : Nat} {path : List Frame} {used used' : List Nat}
  {examples examples' : List (List Pattern)}

theorem aside (used : q.used = p.used) (listing : q.listing = p.listing) :
    Explores limit path p q [] [] := ⟨used, listing⟩

theorem trans (first : Explores limit path p q used examples)
    (next : Explores limit path q r used' examples') :
    Explores limit path p r (used' ++ used) (examples ++ examples') where
  used := by rw [next.used, first.used, List.append_assoc]
  listing := by rw [next.listing, first.listing, List.map_append, List.foldl_append]

theorem wrap {frame : Frame} (inner : Explores limit (frame :: path) p q used examples) :
    Explores limit path p q used (examples.map frame.wrap) where
  used := inner.used
  listing := by
    rw [inner.listing, List.map_map]
    rfl

end Explores

/-- What is asked of the function that goes on below a shape. -/
def Build.Explores (build : Build) (setting : Setting) : Prop :=
  (∀ columns rows path, Noting Problem.ofCoverage (build columns rows path)) ∧
    ∀ columns rows path p n tree q m, (∀ row ∈ rows, row.patterns.length = columns.length) →
      build columns rows path setting p n = .ok ((tree, q), m) → q.diagnostics = p.diagnostics →
      ∃ used examples, Explored setting.env n columns rows used examples m ∧
        Matching.Explores setting.config.missingLimit path p q used examples

variable {build : Build} {path : List Frame} {column : Column} {before rest : List Column}
  {rows : List Row}

theorem split_explores (explores : build.Explores setting) {shape : Shape} {value : Term}
    {fields : List Column} {before : List Var} {tree : Option CaseTree}
    (done : split build column rest rows path before shape value fields setting p n =
      .ok ((tree, q), m)) (silent : q.diagnostics = p.diagnostics) :
    ∃ columns inner k used examples,
      Enters setting.env column rest rows shape value fields n columns inner k ∧
      Explored setting.env k columns inner used examples m ∧
      Explores setting.config.missingLimit (⟨before, shape, fields.length⟩ :: path) p q used
        examples := by
  unfold split at done
  obtain ⟨others, _, k, replaced, next⟩ := compile_bind done
  obtain ⟨_, _, types, same⟩ := compile_reading replaced
  cases same
  dsimp only at next
  cases misfit : (rows.filterMap (·.enter shape value fields)).find?
      (·.patterns.length ≠ (fields ++ others).length) with
  | some row =>
      rw [misfit] at next
      exact (fail_loud next silent).elim
  | none =>
      rw [misfit] at next
      have width : ∀ row ∈ rows.filterMap (·.enter shape value fields),
          row.patterns.length = (fields ++ others).length := by
        intro row member
        simpa using List.find?_eq_none.mp misfit row member
      obtain ⟨used, examples, explored, result⟩ := explores.2 _ _ _ _ _ _ _ _ width next silent
      exact ⟨_, _, k, used, examples, ⟨⟨others, types, rfl⟩, rfl, width⟩, explored, result⟩

theorem splitAll_explores (explores : build.Explores setting) {before : List Var} {data : DataDef}
    {u : Universe} {args : List Term} {live : List DefId}
    {children : Option (List (Shape × CaseTree))}
    (done : splitAll (branchConstructor build column rest rows path before data u args) live setting
      p n = .ok ((children, q), m)) (silent : q.diagnostics = p.diagnostics) :
    ∃ used examples,
      ExploredAll setting.env data u args before column rest rows n live used examples m ∧
      Explores setting.config.missingLimit path p q used examples := by
  induction live generalizing p n children with
  | nil =>
      cases compile_pure done
      exact ⟨[], [], .nil, .aside rfl rfl⟩
  | cons c live ih =>
      unfold splitAll at done
      obtain ⟨first, p₁, k, here, next⟩ := compile_bind done
      obtain ⟨others, p₂, l, later, final⟩ := compile_bind next
      obtain ⟨rfl, rfl⟩ : q = p₂ ∧ m = l := by
        cases first <;> cases compile_pure final <;> exact ⟨rfl, rfl⟩
      have each := branchConstructor_noting explores.1 column rest rows path before data u args
      obtain ⟨silentHere, silentLater⟩ := (each c _ _ _ _ _ _ here).silent
        (splitAll_noting each live _ _ _ _ _ _ later) silent
      obtain ⟨used', examples', after, listedAfter⟩ := ih later silentLater
      unfold branchConstructor at here
      obtain ⟨_, _, _, ask, here⟩ := compile_bind here
      cases ask
      cases known : setting.env.constructor? c with
      | none =>
          simp only [known] at here
          cases compile_pure here
          exact ⟨used', examples', .skip known after, listedAfter⟩
      | some con =>
          simp only [known] at here
          obtain ⟨fields, _, i, renamed, here⟩ := compile_bind here
          obtain ⟨_, _, fresh, same⟩ := compile_reading renamed
          cases same
          obtain ⟨child, p₃, _, built, here⟩ := compile_bind here
          cases compile_pure here
          obtain ⟨columns, inner, j, used, examples, enters, explored, listedHere⟩ :=
            split_explores explores built silentHere
          exact ⟨_, _, .child known fresh enters explored after, listedHere.wrap.trans listedAfter⟩

theorem branchLive_explores (explores : build.Explores setting) {d : DefId} {u : Universe}
    {type : Term} {args : List Term} {data : DataDef} {level : Option Int} {k : Nat}
    {tree : Option CaseTree} (inspects : Inspects before rows)
    (reduced : column.2.whnf setting.env n = .ok (.data d u args, m))
    (known : setting.env.data? d = some data) (all : data.truncated = false → level = none)
    (done : branchLive build column rest (rows.map (·.pass before)) path before type data u args
      level setting p m = .ok ((tree, q), k)) (silent : q.diagnostics = p.diagnostics) :
    ∃ used examples,
      Explored setting.env n (before ++ column :: rest) rows used examples k ∧
      Explores setting.config.missingLimit path p q used examples := by
  have complete : data.truncated = false → live setting.env data level = data.constructors := by
    intro untruncated
    rw [all untruncated, live_none]
  unfold branchLive at done
  obtain ⟨_, _, _, ask, next⟩ := compile_bind done
  cases ask
  dsimp only at next
  cases absurd : (rows.map (·.pass before)).find? fun r =>
      isAbsurd (r.patterns.headD (.ofTuple [])) with
  | some row =>
      rw [absurd] at next
      dsimp only at next
      split at next
      · rename_i isEmpty
        obtain ⟨_, _, _, mark, final⟩ := compile_bind next
        cases mark
        cases compile_pure final
        obtain ⟨original, isRow, rfl⟩ := List.mem_map.mp (List.mem_of_find?_eq_some absurd)
        refine ⟨[original.number], [], .absurd inspects reduced known (fun untruncated => ?_) isRow,
          rfl, rfl⟩
        rw [← complete untruncated]
        exact List.isEmpty_iff.mp isEmpty
      · obtain ⟨_, _, _, said, rest⟩ := compile_bind next
        obtain ⟨_, _, same⟩ := compile_lift said
        cases same
        exact (fail_loud rest silent).elim
  | none =>
      rw [absurd] at next
      obtain ⟨children, _, _, built, final⟩ := compile_bind (refuse_then next silent)
      cases compile_pure final
      obtain ⟨used, examples, after, listed⟩ := splitAll_explores explores built silent
      exact ⟨used, examples, .data inspects reduced known complete after, listed⟩

theorem branchData_explores (explores : build.Explores setting) {d : DefId} {u : Universe}
    {type : Term} {args : List Term} {k : Nat} {tree : Option CaseTree}
    (inspects : Inspects before rows)
    (reduced : column.2.whnf setting.env n = .ok (.data d u args, m))
    (done : branchData build column rest (rows.map (·.pass before)) path before type d u args
      setting p m = .ok ((tree, q), k)) (silent : q.diagnostics = p.diagnostics) :
    ∃ used examples,
      Explored setting.env n (before ++ column :: rest) rows used examples k ∧
      Explores setting.config.missingLimit path p q used examples := by
  unfold branchData at done
  obtain ⟨_, _, _, ask, next⟩ := compile_bind done
  cases ask
  cases known : setting.env.data? d with
  | none =>
      rw [known] at next
      cases compile_pure next
      exact ⟨[], [], .unknown inspects reduced known, .aside rfl rfl⟩
  | some data =>
      rw [known] at next
      dsimp only at next
      have leveled : ∀ {atLevel : Option (Option Int) → Compile (Option CaseTree)},
          atLevel none = pure none → (∀ level, atLevel (some level) = branchLive build column rest
            (rows.map (·.pass before)) path before type data u args level) →
          (truncationLevel (rows.map (·.pass before)) data type >>= atLevel) setting p m =
              .ok ((tree, q), k) →
          ∃ used examples,
            Explored setting.env n (before ++ column :: rest) rows used examples k ∧
            Explores setting.config.missingLimit path p q used examples := by
        intro atLevel noLevel isLevel run
        obtain ⟨level, p₁, m', bounded, live⟩ := compile_bind run
        have still : m' = m := truncationLevel_still _ _ _ _ _ _ _ bounded
        subst still
        have rising : p.Onward Problem.ofCoverage p₁ :=
          truncationLevel_noting (fun _ _ => rfl) _ _ _ _ _ _ _ _ _ bounded
        have going : p₁.Onward Problem.ofCoverage q := by
          cases level with
          | none =>
              rw [noLevel] at live
              cases compile_pure live
              exact .same rfl
          | some level =>
              rw [isLevel] at live
              exact branchLive_noting explores.1 _ _ _ _ _ _ _ _ _ _ _ _ _ _ _ _ live
        obtain ⟨silentHere, silentLive⟩ := rising.silent going silent
        obtain ⟨isSome, demands, rfl⟩ := truncationLevel_silent bounded silentHere
        cases level with
        | none => cases isSome
        | some level =>
            rw [isLevel] at live
            obtain ⟨used, examples, explored, result⟩ := branchLive_explores explores inspects
              reduced known (fun untruncated => truncationLevel_untruncated untruncated bounded) live
              silentLive
            exact ⟨used, examples, explored, result.used, result.listing⟩
      split at next
      · exact leveled rfl (fun _ => rfl) (refuse_then next silent)
      · exact leveled rfl (fun _ => rfl) next

theorem branchTuple_explores (explores : build.Explores setting) {params : Telescope} {k : Nat}
    {tree : Option CaseTree} (inspects : Inspects before rows)
    (reduced : column.2.whnf setting.env n = .ok (.sigma params, m))
    (done : branchTuple build column rest (rows.map (·.pass before)) path before (.sigma params)
      params setting p m = .ok ((tree, q), k)) (silent : q.diagnostics = p.diagnostics) :
    ∃ used examples,
      Explored setting.env n (before ++ column :: rest) rows used examples k ∧
      Explores setting.config.missingLimit path p q used examples := by
  unfold branchTuple at done
  obtain ⟨fields, _, l, renamed, entered⟩ := compile_bind (refuse_then done silent)
  obtain ⟨_, _, fresh, same⟩ := compile_reading renamed
  cases same
  obtain ⟨child, _, _, built, final⟩ := compile_bind entered
  cases compile_pure final
  obtain ⟨columns, inner, i, used, examples, enters, explored, result⟩ :=
    split_explores explores built silent
  exact ⟨used, _, .tuple inspects reduced fresh enters explored, result.wrap⟩

theorem branch_explores (explores : build.Explores setting) {k : Nat} {tree : Option CaseTree}
    (inspects : Inspects before rows)
    (done : branch build before column rest rows path setting p n = .ok ((tree, q), k))
    (silent : q.diagnostics = p.diagnostics) :
    ∃ used examples,
      Explored setting.env n (before ++ column :: rest) rows used examples k ∧
      Explores setting.config.missingLimit path p q used examples := by
  unfold branch at done
  obtain ⟨type, _, m, reading, next⟩ := compile_bind done
  obtain ⟨_, _, reduced, same⟩ := compile_reading reading
  cases same
  split at next
  · exact branchData_explores explores inspects reduced next silent
  · exact branchTuple_explores explores inspects reduced next silent
  · -- the row that takes the column apart is turned down
    obtain ⟨_, _, _, checked, final⟩ := compile_bind next
    cases compile_pure final
    obtain ⟨_, _, _, allBinding⟩ := refuse_silent checked silent
    obtain ⟨row, isRow, pattern, stands, notBinding⟩ := inspects.apart
    have binding := allBinding (row.pass before) (List.mem_map_of_mem isRow)
    rw [Row.pass, List.headD_eq_head?_getD, List.head?_drop, stands, Option.getD_some,
      notBinding] at binding
    cases binding

theorem uncovered_explores {columns : List Column} {tree : Option CaseTree}
    (done : uncovered columns path setting p n = .ok ((tree, q), m)) :
    ∃ examples, Explored setting.env n columns [] [] examples m ∧
      Explores setting.config.missingLimit path p q [] examples := by
  obtain ⟨found, _, _, search, next⟩ := compile_bind done
  obtain ⟨_, _, reached, same⟩ := compile_reading search
  cases same
  cases found with
  | some before =>
      cases compile_pure next
      exact ⟨[], .empty reached, .aside rfl rfl⟩
  | none =>
      obtain ⟨_, _, _, recorded, final⟩ := compile_bind next
      cases compile_pure final
      cases recorded
      refine ⟨_, .missing reached, ?_, ?_⟩ <;> dsimp only [listed, Progress.listing, List.map, List.foldl]
      · split <;> rfl
      · split <;> rfl

theorem build_explores (fuel : Nat) : Build.Explores (Matching.build fuel) setting := by
  induction fuel with
  | zero =>
      refine ⟨build_noting 0, fun columns rows path p n tree q m width done => ?_⟩
      cases done
  | succ fuel ih =>
      refine ⟨build_noting (fuel + 1), fun columns rows path p n tree q m width done silent => ?_⟩
      unfold Matching.build at done
      cases rows with
      | nil =>
          obtain ⟨examples, explored, result⟩ := uncovered_explores done
          exact ⟨[], examples, explored, result⟩
      | cons first others =>
          dsimp only at done
          by_cases allBinding : first.patterns.all Pattern.isBinding = true
          · rw [if_pos allBinding] at done
            obtain ⟨_, _, _, mark, next⟩ := compile_bind done
            cases mark
            cases isBody : first.clause.body with
            | none =>
                rw [isBody] at next
                exact (fail_loud next silent).elim
            | some body =>
                rw [isBody] at next
                obtain ⟨result, _, _, applied, final⟩ := compile_bind next
                obtain ⟨_, _, substituted, same⟩ := compile_reading applied
                cases same
                cases compile_pure final
                exact ⟨[first.number], [], .leaf allBinding substituted, rfl, rfl⟩
          · rw [if_neg allBinding] at done
            obtain ⟨inColumns, inspects⟩ := splitColumn_inspects width
              ⟨first, List.mem_cons_self, by simpa using allBinding⟩
            cases left : columns.drop (splitColumn columns (first :: others)) with
            | nil =>
                rw [List.drop_eq_nil_iff] at left
                omega
            | cons column rest =>
                rw [left] at done
                have explored := branch_explores ih inspects done silent
                rwa [← left, List.take_append_drop] at explored

end Exploring

section Clauses

theorem isInterval_run {type : Term} {r : Bool}
    (done : isInterval type setting p n = .ok ((r, q), m)) : q = p := by
  obtain ⟨_, _, _, ask, next⟩ := compile_bind done
  cases ask
  obtain ⟨t, _, _, reading, final⟩ := compile_bind next
  obtain ⟨_, _, _, same⟩ := compile_reading reading
  cases same
  cases t <;> cases compile_pure final <;> rfl

theorem isIntervals_run {columns : List Column} {rs : List Bool}
    (done : columns.mapM (fun c => isInterval c.2) setting p n = .ok ((rs, q), m)) : q = p := by
  induction columns generalizing p n rs with
  | nil =>
      rw [List.mapM_nil] at done
      cases compile_pure done
      rfl
  | cons c rest ih =>
      rw [List.mapM_cons] at done
      obtain ⟨_, _, _, first, next⟩ := compile_bind done
      obtain ⟨_, _, _, later, final⟩ := compile_bind next
      cases compile_pure final
      exact (ih later).trans (isInterval_run first)

/-- Without interval patterns, the rows of the clauses are split over the columns of the
    parameters. -/
theorem clausesTree_rows {params : Telescope} {clauses : List Clause} {V : Var → Prop}
    {tree : Option CaseTree} (known : setting.env.Within V n)
    (types : ∀ b ∈ params, b.type.Within V n)
    (noInterval : NoIntervalPattern setting.env params clauses)
    (done : clausesTree params clauses setting p n = .ok ((tree, q), m)) :
    ∃ k, n ≤ k ∧
      buildRows (columnsOf params) (numbered clauses) setting p k = .ok ((tree, q), m) := by
  unfold clausesTree at done
  obtain ⟨_, _, _, ask, next⟩ := compile_bind done
  cases ask
  obtain ⟨intervals, _, k, asked, rows⟩ := compile_bind next
  obtain rfl := isIntervals_run asked
  obtain ⟨order, answers⟩ := isIntervals_answers known types asked
  rw [intervalPattern?_none noInterval answers] at rows
  exact ⟨k, order, rows⟩

/-- The warnings for the clauses that are not used. -/
def redundant (used : List Nat) (clauses : List (Clause × Nat)) : List Diagnostic :=
  (clauses.filter fun c => !used.contains c.2).map fun c =>
    ⟨c.1.span, .redundantClause (Pattern.rowText c.1.patterns)⟩

/-- Whoever is not used is warned of, and nothing else changes. -/
theorem reportRedundant_ok (clauses : List Clause) :
    reportRedundant clauses setting p n = .ok (((), { p with
      diagnostics := p.diagnostics ++ redundant p.used clauses.zipIdx }), n) := by
  have loop : ∀ (used : List Nat) (l : List (Clause × Nat)) (p : Progress),
      (l.forM fun entry => do
        if !used.contains entry.2 then
          fail entry.1.span (.redundantClause (Pattern.rowText entry.1.patterns)) : Compile PUnit)
        setting p n =
          .ok ((⟨⟩, { p with diagnostics := p.diagnostics ++ redundant used l }), n) := by
    intro used l
    induction l with
    | nil =>
        intro p
        rw [redundant, List.filter_nil, List.map_nil, List.append_nil]
        rfl
    | cons entry rest ih =>
        intro p
        unfold redundant at ih ⊢
        rw [List.forM_eq_forM, List.forM_cons, List.filter_cons]
        by_cases unused : (!used.contains entry.2) = true
        · rw [if_pos unused, if_pos unused, List.map_cons, List.append_cons]
          exact compile_then rfl (ih _)
        · rw [if_neg unused, if_neg unused]
          exact compile_then rfl (ih _)
  exact compile_then rfl (loop p.used clauses.zipIdx p)

theorem listed_foldl (limit : Nat) (texts : List String) : ∀ (before : List String) (cut : Bool),
    before.length ≤ limit → texts.foldl (listed limit) (before, cut) =
      (before ++ texts.take (limit - before.length),
        cut || decide (limit < before.length + texts.length)) := by
  induction texts with
  | nil =>
      intro before cut room
      simp [Nat.not_lt.mpr room]
  | cons text texts ih =>
      intro before cut room
      rw [List.foldl_cons]
      by_cases full : before.length ≥ limit
      · rw [show listed limit (before, cut) text = (before, true) from if_pos full, ih _ _ room]
        simp [show limit - before.length = 0 by omega, show limit < before.length + (texts.length + 1)
          by omega]
      · rw [show listed limit (before, cut) text = (before ++ [text], cut) from if_neg full,
          ih _ _ (by simp; omega)]
        rw [show limit - before.length = limit - (before ++ [text]).length + 1 by simp; omega,
          List.take_succ_cons, List.append_assoc, List.singleton_append]
        simp [Nat.add_assoc, Nat.add_comm 1]

/-- The missing clauses that are reported: not more examples than the limit allows. -/
def missingReport (limit : Nat) (span : Span) (examples : List (List Pattern)) : List Diagnostic :=
  if (examples.take limit).isEmpty then [] else
    [⟨span, .missingClauses ((examples.take limit).map Pattern.rowText)
      (decide (limit < examples.length))⟩]

/-- What there is to say about coverage, if nothing else is wrong. -/
structure Surveyed (setting : Setting) (span : Span) (params : Telescope) (clauses : List Clause)
    (n : Nat) (outcome : Outcome) (used : List Nat) (examples : List (List Pattern)) (k m : Nat) :
    Prop where
  order : n ≤ k
  width : ∀ c ∈ clauses, c.patterns.length = params.length
  explored : Explored setting.env k (columnsOf params) (numbered clauses) used examples m
  tree : outcome.tree.isSome = true → examples.take setting.config.missingLimit = []
  diagnostics : outcome.diagnostics = missingReport setting.config.missingLimit span examples ++
    if outcome.tree.isSome && setting.config.reportRedundant then redundant used clauses.zipIdx
    else []

theorem checkArity_noting (arity : Nat) (clauses : List Clause) :
    Noting Problem.ofCoverage (checkArity arity clauses) := by
  induction clauses with
  | nil => exact .pure _
  | cons c clauses ih =>
      refine .bind ?_ fun _ => ih
      dsimp only
      split
      · exact .fail _ rfl
      · split
        · exact .fail _ rfl
        · exact .pure _

theorem checkArity_aside {arity : Nat} {clauses : List Clause} {x : Unit}
    (done : checkArity arity clauses setting p n = .ok ((x, q), m)) :
    q.used = p.used ∧ q.listing = p.listing := by
  induction clauses generalizing p n with
  | nil =>
      cases done
      exact ⟨rfl, rfl⟩
  | cons c clauses ih =>
      obtain ⟨_, p₁, k, first, rest⟩ := compile_bind done
      obtain ⟨used, listing⟩ := ih rest
      dsimp only at first
      split at first
      · cases first
        exact ⟨used, listing⟩
      · split at first <;> cases first <;> exact ⟨used, listing⟩

/-- A tree is given where nothing is noted so far; then the clauses that are not used are. -/
theorem unlessFailed_run {clauses : List Clause} {found tree : Option CaseTree}
    (done : unlessFailed clauses found setting p n = .ok ((tree, q), m)) :
    m = n ∧ (tree.isSome = true → p.diagnostics = []) ∧ q.diagnostics = p.diagnostics ++
      if tree.isSome && setting.config.reportRedundant then redundant p.used clauses.zipIdx
      else [] := by
  obtain ⟨isFailed, _, _, ask, next⟩ := compile_bind done
  cases isFailed with
  | true =>
      obtain ⟨rfl, rfl, _⟩ := failed_true ask
      cases compile_pure next
      exact ⟨rfl, nofun, (List.append_nil _).symm⟩
  | false =>
      obtain ⟨rfl, rfl, silent⟩ := failed_false ask
      cases found with
      | none =>
          cases compile_pure next
          exact ⟨rfl, nofun, (List.append_nil _).symm⟩
      | some t =>
          obtain ⟨_, _, _, asked, next⟩ := compile_bind next
          cases asked
          split at next
          · rename_i reports
            obtain ⟨_, _, _, reported, final⟩ := compile_bind next
            cases compile_pure final
            cases (reportRedundant_ok clauses).symm.trans reported
            exact ⟨rfl, fun _ => silent, by simp [reports]⟩
          · rename_i silentReport
            cases compile_pure next
            exact ⟨rfl, fun _ => silent, by simp [silentReport]⟩

/-- What is said of coverage once the tree is there. -/
theorem coverage_run {span : Span} {clauses : List Clause} {found tree : Option CaseTree}
    (done : (do
      if !p.missing.isEmpty then
        fail span (.missingClauses p.missing p.missingTruncated)
      unlessFailed clauses found : Compile (Option CaseTree)) setting p n = .ok ((tree, q), m)) :
    m = n ∧ (tree.isSome = true → p.missing = []) ∧ q.diagnostics = p.diagnostics ++
      (if p.missing.isEmpty then [] else
        [⟨span, .missingClauses p.missing p.missingTruncated⟩]) ++
      if tree.isSome && setting.config.reportRedundant then redundant p.used clauses.zipIdx
      else [] := by
  dsimp only at done
  split at done
  · rename_i some
    obtain ⟨_, _, _, told, last⟩ := compile_bind done
    cases told
    obtain ⟨rfl, silent, same⟩ := unlessFailed_run last
    have notEmpty : ¬ p.missing.isEmpty = true := by simpa using some
    refine ⟨rfl, fun isSome => ?_, ?_⟩
    · simpa using silent isSome
    · rw [same, if_neg notEmpty]
  · rename_i none
    obtain ⟨rfl, _, same⟩ := unlessFailed_run done
    have isEmpty : p.missing.isEmpty = true := by simpa using none
    refine ⟨rfl, fun _ => List.isEmpty_iff.mp isEmpty, ?_⟩
    rw [same, if_pos isEmpty, List.append_nil]

/-- Once something is noted that is not about coverage, it stays. -/
theorem Progress.Onward.other (first : p.Onward Problem.ofCoverage q) (start : p.diagnostics = [])
    (some : q.diagnostics ≠ []) : ∃ d ∈ q.diagnostics, d.problem.ofCoverage = false := by
  obtain ⟨noted, same, other⟩ := first
  rw [start, List.nil_append] at same
  obtain ⟨d, member⟩ := List.exists_mem_of_ne_nil _ some
  exact ⟨d, member, other d (same ▸ member)⟩

/-- Without interval patterns, either an error is noted that is not about coverage, or what is noted
    is what has been seen of the rows. -/
theorem compile_surveyed {span : Span} {params : Telescope} {clauses : List Clause}
    {V : Var → Prop} {outcome : Outcome} (known : setting.env.Within V n)
    (types : ∀ b ∈ params, b.type.Within V n)
    (noInterval : NoIntervalPattern setting.env params clauses)
    (done : compile setting span params clauses n = .ok (outcome, m)) :
    (∃ d ∈ outcome.diagnostics, d.problem.ofCoverage = false) ∨
      ∃ used examples k, Surveyed setting span params clauses n outcome used examples k m := by
  obtain ⟨⟨tree, q⟩, _, ran, final⟩ := fresh_bind done
  cases fresh_pure final
  unfold compileClauses at ran
  obtain ⟨_, p₁, _, arity, gated⟩ := compile_bind ran
  have noted := checkArity_noting _ _ _ _ _ _ _ _ arity
  obtain ⟨unused, unlisted⟩ := checkArity_aside arity
  obtain ⟨isFailed, _, _, ask, rest⟩ := compile_bind gated
  cases isFailed with
  | true =>
      cases compile_pure rest
      obtain ⟨rfl, _, some⟩ := failed_true ask
      exact .inl (noted.other rfl some)
  | false =>
      obtain ⟨rfl, rfl, silent⟩ := failed_false ask
      obtain ⟨_, rfl, width⟩ := checkArity_silent clauses arity silent
      rw [if_neg Bool.false_ne_true] at rest
      obtain ⟨found, q₁, l, treed, next⟩ := compile_bind rest
      obtain ⟨_, _, _, ask, next⟩ := compile_bind next
      cases ask
      obtain ⟨k, order, rows⟩ := clausesTree_rows known types noInterval treed
      obtain ⟨rfl, complete, same⟩ := coverage_run next
      have going := build_noting _ _ _ _ _ _ _ _ _ _ rows
      by_cases quiet : q₁.diagnostics = []
      · -- nothing is wrong but what there is to say about coverage
        have rowWidth : ∀ row ∈ numbered clauses, row.patterns.length = (columnsOf params).length := by
          intro row isRow
          obtain ⟨clause, isClause, _, patterns, _⟩ := mem_numbered isRow
          rw [patterns, width clause isClause]
          simp [columnsOf]
        obtain ⟨used, examples, explored, result⟩ :=
          (build_explores _).2 _ _ _ _ _ _ _ _ rowWidth rows (quiet.trans silent.symm)
        have marked : q₁.used = used := by
          rw [result.used, unused]
          exact List.append_nil used
        have listing := result.listing
        rw [unlisted] at listing
        change _ = List.foldl _ ([], false) _ at listing
        rw [listed_foldl _ _ _ _ (Nat.zero_le _)] at listing
        obtain ⟨missing, truncated⟩ := Prod.mk.inj listing
        simp only [List.nil_append, List.length_nil, Nat.sub_zero, Nat.zero_add, Bool.false_or,
          List.length_map, ← List.map_take, rebuild] at missing truncated
        refine .inr ⟨used, examples, k, order, width, explored, fun isSome => ?_, ?_⟩
        · rw [complete isSome] at missing
          exact List.map_eq_nil_iff.mp missing.symm
        · rw [same, quiet, marked, missing, truncated, missingReport, List.isEmpty_map,
            List.nil_append]
      · obtain ⟨d, member, other⟩ := going.other silent quiet
        refine .inl ⟨d, ?_, other⟩
        rw [same]
        exact List.mem_append_left _ (List.mem_append_left _ member)

end Clauses

end PathTheory.Matching
