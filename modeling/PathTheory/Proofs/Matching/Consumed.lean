import PathTheory.Proofs.Syntax.Lasting
import PathTheory.Proofs.Matching.Splits
import PathTheory.Proofs.Matching.Allowed
import PathTheory.Proofs.Matching.Coverage
import PathTheory.Proofs.Matching.Parted
import PathTheory.Proofs.Reduction.Counting
/-!
How deep the compiler and its trees go. Patterns are used up by splitting, so their number bounds
how deep splits are nested, and the fuel that rows are given for them is enough. What else takes fuel
is the reduction of the types of the columns.
-/
namespace PathTheory.Matching

open Pattern

/-- Columns that splitting leads to from the parameters, whichever columns are split. -/
inductive Reaches (env : Environment) (params : Telescope) : List Column → Prop
  | params : Reaches env params (columnsOf params)
  -- beside the ends of the interval the other clauses get columns of their own
  | copied {fields : List Column} {n m : Nat} :
      freshen env .empty (columnsOf params) n = .ok (fields, m) → Reaches env params fields
  | con {before rest fields others : List Column} {column : Column} {d : DefId} {u : Universe}
      {args : List Term} {data : DataDef} {c : DefId} {con : ConstructorDef} {n m k l i : Nat} :
      Reaches env params (before ++ column :: rest) →
      column.2.whnf env n = .ok (.data d u args, m) → env.data? d = some data →
      c ∈ data.constructors → env.constructor? c = some con →
      freshen env ((Subst.instantiate data.params args).addStd u) (columnsOf con.params) k =
        .ok (fields, l) →
      replaceIn env (.single column.1 (conValue c u args fields)) rest l = .ok (others, i) →
      Reaches env params (fields ++ others)
  | tuple {before rest fields others : List Column} {column : Column} {components : Telescope}
      {n m k l i : Nat} :
      Reaches env params (before ++ column :: rest) →
      column.2.whnf env n = .ok (.sigma components, m) →
      freshen env .empty (columnsOf components) k = .ok (fields, l) →
      replaceIn env (.single column.1 (tupleValue (.sigma components) fields)) rest l =
        .ok (others, i) →
      Reaches env params (fields ++ others)

/-- The types of all these columns can be reduced. -/
def Reduces (env : Environment) (params : Telescope) : Prop :=
  ∀ columns, Reaches env params columns → ∀ c ∈ columns, (c.2.whnf env).Lasts

/-- The computation runs out of fuel only where it is not calm, and what it gives has the property. -/
def Finishes {α : Type} (calm : Prop) (setting : Setting) (a : Compile α) (p : Progress) (n : Nat)
    (Q : α → Prop) : Prop :=
  (calm → Checked.Lasts (a setting p n)) ∧ ∀ x q m, a setting p n = .ok ((x, q), m) → Q x

namespace Finishes

variable {α β γ : Type} {calm : Prop} {setting : Setting} {p : Progress} {n : Nat} {a : Compile α}
  {P : α → Prop} {Q : β → Prop}

theorem pure {x : β} (holds : Q x) : Finishes calm setting (pure x) p n Q := by
  refine ⟨fun _ => .ok, fun y q m done => ?_⟩
  cases compile_pure done
  exact holds

theorem bind {f : α → Compile β} (first : Finishes calm setting a p n P)
    (next : ∀ x q m, a setting p n = .ok ((x, q), m) → P x → Finishes calm setting (f x) q m Q) :
    Finishes calm setting (a >>= f) p n Q := by
  refine ⟨fun isCalm => (first.1 isCalm).bind fun r run => ?_, fun y s k done => ?_⟩
  · exact (next _ _ _ run (first.2 _ _ _ run)).1 isCalm
  · obtain ⟨x, q, m, start, rest⟩ := compile_bind done
    exact (next x q m start (first.2 x q m start)).2 y s k rest

/-- The same where nothing is asked of the first result. -/
theorem andThen {f : α → Compile β} (first : Finishes calm setting a p n P)
    (next : ∀ x q m, Finishes calm setting (f x) q m Q) : Finishes calm setting (a >>= f) p n Q :=
  first.bind fun x q m _ _ => next x q m

theorem weaken {R : α → Prop} (first : Finishes calm setting a p n P)
    (holds : ∀ x, P x → R x) : Finishes calm setting a p n R :=
  ⟨first.1, fun x q m done => holds x (first.2 x q m done)⟩

theorem read {f : Setting → Compile β} (next : Finishes calm setting (f setting) p n Q) :
    Finishes calm setting (read >>= f) p n Q := next

theorem get {f : Progress → Compile β} (next : Finishes calm setting (f p) p n Q) :
    Finishes calm setting (get >>= f) p n Q := next

theorem modify (f : Progress → Progress) :
    Finishes calm setting (modify f) p n fun _ => True := ⟨fun _ => .ok, fun _ _ _ _ => trivial⟩

theorem lift {a : Checked α} (lasts : a.Lasts) :
    Finishes calm setting (liftM a) p n fun x => a = .ok x := by
  cases a with
  | error fault => exact ⟨fun _ out => lasts (congrArg _ (Except.error.inj out)), nofun⟩
  | ok y =>
      refine ⟨fun _ => .ok, fun x q m done => ?_⟩
      cases done
      rfl

theorem reading {f : Environment → Fresh α} (lasts : calm → (f setting.env).Lasts) :
    Finishes calm setting (reading f) p n fun x => ∃ m, f setting.env n = .ok (x, m) := by
  refine ⟨fun isCalm => (lasts isCalm n).bind fun _ _ => .ok, fun x q m done => ?_⟩
  obtain ⟨_, _, run, same⟩ := compile_reading done
  cases same
  exact ⟨_, run⟩

theorem forM {f : γ → Compile Unit} (l : List γ)
    (each : ∀ c ∈ l, ∀ p n, Finishes calm setting (f c) p n fun _ => True) (p : Progress) (n : Nat) :
    Finishes calm setting (l.forM f) p n fun _ => True := by
  induction l generalizing p n with
  | nil => exact pure trivial
  | cons c l ih =>
      obtain ⟨here, others⟩ := List.forall_mem_cons.mp each
      exact (here p n).andThen fun _ q m => ih others q m

theorem forIn {δ : Type} {f : γ → δ → Compile (ForInStep δ)} (l : List γ)
    (each : ∀ c ∈ l, ∀ d p n, Finishes calm setting (f c d) p n fun _ => True) (d : δ) (p : Progress)
    (n : Nat) : Finishes calm setting (forIn l d f) p n fun _ => True := by
  induction l generalizing d p n with
  | nil => exact pure trivial
  | cons c l ih =>
      obtain ⟨here, others⟩ := List.forall_mem_cons.mp each
      rw [List.forIn_cons]
      refine (here d p n).andThen fun step q m => ?_
      cases step with
      | done d => exact pure trivial
      | yield d => exact ih others d q m

theorem mapM {f : γ → Compile α} (l : List γ)
    (each : ∀ c ∈ l, ∀ p n, Finishes calm setting (f c) p n fun _ => True) (p : Progress) (n : Nat) :
    Finishes calm setting (l.mapM f) p n fun _ => True := by
  induction l generalizing p n with
  | nil =>
      rw [List.mapM_nil]
      exact pure trivial
  | cons c l ih =>
      obtain ⟨here, others⟩ := List.forall_mem_cons.mp each
      rw [List.mapM_cons]
      exact (here p n).andThen fun _ q m => (ih others q m).andThen fun _ _ _ => pure trivial

end Finishes

section Pieces

variable {env : Environment} {calm : Prop} {setting : Setting} {p : Progress} {n : Nat} {s : Subst}

theorem freshen_lasts (still : s.zonks = false) (columns : List Column) :
    (freshen env s columns).Lasts := by
  induction columns generalizing s with
  | nil => exact .pure
  | cons column rest ih =>
      refine .bind (Subst.apply_lasts still env _) fun _ => ?_
      exact .bind (fun _ => .ok) fun _ => .bind (ih still) fun _ => .pure

theorem replaceIn_lasts (still : s.zonks = false) (columns : List Column) :
    (replaceIn env s columns).Lasts :=
  .mapM columns fun c _ => .bind (Subst.apply_lasts still env c.2) fun _ => .pure

theorem beforeEmpty_lasts {columns : List Column} (reduce : ∀ c ∈ columns, (c.2.whnf env).Lasts) :
    (beforeEmpty env columns).Lasts := by
  induction columns with
  | nil => exact .pure
  | cons column rest ih =>
      obtain ⟨here, others⟩ := List.forall_mem_cons.mp reduce
      unfold beforeEmpty
      refine .bind here fun type => ?_
      split
      · exact .pure
      · exact .bind (ih others) fun _ => .pure

theorem instantiate_still (params : Telescope) (args : List Term) (u : Universe) :
    ((Subst.instantiate params args).addStd u).zonks = false :=
  List.foldlRecOn (motive := fun s : Subst => s.zonks = false) _ _ rfl fun _ still _ _ => still

theorem fail_finishes (span : Span) (problem : Problem) :
    Finishes calm setting (fail span problem) p n fun _ => True := .modify _

theorem recordMissing_finishes (row : List Pattern) :
    Finishes calm setting (recordMissing row) p n fun _ => True := .read (.modify _)

theorem notConstructor_lasts (type : Term) (pattern : Pattern) :
    (notConstructor type pattern).Lasts := type.text_lasts.bind fun _ _ => .ok

/-- Where no row is turned down, none of them has a bad pattern. -/
theorem refuse_finishes (rows : List Row) (bad : Pattern → Bool) {problem : Pattern → Checked Problem}
    (said : ∀ pattern, (problem pattern).Lasts) :
    Finishes calm setting (refuse rows bad problem) p n fun refused =>
      refused = false → ∀ r ∈ rows, bad (r.patterns.headD .absurd) = false := by
  unfold refuse
  cases found : rows.find? fun r => bad (r.patterns.headD .absurd) with
  | none => exact .pure fun _ r isRow => Bool.eq_false_iff.mpr (List.find?_eq_none.mp found r isRow)
  | some row =>
      refine (Finishes.lift (said _)).andThen fun _ _ _ => (fail_finishes _ _).andThen fun _ _ _ => ?_
      exact .pure nofun

theorem compareLevels_finishes (a b : Level) :
    Finishes calm setting (compareLevels a b) p n fun _ => True :=
  .read ((Finishes.lift (Level.compareLe_lasts a b)).andThen fun _ _ _ =>
    (Finishes.modify _).andThen fun _ _ _ => .pure trivial)

theorem dimensions_lasts (h : Level) : (dimensions h).Lasts := by
  cases h with
  | const c => exact (Bounded.add_lasts c 1).bind fun _ _ => .ok
  | _ => exact .ok

theorem levelFits_finishes (result data : Level) :
    Finishes calm setting (levelFits result data) p n fun _ => True := by
  refine (Finishes.lift (dimensions_lasts result)).andThen fun l _ _ =>
    (Finishes.lift (dimensions_lasts data)).andThen fun d _ _ => ?_
  split
  · split
    · exact .pure trivial
    · exact compareLevels_finishes _ _
  · exact compareLevels_finishes _ _

theorem truncationLevel_finishes (rows : List Row) (data : DataDef) (type : Term) :
    Finishes calm setting (truncationLevel rows data type) p n fun _ => True := by
  unfold truncationLevel
  split
  · exact .pure trivial
  · refine .read ?_
    split
    · refine (levelFits_finishes _ _).andThen fun fits _ _ => ?_
      split
      · exact (Finishes.lift (dimensions_lasts _)).andThen fun _ _ _ => .pure trivial
      · exact (Finishes.lift type.text_lasts).andThen fun _ _ _ =>
          (Finishes.lift (Universe.text_lasts _)).andThen fun _ _ _ =>
            (fail_finishes _ _).andThen fun _ _ _ => .pure trivial
    · exact .pure trivial

end Pieces

/-- The tree, if there is one, is not too deep. -/
abbrev Shallow (bound : Nat) (found : Option CaseTree) : Prop :=
  ∀ tree ∈ found, tree.NoDeeper bound

theorem shallow_none (bound : Nat) : Shallow bound none := by
  intro tree isTree
  cases isTree

theorem no_tree {calm : Prop} {setting : Setting} {p : Progress} {n bound : Nat} :
    Finishes calm setting (pure none) p n (Shallow bound) := .pure (shallow_none bound)

/-- What is asked of the function that builds the children. -/
def Build.Consumes (build : Build) (setting : Setting) (params : Telescope) (fuel : Nat) : Prop :=
  ∀ columns rows path p n, Reaches setting.env params columns →
    (∀ row ∈ rows, row.patterns.length = columns.length) → RowsSimple rows → remaining rows < fuel →
    Finishes (Reduces setting.env params) setting (build columns rows path) p n
      (Shallow (remaining rows))

section Splitting

variable {build : Build} {setting : Setting} {params : Telescope} {fuel bound : Nat}
  {p : Progress} {n : Nat} {before : List Column} {column : Column} {rest : List Column}
  {rows : List Row}

theorem split_finishes (consumes : build.Consumes setting params fuel) (simple : RowsSimple rows)
    (path : List Frame) (names : List Var) {shape : Shape} {value : Term} {fields : List Column}
    (reaches : ∀ others m, replaceIn setting.env (.single column.1 value) rest n = .ok (others, m) →
      Reaches setting.env params (fields ++ others))
    (fewer : remaining (rows.filterMap (·.enter shape value fields)) ≤ bound)
    (fuelled : bound < fuel) :
    Finishes (Reduces setting.env params) setting
      (split build column rest rows path names shape value fields) p n (Shallow bound) := by
  refine (Finishes.reading fun _ => replaceIn_lasts rfl rest).bind fun others q m _ ⟨_, types⟩ => ?_
  dsimp only
  split
  · exact (fail_finishes _ _).andThen fun _ _ _ => no_tree
  · rename_i fits
    have reached := reaches _ _ types
    refine (consumes _ _ _ _ _ reached (fun row member => ?_) (fun row member => ?_)
      (fewer.trans_lt fuelled)).weaken fun found shallow tree isTree =>
        (shallow tree isTree).mono fewer
    · simpa using List.find?_eq_none.mp fits row member
    · obtain ⟨outer, isRow, entered⟩ := List.mem_filterMap.mp member
      obtain ⟨_, _, _, rfl⟩ | ⟨_, _, _, rfl⟩ := enter_cases entered
      · exact simple outer isRow
      · exact (simple outer isRow).add _ _

theorem splitAll_finishes {calm : Prop}
    {splitOne : DefId → Compile (Option (Option (Shape × CaseTree)))} {cs : List DefId}
    (one : ∀ c ∈ cs, ∀ p n, Finishes calm setting (splitOne c) p n fun found =>
      ∀ entry, found = some (some entry) → entry.2.NoDeeper bound) (p : Progress) (n : Nat) :
    Finishes calm setting (splitAll splitOne cs) p n fun found =>
      ∀ children ∈ found, ∀ entry ∈ children, entry.2.NoDeeper bound := by
  induction cs generalizing p n with
  | nil =>
      refine .pure fun children isNil => ?_
      cases isNil
      exact List.forall_mem_nil _
  | cons c cs ih =>
      obtain ⟨here, others⟩ := List.forall_mem_cons.mp one
      refine (here p n).bind fun first q m _ child => ?_
      refine (ih others q m).bind fun all _ _ _ children => ?_
      match first, all with
      | none, all => exact .pure children
      | some none, _ => exact .pure nofun
      | some (some _), none => exact .pure nofun
      | some (some entry), some all =>
          refine .pure fun both isBoth => ?_
          cases isBoth
          exact List.forall_mem_cons.mpr ⟨child entry rfl, children all rfl⟩

theorem branchConstructor_finishes (consumes : build.Consumes setting params fuel)
    (simple : RowsSimple rows) (path : List Frame) (names : List Var) {d : DefId} {data : DataDef}
    {levels : Universe} {args : List Term} {k m : Nat}
    (reached : Reaches setting.env params (before ++ column :: rest))
    (reduced : column.2.whnf setting.env k = .ok (.data d levels args, m))
    (known : setting.env.data? d = some data) {c : DefId} (own : c ∈ data.constructors)
    (fewer : ∀ value fields, remaining (rows.filterMap (·.enter (.con c) value fields)) ≤ bound)
    (fuelled : bound < fuel) :
    Finishes (Reduces setting.env params) setting
      (branchConstructor build column rest rows path names data levels args c) p n fun found =>
        ∀ entry, found = some (some entry) → entry.2.NoDeeper bound := by
  refine .read ?_
  dsimp only
  cases isCon : setting.env.constructor? c with
  | none => exact .pure nofun
  | some con =>
      refine (Finishes.reading fun _ => freshen_lasts (instantiate_still data.params args levels)
        _).bind fun fields q l run ⟨_, fresh⟩ => ?_
      obtain ⟨_, _, fresh', same⟩ := compile_reading run
      cases same
      refine (split_finishes consumes simple path names (fun others i types =>
        .con reached reduced known own isCon fresh' types) (fewer _ _) fuelled).bind ?_
      intro child _ _ _ shallow
      refine .pure fun entry isChild => ?_
      obtain ⟨tree, isTree, rfl⟩ := Option.map_eq_some_iff.mp (Option.some.inj isChild)
      exact shallow tree isTree

/-- A pattern that is no variable has a shape, unless it is absurd. -/
theorem Inspects.apart_of {rows : List Row} (inspects : Inspects before rows)
    (never : ∀ row ∈ rows.map (·.pass before), row.patterns.head? ≠ some .absurd) :
    TakenApart (rows.map (·.pass before)) := by
  obtain ⟨row, isRow, pattern, stands, notBinding⟩ := inspects.apart
  have head : (row.pass before).patterns.head? = some pattern := by
    unfold Row.pass
    rw [List.head?_drop, stands]
  have passed := List.mem_map_of_mem (f := fun row => Row.pass row before) isRow
  cases pattern with
  | binding x => cases notBinding
  | shaped k args => exact ⟨_, passed, k, args, head⟩
  | absurd => exact absurd head (never _ passed)

theorem branchLive_finishes (consumes : build.Consumes setting params fuel)
    (inspects : Inspects before rows) (simple : RowsSimple rows) (path : List Frame) {d : DefId}
    {data : DataDef} {levels : Universe} {args : List Term} {k m : Nat}
    (reached : Reaches setting.env params (before ++ column :: rest))
    (reduced : column.2.whnf setting.env k = .ok (.data d levels args, m))
    (known : setting.env.data? d = some data) (type : Term) (level : Option Int)
    (fuelled : remaining rows < fuel + 1) :
    Finishes (Reduces setting.env params) setting (branchLive build column rest
      (rows.map (·.pass before)) path before type data levels args level) p n
        (Shallow (remaining rows)) := by
  refine .read ?_
  dsimp only
  split
  · split
    · exact (Finishes.modify _).andThen fun _ _ _ => .pure fun tree isTree => by
        cases isTree
        exact .nil _
    · exact (Finishes.lift type.text_lasts).andThen fun _ _ _ =>
        (fail_finishes _ _).andThen fun _ _ _ => no_tree
  · rename_i noAbsurd
    have apart := inspects.apart_of fun row member starts => by
      have never := List.find?_eq_none.mp noAbsurd row member
      rw [List.headD_eq_head?_getD, starts] at never
      exact never rfl
    refine (refuse_finishes _ _ (notConstructor_lasts type)).andThen fun refused _ _ => ?_
    split
    · exact no_tree
    · obtain ⟨bound, total, fewer⟩ := remaining_branches apart
      rw [total] at fuelled ⊢
      refine (splitAll_finishes (fun c isLive p n => branchConstructor_finishes consumes
        (pass_simple simple before) path _ reached reduced known (List.mem_of_mem_filter isLive)
        (fewer (.con c)) (Nat.lt_of_succ_lt_succ fuelled)) _ _).bind fun children _ _ _ shallow => ?_
      refine .pure fun tree isTree => ?_
      obtain ⟨all, isAll, rfl⟩ := Option.map_eq_some_iff.mp isTree
      exact .branch (shallow all isAll) _

theorem branchData_finishes (consumes : build.Consumes setting params fuel)
    (inspects : Inspects before rows) (simple : RowsSimple rows) (path : List Frame) {d : DefId}
    {levels : Universe} {args : List Term} {k m : Nat}
    (reached : Reaches setting.env params (before ++ column :: rest))
    (reduced : column.2.whnf setting.env k = .ok (.data d levels args, m)) (type : Term)
    (fuelled : remaining rows < fuel + 1) :
    Finishes (Reduces setting.env params) setting (branchData build column rest
      (rows.map (·.pass before)) path before type d levels args) p n (Shallow (remaining rows)) := by
  refine .read ?_
  cases known : setting.env.data? d with
  | none => exact no_tree
  | some data =>
      have leveled : ∀ {atLevel : Option (Option Int) → Compile (Option CaseTree)},
          atLevel none = pure none → (∀ level, atLevel (some level) = branchLive build column rest
            (rows.map (·.pass before)) path before type data levels args level) → ∀ p n,
          Finishes (Reduces setting.env params) setting
            (truncationLevel (rows.map (·.pass before)) data type >>= atLevel) p n
              (Shallow (remaining rows)) := by
        intro atLevel tooHigh fits p n
        refine (truncationLevel_finishes _ data type).andThen fun level q m => ?_
        cases level with
        | none =>
            rw [tooHigh]
            exact no_tree
        | some level =>
            rw [fits]
            exact branchLive_finishes consumes inspects simple path reached reduced known type level
              fuelled
      dsimp only
      split
      · refine (refuse_finishes _ _ fun _ => .ok).andThen fun refused q l => ?_
        split
        · exact no_tree
        · exact leveled rfl (fun _ => rfl) q l
      · exact leveled rfl (fun _ => rfl) p n

theorem branchTuple_finishes (consumes : build.Consumes setting params fuel)
    (inspects : Inspects before rows) (simple : RowsSimple rows) (path : List Frame)
    {components : Telescope} {k m : Nat}
    (reached : Reaches setting.env params (before ++ column :: rest))
    (reduced : column.2.whnf setting.env k = .ok (.sigma components, m))
    (fuelled : remaining rows < fuel + 1) :
    Finishes (Reduces setting.env params) setting (branchTuple build column rest
      (rows.map (·.pass before)) path before (.sigma components) components) p n
        (Shallow (remaining rows)) := by
  refine (refuse_finishes _ _ (notConstructor_lasts _)).bind fun refused _ _ _ fine => ?_
  split
  · exact no_tree
  · rename_i notRefused
    have apart := inspects.apart_of fun row member starts => by
      have never := fine (Bool.eq_false_iff.mpr notRefused) row member
      rw [List.headD_eq_head?_getD, starts] at never
      cases never
    refine (Finishes.reading fun _ => freshen_lasts rfl _).bind fun fields q l run ⟨_, fresh⟩ => ?_
    obtain ⟨_, _, fresh', same⟩ := compile_reading run
    cases same
    obtain ⟨bound, total, fewer⟩ := remaining_branches apart
    rw [total] at fuelled ⊢
    refine (split_finishes consumes (pass_simple simple before) path _
      (fun others i types => .tuple reached reduced fresh' types) (fewer _ _ _)
      (Nat.lt_of_succ_lt_succ fuelled)).bind fun child _ _ _ shallow => ?_
    refine .pure fun tree isTree => ?_
    obtain ⟨below, isChild, rfl⟩ := Option.map_eq_some_iff.mp isTree
    exact .branch (List.forall_mem_singleton.mpr (shallow below isChild)) _

/-- A split is made at a pattern that is then gone, so all that is built below has fewer of them. -/
theorem branch_finishes (consumes : build.Consumes setting params fuel)
    (inspects : Inspects before rows) (simple : RowsSimple rows) (path : List Frame)
    (reached : Reaches setting.env params (before ++ column :: rest))
    (fuelled : remaining rows < fuel + 1) :
    Finishes (Reduces setting.env params) setting (branch build before column rest rows path) p n
      (Shallow (remaining rows)) := by
  have reduce (calm : Reduces setting.env params) :=
    calm _ reached column (List.mem_append_right before List.mem_cons_self)
  refine (Finishes.reading reduce).bind fun type _ _ _ ⟨m, reduced⟩ => ?_
  split
  · exact branchData_finishes consumes inspects simple path reached reduced _ fuelled
  · exact branchTuple_finishes consumes inspects simple path reached reduced fuelled
  · exact (refuse_finishes _ _ (notConstructor_lasts _)).andThen fun _ _ _ => no_tree

end Splitting

section Run

variable {setting : Setting} {params : Telescope} {p : Progress} {n : Nat} {columns : List Column}

theorem leaf_finishes {calm : Prop} {bound : Nat} (columns : List Column) {row : Row}
    (simple : row.subst.Simple) :
    Finishes calm setting (leaf columns row) p n (Shallow bound) := by
  refine (Finishes.modify _).andThen fun _ _ _ => ?_
  split
  · exact (fail_finishes _ _).andThen fun _ _ _ => no_tree
  · have still := (bindColumns_simple simple row.patterns columns).still
    refine (Finishes.reading fun _ => Subst.apply_lasts still _ _).andThen fun _ _ _ => ?_
    refine .pure fun tree isTree => ?_
    cases isTree
    exact .leaf _ _

theorem uncovered_finishes {bound : Nat} (reached : Reaches setting.env params columns)
    (path : List Frame) :
    Finishes (Reduces setting.env params) setting (uncovered columns path) p n (Shallow bound) := by
  refine (Finishes.reading fun calm => beforeEmpty_lasts (calm columns reached)).andThen ?_
  intro found _ _
  split
  · refine .pure fun tree isTree => ?_
    cases isTree
    exact .nil _
  · exact (recordMissing_finishes _).andThen fun _ _ _ => no_tree

/-- Whoever has more fuel than there are constructors and tuples to take apart does not run out of
    it, and no way through the tree is longer than their number. -/
theorem build_consumes (setting : Setting) (params : Telescope) (fuel : Nat) :
    (build fuel).Consumes setting params fuel := by
  induction fuel with
  | zero =>
      -- fuel is asked to exceed what is left to take apart, which is no less than nothing
      exact fun _ _ _ _ _ _ _ _ impossible => absurd impossible (Nat.not_lt_zero _)
  | succ fuel ih =>
      intro columns rows path p n reached width simple fuelled
      unfold Matching.build
      cases rows with
      | nil => exact uncovered_finishes reached path
      | cons first others =>
          dsimp only
          split
          · exact leaf_finishes columns (simple first List.mem_cons_self)
          · -- the first row is not all variables, so the column that is split has a pattern to use up
            rename_i notAll
            obtain ⟨inside, inspects⟩ := splitColumn_inspects width
              ⟨first, List.mem_cons_self, Bool.eq_false_iff.mpr notAll⟩
            split
            · exact no_tree
            · rename_i column rest isRest
              refine branch_finishes ih inspects simple path ?_ fuelled
              rwa [← isRest, List.take_append_drop]

theorem buildRows_finishes (reached : Reaches setting.env params columns) {rows : List Row}
    (width : ∀ row ∈ rows, row.patterns.length = columns.length) (simple : RowsSimple rows) :
    Finishes (Reduces setting.env params) setting (buildRows columns rows) p n
      (Shallow (remaining rows)) := by
  unfold buildRows
  rw [remaining_fuel]
  exact build_consumes setting params _ _ _ _ _ _ reached width simple (Nat.lt_succ_self _)

theorem numbered_simple (clauses : List Clause) : RowsSimple (numbered clauses) := by
  intro row member
  obtain ⟨_, _, _, _, start⟩ := mem_numbered member
  rw [start]
  exact ⟨rfl, rfl⟩

end Run

section Interval

variable {calm : Prop} {setting : Setting} {params : Telescope} {p : Progress} {n : Nat}
  {columns : List Column}

theorem isInterval_finishes {type : Term} (reduces : calm → (type.whnf setting.env).Lasts) :
    Finishes calm setting (isInterval type) p n fun _ => True := by
  refine .read ((Finishes.reading reduces).andThen fun t _ _ => ?_)
  split <;> exact .pure trivial

/-- The clauses that match no end are left as they are. -/
theorem partRows_finishes (intervals : List Bool) (rows : List Row) (p : Progress) (n : Nat) :
    Finishes calm setting (partRows intervals rows) p n fun parted => parted.2.Sublist rows := by
  induction rows generalizing p n with
  | nil => exact .pure (List.nil_sublist _)
  | cons row rest ih =>
      unfold partRows
      dsimp only
      split
      · exact (ih p n).bind fun parted _ _ _ fewer => .pure (fewer.cons_cons row)
      · split
        · exact (fail_finishes _ _).andThen fun _ q m => (ih q m).weaken fun parted fewer =>
            fewer.cons row
        · exact (ih p n).bind fun parted _ _ _ fewer => .pure (fewer.cons row)

theorem refuseAfter_finishes (first : Nat) (rows : List Row) :
    Finishes calm setting (refuseAfter first rows) p n fun _ => True := by
  refine .forM rows (fun row _ p n => ?_) p n
  split
  · exact fail_finishes _ _
  · exact .pure trivial

theorem fillEnds_finishes (columns : List Column) (first : Nat) (rows : List EndRow)
    (ends : List (Ends Term)) (p : Progress) (n : Nat) :
    Finishes calm setting (fillEnds columns first rows ends) p n fun _ => True := by
  induction rows generalizing ends p n with
  | nil => exact .pure trivial
  | cons endRow rest ih =>
      obtain ⟨row, j⟩ := endRow
      refine .read ?_
      dsimp only
      split
      · split
        · exact ih _ _ _
        · split
          · exact (fail_finishes _ _).andThen fun _ _ _ => ih _ _ _
          · have still := (renameRow_simple row.patterns columns).still
            refine (Finishes.reading fun _ => Subst.apply_lasts still _ _).andThen fun _ _ _ => ?_
            exact (Finishes.modify _).andThen fun _ _ _ => ih _ _ _
      · exact ih _ _ _

theorem missingEnds_finishes (reduces : calm → ∀ c ∈ columns, (c.2.whnf setting.env).Lasts) (j : Nat)
    (ends : List (Ends Term)) (p : Progress) (n : Nat) :
    Finishes calm setting (missingEnds columns j ends) p n fun _ => True := by
  induction ends generalizing j p n with
  | nil => exact .pure trivial
  | cons here rest ih =>
      unfold missingEnds
      dsimp only
      split
      · refine .read ?_
        split
        · rename_i isColumn
          have reduce (isCalm : calm) := reduces isCalm _ (List.mem_of_getElem? isColumn)
          refine (Finishes.reading reduce).andThen fun _ _ _ => ?_
          split
          · refine (Finishes.forIn _ (fun _ _ _ p n => ?_) _ _ _).andThen fun _ _ _ => ih _ _ _
            split
            · exact (recordMissing_finishes _).andThen fun _ _ _ => .pure trivial
            · exact .pure trivial
          · exact ih _ _ _
        · exact ih _ _ _
      · exact ih _ _ _

theorem buildInterval_finishes (intervals : List Bool) {rows : List Row}
    (width : ∀ row ∈ rows, row.patterns.length = (columnsOf params).length)
    (simple : RowsSimple rows) :
    Finishes (Reduces setting.env params) setting (buildInterval (columnsOf params) intervals rows) p n
      (Shallow (remaining rows)) := by
  refine (partRows_finishes _ _ _ _).bind fun parted _ _ _ fewer => ?_
  obtain ⟨endRows, others⟩ := parted
  dsimp only
  split
  · refine (refuseAfter_finishes _ _).andThen fun _ _ _ => .get ?_
    split
    · exact no_tree
    · refine (fillEnds_finishes _ _ _ _ _ _).andThen fun ends q m => ?_
      -- however the tree of the others comes about, the node above it has ends and no children
      have finished : ∀ (rest : Option CaseTree) (q : Progress) (m : Nat),
          Shallow (remaining rows) rest → Finishes (Reduces setting.env params) setting (do
            if (← failed) || !(← get).missing.isEmpty then return none
            return some (.interval (Telescope.ofPairs (columnsOf params))
              (ends.dropWhile Ends.isEmpty) rest)) q m (Shallow (remaining rows)) := by
        intro rest q m below
        refine .get (.get ?_)
        split
        · exact no_tree
        · refine .pure fun tree isTree => ?_
          cases isTree
          exact .interval below _ _
      split
      · split
        · refine (missingEnds_finishes (fun calm => calm _ .params) _ _ _ _).andThen fun _ q m => ?_
          exact finished none q m (shallow_none _)
        · exact finished none q m (shallow_none _)
      · refine (Finishes.reading fun _ => freshen_lasts rfl _).bind fun fresh q l _ ⟨_, renamed⟩ => ?_
        have sameWidth := freshen_length _ _ _ renamed
        refine (buildRows_finishes (.copied renamed) (fun row member => ?_) fun row member =>
          simple row (fewer.subset member)).bind fun rest q m _ shallow => ?_
        · -- the copies are as many as the columns, so the rows are still as wide
          rw [sameWidth]
          exact width row (fewer.subset member)
        · exact finished rest q m fun tree isTree =>
            (shallow tree isTree).mono (remaining_sublist fewer)
  · exact no_tree

end Interval

section Clauses

variable {calm : Prop} {setting : Setting} {params : Telescope} {clauses : List Clause}
  {p : Progress} {n : Nat}

theorem checkArity_finishes (arity : Nat) (clauses : List Clause) :
    Finishes calm setting (checkArity arity clauses) p n fun _ => True := by
  refine .forM clauses (fun c _ p n => ?_) p n
  split
  · exact fail_finishes _ _
  · split
    · exact fail_finishes _ _
    · exact .pure trivial

theorem clausesTree_finishes (width : ∀ c ∈ clauses, c.patterns.length = params.length) :
    Finishes (Reduces setting.env params) setting (clausesTree params clauses) p n
      (Shallow (clauses.map fun c => rowSplits c.patterns).sum) := by
  have rowWidth : ∀ row ∈ numbered clauses, row.patterns.length = (columnsOf params).length := by
    intro row member
    obtain ⟨clause, listed, _, patterns, _⟩ := mem_numbered member
    rw [columnsOf, List.length_map, patterns]
    exact width clause listed
  rw [← remaining_numbered]
  refine .read ((Finishes.mapM _ (fun c member p n => isInterval_finishes fun calm =>
    calm _ .params c member) _ _).andThen fun intervals _ _ => ?_)
  split
  · split
    · exact (fail_finishes _ _).andThen fun _ _ _ => no_tree
    · exact buildInterval_finishes _ rowWidth (numbered_simple clauses)
  · exact buildRows_finishes .params rowWidth (numbered_simple clauses)

theorem unlessFailed_finishes (clauses : List Clause) {bound : Nat} {found : Option CaseTree}
    (shallow : Shallow bound found) :
    Finishes calm setting (unlessFailed clauses found) p n (Shallow bound) := by
  refine .get ?_
  split
  · exact no_tree
  · cases found with
    | none => exact no_tree
    | some tree =>
        refine .read ?_
        split
        · refine Finishes.andThen (P := fun _ => True) (.get ?_) fun _ _ _ => .pure shallow
          refine .forM _ (fun entry _ p n => ?_) _ _
          dsimp only
          split
          · exact fail_finishes _ _
          · exact .pure trivial
        · exact .pure shallow

theorem compileClauses_finishes (span : Span) (params : Telescope) (clauses : List Clause) :
    Finishes (Reduces setting.env params) setting (compileClauses span params clauses) p n
      (Shallow (clauses.map fun c => rowSplits c.patterns).sum) := by
  refine (checkArity_finishes _ _).bind fun _ q m checked _ => ?_
  refine Finishes.bind (P := fun _ => True) (.get (.pure trivial)) fun isFailed r l ask _ => ?_
  cases isFailed with
  | true => exact no_tree
  | false =>
      obtain ⟨rfl, _, silent⟩ := failed_false ask
      obtain ⟨_, _, width⟩ := checkArity_silent clauses checked silent
      refine (clausesTree_finishes width).bind fun tree q m _ shallow => .get ?_
      split
      · exact (fail_finishes _ _).andThen fun _ _ _ => unlessFailed_finishes clauses shallow
      · exact unlessFailed_finishes clauses shallow

/-- **Patterns are used up.** If the types of the columns that splitting leads to can be reduced, the
    compiler does not run out of fuel: it ends with an outcome or at a level that is out of range.
    And on every way through a tree that it gives, there are no more nodes with children than there
    are constructors and tuples in the patterns of all clauses. -/
theorem compile_consumes (setting : Setting) (span : Span) (params : Telescope)
    (clauses : List Clause) (n : Nat) :
    (Reduces setting.env params → (∃ outcome m, compile setting span params clauses n =
        .ok (outcome, m)) ∨
      ∃ fault, fault ≠ .outOfFuel ∧ compile setting span params clauses n = .error fault) ∧
    ∀ outcome m tree, compile setting span params clauses n = .ok (outcome, m) →
      outcome.tree = some tree → ∀ way ∈ tree.ways,
        way.length ≤ (clauses.map fun c => rowSplits c.patterns).sum := by
  obtain ⟨lasts, shallow⟩ : Finishes (Reduces setting.env params) setting
      (compileClauses span params clauses) .start n (Shallow _) :=
    compileClauses_finishes span params clauses
  refine ⟨fun calm => ?_, fun outcome m tree done given => ?_⟩
  · have lasting : Checked.Lasts (compile setting span params clauses n) :=
      (lasts calm).bind fun _ _ => .ok
    cases run : compile setting span params clauses n with
    | ok r => exact .inl ⟨r.1, r.2, rfl⟩
    | error fault => exact .inr ⟨fault, fun out => lasting (out ▸ run), rfl⟩
  · obtain ⟨⟨found, q⟩, k, ran, final⟩ := fresh_bind done
    cases fresh_pure final
    exact shallow found q m ran tree given

end Clauses

section Examples

open Library

variable {env : Environment} {s : Subst} {columns fields : List Column} {n m : Nat}

theorem natType_apply (env : Environment) (s : Subst) (n : Nat) :
    s.apply env natType n = .ok (natType, n) := congrFun (natType_substWith (Subst.rule env) s) n

/-- Copies of columns of numbers are columns of numbers. -/
theorem natColumns_freshen (numbers : ∀ c ∈ columns, c.2 = natType)
    (fresh : freshen env s columns n = .ok (fields, m)) : ∀ c ∈ fields, c.2 = natType := by
  induction columns generalizing s n fields with
  | nil =>
      cases fresh_pure fresh
      exact List.forall_mem_nil _
  | cons column rest ih =>
      obtain ⟨x, type⟩ := column
      obtain ⟨rfl, others⟩ := List.forall_mem_cons.mp numbers
      obtain ⟨type, k, applied, next⟩ := fresh_bind fresh
      obtain ⟨y, l, _, next⟩ := fresh_bind next
      obtain ⟨tail, i, later, final⟩ := fresh_bind next
      cases fresh_pure final
      cases (natType_apply env s n).symm.trans applied
      exact List.forall_mem_cons.mpr ⟨rfl, ih others later⟩

theorem natColumns_replaceIn (numbers : ∀ c ∈ columns, c.2 = natType)
    (replaced : replaceIn env s columns n = .ok (fields, m)) : ∀ c ∈ fields, c.2 = natType := by
  have always : (replaceIn env s columns).Always fun fields => ∀ c ∈ fields, c.2 = natType := by
    refine .mapM fun ⟨x, type⟩ isColumn k c l done => ?_
    obtain rfl := numbers _ isColumn
    obtain ⟨_, _, applied, final⟩ := fresh_bind done
    cases fresh_pure final
    cases (natType_apply env s k).symm.trans applied
    rfl
  exact always n fields m replaced

/-- Splitting numbers leads to numbers only. -/
theorem counted_reduces : Reduces plainSetting.env counted := by
  have same : ∀ n, natType.whnf plainSetting.env n = .ok (natType, n) := fun _ => rfl
  have numbers : ∀ columns, Reaches plainSetting.env counted columns → ∀ c ∈ columns,
      c.2 = natType := by
    intro columns reached
    induction reached with
    | params => decide
    | copied fresh => exact natColumns_freshen (by decide) fresh
    | @con before rest fields others column d u args data c con n m k l i _ reduced known own isCon
        fresh replaced ih =>
        obtain ⟨here, later⟩ := List.forall_mem_cons.mp (List.forall_mem_append.mp ih).2
        rw [here] at reduced
        cases (same _).symm.trans reduced
        cases known
        have params : ∀ b ∈ columnsOf con.params, b.2 = natType := by
          rcases List.mem_pair.mp own with rfl | rfl
          · cases isCon
            decide
          · cases isCon
            decide
        exact List.forall_mem_append.mpr
          ⟨natColumns_freshen params fresh, natColumns_replaceIn later replaced⟩
    | tuple _ reduced _ _ ih =>
        have here := ih _ (List.mem_append_right _ List.mem_cons_self)
        rw [here] at reduced
        cases (same _).symm.trans reduced
  intro columns reached c isColumn n
  rw [numbers columns reached c isColumn, same]
  exact .ok

/-- Two nested constructors are seen one after the other, and no way is longer. -/
theorem lessening_consumes : Reduces plainSetting.env counted ∧
    ∃ outcome m tree, compile plainSetting .none counted lessening 32 = .ok (outcome, m) ∧
      outcome.tree = some tree ∧ [.con suc, .con suc] ∈ tree.ways ∧
      ∀ way ∈ tree.ways, way.length ≤ 2 := by
  obtain ⟨finishes, shallow⟩ := compile_consumes plainSetting .none counted lessening 32
  have run : ∃ outcome m tree, compile plainSetting .none counted lessening 32 = .ok (outcome, m) ∧
      outcome.tree = some tree ∧ [.con suc, .con suc] ∈ tree.ways := ⟨_, _, _, rfl, rfl, by decide⟩
  obtain ⟨outcome, m, tree, done, given, way⟩ := run
  rcases finishes counted_reduces with ⟨outcome', m', done'⟩ | ⟨fault, _, stopped⟩
  · cases done.symm.trans done'
    exact ⟨counted_reduces, outcome, m, tree, done, given, way, shallow outcome m tree done given⟩
  · cases done.symm.trans stopped

end Examples

end PathTheory.Matching
