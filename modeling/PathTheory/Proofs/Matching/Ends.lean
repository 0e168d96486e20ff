import PathTheory.Proofs.Matching.Parted
import PathTheory.Proofs.Matching.Coverage
import PathTheory.Proofs.Reduction.Reading
/-!
Clauses for the ends of the interval say what a run gives. The first column, from left to right,
whose argument is an end with a clause decides, whatever the other arguments are, and there the first
clause for the end. The root node stores the bodies relative to the first column that has one; the
walk counts from the last column, so both sides are brought to the columns of the parameters.
-/
namespace PathTheory

section Elsewhere

variable {env : Environment} {V : Var → Prop} {low n k : Nat}

/-- Where a term is reduced, only the names of the binders of its weak head normal form depend on the
    counter. -/
theorem Term.whnf_elsewhere (known : env.Within V low) {t v : Term} {m : Nat} (within : t.Within V low)
    (order : low ≤ n) (later : low ≤ k) (done : t.whnf env n = .ok (v, m)) :
    ∃ v' m', t.whnf env k = .ok (v', m') ∧ k ≤ m' ∧ v'.reading = v.reading := by
  have mirrors := whnfWith_mirrors known env.fuel
  obtain ⟨y, result, rfl⟩ := (mirrors t n order (within.mono order)).ok done
  obtain ⟨v', m', there, same⟩ := (mirrors t k later (within.mono later)).result result
  exact ⟨v', m', there, (Term.whnf_within known t k later (within.mono later) _ _ there).1, same.symm⟩

/-- Whether a term evaluates to an end of the interval, and to which, does not depend on the
    counter. -/
theorem Term.whnfEndpoint?_elsewhere (known : env.Within V low) {t : Term} {o : Option Endpoint}
    {m : Nat} (within : t.Within V low) (order : low ≤ n) (later : low ≤ k)
    (done : t.whnfEndpoint? env n = .ok (o, m)) :
    ∃ v m', t.whnf env k = .ok (v, m') ∧ k ≤ m' ∧ v.endpoint? env = o := by
  obtain ⟨v, _, reduced, final⟩ := fresh_bind done
  cases fresh_pure final
  obtain ⟨v', m', there, next, same⟩ := t.whnf_elsewhere known within order later reduced
  refine ⟨v', m', there, next, ?_⟩
  rw [← Term.endpoint?_reading, same, Term.endpoint?_reading]

end Elsewhere

def Pattern.binds (x : Var) : Pattern → Bool
  | .binding y => x = y
  | _ => false

namespace Matching

variable {env : Environment} {setting : Setting} {p q : Progress} {low n m k : Nat}

section Rows

open Pattern

/-- The last column in which a row binds a variable. -/
def columnOf? (x : Var) : List Pattern → Option Nat
  | [] => none
  | p :: row => ((columnOf? x row).map (· + 1)).or (if p.binds x then some 0 else none)

theorem columnOf?_later {x : Var} {row : List Pattern} {i : Nat} (p : Pattern)
    (later : columnOf? x row = some i) : columnOf? x (p :: row) = some (i + 1) := by
  rw [columnOf?, later]
  rfl

theorem columnOf?_here {x : Var} {row : List Pattern} (p : Pattern)
    (none : columnOf? x row = none) :
    columnOf? x (p :: row) = if p.binds x then some 0 else Option.none := by
  rw [columnOf?, none]
  rfl

theorem columnOf?_lt {x : Var} {row : List Pattern} {i : Nat} (found : columnOf? x row = some i) :
    i < row.length := by
  induction row generalizing i with
  | nil => cases found
  | cons p row ih =>
      rw [List.length_cons]
      cases later : columnOf? x row with
      | some j =>
          cases (columnOf?_later p later).symm.trans found
          exact Nat.succ_lt_succ (ih later)
      | none =>
          rw [columnOf?_here p later] at found
          split at found <;> cases found
          exact Nat.succ_pos _

theorem columnOf?_none {x : Var} {row : List Pattern} (outside : x ∉ rowVars row) :
    columnOf? x row = none := by
  induction row with
  | nil => rfl
  | cons p row ih =>
      simp only [rowVars, List.mem_append, not_or] at outside
      rw [columnOf?_here p (ih outside.2)]
      cases p with
      | binding y =>
          have apart : ¬ x = y := fun same => outside.1 (List.mem_singleton.mpr same)
          simp [Pattern.binds, apart]
      | _ => rfl

/-- The variables of a row become terms, one for each column. -/
def bindRow (s : Subst) (row : List Pattern) (terms : List Term) : Subst :=
  (row.zip terms).foldl (fun s (p, t) => match p with
    | .binding x => s.add x t
    | _ => s) s

theorem bindRow_cons (s : Subst) (p : Pattern) (row : List Pattern) (t : Term) (terms : List Term) :
    bindRow s (p :: row) (t :: terms) = bindRow (match p with
      | .binding x => s.add x t
      | _ => s) row terms := rfl

theorem renameRow_eq (row : List Pattern) (columns : List Column) :
    renameRow row columns = bindRow .empty row (columns.map fun c => .ref c.1) := by
  rw [renameRow, bindRow, List.zip_map_right, List.foldl_map]
  rfl

/-- The parameters of a telescope as a row of patterns. -/
def paramRow (params : Telescope) : List Pattern := params.map fun b => .binding b.var

theorem paramRow_vars (params : Telescope) : rowVars (paramRow params) = params.vars := by
  induction params with
  | nil => rfl
  | cons b params ih => exact congrArg (b.var :: ·) ih

theorem bind_eq (s : Subst) (params : Telescope) (args : List Term) :
    s.bind params args = bindRow s (paramRow params) args := by
  rw [Subst.bind, bindRow, paramRow, List.zip_map_left, List.foldl_map]
  rfl

theorem bindRow_within {V : Var → Prop} {s : Subst} (put : s.Within V n) (row : List Pattern)
    {terms : List Term} (within : ∀ t ∈ terms, t.Within V n) : (bindRow s row terms).Within V n := by
  induction row generalizing s terms with
  | nil => exact put
  | cons p row ih =>
      cases terms with
      | nil => exact put
      | cons t terms =>
          obtain ⟨here, later⟩ := List.forall_mem_cons.mp within
          rw [bindRow_cons]
          cases p with
          | binding x => exact ih (put.add here) later
          | _ => exact ih put later

/-- A variable becomes the term of the last column that binds it. -/
theorem bindRow_image {s : Subst} {row : List Pattern} {terms : List Term}
    (enough : row.length ≤ terms.length) (x : Var) :
    (bindRow s row terms).image x = (columnOf? x row >>= (terms[·]?)).getD (s.image x) := by
  induction row generalizing s terms with
  | nil => rfl
  | cons p row ih =>
      cases terms with
      | nil => cases enough
      | cons t terms =>
          rw [bindRow_cons, ih (Nat.le_of_succ_le_succ enough)]
          cases later : columnOf? x row with
          | some i =>
              have inRange := (columnOf?_lt later).trans_le (Nat.le_of_succ_le_succ enough)
              rw [columnOf?_later p later]
              simp [inRange]
          | none =>
              rw [columnOf?_here p later]
              cases p with
              | binding y =>
                  simp only [Pattern.binds, Subst.image, Subst.get?_add, decide_eq_true_eq]
                  split <;> rfl
              | _ => rfl

/-- Distinct parameters stand in a column each. -/
theorem columnOf?_param {params : Telescope} (distinct : params.vars.Nodup) {i : Nat}
    {b : Binding Term} (here : params[i]? = some b) :
    columnOf? b.var (paramRow params) = some i := by
  induction params generalizing i with
  | nil => cases here
  | cons c params ih =>
      obtain ⟨apart, distinct⟩ := List.nodup_cons.mp distinct
      cases i with
      | zero =>
          obtain rfl : c = b := Option.some.inj here
          have later : columnOf? c.var (paramRow params) = none := by
            apply columnOf?_none
            rwa [paramRow_vars]
          exact (columnOf?_here _ later).trans (if_pos (decide_eq_true rfl))
      | succ i => exact columnOf?_later _ (ih distinct here)

end Rows

section Walking

/-- The ends are tried in order: those that have no body, and arguments that are no end with a body, are
    passed over. -/
theorem tryEnds_first (known : env.Within (fun _ => True) low) {pairs : List (Ends Term × Term)}
    {j : Nat} {e : Ends Term} {a body : Term} {side : Endpoint} (below : ∀ p ∈ pairs, p.2.Below low)
    (here : pairs[j]? = some (e, a))
    (meets : ∃ m, a.whnfEndpoint? env low = .ok (some side, m)) (stands : e.at? side = some body)
    (earlier : ∀ i < j, ∀ e a, pairs[i]? = some (e, a) → e.isEmpty = false →
      ∃ o m, a.whnfEndpoint? env low = .ok (o, m) ∧ ∀ side ∈ o, e.at? side = none)
    (blocked : Option Term) (order : low ≤ n) :
    ∃ m, n ≤ m ∧ tryEnds env (Term.whnf env) pairs blocked n = .ok (.body body, m) := by
  induction pairs generalizing j blocked n with
  | nil => cases here
  | cons p pairs ih =>
      obtain ⟨e', a'⟩ := p
      obtain ⟨argBelow, restBelow⟩ := List.forall_mem_cons.mp below
      have within : a'.Within (fun _ => True) low := ⟨argBelow, fun _ _ => trivial⟩
      cases j with
      | zero =>
          cases here
          obtain ⟨_, ends⟩ := meets
          obtain ⟨v, m, reduced, later, isSide⟩ :=
            Term.whnfEndpoint?_elsewhere known within (Nat.le_refl low) order ends
          have notEmpty : ¬ e.isEmpty = true := by
            cases side <;> simp_all [Ends.isEmpty, Ends.at?]
          refine ⟨m, later, ?_⟩
          unfold tryEnds
          rw [if_neg notEmpty]
          refine fresh_then reduced ?_
          rw [isSide]
          dsimp only
          rw [stands]
          rfl
      | succ j =>
          have rest : ∀ {n : Nat} (blocked : Option Term), low ≤ n → ∃ m, n ≤ m ∧
              tryEnds env (Term.whnf env) pairs blocked n = .ok (.body body, m) := fun blocked order =>
            ih restBelow here (fun i before => earlier (i + 1) (Nat.succ_lt_succ before)) blocked order
          unfold tryEnds
          by_cases isEmpty : e'.isEmpty = true
          · rw [if_pos isEmpty]
            exact rest blocked order
          · rw [if_neg isEmpty]
            obtain ⟨o, _, ends, none⟩ := earlier 0 j.succ_pos e' a' rfl (by simpa using isEmpty)
            obtain ⟨v, m, reduced, later, isSide⟩ :=
              Term.whnfEndpoint?_elsewhere known within (Nat.le_refl low) order ends
            cases o with
            | none =>
                obtain ⟨l, next, done⟩ := rest (blocked <|> some v) (order.trans later)
                refine ⟨l, later.trans next, fresh_then reduced ?_⟩
                rw [isSide]
                exact done
            | some side' =>
                obtain ⟨l, next, done⟩ := rest blocked (order.trans later)
                refine ⟨l, later.trans next, fresh_then reduced ?_⟩
                rw [isSide]
                dsimp only
                rw [none side' rfl]
                exact done

end Walking

section Clauses

variable {params : Telescope} {clauses : List Clause} {intervals : List Bool}

/-- The type reduces to a data type that is an interval. -/
def IntervalAt (env : Environment) (n : Nat) (type : Term) : Prop :=
  ∃ d u args m data, type.whnf env n = .ok (.data d u args, m) ∧ env.data? d = some data ∧
    data.interval = true

/-- A clause for an end of the interval: it matches that end at a parameter whose type is the
    interval, and nothing else. -/
structure Clause.IsFor (env : Environment) (n : Nat) (params : Telescope) (clause : Clause) (j : Nat)
    (side : Endpoint) : Prop where
  interval : ∃ b, params[j]? = some b ∧ IntervalAt env n b.type
  atEnd : ∃ c args, clause.patterns[j]? = some (.shaped (.con c) args) ∧ env.endpoint? c = some side
  only : ∀ i p, clause.patterns[i]? = some p → p.isBinding = false → i = j

/-- What the variables of a clause stand for where the parameters have arguments: those of its
    patterns, and the parameters themselves, for the arguments of their columns. -/
def Clause.standsFor (params : Telescope) (clause : Clause) (args : List Term) (x : Var) : Nameless :=
  match (columnOf? x clause.patterns).or (columnOf? x (paramRow params)) >>= (args[·]?) with
  | some a => a.reading
  | none => .free x

theorem data_of_reading {v : Term} {d : DefId} {u : Universe} {args : List Term}
    (same : v.reading = (Term.data d u args).reading) : ∃ args', v = .data d u args' := by
  cases v with
  | data d' u' args' =>
      obtain ⟨⟨rfl, rfl⟩, _⟩ := by
        simpa [Term.reading, Term.toScoped, Scoped.read] using same
      exact ⟨args', rfl⟩
  | _ => cases same

/-- Whether a type is an interval does not depend on the counter. -/
theorem IntervalAt.elsewhere {type : Term} (known : env.Within (fun _ => True) low)
    (below : type.Below low) (order : low ≤ n) (later : low ≤ k) (isInterval : IntervalAt env n type) :
    IntervalAt env k type := by
  obtain ⟨d, u, args, m, data, reduced, found, isInterval⟩ := isInterval
  obtain ⟨v, m', there, _, same⟩ :=
    type.whnf_elsewhere known ⟨below, fun _ _ => trivial⟩ order later reduced
  obtain ⟨args', rfl⟩ := data_of_reading same
  exact ⟨d, u, args', m', data, there, found, isInterval⟩

theorem isInterval_iff {type : Term} {r : Bool}
    (done : isInterval type setting p n = .ok ((r, q), m)) :
    r = true ↔ IntervalAt setting.env n type := by
  unfold isInterval at done
  obtain ⟨_, _, _, ask, next⟩ := compile_bind done
  cases ask
  obtain ⟨t, _, k, reading, final⟩ := compile_bind next
  obtain ⟨_, _, reduced, same⟩ := compile_reading reading
  cases same
  have only : IntervalAt setting.env n type ↔ ∃ d u args data, t = .data d u args ∧
      setting.env.data? d = some data ∧ data.interval = true := by
    constructor
    · rintro ⟨d, u, args, _, data, done, found, isInterval⟩
      cases reduced.symm.trans done
      exact ⟨d, u, args, data, rfl, found, isInterval⟩
    · rintro ⟨d, u, args, data, rfl, found, isInterval⟩
      exact ⟨d, u, args, _, data, reduced, found, isInterval⟩
  rw [only]
  cases t with
  | data d u args =>
      obtain ⟨rfl, _⟩ := Prod.mk.inj (Prod.mk.inj (compile_pure final)).1
      simp [Option.any_eq_true]
  | _ =>
      obtain ⟨rfl, _⟩ := Prod.mk.inj (Prod.mk.inj (compile_pure final)).1
      simp

theorem standsFor_eq {clause : Clause} {args : List Term} (distinct : params.vars.Nodup)
    (width : clause.patterns.length = params.length) (enough : params.length ≤ args.length)
    (x : Var) : ((renameRow clause.patterns (columnsOf params)).image x).reading.inst id
      (fun y => ((Subst.empty.bind params args).image y).reading) = clause.standsFor params args x := by
  have ofParam : ∀ y, ((Subst.empty.bind params args).image y) =
      (columnOf? y (paramRow params) >>= (args[·]?)).getD (.ref y) := by
    intro y
    rw [bind_eq, bindRow_image (by simpa [paramRow] using enough)]
    rfl
  rw [renameRow_eq, bindRow_image (by simp [columnsOf, width]), Clause.standsFor]
  cases found : columnOf? x clause.patterns with
  | some i =>
      have inParams : i < params.length := width ▸ columnOf?_lt found
      have inArgs : i < args.length := inParams.trans_le enough
      have place := columnOf?_param distinct (List.getElem?_eq_getElem inParams)
      simp [columnsOf, inParams, inArgs, Term.ref_reading, Nameless.inst, ofParam, place]
  | none =>
      change (Term.ref x).reading.inst id _ = _
      rw [Term.ref_reading, Nameless.inst, ofParam, Option.none_or]
      cases columnOf? x (paramRow params) >>= (args[·]?) <;> rfl

/-- The list says of every parameter whether its type is an interval. -/
def MarksIntervals (env : Environment) (n : Nat) (params : Telescope) (intervals : List Bool) : Prop :=
  ∀ j : Nat, intervals[j]? = some true ↔ ∃ b, params[j]? = some b ∧ IntervalAt env n b.type

/-- The answers for the parameters, whose types do not depend on the counter either. -/
theorem isIntervals_exact (known : setting.env.Within (fun _ => True) n)
    (old : Telescope.Below n params)
    (asked : (columnsOf params).mapM (fun c => isInterval c.2) setting p n =
      .ok ((intervals, q), m)) : MarksIntervals setting.env n params intervals := by
  intro j
  have answers : n ≤ m ∧ List.Forall₂ (fun c r => r = true ↔ IntervalAt setting.env n c.2)
      (columnsOf params) intervals := by
    refine compile_mapM (columnsOf params) (Nat.le_refl n) ?_ asked
    intro c member p' n' r q' m' later run
    obtain ⟨b, isParam, rfl⟩ := List.mem_map.mp member
    have below := (old b isParam).2
    refine ⟨isInterval_order known later ⟨below, fun _ _ => trivial⟩ run,
      (isInterval_iff run).trans ⟨?_, ?_⟩⟩
    · exact .elsewhere known below later (Nat.le_refl n)
    · exact .elsewhere known below (Nat.le_refl n) later
  obtain ⟨_, exact⟩ := answers
  rw [List.forall₂_iff_get] at exact
  obtain ⟨length, exact⟩ := exact
  have sameLength : intervals.length = params.length := by
    rw [← length, columnsOf, List.length_map]
  by_cases inRange : j < params.length
  · have here := exact j (by simpa [columnsOf] using inRange) (sameLength ▸ inRange)
    simp only [columnsOf, List.get_eq_getElem, List.getElem_map] at here
    simp [inRange, sameLength, here]
  · simp [inRange, sameLength]

/-- A row for an end comes from a clause for that end. -/
theorem EndRow.Alone.isFor (marks : MarksIntervals env n params intervals) {e : EndRow}
    (alone : e.Alone intervals)
    (patterns : e.row.patterns = e.row.clause.patterns) {side : Endpoint}
    (isSide : e.side? env = some side) : e.row.clause.IsFor env n params e.column side := by
  obtain ⟨p, stands, isCon, interval⟩ := endColumn?_some alone.column
  refine ⟨(marks _).mp interval, ?_, fun i p here => alone.alone i p (patterns ▸ here)⟩
  rw [EndRow.side?, stands] at isSide
  rw [← patterns]
  cases p with
  | shaped shape args =>
      cases shape with
      | con c => exact ⟨c, args, stands, isSide⟩
      | tuple _ => cases isCon
  | _ => cases isCon

/-- A clause for an end gives a row for that end. -/
theorem Clause.IsFor.endRow (marks : MarksIntervals env n params intervals) {row : Row}
    (patterns : row.patterns = row.clause.patterns) {j : Nat} {side : Endpoint}
    (isFor : row.clause.IsFor env n params j side) :
    endColumn? intervals row = some j ∧ EndRow.side? env ⟨row, j⟩ = some side := by
  obtain ⟨c, args, stands, isSide⟩ := isFor.atEnd
  rw [← patterns] at stands
  obtain ⟨i, column⟩ := endColumn?_isSome stands rfl ((marks j).mpr isFor.interval)
  obtain ⟨p, here, isCon, _⟩ := endColumn?_some column
  obtain rfl := isFor.only i p (patterns ▸ here) (notBinding_of_constructor isCon)
  refine ⟨column, ?_⟩
  rw [EndRow.side?, stands]
  exact isSide

/-- The rows of clauses before and after one of them. -/
theorem numbered_split (before after : List Clause) (clause : Clause) : ∃ first row last,
    numbered (before ++ clause :: after) = first ++ row :: last ∧ row.clause = clause ∧
      row.patterns = clause.patterns ∧
      ∀ r ∈ first, r.clause ∈ before ∧ r.patterns = r.clause.patterns := by
  refine ⟨numbered before, ⟨before.length, clause, clause.patterns, .empty⟩,
    (after.zipIdx (before.length + 1)).map fun c => ⟨c.2, c.1, c.1.patterns, .empty⟩, ?_, rfl, rfl,
    fun r member => ?_⟩
  · simp [numbered, List.zipIdx_append, List.zipIdx_cons]
  · obtain ⟨c, isClause, same, patterns, _⟩ := mem_numbered member
    rw [same, patterns]
    exact ⟨isClause, rfl⟩

end Clauses

section Alignment

/-- What is dropped from the front satisfies the condition. -/
theorem dropped_of_lt {α : Type} {f : α → Bool} {l : List α} {i : Nat} {x : α}
    (here : l[i]? = some x) (front : i < l.length - (l.dropWhile f).length) : f x = true := by
  rw [length_dropWhile] at front
  have taken : (l.takeWhile f)[i]? = some x := by
    rw [← here, ← List.getElem?_append_left front, List.takeWhile_append_dropWhile]
  exact List.all_eq_true.mp List.all_takeWhile x (List.mem_of_getElem? taken)

theorem stored_of_notEmpty {ends : List (Ends Term)} {i : Nat} {e : Ends Term}
    (here : ends[i]? = some e) (notEmpty : e.isEmpty = false) :
    ends.length - (ends.dropWhile Ends.isEmpty).length ≤ i := by
  refine Nat.not_lt.mp fun front => ?_
  rw [dropped_of_lt here front] at notEmpty
  cases notEmpty

/-- The ends of the last columns and the arguments of the last parameters: what is paired is of the
    same column. -/
theorem getElem?_pairs {ends : List (Ends Term)} {args : List Term} {width first i : Nat}
    {e : Ends Term} {a : Term} (length : ends.length = width - first) (before : first ≤ width) :
    ((ends.dropWhile Ends.isEmpty).zip
      ((args.take width).drop (width - (ends.dropWhile Ends.isEmpty).length)))[i]? = some (e, a) ↔
    ends[ends.length - (ends.dropWhile Ends.isEmpty).length + i]? = some e ∧
      args[first + (ends.length - (ends.dropWhile Ends.isEmpty).length + i)]? = some a := by
  have shorter := (@List.dropWhile_sublist _ ends Ends.isEmpty).length_le
  have same : width - (ends.dropWhile Ends.isEmpty).length + i =
      first + (ends.length - (ends.dropWhile Ends.isEmpty).length + i) := by
    omega
  rw [List.getElem?_zip_eq_some, getElem?_dropWhile, List.getElem?_drop, same, List.getElem?_take]
  refine and_congr_right fun here => ?_
  have inRange := (List.getElem?_eq_some_iff.mp here).1
  rw [if_pos (by omega)]

variable {params : Telescope} {clauses : List Clause} {intervals : List Bool} {first j : Nat}
  {ends : List (Ends Term)}

theorem endRow_patterns {e : EndRow} (member : e ∈ endRows intervals (numbered clauses)) :
    e.row.clause ∈ clauses ∧ e.row.patterns = e.row.clause.patterns := by
  obtain ⟨clause, isClause, same, patterns, _⟩ := mem_numbered (mem_endRows.mp member).1
  rw [same, patterns]
  exact ⟨isClause, rfl⟩

/-- What stands at an end of the root node comes from a clause for that end. -/
theorem Filled.clause (marks : MarksIntervals env n params intervals) {columns : List Column}
    (filled : Filled env columns intervals (numbered clauses) low first ends) {e : Ends Term}
    {side : Endpoint} {body : Term} (here : ends[j]? = some e) (stands : e.at? side = some body) :
    ∃ clause ∈ clauses, clause.IsFor env n params (first + j) side := by
  obtain ⟨r, member, place, isSide⟩ := filled.source here stands
  obtain ⟨isClause, patterns⟩ := endRow_patterns member
  exact ⟨_, isClause, place ▸ (filled.alone r member).isFor marks patterns isSide⟩

theorem endRows_split {row : Row} (column : endColumn? intervals row = some j) (front last : List Row) :
    endRows intervals (front ++ row :: last) =
      endRows intervals front ++ ⟨row, j⟩ :: endRows intervals last := by
  simp [endRows, column]

/-- The first clause for an end gives the body that stands there. -/
theorem Filled.body (marks : MarksIntervals env n params intervals) {before after : List Clause}
    {clause : Clause} {side : Endpoint} (filled : Filled env (columnsOf params) intervals
      (numbered (before ++ clause :: after)) low first ends)
    (isFor : clause.IsFor env n params j side)
    (isFirst : ∀ c ∈ before, ¬ c.IsFor env n params j side) :
    first ≤ j ∧ ∃ e body row, ends[j - first]? = some e ∧ e.at? side = some body ∧
      row.patterns = clause.patterns ∧ row.clause = clause ∧
        Renamed env (columnsOf params) low ⟨row, j⟩ body := by
  obtain ⟨front, row, last, parts, rfl, patterns, fromBefore⟩ := numbered_split before after clause
  obtain ⟨column, isSide⟩ := isFor.endRow marks patterns
  obtain ⟨b, isParam, _⟩ := isFor.interval
  have inParams := (List.getElem?_eq_some_iff.mp isParam).1
  have member : EndRow.mk row j ∈ endRows intervals (numbered (before ++ row.clause :: after)) := by
    refine mem_endRows.mpr ⟨?_, column⟩
    rw [parts]
    exact List.mem_append_right _ List.mem_cons_self
  have first_le : first ≤ j := filled.first_le member
  have inRange : j - first < ends.length := by
    rw [filled.length, columnsOf, List.length_map]
    omega
  -- no row before it is for the same end
  have found : (endRows intervals (numbered (before ++ row.clause :: after))).find?
      (EndRow.isFor env first (j - first) side) = some ⟨row, j⟩ := by
    have others : ∀ r ∈ endRows intervals front, ¬ r.isFor env first (j - first) side = true := by
      intro r inFront same
      obtain ⟨isRow, rColumn⟩ := mem_endRows.mp inFront
      obtain ⟨isBefore, rPatterns⟩ := fromBefore r.row isRow
      have inRows : r ∈ endRows intervals (numbered (before ++ row.clause :: after)) := by
        rw [parts]
        exact mem_endRows.mpr ⟨List.mem_append_left _ isRow, rColumn⟩
      obtain ⟨place, rSide⟩ := EndRow.isFor_iff.mp same
      have r_le := filled.first_le inRows
      have sameColumn : r.column = j := by omega
      exact isFirst _ isBefore (sameColumn ▸ (filled.alone r inRows).isFor marks rPatterns rSide)
    have here : EndRow.isFor env first (j - first) side ⟨row, j⟩ = true :=
      EndRow.isFor_iff.mpr ⟨rfl, isSide⟩
    rw [parts, endRows_split column, List.find?_append, List.find?_eq_none.mpr others,
      List.find?_cons, here]
    rfl
  have settles := filled.settles (j - first) inRange side
  rw [found] at settles
  obtain ⟨body, stands, renamed⟩ := settles.of_row
  refine ⟨first_le, ends[j - first], body, row, List.getElem?_eq_getElem inRange, ?_, patterns, rfl,
    renamed⟩
  rwa [endAt?, List.getElem?_eq_getElem inRange] at stands

/-- The walk comes to the ends of the column of an argument that is an end with a body, if no earlier
    argument is an end that a clause is for. -/
theorem Filled.tried (known : env.Within (fun _ => True) k)
    (marks : MarksIntervals env n params intervals)
    (filled : Filled env (columnsOf params) intervals (numbered clauses) low first ends)
    {e : Ends Term} {body a : Term} {side : Endpoint} {args : List Term}
    (place : ends[j - first]? = some e) (stands : e.at? side = some body) (first_le : first ≤ j)
    (below : ∀ a ∈ args, a.Below k) (argument : args[j]? = some a)
    (meets : ∃ l, a.whnfEndpoint? env k = .ok (some side, l))
    (earlier : ∀ i < j, ∀ a, args[i]? = some a →
      (∃ c ∈ clauses, ∃ side, c.IsFor env n params i side) →
      ∃ o l, a.whnfEndpoint? env k = .ok (o, l) ∧
        ∀ side ∈ o, ∀ c ∈ clauses, ¬ c.IsFor env n params i side) :
    ∃ l, k ≤ l ∧ tryEnds env (Term.whnf env) ((ends.dropWhile Ends.isEmpty).zip
      ((args.take params.length).drop (params.length - (ends.dropWhile Ends.isEmpty).length)))
        none k = .ok (.body body, l) := by
  have length : ends.length = params.length - first := by
    rw [filled.length, columnsOf, List.length_map]
  have inEnds := (List.getElem?_eq_some_iff.mp place).1
  have inParams : first ≤ params.length := by omega
  -- the column among those whose ends are stored
  obtain ⟨t, here⟩ := Nat.exists_eq_add_of_le (stored_of_notEmpty place (Ends.notEmpty_of_at? stands))
  have paired : ((ends.dropWhile Ends.isEmpty).zip ((args.take params.length).drop
      (params.length - (ends.dropWhile Ends.isEmpty).length)))[t]? = some (e, a) := by
    refine (getElem?_pairs length inParams).mpr ⟨?_, ?_⟩
    · rw [← here, place]
    · rw [← here, Nat.add_sub_cancel' first_le, argument]
  refine tryEnds_first known (fun p member => ?_) paired meets stands
    (fun i before e' a' pair notEmpty => ?_) none (Nat.le_refl k)
  · exact below _ (List.mem_of_mem_take (List.mem_of_mem_drop (List.of_mem_zip member).2))
  · obtain ⟨place', argument'⟩ := (getElem?_pairs length inParams).mp pair
    obtain ⟨side', body', stands'⟩ := Ends.at?_of_notEmpty notEmpty
    obtain ⟨o, l, done, none⟩ := earlier _ (by omega) a' argument'
      (by
        obtain ⟨c, isClause, isFor⟩ := filled.clause marks place' stands'
        exact ⟨c, isClause, side', isFor⟩)
    refine ⟨o, l, done, fun side'' isEnd => ?_⟩
    cases other : e'.at? side'' with
    | none => rfl
    | some body'' =>
        obtain ⟨c, isClause, isFor⟩ := filled.clause marks place' other
        exact absurd isFor (none side'' isEnd c isClause)

end Alignment

section Results

variable {params : Telescope}

theorem columns_old (old : Telescope.Below n params) (order : n ≤ k) :
    ∀ t ∈ (columnsOf params).map (fun c => Term.ref c.1), t.Within (fun _ => True) k := by
  intro t member
  obtain ⟨c, isColumn, rfl⟩ := List.mem_map.mp member
  obtain ⟨b, isParam, rfl⟩ := List.mem_map.mp isColumn
  exact ref_within ((old b isParam).1.trans_le order) trivial

/-- The body that stands at an end, over the arguments: it is that of the clause, with the variables
    of the clause replaced. -/
theorem Renamed.at_arguments (old : Telescope.Below n params) (distinct : params.vars.Nodup)
    {row : Row} {j : Nat} {result : Term} {args : List Term}
    (patterns : row.patterns = row.clause.patterns)
    (width : row.clause.patterns.length = params.length) (enough : params.length ≤ args.length)
    (bodies : ∀ body, row.clause.body = some body → body.Below n)
    (renamed : Renamed env (columnsOf params) n ⟨row, j⟩ result) (below : ∀ a ∈ args, a.Below k)
    (resultBelow : result.Below k) : ∃ body r l, row.clause.body = some body ∧
      (Subst.empty.bind params args).apply env result k = .ok (r, l) ∧
        r.reading = body.reading.inst id (row.clause.standsFor params args) := by
  obtain ⟨body, i, m, isBody, order, applied⟩ := renamed
  -- the body over the columns
  have put : (renameRow row.patterns (columnsOf params)).Within (fun _ => True) i := by
    rw [renameRow_eq]
    exact bindRow_within Subst.within_empty _ (columns_old old order)
  obtain ⟨_, _, overColumns⟩ := put.simple_reading (renameRow_simple _ _)
    ((bodies body isBody).mono order) applied
  -- the columns replaced by the arguments
  have bound : (Subst.empty.bind params args).Within (fun _ => True) k :=
    Subst.within_empty.bind params fun a member => ⟨below a member, fun _ _ => trivial⟩
  have simple : (Subst.empty.bind params args).Simple := .bind ⟨rfl, rfl⟩ params args
  obtain ⟨⟨r, l⟩, done⟩ := simple.apply (n := k) env result
  obtain ⟨_, _, overArguments⟩ := bound.simple_reading simple resultBelow done
  refine ⟨body, r, l, isBody, done, ?_⟩
  rw [overArguments, overColumns, Nameless.inst_inst, patterns]
  congr 1
  funext x
  exact standsFor_eq distinct width enough x

theorem bind_ofPairs (params : Telescope) (args : List Term) :
    Subst.empty.bind (Telescope.ofPairs (columnsOf params)) args = Subst.empty.bind params args := by
  rw [bind_eq, bind_eq]
  congr 1
  simp [paramRow, Telescope.ofPairs, columnsOf]

theorem Built.not_interval {columns : List Column} {rows : List Row} {shown : Telescope}
    {ends : List (Ends Term)} {rest : Option CaseTree} :
    ¬ Built env n columns rows (.interval shown ends rest) m := by
  intro built
  cases built

/-- **Ends of the interval.** Let a tree with the interval at its root be compiled from clauses over
    distinct parameters. Where an argument evaluates to an end that some clause is for, and no earlier
    argument to an end that some clause is for, a run gives the body of the first clause for that end,
    with its variables replaced by the arguments of their columns, applied to the arguments left over;
    what the other arguments are makes no difference. -/
theorem compile_ends {setting : Setting} {span : Span} {outcome : Outcome} {tree : CaseTree}
    {shown : Telescope} {ends : List (Ends Term)} {rest : Option CaseTree} {args : List Term}
    {before after : List Clause} {clause : Clause} {j : Nat} {a : Term} {side : Endpoint}
    (known : setting.env.Within (fun _ => True) n) (old : Telescope.Below n params)
    (distinct : params.vars.Nodup)
    (bodies : ∀ c ∈ before ++ clause :: after, ∀ body, c.body = some body → body.Below n)
    (done : compile setting span params (before ++ clause :: after) n = .ok (outcome, m))
    (given : outcome.tree = some tree) (root : tree = .interval shown ends rest)
    (later : n ≤ k) (treeBelow : tree.Below k) (below : ∀ a ∈ args, a.Below k)
    (enough : params.length ≤ args.length)
    (isFor : clause.IsFor setting.env n params j side)
    (isFirst : ∀ c ∈ before, ¬ c.IsFor setting.env n params j side)
    (argument : args[j]? = some a) (meets : ∃ l, a.whnfEndpoint? setting.env k = .ok (some side, l))
    (earlier : ∀ i < j, ∀ a, args[i]? = some a →
      (∃ c ∈ before ++ clause :: after, ∃ side, c.IsFor setting.env n params i side) →
      ∃ o l, a.whnfEndpoint? setting.env k = .ok (o, l) ∧
        ∀ side ∈ o, ∀ c ∈ before ++ clause :: after, ¬ c.IsFor setting.env n params i side) :
    ∃ body r l, clause.body = some body ∧
      tree.run setting.env (Term.whnf setting.env) args k = .ok (.reduced r, l) ∧
      r.reading = (body.reading.inst id (clause.standsFor params args)).applyAll
        ((args.drop params.length).map Term.reading) := by
  obtain ⟨width, p, q, silent, treed⟩ := compile_tree done given
  obtain ⟨intervals, i, asked, ⟨_, rows⟩ | ⟨_, built⟩⟩ := clausesTree_some treed
  · -- without clauses for ends there is no such root
    have rowWidth : ∀ row ∈ numbered (before ++ clause :: after),
        row.patterns.length = (columnsOf params).length := by
      intro row isRow
      obtain ⟨c, isClause, _, patterns, _⟩ := mem_numbered isRow
      rw [patterns, width c isClause, columnsOf, List.length_map]
    exact (Built.not_interval (root ▸ build_built _ _ _ _ _ _ _ _ _ rowWidth rows)).elim
  · obtain ⟨first, filled, rest', _, isFilled, _, isTree, _⟩ := buildInterval_some built silent
    obtain ⟨rfl, rfl, rfl⟩ : shown = _ ∧ ends = _ ∧ rest = rest' := by
      simpa using root.symm.trans isTree
    have marks := isIntervals_exact known old asked
    obtain ⟨order, _⟩ := isIntervals_answers known
      (fun b isParam => ⟨(old b isParam).2, fun _ _ => trivial⟩) asked
    obtain ⟨first_le, e, result, row, place, stands, patterns, rfl, renamed⟩ :=
      isFilled.body marks isFor isFirst
    have inColumns : first + filled.length = params.length := by
      have inRange := (List.getElem?_eq_some_iff.mp place).1
      have length := isFilled.length
      rw [columnsOf, List.length_map] at length
      omega
    obtain ⟨l, later', tried⟩ := isFilled.tried (known.mono later) marks place stands first_le below
      argument meets earlier
    have resultBelow : result.Below k := by
      obtain ⟨t, there⟩ := Nat.exists_eq_add_of_le
        (stored_of_notEmpty place (Ends.notEmpty_of_at? stands))
      have stored : e ∈ filled.dropWhile Ends.isEmpty :=
        List.mem_of_getElem? ((getElem?_dropWhile _ _ t).trans (there ▸ place))
      subst root
      obtain ⟨left, right⟩ := (CaseTree.below_interval.mp treeBelow).1.2 e stored
      cases side with
      | left => exact left result stands
      | right => exact right result stands
    obtain ⟨body, r, l', isBody, applied, reading⟩ := (renamed.earlier order).at_arguments old
      distinct patterns (width _ (by simp)) enough (bodies _ (by simp))
      (fun a member => (below a member).mono later') (resultBelow.mono later')
    refine ⟨body, r.applyAll (args.drop params.length), l', isBody, ?_, ?_⟩
    · have sized : (Telescope.ofPairs (columnsOf params)).length = params.length := by
        rw [ofPairs_length, columnsOf, List.length_map]
      rw [root, CaseTree.run, CaseTree.walk, sized, if_neg (Nat.not_lt.mpr enough), bind_ofPairs]
      exact fresh_then tried (fresh_then applied rfl)
    · rw [Term.applyAll_reading, reading]

end Results

section Examples

open Library

def crossing : Telescope := Telescope.ofPairs
  [(⟨29, "x"⟩, natType), (⟨30, "i"⟩, intervalType), (⟨31, "y"⟩, natType), (⟨32, "j"⟩, intervalType)]

/-- Ends in two columns, with numbers before each of them. -/
def crossed : List Clause := [
  ⟨.none, [.binding ⟨33, "a"⟩, .binding ⟨34, "i"⟩, .binding ⟨35, "b"⟩, .ofCon right []],
    some (.ref ⟨35, "b"⟩)⟩,
  ⟨.none, [.binding ⟨36, "a"⟩, .ofCon left [], .binding ⟨37, "b"⟩, .binding ⟨38, "j"⟩],
    some (.ref ⟨36, "a"⟩)⟩]

def crossedLast : Clause :=
  ⟨.none, [.binding ⟨39, "a"⟩, .binding ⟨40, "i"⟩, .binding ⟨41, "b"⟩, .ofCon left []],
    some (sucOf (.ref ⟨41, "b"⟩))⟩

def crossedTree : CaseTree := .interval crossing
  [⟨some (.ref ⟨29, "x"⟩), none⟩, ⟨none, none⟩,
    ⟨some (sucOf (.ref ⟨31, "y"⟩)), some (.ref ⟨31, "y"⟩)⟩] none

theorem crossed_compiled : (compile plainSetting .none crossing (crossed ++ [crossedLast]) 42).map
    (fun r => (r.1.tree, r.2)) = .ok (some crossedTree, 42) := rfl

theorem crossedLast_isFor : crossedLast.IsFor (environment 100) 42 crossing 3 .left := by
  refine ⟨⟨_, rfl, interval, _, _, _, _, rfl, rfl, rfl⟩, ⟨left, [], rfl, rfl⟩, ?_⟩
  intro i p here notBinding
  match i with
  | 0 | 1 | 2 =>
      cases here
      cases notBinding
  | 3 => rfl
  | i + 4 => cases here

theorem crossed_notFor : ∀ c ∈ crossed, ¬ c.IsFor (environment 100) 42 crossing 3 .left := by
  refine List.forall_mem_cons.mpr ⟨fun isFor => ?_, List.forall_mem_singleton.mpr fun isFor => ?_⟩
  · obtain ⟨_, _, stands, isLeft⟩ := isFor.atEnd
    cases stands
    cases isLeft
  · obtain ⟨_, _, stands, _⟩ := isFor.atEnd
    cases stands

/-- With a variable for the first end that is looked at, the last column decides. -/
theorem crossed_ends : ∃ r l, crossedTree.run (environment 100) (Term.whnf (environment 100))
      [numeral 3, .ref ⟨42, "z"⟩, numeral 1, leftTerm] 60 = .ok (.reduced r, l) ∧
    r.reading = (numeral 2).reading := by
  obtain ⟨⟨outcome, m⟩, done, same⟩ := map_ok crossed_compiled
  obtain ⟨given, rfl⟩ := Prod.mk.inj same
  have known : plainSetting.env.Within (fun _ => True) 42 :=
    ((library_within 100).mono (by decide)).widen fun _ _ => trivial
  have bodies : ∀ c ∈ crossed ++ crossedLast :: [], ∀ body ∈ c.body, body.Below 42 := by decide
  have below : ∀ a ∈ [numeral 3, .ref ⟨42, "z"⟩, numeral 1, leftTerm], a.Below 60 := by decide
  have earlier : ∀ i < 3, ∀ a, [numeral 3, .ref ⟨42, "z"⟩, numeral 1, leftTerm][i]? = some a →
      ∃ l, a.whnfEndpoint? (environment 100) 60 = .ok (none, l) := by
    intro i before a here
    match i with
    | 0 | 1 | 2 =>
        cases here
        exact ⟨_, rfl⟩
  obtain ⟨body, r, l, isBody, ran, reading⟩ := compile_ends known (by decide) (by decide) bodies done
    given rfl (by decide) (by decide) below (by decide) crossedLast_isFor crossed_notFor rfl ⟨_, rfl⟩
    fun i before a here _ => by
      obtain ⟨l, none⟩ := earlier i before a here
      exact ⟨.none, l, none, nofun⟩
  cases isBody
  exact ⟨r, l, ran, reading⟩

/-- Two parameters of one name. -/
def doubled : Telescope := Telescope.ofPairs [(⟨29, "x"⟩, natType), (⟨29, "x"⟩, intervalType)]

def atDoubled : List Clause := [
  ⟨.none, [.binding ⟨30, "n"⟩, .ofCon left []], some (.ref ⟨30, "n"⟩)⟩,
  ⟨.none, [.binding ⟨31, "n"⟩, .ofCon right []], some (.ref ⟨31, "n"⟩)⟩]

def doubledTree : CaseTree :=
  .interval doubled [⟨some (.ref ⟨29, "x"⟩), some (.ref ⟨29, "x"⟩)⟩] none

def numberAndEnd : Telescope :=
  Telescope.ofPairs [(⟨29, "x"⟩, natType), (⟨30, "i"⟩, intervalType)]

/-- The last clause has an end for a number. -/
def misplaced : List Clause := [
  ⟨.none, [.binding ⟨31, "n"⟩, .ofCon left []], some (numeral 0)⟩,
  ⟨.none, [.binding ⟨32, "n"⟩, .binding ⟨33, "k"⟩], some (numeral 1)⟩,
  ⟨.none, [.ofCon left [], .binding ⟨34, "k"⟩], some (numeral 2)⟩]

def misplacedTree : CaseTree := .interval numberAndEnd [⟨some (numeral 0), none⟩]
  (some (.leaf (Telescope.ofPairs [(⟨35, "x"⟩, natType), (⟨36, "i"⟩, intervalType)]) (numeral 1)))

/-- Where two parameters have one name, the variable of the first one is lost; and a clause for an end at
    a parameter of another type is none of the clauses for the ends. -/
theorem doubled_mistakes :
    ((compile plainSetting .none doubled atDoubled 32).map (fun r => (r.1.tree, r.2)) =
        .ok (some doubledTree, 32) ∧
      leftTerm.whnfEndpoint? (environment 100) 32 = .ok (some .left, 32) ∧
      doubledTree.run (environment 100) (Term.whnf (environment 100)) [numeral 5, leftTerm] 32 =
        .ok (.reduced leftTerm, 32) ∧
      columnOf? ⟨30, "n"⟩ [.binding ⟨30, "n"⟩, .ofCon left []] = some 0 ∧
      leftTerm.reading ≠ (numeral 5).reading) ∧
    (compile plainSetting .none numberAndEnd misplaced 35).map (fun r => (r.1.tree, r.2)) =
        .ok (some misplacedTree, 37) ∧
      misplacedTree.run (environment 100) (Term.whnf (environment 100)) [leftTerm, rightTerm] 37 =
        .ok (.reduced (numeral 1), 37) ∧
      (numeral 1).reading ≠ (numeral 2).reading := by
  refine ⟨⟨rfl, rfl, rfl, rfl, fun same => ?_⟩, rfl, rfl, fun same => ?_⟩
  · cases same
  · cases same

end Examples

end Matching

end PathTheory
