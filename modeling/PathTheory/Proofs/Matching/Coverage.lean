import PathTheory.Proofs.Matching.Nodes
import PathTheory.Proofs.Matching.Numerals
/-!
Coverage. On constructor values of the types of its columns, a compiled tree always ends in a body:
at every node there are as many arguments as it takes, every inspected argument is a value, and every
value has a branch.
-/
namespace PathTheory

/-- Arguments lead through the tree to a leaf that takes all that are left. -/
inductive CaseTree.Takes (env : Environment) : CaseTree → List Term → Prop
  | leaf {params : Telescope} {body : Term} {args : List Term} : args.length = params.length →
      Takes env (.leaf params body) args
  | branch {params : Telescope} {children : List (Shape × CaseTree)} {args others : List Term}
      {v : Term} {shape k : Shape} {components : List Term} {child : CaseTree} :
      params.length ≤ args.length → args.drop params.length = v :: others →
      (∀ n, v.whnf env n = .ok (v, n)) → v.shape? = some (shape, components) →
      (children.find? fun entry => entry.1.matches shape) = some (k, child) →
      Takes env child (components ++ others) → Takes env (.branch params children) args

theorem walkChildren_found {env : Environment} {whnf : Term → Fresh Term} {s : Subst}
    {shape k : Shape} {child : CaseTree} {args : List Term} :
    ∀ {children : List (Shape × CaseTree)},
    (children.find? fun entry => entry.1.matches shape) = some (k, child) →
    walkChildren env whnf s shape children args = child.walk env whnf s args
  | [], found => by cases found
  | (l, tree) :: others, found => by
      unfold walkChildren
      rw [List.find?_cons] at found
      cases hit : l.matches shape with
      | true =>
          simp only [hit, Option.some.injEq, Prod.mk.injEq] at found
          simp [found.2]
      | false =>
          simp only [hit] at found
          simpa using walkChildren_found found

/-- Arguments that a tree takes reduce to a body. -/
theorem CaseTree.Takes.walk {env : Environment} {tree : CaseTree} {args : List Term}
    (takes : tree.Takes env args) : ∀ {s : Subst} (n : Nat), s.Simple →
      ∃ t m, tree.walk env (Term.whnf env) s args n = .ok (.reduced t, m) := by
  induction takes with
  | @leaf params body args length =>
      intro s n simple
      obtain ⟨⟨t, m⟩, done⟩ := (simple.bind params args).apply (n := n) env body
      refine ⟨t.applyAll (args.drop params.length), m, ?_⟩
      unfold CaseTree.walk
      rw [if_neg (by omega)]
      exact fresh_then done rfl
  | @branch params children args others v shape k components child enough left value shown found
      _ ih =>
      intro s n simple
      obtain ⟨t, m, done⟩ := ih n (simple.bind params args)
      refine ⟨t, m, ?_⟩
      unfold CaseTree.walk
      rw [if_neg (Nat.not_lt.mpr enough), left]
      refine fresh_then (value n) ?_
      simp only [shown]
      rw [walkChildren_found found]
      exact done

/-- Terms that show a shape reduce to themselves, once reduction can run at all. -/
theorem Term.whnf_shown {env : Environment} {t r v : Term} {n m : Nat}
    (ran : t.whnf env n = .ok (r, m)) {shape : Shape} {components : List Term}
    (shown : v.shape? = some (shape, components)) (k : Nat) : v.whnf env k = .ok (v, k) := by
  unfold whnf at ran ⊢
  cases fuel : env.fuel with
  | zero =>
      rw [fuel] at ran
      cases ran
  | succ fuel =>
      cases v with
      | con c levels params args => rfl
      | tuple components type => rfl
      | _ => cases shown

namespace Matching

section Untruncated

variable (env : Environment)

/-- No data type with the constructor of the value is truncated. -/
def Untruncated (v : Term) : Prop :=
  ∀ c args, v.shape? = some (.con c, args) → ∀ d data, env.data? d = some data →
    c ∈ data.constructors → data.truncated = false

mutual

/-- Patterns other than variables stand against values of untruncated data types, as far as pattern
    and value have the same shape. -/
def Spares : Pattern → Term → Prop
  | .binding _, _ => True
  | .absurd, v => Untruncated env v
  | .shaped k args, v => Untruncated env v ∧
      ∀ components, v.shape? = some (k, components) → RowSpares args components

def RowSpares : List Pattern → List Term → Prop
  | [], _ => True
  | p :: row, values => match values with
      | [] => True
      | v :: values => Spares p v ∧ RowSpares row values

end

variable {env}

theorem RowSpares.at {row : List Pattern} {values : List Term} (spares : RowSpares env row values)
    {i : Nat} {p : Pattern} {v : Term} (pattern : row[i]? = some p) (value : values[i]? = some v) :
    Spares env p v := by
  induction row generalizing values i with
  | nil => cases pattern
  | cons q row ih =>
      cases values with
      | nil => cases value
      | cons w values =>
          cases i with
          | zero =>
              cases pattern
              cases value
              exact spares.1
          | succ i => exact ih spares.2 (by simpa using pattern) (by simpa using value)

theorem RowSpares.drop {row : List Pattern} {values : List Term}
    (spares : RowSpares env row values) (k : Nat) :
    RowSpares env (row.drop k) (values.drop k) := by
  induction row generalizing values k with
  | nil =>
      rw [List.drop_nil]
      trivial
  | cons p row ih =>
      cases values with
      | nil =>
          rw [List.drop_nil]
          cases (p :: row).drop k <;> trivial
      | cons v values =>
          cases k with
          | zero => exact spares
          | succ k => exact ih spares.2 k

theorem RowSpares.append {row others : List Pattern} {values rest : List Term}
    (first : RowSpares env row values) (later : RowSpares env others rest)
    (length : row.length = values.length) : RowSpares env (row ++ others) (values ++ rest) := by
  induction row generalizing values with
  | nil =>
      cases values with
      | nil => exact later
      | cons v values => cases length
  | cons p row ih =>
      cases values with
      | nil => cases length
      | cons v values => exact ⟨first.1, ih first.2 (Nat.succ.inj length)⟩

theorem rowSpares_bindings {α : Type} (f : α → Var) (l : List α) (values : List Term) :
    RowSpares env (l.map fun a => .binding (f a)) values := by
  induction l generalizing values with
  | nil => trivial
  | cons a l ih =>
      cases values with
      | nil => trivial
      | cons v values => exact ⟨trivial, ih values⟩

/-- Where a pattern other than a variable stands against a value, its data type is not truncated. -/
theorem Spares.untruncated {p : Pattern} {v : Term} (spares : Spares env p v)
    (notBinding : p.isBinding = false) : Untruncated env v := by
  cases p with
  | binding x => cases notBinding
  | absurd => exact spares
  | shaped k args => exact spares.1

end Untruncated

/-- No row's patterns stand against values of truncated data types. -/
def RowsSpare (env : Environment) (rows : List Row) (args : List Term) : Prop :=
  ∀ row ∈ rows, RowSpares env row.patterns args

section Coverage

variable {env : Environment} {R : Nameless → Nameless → Prop}

theorem RowsSpare.pass {before : List Column} {rows : List Row} {first others : List Term}
    (spare : RowsSpare env rows (first ++ others)) (length : first.length = before.length) :
    RowsSpare env (rows.map (·.pass before)) others := by
  intro row member
  obtain ⟨original, isRow, rfl⟩ := List.mem_map.mp member
  have spares := (spare original isRow).drop before.length
  rw [← length, List.drop_left] at spares
  rwa [length] at spares

/-- The inspected value is of an untruncated data type. -/
theorem RowsSpare.untruncated {before : List Column} {rows : List Row} {first others : List Term}
    {v : Term} (spare : RowsSpare env rows (first ++ v :: others))
    (length : first.length = before.length) (inspects : Inspects before rows) :
    Untruncated env v := by
  obtain ⟨row, isRow, p, stands, notBinding⟩ := inspects.apart
  refine Spares.untruncated ((spare row isRow).at stands ?_) notBinding
  rw [← length]
  simp

theorem RowsSpare.enter {V : Var → Prop} {σ σ' : Var → Nameless} {column : Column}
    {rest fields columns : List Column} {rows inner : List Row} {shape : Shape} {value v : Term}
    {components others : List Term} {k n m : Nat}
    (spare : RowsSpare env rows (v :: others))
    (node : Node R env V k (column :: rest) rows (v :: others) σ)
    (enters : Enters env column rest rows shape value fields n columns inner m)
    (below : Node R env V m columns inner (components ++ others) σ')
    (shown : v.shape? = some (shape, components)) :
    RowsSpare env inner (components ++ others) := by
  intro row member
  have width := below.width row member
  have length := List.Forall₂.length_eq below.aligned
  have outerLength := List.Forall₂.length_eq node.aligned
  rw [enters.rows] at member
  obtain ⟨original, isRow, entered⟩ := List.mem_filterMap.mp member
  have spares := spare original isRow
  have outer := node.width original isRow
  rcases enter_cases entered with ⟨args, tail, here, rfl⟩ | ⟨x, tail, here, rfl⟩
  · rw [here] at spares outer
    refine RowSpares.append (spares.1.2 components shown) spares.2 ?_
    simp only [List.length_append, List.length_cons] at width length outer outerLength
    omega
  · rw [here] at spares outer
    refine RowSpares.append (rowSpares_bindings _ _ _) spares.2 ?_
    simp only [List.length_cons] at outer outerLength
    simp only [List.length_append, List.length_map] at width length
    rw [List.length_map]
    omega

theorem matches_con {k : Shape} {c : DefId} : k.matches (.con c) = true ↔ k = .con c := by
  cases k <;> simp [Shape.matches]

theorem ofPairs_length (columns : List Column) :
    (Telescope.ofPairs columns).length = columns.length := by
  simp [Telescope.ofPairs]

/-- Every constructor of the type has a branch, or there is no value. -/
theorem takes_branch {before : List Column} {children : List (Shape × CaseTree)}
    {first others components : List Term} {v t r : Term} {n m : Nat} {shape k : Shape}
    {child : CaseTree} (length : first.length = before.length)
    (ran : t.whnf env n = .ok (r, m)) (shown : v.shape? = some (shape, components))
    (found : (children.find? fun entry => entry.1.matches shape) = some (k, child))
    (takes : child.Takes env (components ++ others)) :
    (CaseTree.branch (Telescope.ofPairs before) children).Takes env (first ++ v :: others) := by
  have left : (first ++ v :: others).drop (Telescope.ofPairs before).length = v :: others := by
    rw [ofPairs_length, ← length, List.drop_left]
  refine .branch ?_ left (Term.whnf_shown ran shown) shown found takes
  rw [ofPairs_length, ← length, List.length_append]
  exact Nat.le_add_right _ _

mutual

/-- A tree that was built takes all values of the types of its columns. -/
theorem Built.takes (likeness : Likeness R) : ∀ {V : Var → Prop} {n m : Nat}
    {columns : List Column} {rows : List Row} {tree : CaseTree} {args : List Term}
    {σ : Var → Nameless}, Built env n columns rows tree m →
    Node R env V n columns rows args σ → RowsSpare env rows args → tree.Takes env args
  | V, n, m, columns, _, _, args, σ, .leaf _ _ _, node, _ => by
      refine .leaf ?_
      rw [ofPairs_length]
      exact (List.Forall₂.length_eq node.aligned).symm
  | V, n, m, columns, _, _, args, σ, .empty found, node, _ => by
      obtain ⟨_, column, rest, k, l, d, u, dataArgs, data, rfl, order, reduced, known, lacks⟩ :=
        beforeEmpty_some node.known node.scope found
      obtain ⟨_, v, _, _, _, _, _, _, fits, _⟩ := (node.mono order).inspect likeness reduced
      obtain ⟨data', c, con, _, known', isCon, _⟩ := fits.data
      rw [known] at known'
      cases known'
      rw [lacks] at isCon
      cases isCon
  | V, n, m, _, _, _, args, σ, .absurd inspects reduced found lacks _, node, spare => by
      obtain ⟨first, v, others, rfl, length, _, _, _, fits, _⟩ := node.inspect likeness reduced
      obtain ⟨data', c, con, args, known', isCon, made⟩ := fits.data
      rw [found] at known'
      cases known'
      have untruncated := spare.untruncated length inspects c args made.shown _ _ found isCon
      rw [lacks untruncated] at isCon
      cases isCon
  | V, n, m, _, _, _, args, σ, .data inspects reduced found complete children, node, spare => by
      obtain ⟨first, v, others, rfl, length, _, _, shapeIn, fits, below⟩ :=
        node.inspect likeness reduced
      obtain ⟨data', c, con, args, known', isCon, made⟩ := fits.data
      rw [found] at known'
      cases known'
      have untruncated := spare.untruncated length inspects c args made.shown _ _ found isCon
      rw [← complete untruncated] at isCon
      obtain ⟨child, here, takes⟩ := children.takes likeness below (spare.pass length)
        (Term.within_data.mp shapeIn) made isCon
      exact takes_branch length reduced made.shown here takes
  | V, n, m, _, _, _, args, σ, .tuple inspects reduced fresh enters child, node, spare => by
      obtain ⟨first, v, others, rfl, length, _, _, shapeIn, fits, here⟩ :=
        node.inspect likeness reduced
      obtain ⟨components, made⟩ := fits.sigma
      obtain ⟨σ', taken⟩ := taken_tuple shapeIn made fresh
      obtain ⟨_, below⟩ := here.enter likeness taken enters
      have shown := made.shown
      rw [made.fits.length] at shown
      have takes := child.takes likeness below
        ((spare.pass length).enter here enters below shown)
      exact takes_branch length reduced made.shown (List.find?_cons_of_pos rfl) takes

theorem BuiltAll.takes (likeness : Likeness R) : ∀ {V : Var → Prop} {n m : Nat} {data : DataDef}
    {u : Universe} {dataArgs : List Term} {column : Column} {rest : List Column} {rows : List Row}
    {live : List DefId} {children : List (Shape × CaseTree)} {c : DefId} {con : ConstructorDef}
    {v : Term} {args others : List Term} {σ : Var → Nameless},
    BuiltAll env data u dataArgs column rest rows n live children m →
    Node R env V n (column :: rest) rows (v :: others) σ → RowsSpare env rows (v :: others) →
    (∀ a ∈ dataArgs, a.Within V n) → v.MadeBy R env σ data u dataArgs c con args → c ∈ live →
    ∃ child, (children.find? fun entry => entry.1.matches (.con c)) = some (.con c, child) ∧
      child.Takes env (args ++ others)
  | _, _, _, _, _, _, _, _, _, _, _, c, _, _, _, _, _, .nil, _, _, _, _, member => by
      cases member
  | V, n, m, _, _, _, _, _, _, _, _, c, con, v, args, others, σ, .skip undefined below, node, spare,
      argsIn, made, member => by
      rcases List.mem_cons.mp member with rfl | later
      · cases undefined.symm.trans made.defined
      · exact below.takes likeness node spare argsIn made later
  | V, n, m, _, _, _, _, _, _, first :: _, _, c, con, v, args, others, σ,
      .child defined fresh enters tree below, node, spare, argsIn, made, member => by
      by_cases same : c = first
      · subst same
        cases defined.symm.trans made.defined
        obtain ⟨σ', taken⟩ := node.taken_con argsIn made fresh
        obtain ⟨_, inner⟩ := node.enter likeness taken enters
        refine ⟨_, List.find?_cons_of_pos (matches_con.mpr rfl), ?_⟩
        exact tree.takes likeness inner (spare.enter node enters inner made.shown)
      · have order := (BuiltAll.child defined fresh enters tree .nil).order node.known node.scope
          argsIn node.simple
        obtain ⟨child, found, takes⟩ := below.takes likeness (node.mono order) spare
          (within_later argsIn order) made ((List.mem_cons.mp member).resolve_left same)
        refine ⟨child, ?_, takes⟩
        rw [List.find?_cons_of_neg, found]
        rw [matches_con, Shape.con.injEq]
        exact fun hit => same hit.symm

end

/-- A tree that the compiler gives takes the values of the parameter types. -/
theorem compile_takes {setting : Setting} {span : Span} {params : Telescope}
    {clauses : List Clause} {n m : Nat} {outcome : Outcome} {tree : CaseTree} {args : List Term}
    (known : setting.env.Within (fun _ => True) n) (old : Telescope.Below n params)
    (proper : Telescope.Proper params)
    (noInterval : NoIntervalPattern setting.env params clauses)
    (done : compile setting span params clauses n = .ok (outcome, m))
    (given : outcome.tree = some tree)
    (values : fieldsFit Nameless.Alike setting.env args params id .free)
    (spare : ∀ clause ∈ clauses, RowSpares setting.env clause.patterns args) :
    tree.Takes setting.env args := by
  obtain ⟨width, l, order, built⟩ := compile_built known
    (fun b isParam => ⟨(old b isParam).2, fun _ _ => trivial⟩) noInterval done given
  obtain ⟨σ, _, aligned⟩ := params_aligned proper values
  have node := root_node (known.mono order) (old.mono order) (fun _ _ => trivial) width aligned
  have spares : RowsSpare setting.env (numbered clauses) args := by
    intro row member
    obtain ⟨clause, isClause, _, patterns, _⟩ := mem_numbered member
    rw [patterns]
    exact spare clause isClause
  exact built.takes .alike node spares

/-- **Coverage.** If the clauses match no end of the interval and the compiler gives a tree for
    them, then every list of constructor values of the parameter types that meets no truncated data
    where a pattern is not a variable runs through the tree to a body, with no argument left over or
    short. -/
theorem compile_covers {setting : Setting} {span : Span} {params : Telescope}
    {clauses : List Clause} {n m : Nat} {outcome : Outcome} {tree : CaseTree} {args : List Term}
    (known : setting.env.Within (fun _ => True) n) (old : Telescope.Below n params)
    (proper : Telescope.Proper params)
    (noInterval : NoIntervalPattern setting.env params clauses)
    (done : compile setting span params clauses n = .ok (outcome, m))
    (given : outcome.tree = some tree)
    (values : fieldsFit Nameless.Alike setting.env args params id .free)
    (spare : ∀ clause ∈ clauses, RowSpares setting.env clause.patterns args) (k : Nat) :
    tree.Takes setting.env args ∧
      ∃ t l, tree.run setting.env (Term.whnf setting.env) args k = .ok (.reduced t, l) := by
  have takes := compile_takes known old proper noInterval done given values spare
  exact ⟨takes, takes.walk k ⟨rfl, rfl⟩⟩

end Coverage

section Examples

open Library

def plainSetting : Setting := ⟨environment 100, .standard, true, false, none⟩

def counted : Telescope := Telescope.ofPairs [(⟨29, "x"⟩, natType)]

/-- Two less, as long as there are two. -/
def lessening : List Clause := [
  ⟨.none, [.ofCon suc [.ofCon suc [.binding ⟨30, "n"⟩]]], some (.ref ⟨30, "n"⟩)⟩,
  ⟨.none, [.binding ⟨31, "k"⟩], some (.ref ⟨31, "k"⟩)⟩]

theorem lessening_spares : ∀ clause ∈ lessening,
    RowSpares (environment 100) clause.patterns [numeral 3] := by
  have untruncated : ∀ v, Untruncated (environment 100) v := fun _ _ _ _ _ _ known _ =>
    library_untruncated known
  have inner : RowSpares (environment 100) [.ofCon suc [.binding ⟨30, "n"⟩]] [numeral 2] := by
    refine ⟨⟨untruncated _, ?_⟩, trivial⟩
    rintro _ ⟨⟩
    exact ⟨trivial, trivial⟩
  refine List.forall_mem_cons.mpr ⟨⟨⟨untruncated _, ?_⟩, trivial⟩, List.forall_mem_singleton.mpr
    ⟨trivial, trivial⟩⟩
  rintro _ ⟨⟩
  exact inner

theorem counted_plain (clauses : List Clause) :
    NoIntervalPattern (environment 100) counted clauses := by
  intro clause _ entry member _
  have isParam := List.mem_singleton.mp (List.of_mem_zip member).2
  rw [isParam]
  exact natType_notInterval (library_hasNat 100)

theorem lessening_covers : ∃ tree t l, (compile plainSetting .none counted lessening 32).map
      (fun r => r.1.tree) = .ok (some tree) ∧
    tree.Takes (environment 100) [numeral 3] ∧
    tree.run (environment 100) (Term.whnf (environment 100)) [numeral 3] 0 =
      .ok (.reduced t, l) := by
  have run : ∃ outcome m tree, compile plainSetting .none counted lessening 32 = .ok (outcome, m) ∧
      outcome.tree = some tree := ⟨_, _, _, rfl, rfl⟩
  obtain ⟨outcome, m, tree, done, given⟩ := run
  have known : plainSetting.env.Within (fun _ => True) 32 :=
    ((library_within 100).mono (by decide)).widen fun _ _ => trivial
  have proper : Telescope.Proper counted := by
    simp [counted, Telescope.ofPairs, Telescope.Proper, natType, Term.freeVars, termsFree]
  have values : fieldsFit Nameless.Alike plainSetting.env [numeral 3] counted id .free :=
    ⟨numeral_inhabits .alike (fun _ _ => id) (library_hasNat 100) 3, trivial⟩
  obtain ⟨takes, t, l, reduced⟩ := compile_covers known (by decide) proper (counted_plain _) done
    given values lessening_spares 0
  exact ⟨tree, t, l, by rw [done, ← given]; rfl, takes, reduced⟩

def boolType : Term := .data ⟨11, "Bool"⟩ .set0 []

def trueCon : DefId := ⟨12, "true"⟩

def falseCon : DefId := ⟨13, "false"⟩

/-- A family over the interval that is the natural numbers at the left end, and elsewhere says at
    zero that it is something else. -/
def bentFunction : Definition :=
  let n : Var := ⟨29, "n"⟩
  let i : Var := ⟨30, "i"⟩
  let m : Var := ⟨31, "m"⟩
  .function
    { params := Telescope.ofPairs [(n, natType), (i, intervalType)]
      result := .univ .set0
      body := some (.tree (.interval (Telescope.ofPairs [(n, natType), (i, intervalType)])
        [⟨some natType, none⟩] (some (.branch [] [
          (.con zero, .leaf (Telescope.ofPairs [(i, intervalType)]) boolType),
          (.con suc, .leaf (Telescope.ofPairs [(m, natType), (i, intervalType)]) natType)]))))
      transports := false
      status := .done }

def bentEnvironment : Environment := { environment 100 with
  definitions := (environment 100).definitions ++ #[
    .data ⟨[], .set0, [trueCon, falseCon], false, false⟩,
    .constructor ⟨⟨11, "Bool"⟩, [], 0⟩, .constructor ⟨⟨11, "Bool"⟩, [], 0⟩, bentFunction] }

def bentType (i : Term) : Term := .call ⟨14, "G"⟩ .set0 [zeroTerm, i]

def bentParams : Telescope :=
  Telescope.ofPairs [(⟨32, "i"⟩, intervalType), (⟨33, "x"⟩, bentType (.ref ⟨32, "i"⟩))]

def bentClauses : List Clause := [
  ⟨.none, [.binding ⟨34, "i"⟩, .ofCon trueCon []], some (numeral 1)⟩,
  ⟨.none, [.binding ⟨35, "i"⟩, .binding ⟨36, "z"⟩], some (numeral 2)⟩]

def bentSetting : Setting := ⟨bentEnvironment, .standard, true, false, none⟩

def bentTree : CaseTree := .branch (Telescope.ofPairs [(⟨32, "i"⟩, intervalType)])
  [(.con trueCon, .leaf [] (numeral 1)), (.con falseCon, .leaf [] (numeral 2))]

/-- The type of the second parameter is split as it reduces with the variable in it. With the left
    end in its place it reduces to another data type, and a value of that one has no branch. -/
theorem bentClauses_miss :
    (compile bentSetting .none bentParams bentClauses 37).map (fun r => r.1.tree) =
      .ok (some bentTree) ∧
    NoIntervalPattern bentEnvironment bentParams bentClauses ∧
    leftTerm.Inhabits Eq bentEnvironment intervalType.reading ∧
    (bentType leftTerm).whnf bentEnvironment 37 = .ok (natType, 37) ∧
    (numeral 5).Inhabits Eq bentEnvironment natType.reading ∧
    bentTree.run bentEnvironment (Term.whnf bentEnvironment) [leftTerm, numeral 5] 37 =
      .ok (.missing, 37) := by
  have reduces : ∀ n, (bentType (.ref ⟨32, "i"⟩)).whnf bentEnvironment n = .ok (boolType, n) :=
    fun _ => rfl
  refine ⟨rfl, ?_, ?_, rfl, numeral_inhabits .eq Likeness.eq_sees ⟨rfl, rfl, rfl⟩ 5, rfl⟩
  · have second : ¬ IntervalType bentEnvironment (bentType (.ref ⟨32, "i"⟩)) := by
      rintro ⟨n, d, u, args, m, data, reduced, known, interval⟩
      cases (reduces n).symm.trans reduced
      cases known
      cases interval
    intro clause isClause entry member isCon
    simp only [bentClauses, List.mem_cons, List.not_mem_nil, or_false] at isClause
    rcases isClause with rfl | rfl
    · simp only [bentParams, Telescope.ofPairs, List.map, List.zip_cons_cons, List.zip_nil_left,
        List.mem_cons, List.not_mem_nil, or_false] at member
      rcases member with rfl | rfl
      · cases isCon
      · exact second
    · simp only [bentParams, Telescope.ofPairs, List.map, List.zip_cons_cons, List.zip_nil_left,
        List.mem_cons, List.not_mem_nil, or_false] at member
      rcases member with rfl | rfl <;> cases isCon
  · refine inhabits_constant Likeness.eq_sees fun σ => ?_
    exact ⟨_, _, rfl, List.mem_cons_self, rfl, rfl, trivial⟩

end Examples

end Matching

end PathTheory
