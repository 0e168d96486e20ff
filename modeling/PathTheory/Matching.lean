import PathTheory.Pattern
import PathTheory.Diagnostic
import PathTheory.Typing
/-!
Clauses compiled to case trees. Rows of patterns are split column by column: the first column
in which some row is not a variable is inspected, every constructor gets the rows that can still
match, and the first row of variables only gives the body. Coverage, truncation and redundancy
are checked on the way. Clauses that match an end of the interval come first and apart from the
others.
-/
namespace PathTheory

structure Config where
  -- missing clauses listed before the report is cut short
  missingLimit : Nat
  reportRedundant : Bool
  -- whether function bodies may eliminate the interval
  allowInterval : Bool
deriving DecidableEq

def Config.standard : Config := ⟨10, true, true⟩

namespace Matching

/-- A clause whose patterns have been checked. The body is in scope of the pattern variables; it is
    absent if a pattern is absurd. -/
structure Clause where
  span : Span
  patterns : List Pattern
  body : Option Term

/-- What is fixed while one definition is compiled. -/
structure Setting where
  env : Environment
  config : Config
  -- whether constraints on inferred levels may be recorded
  acceptsLevels : Bool
  -- the clauses of a case expression may not match the interval
  inCase : Bool
  -- the universe of the result, if it is known
  resultSort : Option Universe

structure Progress where
  -- numbers of the clauses that some branch leads to
  used : List Nat
  missing : List String
  missingTruncated : Bool
  demands : List Demand
  -- in the order in which they were found
  diagnostics : List Diagnostic

def Progress.start : Progress := ⟨[], [], false, [], []⟩

abbrev Compile := ReaderT Setting (StateT Progress Fresh)

abbrev Column := Var × Term

structure Row where
  number : Nat
  clause : Clause
  patterns : List Pattern
  -- pattern variables matched so far, in terms of the variables of the tree
  subst : Subst

/-- A value taken apart on the way to a node: the columns bound before it and its shape. -/
structure Frame where
  before : List Var
  shape : Shape
  arity : Nat

/-- Patterns for the columns at a node as patterns for the columns at the root; the innermost frame
    comes first. -/
def rebuild : List Frame → List Pattern → List Pattern
  | [], row => row
  | frame :: outer, row =>
      rebuild outer (frame.before.map .binding ++
        .shaped frame.shape (row.take frame.arity) :: row.drop frame.arity)

def fail (span : Span) (problem : Problem) : Compile Unit :=
  modify fun p => { p with diagnostics := p.diagnostics ++ [⟨span, problem⟩] }

def failed : Compile Bool := return !(← get).diagnostics.isEmpty

def markUsed (row : Row) : Compile Unit :=
  modify fun p => { p with used := row.number :: p.used }

def reading {α : Type} (f : Environment → Fresh α) : Compile α := do f (← read).env

def isInterval (type : Term) : Compile Bool := do
  let env := (← read).env
  match ← reading type.whnf with
  | .data d _ _ => return (env.data? d).any DataDef.interval
  | _ => return false

/-- Pattern variables become the variables of their columns. -/
def bindColumns (s : Subst) (row : List Pattern) (columns : List Column) : Subst :=
  (row.zip columns).foldl (fun s (pattern, column) => match pattern with
    | .binding x => if x = column.1 then s else s.add x (.ref column.1)
    | _ => s) s

def leaf (columns : List Column) (row : Row) : Compile (Option CaseTree) := do
  markUsed row
  match row.clause.body with
  | none =>
      fail row.clause.span .clauseWithoutBody
      return none
  | some body =>
      let s := bindColumns row.subst row.patterns columns
      let body ← reading fun env => s.apply env body
      return some (.leaf (Telescope.ofPairs columns) body)

def recordMissing (row : List Pattern) : Compile Unit := do
  let limit := (← read).config.missingLimit
  modify fun p =>
    if p.missing.length ≥ limit then { p with missingTruncated := true }
    else { p with missing := p.missing ++ [Pattern.rowText row] }

def lacksConstructors (env : Environment) : Term → Bool
  | .data d _ _ => (env.data? d).any (·.constructors.isEmpty)
  | _ => false

/-- The columns before the first one whose type has no constructors. -/
def beforeEmpty (env : Environment) : List Column → Fresh (Option (List Column))
  | [] => return none
  | (x, type) :: rest => do
      if lacksConstructors env (← type.whnf env) then return some []
      return (← beforeEmpty env rest).map ((x, type) :: ·)

/-- No clause is left. That is fine if there is no value to match, and a missing clause
    otherwise. -/
def uncovered (columns : List Column) (path : List Frame) : Compile (Option CaseTree) := do
  match ← reading (beforeEmpty · columns) with
  | some before => return some (.branch (Telescope.ofPairs before) [])
  | none =>
      recordMissing (rebuild path (columns.map fun c => .binding c.1))
      return none

/-- Copies of bindings with variables of their own. -/
def freshen (env : Environment) : Subst → List Column → Fresh (List Column)
  | _, [] => return []
  | s, (x, type) :: rest => do
      let type ← s.apply env type
      let y ← x.renamed
      return (y, type) :: (← freshen env (s.add x (.ref y)) rest)

def columnsOf (params : Telescope) : List Column := params.map fun b => (b.var, b.type)

/-- The homotopy level of a sort as a number of dimensions, if it is a constant. -/
def dimensions (h : Level) : Checked (Option Int) :=
  match h with
  | .const c => return some (← Bounded.add c 1)
  | _ => return none

def compareLevels (a b : Level) : Compile Bool := do
  let c := Universe.Comparison.of (← read).acceptsLevels (← a.compare b .le)
  modify fun p => { p with demands := p.demands ++ c.demands }
  return c.holds

/-- Whether the result is at most as high as the data. -/
def levelFits (result data : Level) : Compile Bool := do
  match ← dimensions result, ← dimensions data with
  | some l, some d => if l ≤ d then return true else compareLevels result data
  | _, _ => compareLevels result data

/-- For truncated data: the number of interval dimensions up to which constructors still matter in
    the result, if there is such a bound. There is no answer if the result is too high. -/
def truncationLevel (rows : List Row) (data : DataDef) (type : Term) :
    Compile (Option (Option Int)) := do
  if !data.truncated then return some none
  let some result := (← read).resultSort | return some none
  if ← levelFits result.h data.sort.h then return some (← dimensions result.h)
  let span := (rows.head?.map (·.clause.span)).getD .none
  fail span (.truncation (← type.text) (← result.text))
  return none

/-- Turns down the first row whose next pattern is bad. -/
def refuse (rows : List Row) (bad : Pattern → Bool) (problem : Pattern → Checked Problem) :
    Compile Bool := do
  match rows.find? fun r => bad (r.patterns.headD .absurd) with
  | none => return false
  | some row =>
      fail row.clause.span (← problem (row.patterns.headD .absurd))
      return true

def notConstructor (type : Term) (pattern : Pattern) : Checked Problem :=
  return .expectedConstructor pattern.text (← type.text)

/-- A row in the branch for a shape: its pattern is taken apart, or a variable stands for the whole
    value; other constructors are left out. -/
def Row.enter (row : Row) (shape : Shape) (value : Term) (fields : List Column) : Option Row :=
  match row.patterns with
  | .shaped k args :: rest => if k = shape then some { row with patterns := args ++ rest } else none
  | .binding x :: rest => some { row with
      patterns := fields.map (fun f => .binding f.1) ++ rest
      subst := row.subst.add x value }
  | _ => none

/-- What is left of a row when it binds the columns before the inspected one. -/
def Row.pass (row : Row) (before : List Column) : Row := { row with
  patterns := row.patterns.drop before.length
  subst := bindColumns row.subst (row.patterns.take before.length) before }

/-- The types of columns with values put in. -/
def replaceIn (env : Environment) (s : Subst) (columns : List Column) : Fresh (List Column) :=
  columns.mapM fun (x, type) => return (x, ← s.apply env type)

/-- Constructors that count for the result: those of a bounded number of dimensions, if there is a
    bound. -/
def live (env : Environment) (data : DataDef) (level : Option Int) : List DefId :=
  data.constructors.filter fun c => match level, env.constructor? c with
    | some level, some con => Bounded.wrap con.intervals ≤ level
    | _, _ => true

def isAbsurd : Pattern → Bool
  | .absurd => true
  | _ => false

/-- Patterns that no value of the data type has the shape of. -/
def isForeign (data : DataDef) : Pattern → Bool
  | .shaped (.con c) _ => !data.constructors.contains c
  | .shaped (.tuple _) _ => true
  | _ => false

abbrev Build := List Column → List Row → List Frame → Compile (Option CaseTree)

section Splitting
variable (build : Build)

/-- The branch for one shape: the inspected column is replaced by the components. -/
def split (column : Column) (rest : List Column) (rows : List Row) (path : List Frame)
    (before : List Var) (shape : Shape) (value : Term) (fields : List Column) :
    Compile (Option CaseTree) := do
  let s := Subst.single column.1 value
  let rest ← reading (replaceIn · s rest)
  let columns := fields ++ rest
  let rows := rows.filterMap (·.enter shape value fields)
  match rows.find? (·.patterns.length ≠ columns.length) with
  | some row =>
      fail row.clause.span <|
        if row.patterns.length < columns.length then .notEnoughPatterns fields.length
        else .tooManyPatterns fields.length
      return none
  | none => build columns rows (⟨before, shape, fields.length⟩ :: path)

/-- One child for each shape; every shape is looked at even if one of them fails. -/
def splitAll (splitOne : DefId → Compile (Option (Option (Shape × CaseTree)))) :
    List DefId → Compile (Option (List (Shape × CaseTree)))
  | [] => return some []
  | c :: rest => do
      let first ← splitOne c
      let others ← splitAll splitOne rest
      match first with
      | none => return others
      | some child => return do
          let child ← child
          let others ← others
          some (child :: others)

/-- The child for a constructor, if it is defined. -/
def branchConstructor (column : Column) (rest : List Column) (rows : List Row) (path : List Frame)
    (before : List Var) (data : DataDef) (levels : Universe) (args : List Term) (c : DefId) :
    Compile (Option (Option (Shape × CaseTree))) := do
  let env := (← read).env
  let some con := env.constructor? c | return none
  let s := (Subst.instantiate data.params args).addStd levels
  let fields ← reading (freshen · s (columnsOf con.params))
  let value := Term.con c levels args (fields.map fun f => .ref f.1)
  let child ← split build column rest rows path before (.con c) value fields
  return some (child.map fun child => (.con c, child))

/-- The branch for a data type whose constructors up to a level count. -/
def branchLive (column : Column) (rest : List Column) (rows : List Row) (path : List Frame)
    (before : List Column) (type : Term) (data : DataDef) (levels : Universe) (args : List Term)
    (level : Option Int) : Compile (Option CaseTree) := do
  let live := live (← read).env data level
  match rows.find? fun r => isAbsurd (r.patterns.headD (.ofTuple [])) with
  | some row =>
      if live.isEmpty then
        markUsed row
        return some (.branch (Telescope.ofPairs before) [])
      fail row.clause.span (.inhabitedAbsurd (← type.text))
      return none
  | none =>
      if ← refuse rows (isForeign data) (notConstructor type) then return none
      let children ← splitAll
        (branchConstructor build column rest rows path (before.map (·.1)) data levels args) live
      return children.map (.branch (Telescope.ofPairs before))

def branchData (column : Column) (rest : List Column) (rows : List Row) (path : List Frame)
    (before : List Column) (type : Term) (d : DefId) (levels : Universe) (args : List Term) :
    Compile (Option CaseTree) := do
  let some data := (← read).env.data? d | return none
  if data.interval then
    if ← refuse rows (·.constructor?.isSome) fun p => return .intervalNotAllowed p.text then
      return none
  match ← truncationLevel rows data type with
  | none => return none
  | some level => branchLive build column rest rows path before type data levels args level

def branchTuple (column : Column) (rest : List Column) (rows : List Row) (path : List Frame)
    (before : List Column) (type : Term) (params : Telescope) : Compile (Option CaseTree) := do
  let shape := Shape.tuple params.length
  let bad (p : Pattern) : Bool := match p with
    | .shaped k _ => k ≠ shape
    | .absurd => true
    | .binding _ => false
  if ← refuse rows bad (notConstructor type) then return none
  let fields ← reading (freshen · .empty (columnsOf params))
  let value := Term.tuple (fields.map fun f => .ref f.1) type
  let child ← split build column rest rows path (before.map (·.1)) shape value fields
  return child.map fun child => .branch (Telescope.ofPairs before) [(shape, child)]

/-- Inspects the column after the given ones, which every row binds by variables. -/
def branch (before : List Column) (column : Column) (rest : List Column) (rows : List Row)
    (path : List Frame) : Compile (Option CaseTree) := do
  let rows := rows.map (·.pass before)
  match ← reading column.2.whnf with
  | .data d levels args =>
      branchData build column rest rows path before (.data d levels args) d levels args
  | .sigma params => branchTuple build column rest rows path before (.sigma params) params
  | type => do
      let _ ← refuse rows (!·.isBinding) (notConstructor type)
      return none

end Splitting

/-- The first column in which some row is not a variable. -/
def splitColumn (columns : List Column) (rows : List Row) : Nat :=
  ((List.range columns.length).find? fun i =>
    rows.any fun r => !(r.patterns[i]?.any Pattern.isBinding)).getD 0

/-- Every split takes a constructor or a tuple away from some row, so their number bounds how deep
    splits are nested. -/
def build : Nat → Build
  | 0, _, _, _ => throw .outOfFuel
  | fuel + 1, columns, rows, path =>
      match rows with
      | [] => uncovered columns path
      | first :: _ =>
          if first.patterns.all Pattern.isBinding then leaf columns first else
          let k := splitColumn columns rows
          match columns.drop k with
          | [] => return none
          | column :: rest => branch (build fuel) (columns.take k) column rest rows path

def buildRows (columns : List Column) (rows : List Row) : Compile (Option CaseTree) :=
  build (rows.foldr (fun r total => Pattern.rowSplits r.patterns + total) 1) columns rows []

def numbered (clauses : List Clause) : List Row :=
  clauses.zipIdx.map fun (clause, number) => ⟨number, clause, clause.patterns, .empty⟩

/-- Which column of a clause matches an end of the interval, by its number. -/
structure EndRow where
  row : Row
  column : Nat

/-- Parts the clauses into those that match one end of the interval and the others. -/
def partRows (intervals : List Bool) : List Row → Compile (List EndRow × List Row)
  | [] => return ([], [])
  | row :: rest => do
      let matched := row.patterns.zipIdx.filter fun (p, _) => !p.isBinding
      let ends := matched.filter fun (p, j) => p.constructor?.isSome && intervals[j]? == some true
      match ends with
      | [] => do
          let (endRows, others) ← partRows intervals rest
          return (endRows, row :: others)
      | (_, j) :: _ => do
          if matched.length > 1 then
            fail row.clause.span .severalIntervalPatterns
            partRows intervals rest
          else
            let (endRows, others) ← partRows intervals rest
            return (⟨row, j⟩ :: endRows, others)

def refuseAfter (first : Nat) (rows : List Row) : Compile Unit :=
  rows.forM fun row => do
    if let some p := (row.patterns.drop first).find? (!·.isBinding) then
      fail row.clause.span (.dataAfterInterval p.text)

def Ends.put {α : Type} (ends : Ends α) (side : Endpoint) (a : α) : Ends α :=
  match side with
  | .left => { ends with left := some a }
  | .right => { ends with right := some a }

/-- Every variable of a row becomes the variable of its column. -/
def renameRow (row : List Pattern) (columns : List Column) : Subst :=
  (row.zip columns).foldl (fun s (pattern, column) => match pattern with
    | .binding x => s.add x (.ref column.1)
    | _ => s) .empty

/-- Puts the bodies of the clauses at their ends; the first clause for an end counts. -/
def fillEnds (columns : List Column) (first : Nat) : List EndRow → List (Ends Term) →
    Compile (List (Ends Term))
  | [], ends => return ends
  | ⟨row, j⟩ :: rest, ends => do
      let env := (← read).env
      let side := row.patterns[j]? >>= Pattern.constructor? >>= env.endpoint?
      match side, ends[j - first]? with
      | some side, some here =>
          if (here.at? side).isSome then fillEnds columns first rest ends else
          match row.clause.body with
          | none => do
              fail row.clause.span .clauseWithoutBody
              fillEnds columns first rest ends
          | some body => do
              let s := renameRow row.patterns columns
              let body ← reading fun env => s.apply env body
              markUsed row
              fillEnds columns first rest (ends.set (j - first) (Ends.put here side body))
      | _, _ => fillEnds columns first rest ends

/-- The rows for ends that no clause gives, at columns where one end is given. -/
def missingEnds (columns : List Column) : Nat → List (Ends Term) → Compile Unit
  | _, [] => return
  | j, ends :: rest => do
      if !ends.isEmpty then
        let env := (← read).env
        if let some (_, type) := columns[j]? then
          if let .data d _ _ ← reading type.whnf then
            let constructors := ((env.data? d).map DataDef.constructors).getD []
            for (side, c) in [Endpoint.left, .right].zip constructors do
              if (ends.at? side).isNone then
                recordMissing (columns.zipIdx.map fun (column, i) =>
                  if i = j then .ofCon c [] else .binding column.1)
      missingEnds columns (j + 1) rest

def buildInterval (columns : List Column) (intervals : List Bool) (rows : List Row) :
    Compile (Option CaseTree) := do
  let (endRows, others) ← partRows intervals rows
  let some first := (endRows.map EndRow.column).min? | return none
  refuseAfter first others
  if ← failed then return none
  let ends ← fillEnds columns first endRows
    (List.replicate (columns.length - first) ⟨none, none⟩)
  let rest ← if others.isEmpty then do
      if !(ends.any fun e => e.left.isSome && e.right.isSome) then
        missingEnds columns first ends
      pure none
    else do
      let fresh ← reading (freshen · .empty columns)
      buildRows fresh others
  if (← failed) || !(← get).missing.isEmpty then return none
  return some (.interval (Telescope.ofPairs columns) (ends.dropWhile Ends.isEmpty) rest)

def checkArity (arity : Nat) (clauses : List Clause) : Compile Unit :=
  clauses.forM fun c => do
    if c.patterns.length < arity then fail c.span (.notEnoughPatterns arity)
    else if c.patterns.length > arity then fail c.span (.tooManyPatterns arity)

/-- The first pattern that matches a constructor of the interval, with its clause. -/
def intervalPattern? (intervals : List Bool) (clauses : List Clause) :
    Option (Clause × Pattern) :=
  clauses.findSome? fun c =>
    ((c.patterns.zip intervals).find? fun (p, interval) => interval && p.constructor?.isSome).map
      fun (p, _) => (c, p)

def reportRedundant (clauses : List Clause) : Compile Unit := do
  let used := (← get).used
  clauses.zipIdx.forM fun (c, number) => do
    if !used.contains number then fail c.span (.redundantClause (Pattern.rowText c.patterns))

/-- The tree of the clauses; interval patterns are a matter of the parameters' types. -/
def clausesTree (params : Telescope) (clauses : List Clause) : Compile (Option CaseTree) := do
  let setting ← read
  let columns := columnsOf params
  let intervals ← columns.mapM fun c => isInterval c.2
  match intervalPattern? intervals clauses with
  | some (clause, pattern) =>
      if setting.inCase || !setting.config.allowInterval then
        fail clause.span (.intervalNotAllowed pattern.text)
        return none
      buildInterval columns intervals (numbered clauses)
  | none => buildRows columns (numbered clauses)

/-- A tree is given only if nothing was found wrong on the way to it. -/
def unlessFailed (clauses : List Clause) (tree : Option CaseTree) : Compile (Option CaseTree) := do
  if ← failed then return none
  match tree with
  | none => return none
  | some tree => do
      if (← read).config.reportRedundant then reportRedundant clauses
      return some tree

def compileClauses (span : Span) (params : Telescope) (clauses : List Clause) :
    Compile (Option CaseTree) := do
  checkArity params.length clauses
  if ← failed then return none
  let tree ← clausesTree params clauses
  let progress ← get
  if !progress.missing.isEmpty then
    fail span (.missingClauses progress.missing progress.missingTruncated)
  unlessFailed clauses tree

structure Outcome where
  tree : Option CaseTree
  diagnostics : List Diagnostic
  demands : List Demand

/-- The case tree of the clauses, with what was found wrong and what is asked of inferred levels. -/
def compile (setting : Setting) (span : Span) (params : Telescope) (clauses : List Clause) :
    Fresh Outcome := do
  let (tree, progress) ← (compileClauses span params clauses setting).run .start
  return ⟨tree, progress.diagnostics, progress.demands⟩

end Matching

end PathTheory
