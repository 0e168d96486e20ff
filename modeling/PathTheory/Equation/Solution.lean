import PathTheory.Equation.Conversion
/-!
Settling a store: metavariables forced into the propositions, a first look at the levels,
instances and record bounds, the levels for good, and a report of everything that is left over.
-/
namespace PathTheory.Unify

def solveLevels : Unify (Except LevelError LevelSolution) := do
  (← get).levels.solve.run

def solveProps : List (MetaId × Span) → Unify Unit
  | [] => return
  | (m, span) :: rest => do
      match (← env).solution? m with
      | none => let _ ← solveMeta m (.univ .prop) span
      | some solution =>
          if !(← compare solution (.univ .prop) .le span) then
            reportMismatch span (.univ .prop) solution
      solveProps rest

/-- The data type that the classifying field of an instance is fixed to. -/
def carrier? (env : Environment) (ofClass : DefId) (type : Term) : Fresh (Option DefId) := do
  let some cls := env.cls? ofClass | return none
  let some f := cls.classifying | return none
  let some value := (← type.whnf env).fixed? f | return none
  match ← value.whnf env with
  | .data d _ _ => return some d
  | _ => return none

def solveInstance (m : MetaId) (entry : MetaEntry) (ofClass : DefId) : Unify Unit := do
  let carrier ← reading fun env => do carrier? env ofClass (← entry.type.whnf env)
  let env ← env
  match carrier.bind (env.findInstance ofClass) with
  | some i => let _ ← solveMeta m (.call i.value .set0 []) entry.span
  | none => do
      let data := (carrier.map DefId.name).getD "an unknown type"
      report ⟨entry.span, .instanceNotFound ofClass.name data⟩
      match env.solve m (.error "missing instance" none) with
      | .ok env => set env
      | .error _ => pure ()
      wakeListeners m

def solveInstances : List MetaId → Unify Unit
  | [] => return
  | m :: rest => do
      match (← env).meta? m with
      | some entry => match entry.solution, entry.kind with
        | none, .instanceOf c => solveInstance m entry c
        | _, _ => pure ()
      | none => pure ()
      solveInstances rest

/-- Lower bounds of metavariables, in the order in which they were found. -/
abbrev Bounds := List (MetaId × Term × Span)

def Bounds.of (bounds : Bounds) (m : MetaId) : List (Term × Span) :=
  bounds.filterMap fun (k, t, span) => if k == m then some (t, span) else none

/-- Along an edge, a bound of the lower metavariable is a bound of the upper one. -/
def Bounds.along (bounds : Bounds) (lower upper : MetaId) : Bounds :=
  (bounds.of lower).foldl (fun bounds (t, span) =>
    if (bounds.of upper).any (·.1 == t) then bounds else bounds ++ [(upper, t, span)]) bounds

/-- Passes over the edges until nothing is added. There are no more bounds to add than edges times
    bounds to start with. -/
def Bounds.propagate (edges : List (MetaId × MetaId)) : Nat → Bounds → Bounds
  | 0, bounds => bounds
  | fuel + 1, bounds =>
      let next := edges.foldl (fun bounds (lower, upper) => bounds.along lower upper) bounds
      if next.length = bounds.length then bounds else Bounds.propagate edges fuel next

/-- The metavariables on the lower and the upper side of an equation that was put off. -/
def Equation.edge? (e : Equation) : Option (MetaId × MetaId) := do
  let left ← e.left.hole?
  let right ← e.right.hole?
  match e.cmp with
  | .le => some (left, right)
  | .ge => some (right, left)
  | .eq => none

/-- The fields that both sides fix, as the first one has them; none if their values differ. -/
def commonFields (span : Span) (others : List (DefId × Term)) :
    List (DefId × Term) → Unify (Option (List (DefId × Term)))
  | [] => return some []
  | (f, value) :: rest => match others.lookup f with
    | none => commonFields span others rest
    | some other => do
        if !(← compare value other .eq span) then return none
        return (← commonFields span others rest).map ((f, value) :: ·)

def reportConflict (span : Span) (first second : Term) : Unify Unit := do
  let first ← first.text
  let second ← second.text
  report ⟨span, .classConflict first second⟩

/-- Merges further bounds into the fields and universes of the first one. -/
def mergeRest (first : Term) (ofClass : DefId) (span : Span) :
    List (Term × Span) → List (DefId × Term) → List Universe →
      Unify (Option (List (DefId × Term) × List Universe))
  | [], fields, us => return some (fields, us)
  | (other, _) :: rest, fields, us => do
      match other with
      | .record c levels others =>
          if c ≠ ofClass then
            reportConflict span first other
            return none
          match ← commonFields span others fields with
          | none =>
              reportConflict span first other
              return none
          | some fields => mergeRest first ofClass span rest fields (us ++ [levels])
      | _ =>
          reportConflict span first other
          return none

/-- The least record type above all bounds: the same class, the common fields, and a universe above
    all of theirs. -/
def mergeBounds : List (Term × Span) → Unify (Option Term)
  | [] => return none
  | (first, span) :: rest => match first with
    | .record c levels fields => do
        match ← mergeRest first c span rest fields [levels] with
        | none => return none
        | some (fields, us) => do
            if us.all (· == levels) then return some (.record c levels fields)
            let fresh ← freshUniverse
            for u in us do
              let _ ← compareUniverses u fresh .le span
            return some (.record c fresh fields)
    | _ => return none

def sortedMetas (ms : List MetaId) : List MetaId :=
  (ms.foldl (fun ids m => Store.insertNumber m.index ids) []).map MetaId.mk

def solveLowerBounds (bounds : Bounds) : List MetaId → Unify Unit
  | [] => return
  | m :: rest => do
      if ((← env).solution? m).isNone then
        match bounds.of m with
        | [] => pure ()
        | (t, span) :: more =>
            if let some merged ← mergeBounds ((t, span) :: more) then
              let _ ← solveMeta m merged span
      solveLowerBounds bounds rest

def checkUpperBounds : List RecordBound → Unify Unit
  | [] => return
  | bound :: rest => do
      match (← env).solution? bound.hole with
      | some solution =>
          if !(← compare solution bound.record .le bound.span) then
            reportMismatch bound.span bound.record solution
      | none => let _ ← solveMeta bound.hole bound.record bound.span
      checkUpperBounds rest

def solveRecords (levels : LevelSolution) : Unify Unit := do
  let s ← get
  let edges := s.pending.filterMap Equation.edge?
  let lower ← s.lowerBounds.toList.mapM fun b => do
    let record ← reading (b.record.zonk · levels.values)
    return (b.hole, record, b.span)
  let bounds := Bounds.propagate edges (edges.length * lower.length + 1) lower
  solveLowerBounds bounds (sortedMetas (bounds.map (·.1)))
  checkUpperBounds (← get).upperBounds.toList

def reportLevels : LevelError → Unify Unit
  | .unsolved c => do report ⟨c.span, .unsolvedLevels (← c.text)⟩
  | .cycle chain => do
      let span := (chain.head?.map LevelConstraint.span).getD .none
      report ⟨span, .levelCycle (← LevelConstraint.chainText chain)⟩

/-- An equation that an error blocks says nothing; one without metavariables is tried once more. -/
def reportEquation (e : Equation) : Unify Unit := do
  let left ← reading (e.left.zonk · [])
  let right ← reading (e.right.zonk · [])
  if ((← reading left.stuckOn).any Term.isError) then return
  if ((← reading right.stuckOn).any Term.isError) then return
  let env ← env
  if (env.unsolvedIn left).isEmpty && (env.unsolvedIn right).isEmpty then
    if ← compare left right e.cmp e.span then return
  let left ← left.text
  let right ← right.text
  report ⟨e.span, .unsolvedEquation left right e.cmp⟩

def reportHole (m : MetaId) : Unify Unit := do
  let some entry := (← env).meta? m | return
  if entry.solution.isSome then return
  report ⟨entry.span, .argumentNotInferred entry.name "no equation determines it"⟩
  match (← env).solve m (.error "unsolved" none) with
  | .ok env => set env
  | .error _ => return

def reportUnsolved : Unify Unit := do
  let s ← get
  set { s with equations := s.equations.map fun _ => none }
  s.pending.forM reportEquation
  (← get).metas.toList.forM reportHole

/-- Settles everything in the store; levels without a solution leave the empty one. -/
def settle : Unify LevelSolution := do
  solveProps (← get).props.toList
  let first ← match ← solveLevels with
    | .ok solution => pure solution
    | .error _ => pure .empty
  solveInstances (← get).metas.toList
  solveRecords first
  let solution ← match ← solveLevels with
    | .ok solution => pure solution
    | .error e => do
        reportLevels e
        pure .empty
  reportUnsolved
  return solution

end PathTheory.Unify
