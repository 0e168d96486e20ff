import PathTheory.Equation.Store
/-!
Conversion. Two terms are compared up to reduction, renaming of binders, eta for functions and
tuples, and the order of universes; metavariables met on the way are solved at once where only
one choice is left, and the rest of the question is put off.
-/
namespace PathTheory.Unify

abbrev Compare := Term → Term → Cmp → Span → Unify Bool

/-- A term is convertible to itself, and nothing is solved or put off to find that out. What differs
    is left to the comparison of distinct terms. -/
def Compare.orSame (distinct : Compare) : Compare := fun left right cmp span =>
  if left = right then return true else distinct left right cmp span

/-- A field of a variable whose type fixes that field is the fixed value. -/
def implementedField (Γ : Context) (env : Environment) : Nat → Term → Fresh Term
  | 0, _ => throw .outOfFuel
  | fuel + 1, t => match t with
    | .field f _ (.ref x) => match Γ.lookup x with
      | none => return t
      | some type => do
          match (← type.whnf env).fixed? f with
          | some value => do implementedField Γ env fuel (← value.whnf env)
          | none => return t
    | _ => return t

/-- Whether a type ends, behind its function types, in something that can differ from a subtype: a
    universe, a record type, or a blocked term. -/
def isCumulative (env : Environment) : Nat → Term → Fresh Bool
  | 0, _ => throw .outOfFuel
  | fuel + 1, type => do
      match ← type.whnf env with
      | .pi _ _ _ codomain => isCumulative env fuel codomain
      | .univ _ | .record _ _ _ => return true
      | type => return (← type.stuckMeta env).isSome

def rename (x y : Var) (t : Term) : Unify Term :=
  if x = y then return t
  else reading fun env => (Subst.single x (.ref y)).apply env t

section Steps
variable (compare : Compare)

/-- Takes up woken equations in the order in which they were put off. -/
def replay : Nat → Unify Unit
  | 0 => throw .outOfFuel
  | fuel + 1 => do
      let s ← get
      match s.next? s.worklist with
      | none => set { s with worklist := [], replaying := false }
      | some (e, s) => do
          set s
          if !(← compare e.left e.right e.cmp e.span) then reportMismatch e.span e.right e.left
          replay fuel

/-- A replay that is under way also sees to the equations woken meanwhile. -/
def wake (fuel : Nat) (m : MetaId) : Unify Unit := do
  modify (·.wake m)
  if (← get).replaying then return
  modify fun s => { s with replaying := true }
  replay compare fuel

/-- What speaks against a solution before its type is looked at. -/
def scopeProblem (m : MetaId) (entry : MetaEntry) (value : Term) (span : Span) :
    Unify (Option Diagnostic) := do
  let s ← get
  if s.isPropForced m && value.universe?.isNone && value.hole?.isNone then
    return some ⟨span, .typeMismatch "\\Prop" (← value.text)⟩
  if (← env).occurs m value then
    let text := m.text ++ " occurs in its own solution " ++ (← value.text)
    return some ⟨span, .argumentNotInferred entry.name text⟩
  match value.freeVars.find? (!entry.scope.contains ·) with
  | some x => return some ⟨span, .argumentNotInferred entry.name (x.name ++ " is not in scope")⟩
  | none => return none

/-- A solution whose type can be computed has a subtype of the type of the metavariable. -/
def typeProblem (entry : MetaEntry) (value : Term) (span : Span) : Unify (Option Diagnostic) := do
  let Γ := (← get).context
  match ← reading fun env => (value.typeOf? env Γ).run with
  | none => return none
  | some actual =>
      if ← compare actual entry.type .le span then return none
      return some (← Diagnostic.mismatch span entry.type actual)

/-- Solves a metavariable after the checks of occurrence, scope and type. A failed check is reported
    and solves it by an error. -/
def solve (fuel : Nat) (m : MetaId) (value : Term) (span : Span) : Unify Bool := do
  if let some existing := (← env).solution? m then return ← compare existing value .eq span
  let some entry := (← env).meta? m | return false
  let value ← reading (value.zonk · [])
  if value.hole? == some m then return true
  let problem ← match ← scopeProblem m entry value span with
    | some problem => pure (some problem)
    | none => typeProblem compare entry value span
  if let some problem := problem then report problem
  let value := if problem.isSome then Term.error "ill-typed solution" none else value
  match (← env).solve m value with
  | .ok env => do
      set env
      wake compare fuel m
      return problem.isNone
  | .error _ =>
      -- checking the type solved it through its own type
      match (← env).solution? m with
      | some existing => compare existing value .eq span
      | none => return false

/-- A metavariable on one side: solved at once where one choice is left, bounded or put off
    otherwise. -/
def addEquation (fuel : Nat) (m : MetaId) (t : Term) (cmp : Cmp) (span : Span) : Unify Bool := do
  let t ← reading t.whnf
  if cmp = .eq then return ← solve compare fuel m t span
  match t with
  | .univ u => do
      if u.isProp && cmp = .le then
        modify fun s => { s with props := s.props.push (m, span) }
        return true
      let fresh ← freshUniverse
      if !(← solve compare fuel m (.univ fresh) span) then return false
      compareUniverses fresh u cmp span
  | .pi mode x domain codomain => do
      if !(← reading (fun env => isCumulative env env.fuel t)) then
        return ← solveOrDefer t
      let some entry := (← env).meta? m | return false
      bind x domain
      let u ← freshUniverse
      let result ← freshMeta "codomain" (.univ u) (entry.scope ++ [x]) .expression span
      if !(← solve compare fuel m (.pi mode x domain result) span) then return false
      compare result codomain cmp span
  | .record _ _ _ => do
      let bound : RecordBound := ⟨m, t, span⟩
      modify fun s =>
        if cmp = .le then { s with upperBounds := s.upperBounds.push bound }
        else { s with lowerBounds := s.lowerBounds.push bound }
      return true
  | t => solveOrDefer t
where
  solveOrDefer (t : Term) : Unify Bool := do
    if t.hole?.isSome || (← reading t.stuckMeta).isSome then
      defer (.hole m) t cmp span
      return true
    solve compare fuel m t span

/-- Every field fixed by the smaller record is fixed by the larger one, to an equal value. -/
def fixesAll (larger : List (DefId × Term)) (span : Span) :
    List (DefId × Term) → Unify Bool
  | [] => return true
  | (f, value) :: rest => match larger.lookup f with
    | none => return false
    | some other => do
        if ← compare other value .eq span then fixesAll larger span rest else return false

/-- The telescopes have the same length; the substitution renames the variables of the right one. -/
def compareTelescopes (span : Span) : Subst → Telescope → Telescope → Unify Bool
  | _, [], [] => return true
  | s, l :: ls, r :: rs => do
      let type ← reading fun env => s.apply env r.type
      if !(← compare l.type type .eq span) then return false
      bind l.var l.type
      compareTelescopes span (s.add r.var (.ref l.var)) ls rs
  | _, _, _ => return false

end Steps

section Heads
variable (distinct : Compare)

/-- Terms in step. If the lists are known to differ and agree so far, the last terms differ too and
    are not compared for identity once more; so a chain of constructors is gone through once. -/
def compareAll (span : Span) : Bool → List Term → List Term → Unify Bool
  | _, [], [] => return true
  | true, [a], [b] => distinct a b .eq span
  | differ, a :: as, b :: bs =>
      if a = b then compareAll span differ as bs
      else do
        if ← distinct a b .eq span then compareAll span false as bs else return false
  | _, _, _ => return false

def compareSame (differ : Bool) (left right : List Term) (span : Span) : Unify Bool :=
  if left.length = right.length then compareAll distinct span differ left right else return false

/-- Components of a tuple against the projections of what is not a tuple. -/
def compareProjections (span : Span) (flipped : Bool) (whole : Term) :
    Nat → List Term → Unify Bool
  | _, [] => return true
  | index, a :: rest => do
      let projection := Term.proj whole index
      let same ← if flipped then distinct.orSame projection a .eq span
        else distinct.orSame a projection .eq span
      if same then compareProjections span flipped whole (index + 1) rest else return false

/-- Compares distinct terms in weak head normal form that no metavariable blocks. -/
def compareHeads (left right : Term) (cmp : Cmp) (span : Span) : Unify Bool := do
  let compare := distinct.orSame
  match left, right with
  | .univ u, .univ v => compareUniverses u v cmp span
  | .pi m x a c, .pi m' y b d => do
      if m ≠ m' then return false
      if !(← compare a b .eq span) then return false
      let d ← rename y x d
      bind x a
      compare c d cmp span
  | .lam _ x a c, .lam _ y _ d => do
      let d ← rename y x d
      bind x a
      compare c d .eq span
  | .lam _ x a c, _ => do
      bind x a
      compare c (.app right (.ref x)) .eq span
  | _, .lam _ x a c => do
      bind x a
      compare (.app left (.ref x)) c .eq span
  | .sigma p, .sigma q =>
      if p.length = q.length then compareTelescopes compare span .empty p q else return false
  | .tuple c t, .tuple d u => compareSame distinct (t = u) c d span
  | .tuple c _, _ => compareProjections distinct span false right 0 c
  | _, .tuple c _ => compareProjections distinct span true left 0 c
  | .proj t i, .proj u j => if i = j then distinct t u .eq span else return false
  | .app f a, .app g b => compareAll distinct span true [f, a] [g, b]
  | .ref x, .ref y => return x == y
  | .call f l a, .call g k b => do
      if f ≠ g then return false
      if ← compareUniverses l k .eq span then compareSame distinct (l = k) a b span else return false
  | .con c l p a, .con d k q b => do
      if c ≠ d then return false
      if ← compareSame distinct (l = k && p = q) a b span then compareSame distinct false p q span
      else return false
  | .data c l a, .data d k b => do
      if c ≠ d then return false
      if ← compareUniverses l k cmp span then compareSame distinct (l = k) a b span else return false
  | .record c l a, .record d k b => do
      if c ≠ d then return false
      if !(← compareUniverses l k cmp span) then return false
      match cmp with
      | .eq => if a.length = b.length then fixesAll compare a span b else return false
      | .le => fixesAll compare a span b
      | .ge => fixesAll compare b span a
  | .field f _ a, .field g _ b => if f = g then compare a b .eq span else return false
  | .new a, .new b => distinct a b .eq span
  | .caseOf a _ _ t, .caseOf b _ _ u =>
      if t = u then compareSame distinct false a b span else return false
  | _, _ => return false

/-- Compares distinct terms. Where neither side can reduce they stay distinct. -/
def compareDistinct (fuel : Nat) (left right : Term) (cmp : Cmp) (span : Span) : Unify Bool := do
  let compare := distinct.orSame
  let Γ := (← get).context
  let reducible := !(left.isValue && right.isValue)
  let left ← reading fun env => do implementedField Γ env env.fuel (← left.whnf env)
  let right ← reading fun env => do implementedField Γ env env.fuel (← right.whnf env)
  if reducible && left = right then return true
  if left.isError || right.isError then return true
  match left.hole?, right.hole? with
  | some m, some _ => do
      if cmp = .eq then return ← addEquation compare fuel m right cmp span
      defer left right cmp span
      return true
  | some m, none => addEquation compare fuel m right cmp span
  | none, some m => addEquation compare fuel m left cmp.flip span
  | none, none => do
      let blocker ← match ← reading left.stuckMeta with
        | some m => pure (some m)
        | none => reading right.stuckMeta
      if blocker.isSome then
        defer left right cmp span
        return true
      compareHeads distinct left right cmp span

end Heads

def compareDistinctWith : Nat → Compare
  | 0 => fun _ _ _ _ => throw .outOfFuel
  | fuel + 1 => compareDistinct (compareDistinctWith fuel) fuel

/-- Decides a comparison up to conversion, solving or putting off what metavariables block. -/
def compare : Compare := fun left right cmp span => do
  (compareDistinctWith (← env).fuel).orSame left right cmp span

def solveMeta (m : MetaId) (value : Term) (span : Span) : Unify Bool := do
  solve compare (← env).fuel m value span

def addHoleEquation (m : MetaId) (t : Term) (cmp : Cmp) (span : Span) : Unify Bool := do
  addEquation compare (← env).fuel m t cmp span

def wakeListeners (m : MetaId) : Unify Unit := do wake compare (← env).fuel m

end PathTheory.Unify
