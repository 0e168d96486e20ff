import PathTheory.Substitution
/-!
Reduction. Weak head normal forms, full normal forms, running arguments through a case tree,
and the question what blocks a term that does not reduce. Terms need not be typed, so reduction
need not end: every function that reduces takes fuel, the environment says how much, and running
out is a fault.
-/
namespace PathTheory

/-- Which end of the interval a constructor is. -/
def Environment.endpoint? (env : Environment) (c : DefId) : Option Endpoint := do
  let con ← env.constructor? c
  let data ← env.data? con.data
  if !data.interval then none else
  match data.constructors.findIdx? (· == c) with
  | some 0 => some .left
  | some 1 => some .right
  | _ => none

def Term.endpoint? (env : Environment) : Term → Option Endpoint
  | .con c _ _ _ => env.endpoint? c
  | _ => none

/-- How a value looks to a match, and its components. -/
def Term.shape? : Term → Option (Shape × List Term)
  | .con c _ _ args => some (.con c, args)
  | .tuple components _ => some (.tuple components.length, components)
  | _ => none

/-- The outcome of running arguments through a case tree. -/
inductive Walk where
  | reduced (t : Term)
  -- blocked on an argument in weak head normal form
  | stuck (arg : Term)
  -- too few arguments, or a constructor without a branch
  | missing

/-- What the ends of an interval node say: a body that applies, or the first argument that stands in
    the way of knowing. -/
inductive EndsOutcome where
  | body (t : Term)
  | none (blocked : Option Term)

section Walking
variable (env : Environment) (whnf : Term → Fresh Term)

def tryEnds : List (Ends Term × Term) → Option Term → Fresh EndsOutcome
  | [], blocked => return .none blocked
  | (ends, arg) :: others, blocked =>
      if ends.isEmpty then tryEnds others blocked else do
        let arg ← whnf arg
        match arg.endpoint? env with
        | some side => match ends.at? side with
          | some body => return .body body
          | none => tryEnds others blocked
        | none => tryEnds others (blocked <|> some arg)

mutual

/-- Parameters bind the first arguments; arguments left over at a leaf are applied to its body. -/
def CaseTree.walk (s : Subst) : CaseTree → List Term → Fresh Walk
  | .leaf params body, args => do
      if args.length < params.length then return .missing
      let result ← (s.bind params args).apply env body
      return .reduced (result.applyAll (args.drop params.length))
  | .branch params children, args => do
      if args.length < params.length then return .missing
      match args.drop params.length with
      | [] => return .missing
      | arg :: others => do
          let scrutinee ← whnf arg
          match scrutinee.shape? with
          | none => return .stuck scrutinee
          | some (shape, components) =>
              walkChildren (s.bind params args) shape children (components ++ others)
  | .interval params ends rest, args => do
      if args.length < params.length then return .missing
      let bound := args.take params.length
      match ← tryEnds env whnf (ends.zip (bound.drop (params.length - ends.length))) none with
      | .body body => do
          let result ← (s.bind params args).apply env body
          return .reduced (result.applyAll (args.drop params.length))
      | .none blocked => walkRest s blocked rest args
termination_by structural tree => tree

def walkChildren (s : Subst) (shape : Shape) :
    List (Shape × CaseTree) → List Term → Fresh Walk
  | [], _ => return .missing
  | (k, child) :: others, args =>
      if k.matches shape then child.walk s args else walkChildren s shape others args
termination_by structural children => children

def walkRest (s : Subst) (blocked : Option Term) : Option CaseTree → List Term → Fresh Walk
  | none, _ => return match blocked with
      | some arg => .stuck arg
      | none => .missing
  | some tree, args => tree.walk s args
termination_by structural rest => rest

end

def CaseTree.run (tree : CaseTree) (args : List Term) : Fresh Walk :=
  tree.walk env whnf .empty args

/-- A transport along a family that does not depend on the interval is the identity. -/
def transport? : List Term → Fresh (Option Term)
  | [] => return none
  | family :: others => do
      match ← whnf family with
      | .lam _ x _ body => return if body.freeVars.contains x then none else others.head?
      | _ => return none

/-- The body of a function at its arguments, if they lead to one. -/
def bodyAt? (fn : FunctionDef) (levels : Universe) (args : List Term) : Fresh (Option Term) :=
  match fn.body with
  | none => return none
  | some (.term body) =>
      return some (← ((Subst.instantiate fn.params args).addStd levels).apply env body)
  | some (.tree tree) => do
      let tree ← (Subst.std levels).applyTree env tree
      match ← tree.run env whnf args with
      | .reduced result => return some result
      | _ => return none

/-- A saturated call of a function is replaced by its body. -/
def unfolding? (f : DefId) (levels : Universe) (args : List Term) : Fresh (Option Term) :=
  match env.function? f with
  | none => return none
  | some fn =>
      if fn.params.length ≠ args.length then return none else do
      match ← (if fn.transports then transport? whnf args else return none) with
      | some result => return some result
      | none => bodyAt? env whnf fn levels args

/-- One step at the head; subterms in head position are brought to weak head normal form. -/
def headStep? : Term → Fresh (Option Term)
  | .hole m => return env.solution? m
  | .app fn arg => do
      match ← whnf fn with
      | .lam _ x _ body => return some (← (Subst.single x arg).apply env body)
      | _ => return none
  | .proj whole index => do
      match ← whnf whole with
      | .tuple components _ => return components[index]?
      | _ => return none
  | .field f _ arg => do
      match ← whnf arg with
      | .new record => return record.fixed? f
      | _ => return none
  | .call f levels args => unfolding? env whnf f levels args
  | .caseOf args _ _ tree => do
      match ← tree.run env whnf args with
      | .reduced result => return some result
      | _ => return none
  | _ => return none

end Walking

def whnfWith (env : Environment) : Nat → Term → Fresh Term
  | 0, _ => throw .outOfFuel
  | fuel + 1, t => do
      match ← headStep? env (whnfWith env fuel) t with
      | some next => whnfWith env fuel next
      | none => return t

def Term.whnf (env : Environment) (t : Term) : Fresh Term := whnfWith env env.fuel t

def Term.headStep? (env : Environment) (t : Term) : Fresh (Option Term) :=
  PathTheory.headStep? env (Term.whnf env) t

/-- The result type and the tree of a case expression stay as they are. -/
def nfWith (env : Environment) : Nat → Term → Fresh Term
  | 0, _ => throw .outOfFuel
  | fuel + 1, t => do
      let nf := nfWith env fuel
      match ← t.whnf env with
      | .lam mode x domain body => return .lam mode x (← nf domain) (← nf body)
      | .pi mode x domain codomain => return .pi mode x (← nf domain) (← nf codomain)
      | .sigma params =>
          return .sigma (← params.mapM fun b => return { b with type := ← nf b.type })
      | .tuple components type => return .tuple (← components.mapM nf) (← nf type)
      | .proj whole index => return .proj (← nf whole) index
      | .app fn arg => return .app (← nf fn) (← nf arg)
      | .call f levels args => return .call f levels (← args.mapM nf)
      | .con c levels params args => return .con c levels (← params.mapM nf) (← args.mapM nf)
      | .data d levels args => return .data d levels (← args.mapM nf)
      | .record c levels fields =>
          return .record c levels (← fields.mapM fun (f, value) => return (f, ← nf value))
      | .field f levels arg => return .field f levels (← nf arg)
      | .new record => return .new (← nf record)
      | .caseOf args params result tree =>
          return .caseOf (← args.mapM nf) params result tree
      | t => return t

def Term.nf (env : Environment) (t : Term) : Fresh Term := nfWith env env.fuel t

inductive IsWhnf where
  | definitely
  | definitelyNot
  -- the head is a function whose body is still to come
  | unknown
deriving DecidableEq

def IsWhnf.text : IsWhnf → String
  | .definitely => "Definitely"
  | .definitelyNot => "DefinitelyNot"
  | .unknown => "Unknown"

def IsWhnf.ofStep : Option Term → IsWhnf
  | some _ => .definitelyNot
  | none => .definitely

/-- Whether a term is in weak head normal form, found along the spine of its head. -/
def Term.isWhnf (env : Environment) : Term → Fresh IsWhnf
  | .hole m => return .ofStep (env.solution? m)
  | .app fn _ => match fn with
    | .lam _ _ _ _ => return .definitelyNot
    | fn => fn.isWhnf env
  | .proj whole _ => match whole with
    | .tuple _ _ => return .definitelyNot
    | whole => whole.isWhnf env
  | .field _ _ arg => match arg with
    | .new _ => return .definitelyNot
    | arg => arg.isWhnf env
  | .call f levels args =>
      if (env.function? f).any (·.status == .inProgress) then return .unknown
      else return .ofStep (← (Term.call f levels args).headStep? env)
  | .caseOf args params result tree =>
      return .ofStep (← (Term.caseOf args params result tree).headStep? env)
  | _ => return .definitely

/-- What blocks a term: an unsolved metavariable, an error, or a call without a matching branch. -/
def stuckOnWith (env : Environment) : Nat → Term → Fresh (Option Term)
  | 0, _ => throw .outOfFuel
  | fuel + 1, t => do
      let stuckOn := stuckOnWith env fuel
      let t ← t.whnf env
      let throughTree (tree : CaseTree) (args : List Term) : Fresh (Option Term) := do
        match ← tree.run env (Term.whnf env) args with
        | .reduced _ => return none
        | .stuck arg => stuckOn arg
        | .missing => return some t
      match t with
      | .hole _ | .error _ _ => return some t
      | .app fn _ => stuckOn fn
      | .proj whole _ => stuckOn whole
      | .field _ _ arg => stuckOn arg
      | .call f levels args =>
          match env.function? f with
          | none => return none
          | some fn =>
            if fn.transports then do
              let interval ← match args[2]? with
                | some i => stuckOn i
                | none => pure none
              if interval.isSome then return interval
              match args[0]? with
              | some family => stuckOn family
              | none => return none
            else match fn.body with
              | some (.tree tree) => do
                  throughTree (← (Subst.std levels).applyTree env tree) args
              | _ => return none
      | .caseOf args _ _ tree => throughTree tree args
      | _ => return none

def Term.stuckOn (env : Environment) (t : Term) : Fresh (Option Term) :=
  stuckOnWith env env.fuel t

/-- The metavariable that blocks a term, if that is what blocks it. -/
def Term.stuckMeta (env : Environment) (t : Term) : Fresh (Option MetaId) := do
  return (← t.stuckOn env) >>= Term.hole?

/-- Which end of the interval a term reduces to. -/
def Term.whnfEndpoint? (env : Environment) (t : Term) : Fresh (Option Endpoint) := do
  return (← t.whnf env).endpoint? env

end PathTheory
