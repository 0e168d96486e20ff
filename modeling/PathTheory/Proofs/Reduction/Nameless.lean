import PathTheory.Proofs.Syntax.Filling
import PathTheory.Proofs.Syntax.Within
/-!
Reduction of nameless terms. It follows the reduction of terms rule by rule, and needs neither
fresh names nor a counter; besides its result it tells what it has passed over, that is, where a
rule of the interval would have come first had more been known of an argument.
-/
namespace PathTheory

/-- Something that a reduction met, and that can be more than it is once variables are replaced. -/
inductive Passed where
  -- an argument that is no end of the interval, where the ends have rules
  | ends (rules : Ends Nameless) (arg : Nameless)
  -- the family of a transport, where it is no function
  | family (t : Nameless)
  -- the solution of a metavariable
  | solution (t : Nameless)

/-- A computation, and what it has passed over. -/
def Traced (α : Type) : Type := Checked (α × List Passed)

namespace Traced

variable {α β : Type}

instance : Monad Traced where
  pure a := .ok (a, [])
  bind a f := match a with
    | .error fault => .error fault
    | .ok (x, before) => match f x with
      | .error fault => .error fault
      | .ok (y, later) => .ok (y, before ++ later)

def pass (p : Passed) : Traced Unit := .ok ((), [p])

def fail (fault : Fault) : Traced α := .error fault

/-- What the computation ends in, if it ends. -/
def result? (a : Traced α) : Option α :=
  match a with
  | .ok (x, _) => some x
  | .error _ => none

theorem result?_pure (x : α) : (pure x : Traced α).result? = some x := rfl

theorem result?_pass (p : Passed) : (pass p).result? = some () := rfl

theorem result?_bind (a : Traced α) (f : α → Traced β) :
    (a >>= f).result? = a.result?.bind fun x => (f x).result? := by
  cases a with
  | error fault => rfl
  | ok r =>
      obtain ⟨x, before⟩ := r
      cases next : f x <;> simp [bind, result?, next]

theorem result?_ok {a : Traced α} {x : α} : a.result? = some x ↔ ∃ l, a = .ok (x, l) := by
  constructor
  · intro done
    cases a with
    | error fault => cases done
    | ok r =>
        obtain ⟨y, l⟩ := r
        cases done
        exact ⟨l, rfl⟩
  · rintro ⟨l, rfl⟩
    rfl

theorem bind_ok {a : Traced α} {f : α → Traced β} {y : β} {l : List Passed}
    (done : (a >>= f) = .ok (y, l)) :
    ∃ x before later, a = .ok (x, before) ∧ f x = .ok (y, later) ∧ l = before ++ later := by
  cases first : a with
  | error fault =>
      rw [first] at done
      cases done
  | ok r =>
      obtain ⟨x, before⟩ := r
      cases next : f x with
      | error fault =>
          simp only [first, bind, next] at done
          cases done
      | ok r =>
          obtain ⟨z, later⟩ := r
          simp only [first, bind, next] at done
          cases done
          exact ⟨x, before, later, rfl, next, rfl⟩

end Traced

def Label.sort? : Label → Option Universe
  | .univ u | .call _ u | .con _ u | .data _ u | .record _ u | .field _ u => some u
  | _ => none

mutual

/-- All universes and level arguments. -/
def Nameless.sorts : Nameless → List Universe
  | .bound _ | .free _ | .hole _ => []
  | .node label parts => label.sort?.toList ++ parts.sorts

def NamelessParts.sorts : NamelessParts → List Universe
  | .nil => []
  | .part t rest => t.sorts ++ rest.sorts
  | .binder _ rest => rest.sorts

end

/-- Whether a universe of a definition can be had at the levels of a call. -/
def Universe.hasCall (levels u : Universe) : Bool := ((Subst.std levels).sort u).isOk

namespace NamelessParts

def list : NamelessParts → List Nameless
  | .nil => []
  | .part t rest => t :: rest.list
  | .binder _ rest => rest.list

/-- Parameters become the next arguments, the innermost one first. -/
def enter : NamelessParts → List Nameless → List Nameless →
    Option (NamelessParts × List Nameless × List Nameless)
  | .part _ (.binder _ rest), ρ, a :: args => rest.enter (a :: ρ) args
  | .part _ (.binder _ _), _, [] => none
  | parts, ρ, args => some (parts, ρ, args)

def slot? (f : DefId) : NamelessParts → Option Nameless
  | .part (.node (.slot g) (.part t .nil)) rest => if f = g then some t else rest.slot? f
  | _ => none

end NamelessParts

namespace Nameless

def given? : Nameless → Option Nameless
  | .node .given (.part t .nil) => some t
  | _ => none

end Nameless

def NamelessParts.ends : NamelessParts → List (Ends Nameless)
  | .part a (.part b rest) => ⟨a.given?, b.given?⟩ :: rest.ends
  | _ => []

namespace Nameless

def applyAll (fn : Nameless) (args : List Nameless) : Nameless :=
  args.foldl (fun fn a => .node .app (.part fn (.part a .nil))) fn

def shape? : Nameless → Option (Shape × List Nameless)
  | .node (.con c _) (.part _ args) => some (.con c, args.list)
  | .node .tuple parts => some (.tuple parts.list.dropLast.length, parts.list.dropLast)
  | _ => none

def endpoint? (env : Environment) : Nameless → Option Endpoint
  | .node (.con c _) _ => env.endpoint? c
  | _ => none

/-- The body of a function. -/
def lamBody? : Nameless → Option Nameless
  | .node .lam (.part _ (.binder _ (.part body .nil))) => some body
  | _ => none

def component? (i : Nat) : Nameless → Option Nameless
  | .node .tuple parts => parts.list.dropLast[i]?
  | _ => none

def fixed? (f : DefId) : Nameless → Option Nameless
  | .node .new (.part (.node (.record _ _) fields) .nil) => fields.slot? f
  | _ => none

/-- A term of a definition at the levels of a call. -/
def atCall (levels : Universe) (t : Nameless) : Traced Nameless :=
  if t.sorts.all levels.hasCall then return t.inst (Subst.std levels).onUniverse .free
  else .fail .addOverflow

end Nameless

section Walking

variable (env : Environment) (whnf : Nameless → Traced Nameless)

namespace Nameless

def tryEnds : List (Ends Nameless × Nameless) → Traced (Option Nameless)
  | [] => return none
  | (ends, arg) :: others =>
      if ends.isEmpty then tryEnds others else do
        let value ← whnf arg
        match value.endpoint? env with
        | some side => match ends.at? side with
          | some body => return some body
          | none => tryEnds others
        | none => do
            Traced.pass (.ends ends arg)
            tryEnds others

/-- The body of an end, if one of the last arguments that its parameters take is that end, or else
    what comes after the ends. -/
def atEnds (inner : NamelessParts) (ρ args : List Nameless)
    (otherwise : Traced (Option Nameless)) : Traced (Option Nameless) :=
  match inner.enter ρ args with
  | none => return none
  | some (ends, values, others) => do
      let taken := args.take (args.length - others.length)
      match ← tryEnds env whnf (ends.ends.zip (taken.drop (taken.length - ends.ends.length))) with
      | some body => return some ((body.fill values 0).applyAll others)
      | none => otherwise

/-- The next argument, if it has a shape. -/
def inspect (arg : Nameless) (next : Shape → List Nameless → Traced (Option Nameless)) :
    Traced (Option Nameless) := do
  match (← whnf arg).shape? with
  | none => return none
  | some (shape, components) => next shape components

end Nameless

mutual

def Nameless.walk (ρ : List Nameless) : Nameless → List Nameless → Traced (Option Nameless)
  | .node .leaf parts, args => match parts.enter ρ args with
      | some (.part body .nil, ρ, args) => return some ((body.fill ρ 0).applyAll args)
      | _ => return none
  | .node .branch parts, args => parts.walkBranch ρ args
  | .node .interval (.part (.node .ends inner) (.part rest .nil)), args =>
      Nameless.atEnds env whnf inner ρ args (rest.walkGiven ρ args)
  | _, _ => return none
termination_by structural t => t

def Nameless.walkGiven (ρ : List Nameless) : Nameless → List Nameless → Traced (Option Nameless)
  | .node .given (.part tree .nil), args => tree.walk ρ args
  | _, _ => return none
termination_by structural t => t

/-- Parameters bind the next arguments, and after them one is inspected. -/
def NamelessParts.walkBranch (ρ : List Nameless) :
    NamelessParts → List Nameless → Traced (Option Nameless)
  | .part _ (.binder _ rest), a :: args => rest.walkBranch (a :: ρ) args
  | .part (.node (.child k) (.part child .nil)) others, arg :: args =>
      Nameless.inspect whnf arg fun shape components =>
        if k.matches shape then child.walk ρ (components ++ args)
        else others.walkChildren ρ shape (components ++ args)
  | .nil, arg :: _ => Nameless.inspect whnf arg fun _ _ => return none
  | _, _ => return none
termination_by structural t => t

def NamelessParts.walkChildren (ρ : List Nameless) (shape : Shape) :
    NamelessParts → List Nameless → Traced (Option Nameless)
  | .part (.node (.child k) (.part child .nil)) others, args =>
      if k.matches shape then child.walk ρ args else others.walkChildren ρ shape args
  | _, _ => return none
termination_by structural t => t

end

namespace Nameless

def transport? : List Nameless → Traced (Option Nameless)
  | [] => return none
  | family :: others => do
      match (← whnf family).lamBody? with
      | some body => return if body.mentions 0 then none else others.head?
      | none => do
          Traced.pass (.family family)
          return none

def bodyAt? (fn : FunctionDef) (levels : Universe) (args : List Nameless) :
    Traced (Option Nameless) :=
  match fn.body with
  | none => return none
  | some (.term body) => do
      let body ← (body.toScoped.read fn.params.vars.reverse).atCall levels
      return some (body.fill args.reverse 0)
  | some (.tree tree) => do (← tree.reading.atCall levels).walk env whnf [] args

def unfolding? (f : DefId) (levels : Universe) (args : List Nameless) :
    Traced (Option Nameless) :=
  match env.function? f with
  | none => return none
  | some fn =>
      if fn.params.length ≠ args.length then return none else do
      match ← (if fn.transports then transport? whnf args else return none) with
      | some result => return some result
      | none => bodyAt? env whnf fn levels args

/-- The arguments of a case expression, and its tree. -/
def caseParts? (parts : NamelessParts) : Option (List Nameless × Nameless) :=
  match parts.list.reverse with
  | tree :: _ :: args => some (args.reverse, tree)
  | _ => none

def headStep? : Nameless → Traced (Option Nameless)
  | .hole m => match env.solution? m with
      | none => return none
      | some t => do
          Traced.pass (.solution t.reading)
          return some t.reading
  | .node .app (.part fn (.part arg .nil)) => do
      return (← whnf fn).lamBody?.map (·.fill [arg] 0)
  | .node (.proj index) (.part whole .nil) => do return (← whnf whole).component? index
  | .node (.field f _) (.part arg .nil) => do return (← whnf arg).fixed? f
  | .node (.call f levels) args => unfolding? env whnf f levels args.list
  | .node .caseOf parts => match caseParts? parts with
      | some (args, tree) => tree.walk env whnf [] args
      | none => return none
  | _ => return none

end Nameless

end Walking

/-- Weak head reduction of nameless terms. -/
def Nameless.whnfWith (env : Environment) : Nat → Nameless → Traced Nameless
  | 0, _ => .fail .outOfFuel
  | fuel + 1, t => do
      match ← t.headStep? env (Nameless.whnfWith env fuel) with
      | some next => Nameless.whnfWith env fuel next
      | none => return t

/-- What a head step of a term passes over. -/
def Term.passes (env : Environment) (t : Term) : List Passed :=
  match t.reading.headStep? env (Nameless.whnfWith env env.fuel) with
  | .ok (_, passed) => passed
  | .error _ => []

/-- What the reduction of a term passes over, from the first step to the last. -/
def Term.passesAll (env : Environment) (t : Term) : List Passed :=
  match Nameless.whnfWith env env.fuel t.reading with
  | .ok (_, passed) => passed
  | .error _ => []

end PathTheory
