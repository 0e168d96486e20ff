import PathTheory.Reduction
/-!
Types of finished terms. The type is read off the term without inference; where that is not
possible there is no answer, which is not the same as the term being wrong.
-/
namespace PathTheory

/-- Types of variables, the latest first. -/
abbrev Context := List (Var × Term)

/-- The type of a component of a tuple, over the projections before it. -/
def componentType? (env : Environment) (whole : Term) :
    Nat → Nat → Telescope → Subst → OptionT Fresh Term
  | _, _, [], _ => failure
  | 0, _, b :: _, s => s.apply env b.type
  | left + 1, index, b :: rest, s =>
      componentType? env whole left (index + 1) rest (s.add b.var (.proj whole index))

/-- The universe in a type of types. -/
def Term.asUniverse? (env : Environment) (t : Term) : OptionT Fresh Universe := do
  let some u := (← t.whnf env).universe? | failure
  return u

mutual

def Term.typeOf? (env : Environment) (Γ : Context) : Term → OptionT Fresh Term
  | .ref x => OptionT.mk (return Γ.lookup x)
  | .lam mode x domain body => do
      return .pi mode x domain (← body.typeOf? env ((x, domain) :: Γ))
  | .pi _ x domain codomain => do
      let u ← (← domain.typeOf? env Γ).asUniverse? env
      let v ← (← codomain.typeOf? env ((x, domain) :: Γ)).asUniverse? env
      let some w ← Universe.ofPi? u v | failure
      return .univ w
  | .sigma params => return .univ (← sigmaSort? env Γ .prop params)
  | .tuple _ type => return type
  | .proj whole index => do
      match ← (← whole.typeOf? env Γ).whnf env with
      | .sigma params => componentType? env whole index 0 params .empty
      | _ => failure
  | .univ u => return .univ (← u.succ)
  | .app fn arg => do
      match ← (← fn.typeOf? env Γ).whnf env with
      | .pi _ x _ codomain => (Subst.single x arg).apply env codomain
      | _ => failure
  | .call f levels args => do
      let some fn := env.function? f | failure
      let s := (Subst.instantiate fn.params args).addStd levels
      -- a partial application has the remaining parameters as a function type
      let (rest, inner) ← s.applyTelescope env (fn.params.drop args.length)
      return .piOver rest (← inner.apply env fn.result)
  | .con c levels params _ => do
      let some con := env.constructor? c | failure
      return .data con.data levels params
  | .data d levels _ => do
      let some data := env.data? d | failure
      return .univ (← (Subst.std levels).sort data.sort)
  | .record c levels _ => do
      let some cls := env.cls? c | failure
      return .univ (← (Subst.std levels).sort cls.sort)
  | .field f levels arg => do
      let some field := env.field? f | failure
      ((Subst.single field.this arg).addStd levels).apply env field.type
  | .new record => return record
  | .caseOf args params result _ => (Subst.instantiate params args).apply env result
  | .hole m => OptionT.mk (return (env.meta? m).map MetaEntry.type)
  | .error _ _ => failure

def sigmaSort? (env : Environment) (Γ : Context) (u : Universe) :
    List (Binding Term) → OptionT Fresh Universe
  | [] => return u
  | ⟨_, x, type⟩ :: rest => do
      let v ← (← type.typeOf? env Γ).asUniverse? env
      let some w ← u.max? v | failure
      sigmaSort? env ((x, type) :: Γ) w rest

end

/-- The universe that a type is in. -/
def Term.sortOf? (env : Environment) (Γ : Context) (type : Term) : OptionT Fresh Universe := do
  (← type.typeOf? env Γ).asUniverse? env

end PathTheory
