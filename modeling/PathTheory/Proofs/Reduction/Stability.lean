import PathTheory.Proofs.Reduction.Simulation
import PathTheory.Proofs.Reduction.Reading
import PathTheory.Session
/-!
Head reduction and substitution. Where a rule of the interval was passed over because nothing was
known of an argument, an end put for a variable can make that rule the first one. The main statement
is that this is the only way: a head step is also one of every instance in which all that the step
passed over is passed over again.
-/
namespace PathTheory

open Filter

/-- What was passed over is passed over again once terms are put for the variables. -/
def Passed.Spared (env : Environment) (τ : Var → Term) : Passed → Prop
  | .ends rules arg => ∃ fuel v, (Nameless.whnfWith env fuel (arg.put τ)).result? = some v ∧
      ∀ side, v.endpoint? env = some side → rules.at? side = none
  | .family t => ∃ fuel v, (Nameless.whnfWith env fuel (t.put τ)).result? = some v
  | .solution t => t.put τ = t

/-- Definitions mention no variable that is replaced, apart from their parameters, and what
    transports is the transport of the library. -/
structure Environment.Sealed (env : Environment) (τ : Var → Term) : Prop where
  bodies : ∀ f fn t, env.function? f = some fn → fn.body = some (.term t) →
    ∀ x ∈ t.freeVars, x ∈ fn.params.vars ∨ τ x = .ref x
  trees : ∀ f fn t, env.function? f = some fn → fn.body = some (.tree t) →
    ∀ x ∈ t.freeVars, τ x = .ref x
  transports : ∀ f fn, env.function? f = some fn → fn.transports = true →
    Definition.function fn = Library.coeFunction

theorem Environment.Sealed.upTo {env : Environment} {τ : Var → Term} (closed : env.Sealed τ) :
    env.SealedUpTo (Putting τ) where
  bodies f fn t known isBody x member := (closed.bodies f fn t known isBody x member).imp_right
    putting_keeps
  trees f fn t known isBody x member := putting_keeps (closed.trees f fn t known isBody x member)
  transports := closed.transports

theorem Sparing.spared (env : Environment) (τ : Var → Term) (fuel : Nat) :
    Sparing .ends env env (Putting τ) (Passed.Spared env τ) fuel where
  ends := by
    rintro rules arg v l - - - ⟨fuel, w, ends, noRule⟩ arg' same
    rw [same.eq_put]
    exact ⟨w, noRule, eventually_result ends⟩
  family := by
    rintro t v l - - - ⟨fuel, w, ends⟩ t' same
    rw [same.eq_put]
    exact ⟨w, trivial, eventually_result ends⟩
  solution := by
    intro t stays
    have same := t.upTo_put (τ := τ)
    rwa [stays] at same

section Steps

variable {env : Environment} {V : Var → Prop} {s : Subst} {t t' : Term} {n m : Nat}

/-- A head step of a term is one of its reading. -/
theorem Term.headStep?_reading (known : env.Within V n) (below : t.Below n)
    (step : t.headStep? env n = .ok (some t', m)) : n ≤ m ∧ t'.Below m ∧
      t.reading.headStep? env (Nameless.whnfWith env env.fuel) =
        .ok (some t'.reading, t.passes env) := by
  have everywhere := known.widen (W := fun _ => True) fun _ _ => trivial
  have within : t.Within (fun _ => True) n := ⟨below, fun _ _ => trivial⟩
  have fair := whnfWith_within everywhere env.fuel
  obtain ⟨order, result⟩ := headStep?_within fair everywhere (Nat.le_refl n) within (some t') m step
  obtain ⟨_, mirrored, rfl⟩ := (headStep?_mirrors fair (whnfWith_mirrors everywhere env.fuel)
    everywhere (Nat.le_refl n) within).ok step
  obtain ⟨l, done⟩ := Traced.result?_ok.mp mirrored
  refine ⟨order, (result t' rfl).below, ?_⟩
  rw [Term.passes, done]
  rfl

/-- A head step of the reading is one of the term, whatever the counter. -/
theorem Term.headStep?_of_reading (known : env.Within V n) {k : Nat} (order : n ≤ k)
    (below : t.Below k) {fuel : Nat} {y : Nameless}
    (step : (t.reading.headStep? env (Nameless.whnfWith env fuel)).result? = some (some y)) :
    ∃ u l, k ≤ l ∧ PathTheory.headStep? env (whnfWith env fuel) t k = .ok (some u, l) ∧
      u.reading = y := by
  have everywhere := known.widen (W := fun _ => True) fun _ _ => trivial
  have within : t.Within (fun _ => True) k := ⟨below, fun _ _ => trivial⟩
  have fair := whnfWith_within everywhere fuel
  obtain ⟨o, l, moved, same⟩ := (headStep?_mirrors fair (whnfWith_mirrors everywhere fuel)
    everywhere order within).result step
  obtain ⟨later, _⟩ := headStep?_within fair everywhere order within o l moved
  cases o with
  | none => cases same
  | some u => exact ⟨u, l, later, moved, (Option.some.inj same).symm⟩

/-- Terms for variables are put into a term, and the reading is the instance. -/
theorem Subst.Simple.instance (simple : s.Simple) (covered : s.Covered n) (env : Environment)
    {k : Nat} (order : n ≤ k) (below : t.Below k) :
    ∃ r l, s.apply env t k = .ok (r, l) ∧ k ≤ l ∧ r.Below l ∧ r.reading = t.reading.put s.image := by
  obtain ⟨⟨r, l⟩, done⟩ := simple.apply (n := k) env t
  have within : s.Within (fun _ => True) n :=
    ⟨covered, simple.still, fun _ _ _ _ _ => trivial⟩
  exact ⟨r, l, done, (within.mono order).simple_reading simple below done⟩

/-- A head step of a term is one of every instance in which all that the step passed over is passed
    over again: the instance, with fuel enough, steps to the instance of what the term steps to. -/
theorem headStep_stable (known : env.Within V n) (closed : env.Sealed s.image) (simple : s.Simple)
    (covered : s.Covered n) (below : t.Below n) (step : t.headStep? env n = .ok (some t', m))
    (spared : ∀ p ∈ t.passes env, p.Spared env s.image) :
    ∃ enough, ∀ fuel, enough ≤ fuel → ∃ t₁ u t₂ k₁ k₂ k₃,
      s.apply env t m = .ok (t₁, k₁) ∧
      headStep? env (whnfWith env fuel) t₁ k₁ = .ok (some u, k₂) ∧
      s.apply env t' k₂ = .ok (t₂, k₃) ∧ u.AlphaEq t₂ := by
  obtain ⟨order, belowStep, read⟩ := Term.headStep?_reading known below step
  have puts := putting_puts s.image
  have follows := whnf_follows (.refl env) puts closed.upTo (.spared env s.image) env.fuel
  obtain ⟨_, ⟨_, rfl, same⟩, carried⟩ := headStep?_followed (.refl env) puts closed.upTo
    (.spared env s.image env.fuel) follows t.reading.upTo_put t'.reading _ read spared
  rw [same.eq_put] at carried
  obtain ⟨enough, stepped⟩ := eventually_atTop.mp carried
  refine ⟨enough, fun fuel atLeast => ?_⟩
  obtain ⟨t₁, k₁, substituted, later, below₁, reading₁⟩ :=
    simple.instance covered env order (below.mono order)
  have start : n ≤ k₁ := order.trans later
  have instanceStep := stepped fuel atLeast
  rw [← reading₁] at instanceStep
  obtain ⟨u, k₂, later', moved, same⟩ := Term.headStep?_of_reading known start below₁ instanceStep
  obtain ⟨t₂, k₃, target, _, _, reading₂⟩ := simple.instance covered env (start.trans later')
    (belowStep.mono (later.trans later'))
  exact ⟨t₁, u, t₂, k₁, k₂, k₃, substituted, moved, target, same.trans reading₂.symm⟩

end Steps

section Examples

open Library

theorem library_sealed (fuel : Nat) (τ : Var → Term) : (environment fuel).Sealed τ where
  bodies f fn t known isBody x := by
    rcases library_function known with same | same | same
    · cases same
      cases isBody
      exact fun member => .inl (by revert x; decide)
    · cases same
      cases isBody
    · cases same
      cases isBody
  trees f fn t known isBody x := by
    rcases library_function known with same | same | same
    · cases same
      cases isBody
    · cases same
      cases isBody
      exact nofun
    · cases same
      cases isBody
      exact nofun
  transports f fn known transports := by
    rcases library_function known with same | same | same
    · cases same
      cases transports
    · cases same
      cases transports
    · exact same

def flatFamily : Term := .lam .explicit ⟨30, "j"⟩ intervalType natType

def flat : Term := .lam .explicit ⟨31, "j"⟩ intervalType zeroTerm

/-- A path from zero to one, by the function that is zero everywhere, at a point of the interval. -/
def flatAt (i : Term) : Term :=
  atOf flatFamily zeroTerm (numeral 1) (pathOf flatFamily zeroTerm (numeral 1) flat) i

def point : Var := ⟨29, "i"⟩

theorem flatAt_stable :
    (flatAt (.ref point)).headStep? (environment 10) 33 =
      .ok (some (.app flat (.ref point)), 33) ∧
    (flatAt (.ref point)).passes (environment 10) =
      [.ends ⟨some (.bound 3), some (.bound 2)⟩ (.free point)] ∧
    ∃ enough, ∀ fuel, enough ≤ fuel → ∃ t₁ u t₂ k₁ k₂ k₃,
      (Subst.single point (.ref ⟨32, "k"⟩)).apply (environment 10) (flatAt (.ref point)) 33 =
        .ok (t₁, k₁) ∧
      headStep? (environment 10) (whnfWith (environment 10) fuel) t₁ k₁ = .ok (some u, k₂) ∧
      (Subst.single point (.ref ⟨32, "k"⟩)).apply (environment 10) (.app flat (.ref point)) k₂ =
        .ok (t₂, k₃) ∧ u.AlphaEq t₂ := by
  have known := (library_within 10).mono (by decide : firstFresh ≤ 33)
  have inScope : (Term.ref ⟨32, "k"⟩).Within (fun _ => True) 33 := ⟨by decide, by simp⟩
  have covered := (Subst.within_empty.add (x := point) inScope).toCovered
  refine ⟨rfl, rfl, headStep_stable known (library_sealed 10 _) ⟨rfl, rfl⟩ covered (by decide) rfl ?_⟩
  intro p member
  obtain rfl := List.mem_singleton.mp member
  exact ⟨1, .free ⟨32, "k"⟩, rfl, nofun⟩

/-- The function that takes a point of the interval to the value of the path there. -/
def flatFunction : Surface.Expr :=
  let number := Surface.Expr.number .none
  let const := Surface.Expr.const .none
  let lam (x : Var) (body : Surface.Expr) := Surface.Expr.lam .none [⟨.explicit, x, none⟩] body
  .lam .none [⟨.explicit, point, some (const interval)⟩] <|
    .app .none (const pathAt)
      [(.explicit, lam ⟨30, "j"⟩ (const nat)), (.explicit, number 0), (.explicit, number 1),
        (.explicit, .app .none (const pathCon) [(.explicit, lam ⟨31, "j"⟩ (number 0))]),
        (.explicit, .var .none point)]

/-- At the right end the path is one by the rule of that end, which comes first there and says
    something else than the function. -/
theorem flatAt_unstable :
    (Prod.fst <$> (Session.elaborate (flatFunction.elaborate none)).run
      { Session.start .standard 20 with nextVar := 32 }).map Except.toOption =
        .ok (some (.lam .explicit point intervalType (flatAt (.ref point)),
          .pi .explicit point intervalType (.app flatFamily (.ref point)))) ∧
    (flatAt (.ref point)).headStep? (environment 20) 33 =
      .ok (some (.app flat (.ref point)), 33) ∧
    (Subst.single point rightTerm).apply (environment 20) (flatAt (.ref point)) 33 =
      .ok (flatAt rightTerm, 33) ∧
    (Subst.single point rightTerm).apply (environment 20) (.app flat (.ref point)) 33 =
      .ok (.app flat rightTerm, 33) ∧
    (flatAt rightTerm).nf (environment 20) 33 = .ok (numeral 1, 33) ∧
    (Term.app flat rightTerm).nf (environment 20) 33 = .ok (numeral 0, 33) ∧
    ((Unify.compare (flatAt rightTerm) (.app flat rightTerm) .eq .none).run .empty |>.run
      (environment 20) |>.run 33).map (fun r => r.1.1.1) = .ok false := by
  refine ⟨?_, rfl, rfl, rfl, rfl, rfl, rfl⟩
  decide +kernel

end Examples

end PathTheory
