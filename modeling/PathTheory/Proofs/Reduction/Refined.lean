import PathTheory.Proofs.Reduction.Simulation
import PathTheory.Proofs.Reduction.Reading
/-!
Types refined by patterns. Constructors and tuples are put for variables of a type, and further
metavariables are solved. What the type reduces to is then refined in the same way, its head stays as
it is, unless a rule for an end comes to apply that was passed over before: ends are put for no
variable, but a call that was stuck may become one.
-/
namespace PathTheory

variable {env env' : Environment} {spot : Nameless → Nameless → Prop}

/-- Constructors and tuples over variables, but no ends of the interval. -/
inductive Nameless.Datum (env : Environment) : Nameless → Prop
  | var (x : Var) : Nameless.Datum env (.free x)
  | made {t : Nameless} {shape : Shape} {components : List Nameless} :
      t.shape? = some (shape, components) → t.endpoint? env = none →
      (∀ c ∈ components, c.Datum env) → Nameless.Datum env t

theorem Nameless.Datum.given? {t : Nameless} (datum : t.Datum env) : t.given? = none := by
  cases datum with
  | var x => rfl
  | made shown _ _ =>
      cases t with
      | node l p => cases l <;> first | rfl | cases shown
      | _ => rfl

/-- A variable is taken apart, or becomes another one. -/
def Refining (env : Environment) (a b : Nameless) : Prop :=
  (∃ x, a = .free x) ∧ b.Closed 0 ∧ b.Datum env

theorem refining_puts (env : Environment) : PutsTerms (Refining env) where
  var := And.left
  closed refined := refined.2.1
  given refined := refined.2.2.given?

theorem refining_var (env : Environment) (x y : Var) : Refining env (.free x) (.free y) :=
  ⟨⟨x, rfl⟩, trivial, .var y⟩

/-- Nothing has to be refined. -/
theorem Nameless.refining_self (env : Environment) (t : Nameless) : t.UpTo (Refining env) t :=
  .self fun x _ => refining_var env x x

/-- What becomes of a datum when data is put for its variables. -/
theorem Nameless.Datum.upTo (puts : PutsTerms spot) (each : ∀ {a b}, spot a b → b.Datum env)
    {a b : Nameless} (datum : a.Datum env) (same : a.UpTo spot b) : b.Datum env := by
  induction datum generalizing b with
  | var x =>
      cases same with
      | swap here => exact each here
  | made shown noEnd _ ih =>
      obtain ⟨components, shown', alike⟩ := shape?_upTo puts same shown
      have still := endpoint?_upTo_of_shape puts same (by rw [shown]; rfl) env
      refine .made shown' (still.trans noEnd) fun c member => ?_
      obtain ⟨i, at'⟩ := List.mem_iff_getElem?.mp member
      obtain ⟨bound, rfl⟩ := List.getElem?_eq_some_iff.mp at'
      have within := alike.length_eq.symm ▸ bound
      exact ih _ (List.getElem_mem within) (alike.get within bound)

/-- Refined terms are refined further. -/
theorem Refining.put {τ : Var → Term} (data : ∀ x, (τ x).reading.Datum env) {a b : Nameless}
    (refined : Refining env a b) : Refining env a (b.put τ) := by
  obtain ⟨isVar, closed, datum⟩ := refined
  have puts := putting_puts τ
  have same : b.UpTo (Putting τ) (b.put τ) := b.upTo_put
  refine ⟨isVar, same.closed puts.shut 0 closed, datum.upTo puts ?_ same⟩
  rintro _ _ ⟨x, -, rfl⟩
  exact data x

section Reductions

/-- What was passed over is passed over again, however the variables are refined. -/
def Passed.Kept (env : Environment) : Passed → Prop
  | .ends rules arg => ∀ arg', arg.UpTo (Refining env) arg' → ∀ fuel v,
      (Nameless.whnfWith env fuel arg').result? = some v →
        ∀ side, v.endpoint? env = some side → rules.at? side = none
  | .family _ | .solution _ => True

/-- Of all that the reduction of the term passes over, no rule for an end comes to apply in the
    second environment when variables are refined. -/
def Term.Keeps (env env' : Environment) (t : Term) : Prop := ∀ p ∈ t.passesAll env, p.Kept env'

/-- A term whose reduction passes nothing over. -/
theorem Term.keeps_of_none {t : Term} (none : t.passesAll env = []) : t.Keeps env env' := by
  intro p member
  rw [none] at member
  cases member

theorem Sparing.kept (env env' : Environment) (fuel : Nat) :
    Sparing .whenever env env' (Refining env') (Passed.Kept env') fuel where
  ends := by
    intro rules arg v l _ _ _ kept arg' same k w ends
    exact kept arg' same k w ends
  family := by
    intro t v l _ _ _ _ t' _ k w _
    trivial
  solution := by
    intro t _
    exact t.refining_self env'

theorem Environment.OnlyCoe.refining (only : env.OnlyCoe) : env.SealedUpTo (Refining env') where
  bodies _ _ _ _ _ x _ := .inr (refining_var env' x x)
  trees _ _ _ _ _ x _ := refining_var env' x x
  transports := only

/-- Some run takes the term to the result, with all variables there are in scope. -/
def Term.Reduces (env : Environment) (t v : Term) : Prop :=
  ∃ n m, env.Within (fun _ => True) n ∧ t.Below n ∧ t.whnf env n = .ok (v, m)

theorem Term.reduces {V : Var → Prop} {t v : Term} {n m : Nat} (known : env.Within V n)
    (below : t.Below n) (done : t.whnf env n = .ok (v, m)) : t.Reduces env v :=
  ⟨n, m, known.widen fun _ _ => trivial, below, done⟩

/-- The reading of a term reduces to the reading of its result. -/
theorem Term.Reduces.reading {t v : Term} (reduced : t.Reduces env v) :
    (Nameless.whnfWith env env.fuel t.reading).result? = some v.reading := by
  obtain ⟨n, _, known, below, done⟩ := reduced
  obtain ⟨_, run, rfl⟩ := (whnfWith_mirrors known env.fuel t n (Nat.le_refl n)
    ⟨below, fun _ _ => trivial⟩).ok done
  exact run

/-- A type that reduces to a value reduces to that value refined, if it reduces at all once it is
    refined. -/
theorem Term.reduces_refined {t t' v w : Term} (further : env.Further env') (only : env.OnlyCoe)
    (reduced : t.Reduces env v) (reduced' : t'.Reduces env' w) (keeps : t.Keeps env env')
    (same : t.reading.UpTo (Refining env') t'.reading) (value : v.reading.isValue = true) :
    v.reading.UpTo (Refining env') w.reading := by
  obtain ⟨passed, traced⟩ := Traced.result?_ok.mp reduced.reading
  have kept : ∀ p ∈ passed, p.Kept env' := by
    intro p member
    refine keeps p ?_
    rwa [Term.passesAll, traced]
  have follows := whnf_follows further (refining_puts env') only.refining (.kept env env') env.fuel
  exact follows _ _ _ traced kept value same _ _ reduced'.reading

end Reductions

section Heads

variable {t : Term}

/-- A data type agrees with data types only. -/
theorem upTo_data (puts : PutsTerms spot) {d : DefId} {u : Universe} {args : List Term}
    (same : (Term.data d u args).reading.UpTo spot t.reading) : ∃ args', t = .data d u args' ∧
      AllUpTo spot (args.map Term.reading) (args'.map Term.reading) := by
  obtain ⟨q, isData, parts⟩ := puts.node same
  cases t with
  | data d' u' args' =>
      cases isData
      refine ⟨args', rfl, ?_⟩
      rw [← terms_list, ← terms_list]
      exact list_upTo parts
  | _ => cases isData

/-- A tuple type agrees with tuple types only. -/
theorem upTo_sigma (puts : PutsTerms spot) {params : Telescope}
    (same : (Term.sigma params).reading.UpTo spot t.reading) : ∃ params', t = .sigma params' ∧
      ((telescopeParts params .nil).read []).UpTo spot ((telescopeParts params' .nil).read []) := by
  obtain ⟨q, isSigma, parts⟩ := puts.node same
  cases t with
  | sigma params' =>
      cases isSigma
      exact ⟨params', rfl, parts⟩
  | _ => cases isSigma

end Heads

end PathTheory
