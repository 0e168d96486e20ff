import PathTheory.Proofs.Matching.Built
/-!
Constructor values of a type. A type has the shape of what it reduces to, and a type with variables
may be reduced before they are replaced or after it; a value is one of the type if it fits every
shape that can be read off in this way. What a value says of its own type, its levels and data
arguments, counts up to a likeness that is a parameter: with equality they are those of the type, and
with likeness up to annotations they do not matter.
-/
namespace PathTheory

namespace Nameless

/-- Parts without binders in front of others. -/
def parts : List Nameless → NamelessParts → NamelessParts
  | [], rest => rest
  | t :: l, rest => .part t (parts l rest)

def con (c : DefId) (u : Universe) (params args : List Nameless) : Nameless :=
  .node (.con c u) (.part (.node .ofType (parts params .nil)) (parts args .nil))

def tuple (components : List Nameless) (type : Nameless) : Nameless :=
  .node .tuple (parts components (.part (.node .ofType (.part type .nil)) .nil))

variable {f : Universe → Universe} {σ : Var → Nameless}

theorem parts_inst (l : List Nameless) (rest : NamelessParts) :
    (parts l rest).inst f σ = parts (l.map (·.inst f σ)) (rest.inst f σ) := by
  induction l with
  | nil => rfl
  | cons t l ih => simp [parts, NamelessParts.inst, ih]

theorem con_inst (c : DefId) (u : Universe) (params args : List Nameless) :
    (con c u params args).inst f σ =
      con c (f u) (params.map (·.inst f σ)) (args.map (·.inst f σ)) := by
  simp [con, inst, NamelessParts.inst, parts_inst, Label.map]

theorem tuple_inst (components : List Nameless) (type : Nameless) :
    (tuple components type).inst f σ =
      tuple (components.map (·.inst f σ)) (type.inst f σ) := by
  simp [tuple, inst, NamelessParts.inst, parts_inst, Label.map]

end Nameless

theorem termsParts_read (l : List Term) (rest : Parts) :
    (termsParts l rest).read [] = Nameless.parts (l.map Term.reading) (rest.read []) := by
  induction l with
  | nil => rfl
  | cons a l ih => simp [termsParts, Parts.read, Nameless.parts, ih, Term.reading]

theorem Term.con_reading (c : DefId) (u : Universe) (params args : List Term) :
    (con c u params args).reading =
      Nameless.con c u (params.map reading) (args.map reading) := by
  simp [reading, toScoped, Scoped.read, Parts.read, Nameless.con, termsParts_read]

theorem Term.tuple_reading (components : List Term) (type : Term) :
    (tuple components type).reading =
      Nameless.tuple (components.map reading) type.reading := by
  simp [reading, toScoped, Scoped.read, Parts.read, Parts.one, Nameless.tuple, termsParts_read]

/-- When readings count as the same; instances at variables with like values are alike. -/
structure Likeness (R : Nameless → Nameless → Prop) : Prop where
  refl : ∀ a, R a a
  symm : ∀ {a b}, R a b → R b a
  trans : ∀ {a b c}, R a b → R b c → R a c
  inst : ∀ (t : Nameless) (f : Universe → Universe) {σ τ : Var → Nameless},
    (∀ x ∈ t.freeVars, R (σ x) (τ x)) → R (t.inst f σ) (t.inst f τ)

theorem Likeness.eq : Likeness Eq where
  refl _ := rfl
  symm := Eq.symm
  trans := Eq.trans
  inst t _ _ _ same := t.inst_congr same

section Annotations

/-- Levels of constructors left out. -/
def Label.bare : Label → Label
  | .con c _ => .con c .set0
  | l => l

mutual

/-- What values say of their types left out. -/
def Nameless.bare : Nameless → Nameless
  | .bound i => .bound i
  | .free x => .free x
  | .hole m => .hole m
  | .node .ofType _ => .node .ofType .nil
  | .node l parts => .node l.bare parts.bare

def NamelessParts.bare : NamelessParts → NamelessParts
  | .nil => .nil
  | .part t rest => .part t.bare rest.bare
  | .binder mode rest => .binder mode rest.bare

end

/-- Likeness up to what values say of their types. -/
def Nameless.Alike (a b : Nameless) : Prop := a.bare = b.bare

variable {f : Universe → Universe} {σ τ : Var → Nameless}

mutual

theorem Nameless.bare_inst : ∀ t : Nameless, (∀ x ∈ t.freeVars, (σ x).Alike (τ x)) →
    (t.inst f σ).bare = (t.inst f τ).bare
  | .bound _, _ | .hole _, _ => rfl
  | .free x, same => same x (by simp [Nameless.freeVars])
  | .node l parts, same => by
      have inner := parts.bare_inst same
      cases l <;> simp [Nameless.inst, Label.map, Nameless.bare, inner]

theorem NamelessParts.bare_inst : ∀ t : NamelessParts, (∀ x ∈ t.freeVars, (σ x).Alike (τ x)) →
    (t.inst f σ).bare = (t.inst f τ).bare
  | .nil, _ => rfl
  | .part t rest, same => by
      simp only [NamelessParts.freeVars, List.mem_append] at same
      simp [NamelessParts.inst, NamelessParts.bare,
        t.bare_inst fun x member => same x (.inl member),
        rest.bare_inst fun x member => same x (.inr member)]
  | .binder mode rest, same => by
      simp [NamelessParts.inst, NamelessParts.bare, rest.bare_inst same]

end

theorem Likeness.alike : Likeness Nameless.Alike where
  refl _ := rfl
  symm := Eq.symm
  trans := Eq.trans
  inst t _ _ _ same := t.bare_inst same

end Annotations

section Values

variable (R : Nameless → Nameless → Prop) (env : Environment)

/-- Some term that reduces to the shape has the type as its instance. -/
def Shows (type : Nameless) (shape : Term) (σ : Var → Nameless) : Prop :=
  ∃ (t : Term) (n m : Nat), env.Within (fun _ => True) n ∧ t.Below n ∧ t.whnf env n = .ok (shape, m) ∧
    R type (t.reading.inst id σ)

mutual

/-- The value fits the shape of a type whose variables stand for the given readings. -/
def Term.Fits : Term → Term → (Var → Nameless) → Prop
  | .con c levels params args, type, σ => match type with
      | .data d u dataArgs => ∃ data con, env.data? d = some data ∧ c ∈ data.constructors ∧
          env.constructor? c = some con ∧
          R (Term.con c levels params args).reading
            (Nameless.con c u (dataArgs.map (·.reading.inst id σ)) (args.map Term.reading)) ∧
          fieldsFit args con.params (Subst.std u).onUniverse
            fun x => ((Subst.instantiate data.params dataArgs).image x).reading.inst id σ
      | .sigma _ => False
      | _ => True
  | .tuple components annotation, type, σ => match type with
      | .data _ _ _ => False
      | .sigma params => R (Term.tuple components annotation).reading
            (Nameless.tuple (components.map Term.reading) ((Term.sigma params).reading.inst id σ)) ∧
          fieldsFit components params id σ
      | _ => True
  | _, type, _ => match type with
      | .data _ _ _ | .sigma _ => False
      | _ => True

/-- As many values as the telescope has bindings, each one of its type. -/
def fieldsFit : List Term → Telescope → (Universe → Universe) → (Var → Nameless) → Prop
  | [], [], _, _ => True
  | a :: args, b :: params, f, σ =>
      (∀ shape τ, Shows R env (b.type.reading.inst f σ) shape τ → a.Fits shape τ) ∧
        fieldsFit args params f (Function.update σ b.var a.reading)
  | _, _, _, _ => False

end

/-- The value is one of the type. -/
def Term.Inhabits (v : Term) (type : Nameless) : Prop :=
  ∀ shape σ, Shows R env type shape σ → v.Fits R env shape σ

end Values

section Shapes

variable {R : Nameless → Nameless → Prop} {env : Environment} {σ : Var → Nameless} {v : Term}

/-- The value is the constructor applied to the arguments, which fit its parameters. -/
structure Term.MadeBy (R : Nameless → Nameless → Prop) (env : Environment) (σ : Var → Nameless)
    (data : DataDef) (u : Universe) (dataArgs : List Term) (v : Term) (c : DefId)
    (con : ConstructorDef) (args : List Term) : Prop where
  shown : v.shape? = some (.con c, args)
  defined : env.constructor? c = some con
  like : R v.reading (Nameless.con c u (dataArgs.map (·.reading.inst id σ)) (args.map Term.reading))
  fits : fieldsFit R env args con.params (Subst.std u).onUniverse
    fun x => ((Subst.instantiate data.params dataArgs).image x).reading.inst id σ

/-- A value of a data type is made by one of its constructors. -/
theorem Term.Fits.data {d : DefId} {u : Universe} {dataArgs : List Term}
    (fits : v.Fits R env (.data d u dataArgs) σ) : ∃ data c con args, env.data? d = some data ∧
      c ∈ data.constructors ∧ v.MadeBy R env σ data u dataArgs c con args := by
  cases v with
  | con c levels params args =>
      obtain ⟨data, con, known, isCon, defined, like, fields⟩ := fits
      exact ⟨data, c, con, args, known, isCon, ⟨rfl, defined, like, fields⟩⟩
  | _ => exact fits.elim

/-- The value is a tuple of components that fit the type. -/
structure Term.TupleOf (R : Nameless → Nameless → Prop) (env : Environment) (σ : Var → Nameless)
    (params : Telescope) (v : Term) (components : List Term) : Prop where
  shown : v.shape? = some (.tuple components.length, components)
  like : R v.reading
    (Nameless.tuple (components.map Term.reading) ((Term.sigma params).reading.inst id σ))
  fits : fieldsFit R env components params id σ

/-- A value of a tuple type is a tuple. -/
theorem Term.Fits.sigma {params : Telescope} (fits : v.Fits R env (.sigma params) σ) :
    ∃ components, v.TupleOf R env σ params components := by
  cases v with
  | tuple components annotation => exact ⟨components, ⟨rfl, fits.1, fits.2⟩⟩
  | _ => exact fits.elim

/-- Like types have the same values. -/
theorem Term.Inhabits.like (likeness : Likeness R) {type type' : Nameless} (like : R type type')
    (inhabits : v.Inhabits R env type) : v.Inhabits R env type' := by
  rintro shape τ ⟨t, n, m, known, below, reduced, shows'⟩
  exact inhabits shape τ ⟨t, n, m, known, below, reduced, likeness.trans like shows'⟩

theorem Term.Inhabits.fits (likeness : Likeness R) {type shape : Term} {n m : Nat}
    (inhabits : v.Inhabits R env (type.reading.inst id σ))
    (known : env.Within (fun _ => True) n) (below : type.Below n)
    (reduced : type.whnf env n = .ok (shape, m)) : v.Fits R env shape σ :=
  inhabits shape σ ⟨type, n, m, known, below, reduced, likeness.refl _⟩

theorem fieldsFit.length {args : List Term} {params : Telescope} {f : Universe → Universe}
    (fits : fieldsFit R env args params f σ) : args.length = params.length := by
  induction args generalizing params σ with
  | nil =>
      cases params with
      | nil => rfl
      | cons b params => exact fits.elim
  | cons a args ih =>
      cases params with
      | nil => exact fits.elim
      | cons b params => exact congrArg (· + 1) (ih fits.2)

end Shapes

end PathTheory
