import PathTheory.Proofs.Conversion.Renamed
import PathTheory.Proofs.Level.Deferred
import PathTheory.Proofs.Syntax.Levels
import PathTheory.Session
/-!
Cumulativity of data types. A data type at one level argument is found to be at most the same data
type at another one as soon as the levels are in this order; nobody looks at the constructors. The
main statement is that the types of their parameters are in the same order if level parameters only
stand where the comparison lets universes grow. Where they stand in the domain of a function, the
parameters are not in order, and the data types are all the same.
-/
namespace PathTheory

open Unify

/-- One reading is at most another one: they differ in universes only, and only where the comparison
    lets universes grow. -/
inductive Nameless.AtMost : Nameless → Nameless → Prop
  | same (t : Nameless) : AtMost t t
  | univ {u v} : u.holds v .le = .ok true → AtMost (.node (.univ u) .nil) (.node (.univ v) .nil)
  | data {d u v args} : u.holds v .le = .ok true →
      AtMost (.node (.data d u) args) (.node (.data d v) args)
  | record {c u v fields} : u.holds v .le = .ok true →
      AtMost (.node (.record c u) fields) (.node (.record c v) fields)
  | pi {mode domain c d} : AtMost c d →
      AtMost (binding .pi mode domain c) (binding .pi mode domain d)

theorem Nameless.AtMost.fill {a b : Nameless} (below : a.AtMost b) (ρ : List Nameless) :
    ∀ d, (a.fill ρ d).AtMost (b.fill ρ d) := by
  induction below with
  | same t => exact fun d => .same _
  | univ holds => exact fun d => .univ holds
  | data holds => exact fun d => .data holds
  | record holds => exact fun d => .record holds
  | pi _ ih => exact fun d => .pi (ih (d + 1))

section Comparing

variable {env : Environment} {K P : Nameless → Prop} {low n : Nat} {s : Store} {span : Span}
  {cmp : Cmp} {distinct : Compare} {fuel : Nat}

/-- Values are compared by their heads at once. -/
theorem compareDistinct_value (more : env.fuel = fuel + 1) {left right : Term}
    (leftValue : left.isValue = true) (rightValue : right.isValue = true)
    (leftSound : left.isError = false) (rightSound : right.isError = false) (k : Nat) :
    compareDistinct distinct k left right cmp span s env n =
      compareHeads distinct left right cmp span s env n := by
  have looked : ∀ {t : Term}, t.isValue = true → ∀ n, Unify.reading (fun env => do
      implementedField s.context env env.fuel (← t.whnf env)) s env n = .ok (((t, s), env), n) := by
    intro t value n
    have stays : implementedField s.context env env.fuel t n = .ok (t, n) := by
      rw [more]
      cases t <;> first | rfl | cases value
    rw [reading_run, fresh_then (Term.whnf_value more value n) stays]
    rfl
  have unblocked : ∀ {t : Term}, t.isValue = true → ∀ n, Unify.reading t.stuckMeta s env n =
      .ok (((none, s), env), n) := by
    intro t value n
    rw [reading_run, Term.stuckMeta_value more value n]
    rfl
  have noHole : ∀ {t : Term}, t.isValue = true → t.hole? = none := by
    intro t value
    cases t <;> first | rfl | cases value
  -- neither side moves, has a hole for its head or is blocked: what is left are the heads
  unfold compareDistinct
  rw [bind_done (c := get) rfl, bind_done (looked leftValue n), bind_done (looked rightValue n)]
  simp only [leftValue, rightValue, leftSound, rightSound, noHole leftValue, noHole rightValue,
    Bool.and_self, Bool.not_true, Bool.false_and, Bool.or_self, Bool.false_eq_true, if_false]
  exact (bind_done (unblocked leftValue n)).trans (bind_done (unblocked rightValue n))

/-- The comparison finds the one term at most the other. -/
def Raises (env : Environment) (K : Nameless → Prop) (low : Nat) (P : Nameless → Prop)
    (compare : Compare) : Prop :=
  ∀ left right span s n, low ≤ n → s.Knows K n → left.Below n → right.Below n →
    left.reading.AtMost right.reading → P left.reading →
      SaysYes env K (compare left right .le span) s n

theorem Raises.orSame (raises : Raises env K low P distinct) :
    Raises env K low P distinct.orSame := by
  intro left right span s n order knows l r below settles
  unfold Compare.orSame
  split
  · exact Succeeds.pure knows rfl
  · exact raises left right span s n order knows l r below settles

theorem universes_raise {u v : Universe} (knows : s.Knows K n) (below : u.holds v .le = .ok true) :
    SaysYes env K (compareUniverses u v .le span) s n := by
  refine ⟨true, { s with levels := ({ s.levels with span } : LevelEquations).recordAll [] }, n, ?_,
    Nat.le_refl n, ?_, rfl⟩
  · rw [compareUniverses_run, Universe.compare_of_holds below]
    rfl
  · exact ⟨knows.vars, knows.types, knows.known⟩

section Parts

variable {compare : Compare} {x y : Var} {c d : Term}

theorem Raises.bodies (raises : Raises env K low P compare) (order : low ≤ n) (cBelow : c.Below n)
    (below : (c.toScoped.read [x]).AtMost (d.toScoped.read [y]))
    (settles : ∀ z, P ((c.toScoped.read [x]).named z)) :
    BodiesAgree env K compare .le span n x c y d := by
  intro d' s m next knows d'Below reading
  have named : c.reading = (c.toScoped.read [x]).named x := (c.toScoped.read_named x).symm
  refine raises c d' span s m (order.trans next) knows (cBelow.mono next) d'Below ?_ ?_
  · rw [named, reading]
    exact below.fill _ 0
  · rw [named]
    exact settles x

end Parts

/-- Two heads of which the one is at most the other. -/
theorem compareHeads_raises (affirms : Affirms env K low P distinct)
    (raises : Raises env K low P distinct) (order : low ≤ n) (knows : s.Knows K n) {v w : Term}
    (vBelow : v.Below n) (wBelow : w.Below n) (below : v.reading.AtMost w.reading)
    (descends : v.reading.Descends K P) (noHole : v.hole? = none) (noError : v.isError = false) :
    SaysYes env K (compareHeads distinct v w .le span) s n := by
  generalize left : v.reading = l at below
  generalize right : w.reading = r at below
  cases below with
  | same t =>
      exact compareHeads_agrees affirms order knows vBelow wBelow (left.trans right.symm) descends
        noHole noError
  | univ holds =>
      cases v <;> cases left
      cases w <;> cases right
      exact universes_raise knows holds
  | data holds =>
      cases v <;> cases left
      cases w with
      | data e u bs =>
          obtain ⟨labels, parts⟩ := Nameless.node.inj right
          obtain ⟨rfl, rfl⟩ := Label.data.inj labels
          exact levels_agree affirms order (universes_raise knows holds) (Term.below_data.mp vBelow)
            (Term.below_data.mp wBelow) (readings_of_parts parts.symm) (each_of_parts descends)
      | _ => cases right
  | record holds =>
      cases v <;> cases left
      cases w with
      | record e u bs =>
          obtain ⟨labels, parts⟩ := Nameless.node.inj right
          obtain ⟨rfl, rfl⟩ := Label.record.inj labels
          exact record_agrees affirms.orSame order (universes_raise knows holds)
            (Term.below_record.mp vBelow) (Term.below_record.mp wBelow) parts.symm descends
      | _ => cases right
  | pi codomains =>
      cases v <;> cases left
      cases w with
      | pi mode y b d =>
          obtain ⟨domains, rest⟩ := NamelessParts.part.inj (Nameless.node.inj right).2
          obtain ⟨rfl, inner⟩ := NamelessParts.binder.inj rest
          obtain rfl := (NamelessParts.part.inj inner).1
          obtain ⟨known, domainSettles, settle⟩ := descends
          exact pi_agrees affirms.orSame order knows vBelow wBelow domains.symm known domainSettles
            (raises.orSame.bodies order (Term.below_pi.mp vBelow).2.2 codomains settle)
      | _ => cases right

/-- Terms that differ in a universe are values. -/
theorem Nameless.AtMost.values {v w : Term} (below : v.reading.AtMost w.reading) :
    v.reading = w.reading ∨
      (v.isValue = true ∧ v.isError = false) ∧ w.isValue = true ∧ w.isError = false := by
  generalize left : v.reading = l at below
  generalize right : w.reading = r at below
  cases below with
  | same t => exact .inl rfl
  | univ | data | record | pi =>
      cases v <;> cases left
      cases w <;> first | exact .inr ⟨⟨rfl, rfl⟩, rfl, rfl⟩ | cases right

theorem compareDistinct_raises (known : env.Within (fun _ => True) low) (more : env.fuel = fuel + 1)
    {k : Nat} (affirms : Affirms env K low (Nameless.Settles env low K k) distinct)
    (raises : Raises env K low (Nameless.Settles env low K k) distinct) (rest : Nat) :
    Raises env K low (Nameless.Settles env low K (k + 1)) (compareDistinct distinct rest) := by
  intro left right span s n order knows l r below settles
  rcases below.values with same | ⟨⟨leftValue, leftSound⟩, rightValue, rightSound⟩
  · exact compareDistinct_agrees known affirms rest left right .le span s n order knows l r same
      settles
  -- a value shows itself, whichever types the variables have
  obtain ⟨v, shows, -, descends⟩ := settles [] nofun
  obtain rfl := shows.of_value ((Term.isValue_reading left).trans leftValue)
  have noHole : left.hole? = none := by
    cases left <;> first | rfl | cases leftValue
  obtain ⟨answer, s', m, done, next⟩ :=
    compareHeads_raises affirms raises order knows l r below descends noHole leftSound
  refine ⟨answer, s', m, ?_, next⟩
  exact (compareDistinct_value more leftValue rightValue leftSound rightSound rest).trans done

theorem compareDistinctWith_raises (known : env.Within (fun _ => True) low)
    (more : env.fuel = fuel + 1) (k : Nat) :
    Raises env K low (Nameless.Settles env low K k) (compareDistinctWith k) := by
  induction k with
  | zero => exact fun _ _ _ _ _ _ _ _ _ _ settles => settles.elim
  | succ k ih => exact compareDistinct_raises known more (compareDistinctWith_agrees known k) ih k

/-- If the comparison of two data calls at levels without inferred variables is accepted, then the
    levels are in order. -/
theorem levels_of_accepted {D : DefId} {l l' : Universe} {args : List Term} {s' : Store}
    {env' : Environment} {m : Nat} (closed : l.Closed) (closed' : l'.Closed)
    (accepted : Unify.compare (.data D l args) (.data D l' args) .le span s env n =
      .ok (((true, s'), env'), m)) : l.holds l' .le = .ok true := by
  have whole : (compareDistinctWith env.fuel).orSame (.data D l args) (.data D l' args) .le span
      s env n = .ok (((true, s'), env'), m) := accepted
  unfold Compare.orSame at whole
  split at whole
  · -- equal terms are accepted without a look at their levels
    rename_i same
    obtain ⟨-, rfl, -⟩ := Term.data.inj same
    exact Universe.holds_of_compare closed closed' (Universe.compare_self l .le) rfl
  · cases more : env.fuel with
    | zero =>
        rw [more] at whole
        cases whole
    | succ fuel =>
        rw [more, compareDistinctWith, compareDistinct_value more rfl rfl rfl rfl] at whole
        have heads : (do
            if D ≠ D then return false
            if ← compareUniverses l l' .le span then
              compareSame (compareDistinctWith fuel) (l = l') args args span
            else return false : Unify Bool) s env n = .ok (((true, s'), env'), m) := whole
        rw [if_neg (not_not.mpr rfl)] at heads
        obtain ⟨answer, s₁, env₁, m₁, compared, next⟩ := unify_bind heads
        obtain ⟨c, found, holds, -⟩ := compareUniverses_ok compared
        cases answer with
        | true => exact Universe.holds_of_compare closed closed' found holds.symm
        | false => cases next

end Comparing

section Instances

/-- No level parameter is mentioned. -/
def Term.Steady (t : Term) : Prop := ∀ v ∈ t.levelVars, v.isInference = true

instance (t : Term) : Decidable t.Steady := inferInstanceAs (Decidable (∀ v ∈ t.levelVars, _))

/-- Level parameters stand in positions only in which the comparison lets universes grow. -/
inductive Term.Covariant : Term → Prop
  | steady {t} : t.Steady → Covariant t
  | univ {u} : u.Proper → Covariant (.univ u)
  | data {d u args} : u.Proper → (∀ a ∈ args, a.Steady) → Covariant (.data d u args)
  | record {c u fields} : u.Proper → (∀ e ∈ fields, e.2.Steady) → Covariant (.record c u fields)
  | pi {mode x domain codomain} : domain.Steady → Covariant codomain →
      Covariant (.pi mode x domain codomain)

variable {P : LevelVar → Prop} {f g : Universe → Universe} {σ : Var → Nameless}

theorem Label.map_congr (same : ∀ u : Universe, (∀ v ∈ u.vars, P v) → f u = g u) {l : Label}
    (leveled : ∀ v ∈ l.levelVars, P v) : l.map f = l.map g := by
  cases l with
  | univ u | call _ u | con _ u | data _ u | record _ u | field _ u =>
      simp only [Label.map, same u leveled]
  | _ => rfl

mutual

/-- Maps of universes that agree on all that are mentioned. -/
theorem Scoped.Leveled.inst_congr (same : ∀ u : Universe, (∀ v ∈ u.vars, P v) → f u = g u) :
    ∀ {t : Scoped} (scope : List Var), t.Leveled P →
      (t.read scope).inst f σ = (t.read scope).inst g σ
  | .var x, scope, _ => by
      unfold Scoped.read
      split <;> rfl
  | .hole _, _, _ => rfl
  | .node l parts, scope, leveled => by
      obtain ⟨own, inside⟩ := List.forall_mem_append.mp leveled
      simp only [Scoped.read, Nameless.inst, Label.map_congr same own,
        Parts.Leveled.inst_congr same (t := parts) scope inside]

theorem Parts.Leveled.inst_congr (same : ∀ u : Universe, (∀ v ∈ u.vars, P v) → f u = g u) :
    ∀ {t : Parts} (scope : List Var), t.Leveled P →
      (t.read scope).inst f σ = (t.read scope).inst g σ
  | .nil, _, _ => rfl
  | .part t rest, scope, leveled => by
      obtain ⟨head, tail⟩ := List.forall_mem_append.mp leveled
      simp only [Parts.read, NamelessParts.inst,
        Scoped.Leveled.inst_congr same (t := t) scope head,
        Parts.Leveled.inst_congr same (t := rest) scope tail]
  | .binder _ x rest, scope, leveled => by
      simp only [Parts.read, NamelessParts.inst,
        Parts.Leveled.inst_congr same (t := rest) (x :: scope) leveled]

end

theorem Term.Steady.leveled {t : Term} (steady : t.Steady) :
    t.toScoped.Leveled (·.isInference = true) :=
  fun v inside => steady v (Term.mem_levelVars.mpr inside)

theorem termsParts_leveled : ∀ {as : List Term}, (∀ a ∈ as, a.Steady) →
    (termsParts as .nil).Leveled (·.isInference = true)
  | [], _ => List.forall_mem_nil _
  | _ :: _, steady => by
      obtain ⟨head, tail⟩ := List.forall_mem_cons.mp steady
      exact List.forall_mem_append.mpr ⟨head.leveled, termsParts_leveled tail⟩

theorem fieldsParts_leveled : ∀ {fields : List (DefId × Term)}, (∀ e ∈ fields, e.2.Steady) →
    (fieldsParts fields).Leveled (·.isInference = true)
  | [], _ => List.forall_mem_nil _
  | (f, a) :: rest, steady => by
      obtain ⟨head, tail⟩ := List.forall_mem_cons.mp steady
      refine List.forall_mem_append.mpr ⟨?_, fieldsParts_leveled tail⟩
      rw [Scoped.gather, Parts.gather_one]
      exact head.leveled

/-- Where level parameters stand in these positions only, the type grows with the level. -/
theorem Term.Covariant.atMost {t : Term} (covariant : t.Covariant)
    (same : ∀ u : Universe, (∀ v ∈ u.vars, v.isInference = true) → f u = g u)
    (grows : ∀ u : Universe, u.Proper → (f u).holds (g u) .le = .ok true) :
    ∀ scope, ((t.toScoped.read scope).inst f σ).AtMost ((t.toScoped.read scope).inst g σ) := by
  induction covariant with
  | steady steady =>
      intro scope
      rw [steady.leveled.inst_congr same scope]
      exact .same _
  | univ proper => exact fun scope => .univ (grows _ proper)
  | @data d u args proper steady =>
      intro scope
      have args := (termsParts_leveled steady).inst_congr (σ := σ) same scope
      simp only [Term.toScoped, Scoped.read, Nameless.inst, args]
      exact .data (grows _ proper)
  | record proper steady =>
      intro scope
      have fields := (fieldsParts_leveled steady).inst_congr (σ := σ) same scope
      simp only [Term.toScoped, Scoped.read, Nameless.inst, fields]
      exact .record (grows _ proper)
  | @pi mode x domain codomain steady _ ih =>
      intro scope
      have domains := steady.leveled.inst_congr (σ := σ) same scope
      simp only [Term.toScoped, Scoped.read, Parts.read, Nameless.inst, NamelessParts.inst, domains]
      exact .pi (ih (x :: scope))

variable {l l' : Universe}

/-- Without level parameters there is nothing to replace. -/
theorem Universe.sort_steady {u : Universe} (steady : ∀ v ∈ u.vars, v.isInference = true) :
    (Subst.std l).sort u = Universe.make u.p u.h := by
  have stays : ∀ {a : Level}, (∀ v ∈ a.var?.toList, v.isInference = true) →
      a.subst l.replacement = .ok a := by
    intro a inferred
    cases a with
    | shift x c m =>
        cases x with
        | param k => cases inferred _ (List.mem_singleton_self _)
        | infer id k => cases k <;> rfl
    | _ => rfl
  obtain ⟨sizes, dimensions⟩ := List.forall_mem_append.mp steady
  rw [sort_std, Universe.subst, stays sizes, stays dimensions]
  rfl

/-- What a universe of a definition becomes at a level argument; this other one if its levels leave
    their range there. -/
def Universe.sortOr (l other u : Universe) : Universe :=
  ((Subst.std l).sort u).toOption.getD other

/-- The instances of such a type at two level arguments. -/
theorem Term.Covariant.instances {env : Environment} {V : Var → Prop} {s : Subst} {n m k : Nat}
    {t left right : Term} (covariant : t.Covariant) (small : l.Argument) (large : l'.Argument)
    (aboveSets : ∀ q, 0 ≤ l.h.under q) (below : l.holds l' .le = .ok true) (tBelow : t.Below n)
    (within : s.Within V n) (noLevels : s.levels = [])
    (first : (s.addStd l).apply env t n = .ok (left, m))
    (second : (s.addStd l').apply env t m = .ok (right, k)) :
    n ≤ k ∧ left.Below k ∧ right.Below k ∧ left.reading.AtMost right.reading := by
  have sorted : ∀ l u, (s.addStd l).sort u = (Subst.std l).sort u := by
    intro l u
    simp only [Subst.sort, Subst.addStd, Subst.addLevel, noLevels, Subst.std]
    rfl
  have reads : ∀ {l : Universe} {other : Universe → Universe} (u v : Universe),
      (s.addStd l).sort u = .ok v → l.sortOr (other u) u = v := by
    intro l other u v done
    rw [sorted] at done
    rw [Universe.sortOr, done]
    rfl
  -- universes that do not occur may be out of range at one level only, and then any will do
  let f := l.sortOr .prop
  let g := fun u => l'.sortOr (f u) u
  have same : ∀ u : Universe, (∀ v ∈ u.vars, v.isInference = true) → f u = g u := by
    intro u steady
    simp only [f, g, Universe.sortOr, Universe.sort_steady steady]
    cases Universe.make u.p u.h <;> rfl
  have grows : ∀ u : Universe, u.Proper → (f u).holds (g u) .le = .ok true := by
    intro u proper
    simp only [f, g, Universe.sortOr]
    cases lower : (Subst.std l).sort u with
    | error fault => exact Universe.prop_holds _
    | ok v =>
        cases upper : (Subst.std l').sort u with
        | error fault => exact Universe.holds_refl v
        | ok v' => exact small.sort_mono large aboveSets below proper lower upper
  have atLeft := within.addStd l
  obtain ⟨next, leftBelow, leftReading⟩ :=
    atLeft.toCovered.apply_reading (f := f) atLeft.still reads tBelow first
  have atRight := (within.mono next).addStd l'
  obtain ⟨later, rightBelow, rightReading⟩ :=
    atRight.toCovered.apply_reading (f := g) atRight.still reads (tBelow.mono next) second
  refine ⟨next.trans later, leftBelow.mono later, rightBelow, ?_⟩
  rw [leftReading, rightReading]
  exact covariant.atMost same grows []

end Instances

section Parameters

variable {env : Environment} {K : Nameless → Prop} {V : Var → Prop} {low n : Nat} {s : Store}
  {span : Span}

/-- The binding is a parameter of a constructor of the data type. -/
def Environment.Takes (env : Environment) (d : DefId) (data : DataDef) (b : Binding Term) : Prop :=
  env.data? d = some data ∧
    ∃ c ∈ data.constructors, ∃ con, env.constructor? c = some con ∧ b ∈ con.params

/-- **Constructors follow the order of data types,** if level parameters only stand where universes
    may grow. The one level argument is above the sets: at the propositions the size that a level
    argument has says nothing of the data type, and is still put into the parameters. -/
theorem compare_parameters (known : env.Within V low) (order : low ≤ n) (knows : s.Knows K n)
    {l l' : Universe} (small : l.Argument) (large : l'.Argument) (aboveSets : ∀ q, 0 ≤ l.h.under q)
    {d : DefId} {data : DataDef} {b : Binding Term} (takes : env.Takes d data b)
    {args : List Term} (argsBelow : ∀ a ∈ args, a.Below n) {s₀ s₁ : Store} {env₁ : Environment}
    {i j : Nat}
    (accepted : Unify.compare (.data d l args) (.data d l' args) .le span s₀ env i =
      .ok (((true, s₁), env₁), j)) (covariant : b.type.Covariant) {left right : Term} {m k : Nat}
    (first : ((Subst.instantiate data.params args).addStd l).apply env b.type n = .ok (left, m))
    (second : ((Subst.instantiate data.params args).addStd l').apply env b.type m = .ok (right, k))
    (settles : left.reading.Settles env low K env.fuel) :
    ∃ s' k', Unify.compare left right .le span s env k = .ok (((true, s'), env), k') := by
  obtain ⟨-, c, -, con, isCon, listed⟩ := takes
  -- of what was accepted only the order of the levels matters
  have below := levels_of_accepted small.closed large.closed accepted
  have typeBelow := ((known.constructors c con isCon).mono order b listed).2
  have within : (Subst.instantiate data.params args).Within (fun _ => True) n :=
    Subst.within_empty.bind data.params fun a inside => ⟨argsBelow a inside, fun _ _ => trivial⟩
  obtain ⟨later, leftBelow, rightBelow, atMost⟩ := covariant.instances small large aboveSets below
    typeBelow within (Subst.bind_levels _ _ _) first second
  have everywhere := known.widen (W := fun _ => True) fun _ _ => trivial
  cases more : env.fuel with
  | zero =>
      rw [more] at settles
      exact settles.elim
  | succ fuel =>
      obtain ⟨_, s', k', done, -, -, rfl⟩ :=
        (compareDistinctWith_raises everywhere more env.fuel).orSame left right span s k
          (order.trans later) (knows.mono later) leftBelow rightBelow atMost settles
      exact ⟨s', k', done⟩

end Parameters

section Families

open Library

def family : DefId := ⟨11, "Family"⟩

def typesAt (l : Universe) : Term := .pi .explicit ⟨30, "n"⟩ natType (.univ l)

/-- Families of types over the numbers. -/
def families : Environment :=
  let sort : Universe := ⟨.shift (.param .predicative) 1 none, .shift (.param .homotopy) 1 none⟩
  let data := ((environment 10).add family.name
    (.data ⟨[], sort, [⟨12, "family"⟩], false, false⟩)).2
  (data.add "family" (.constructor ⟨family, Telescope.ofPairs [(⟨29, "F"⟩, typesAt .std)], 0⟩)).2

theorem set_argument (n : Nat) (fits : Bounded.fits n = true) : (Universe.set n).Argument where
  p := ⟨rfl, nofun, nofun, fun _ => WithTop.coe_le_coe.mpr (Int.natCast_nonneg n)⟩
  h := ⟨rfl, nofun, nofun, fun _ => WithTop.coe_le_coe.mpr (by decide)⟩
  pFits := fits
  hFits := rfl

theorem typesAt_settles (l : Universe) :
    (typesAt l).reading.Settles families 31 (· = natType.reading) 10 := by
  have numbers : natType.reading.Settles families 31 (· = natType.reading) 9 :=
    Nameless.Settles.of_value rfl rfl nofun
  have types : (Term.univ l).reading.Settles families 31 (· = natType.reading) 9 :=
    Nameless.Settles.of_value rfl rfl nofun
  exact Nameless.Settles.of_value rfl rfl ⟨rfl, numbers, fun _ => types⟩

theorem families_parameters : ∃ data b, families.Takes family data b ∧ b.type.Covariant ∧
    (∃ s m, Unify.compare (.data family (.set 0) []) (.data family (.set 1) []) .le .none .empty
      families 31 = .ok (((true, s), families), m)) ∧
    ∃ s m, Unify.compare (typesAt (.set 0)) (typesAt (.set 1)) .le .none .empty families 31 =
      .ok (((true, s), families), m) := by
  have known : families.Within (fun x => x.id < 31) 31 := by
    refine Environment.within_of_below ?_ fun m => ?_
    · decide
    · simp [families, Environment.solution?, Environment.meta?, Environment.add, environment,
        Environment.empty]
  have covariant : (typesAt .std).Covariant := .pi (by decide) (.univ Universe.std_proper)
  have takes : families.Takes family _ ⟨.explicit, ⟨29, "F"⟩, typesAt .std⟩ :=
    ⟨rfl, _, List.mem_singleton_self _, _, rfl, List.mem_singleton_self _⟩
  have knows : Store.empty.Knows (· = natType.reading) 31 :=
    ⟨List.forall_mem_nil _, List.forall_mem_nil _, List.forall_mem_nil _⟩
  refine ⟨_, _, takes, covariant, ⟨_, _, rfl⟩, ?_⟩
  have accepted : (Unify.compare (.data family (.set 0) []) (.data family (.set 1) []) .le .none
    .empty families 31) = _ := rfl
  exact compare_parameters known (Nat.le_refl 31) knows (set_argument 0 rfl) (set_argument 1 rfl)
    (fun _ => le_rfl) takes (List.forall_mem_nil _) accepted covariant rfl rfl (typesAt_settles _)

def weighing : DefId := ⟨11, "Weighing"⟩

def weigh : DefId := ⟨12, "weigh"⟩

def reservedWeighing : Session :=
  { ((Session.start .standard 20).reserveData weighing.name [weigh.name]).2.2 with nextVar := 40 }

/-- Functions from types to numbers. -/
def weighingDecl : Surface.DataDecl where
  span := .none
  id := weighing
  params := []
  sort := none
  truncated := false
  constructors := [⟨.none, weigh, [⟨.explicit, ⟨29, "f"⟩,
    .arrow (.univ .none none) (.const .none nat) ⟨30, "_"⟩⟩]⟩]

/-- The answer of a comparison that starts with an empty store. -/
def Session.answer (s : Session) (left right : Term) (n : Nat) : Checked Bool :=
  (·.1.1.1) <$> Unify.compare left right .le .none .empty s.env n

/-- The declaration is accepted, and the types are found to be in order at these levels, and the
    parameters of their constructor are not. -/
def outOfOrder (l l' : Universe) : Bool :=
  match Session.declare (.data weighingDecl) reservedWeighing with
  | .ok (.ok _, s') => match s'.env.data? weighing, s'.env.constructor? weigh with
    | some data, some ⟨_, [b], _⟩ =>
        match ((Subst.instantiate data.params []).addStd l).apply s'.env b.type s'.nextVar with
        | .ok (left, m) =>
            match ((Subst.instantiate data.params []).addStd l').apply s'.env b.type m with
            | .ok (right, k) =>
                let types := s'.answer (.data weighing l []) (.data weighing l' []) s'.nextVar
                decide (weigh ∈ data.constructors) && decide (types = .ok true) &&
                  decide (s'.answer left right k = .ok false)
            | _ => false
        | _ => false
    | _, _ => false
  | _ => false

/-- The data types of such functions are in order, and the functions that they store are not: the
    domains of function types are compared for equality. -/
theorem weighings_out_of_order : ∃ id s' data b left right m k,
    Session.declare (.data weighingDecl) reservedWeighing = .ok (.ok id, s') ∧
    s'.env.Takes weighing data b ∧
    s'.answer (.data weighing .set0 []) (.data weighing (.set 1) []) s'.nextVar = .ok true ∧
    ((Subst.instantiate data.params []).addStd .set0).apply s'.env b.type s'.nextVar =
      .ok (left, m) ∧
    ((Subst.instantiate data.params []).addStd (.set 1)).apply s'.env b.type m = .ok (right, k) ∧
    s'.answer left right k = .ok false := by
  have run : outOfOrder .set0 (.set 1) = true := by
    decide +kernel
  unfold outOfOrder at run
  split at run
  · rename_i id s' declared
    split at run
    · rename_i data _ b _ isData isCon
      split at run
      · rename_i left m first
        split at run
        · rename_i right k second
          simp only [Bool.and_eq_true, decide_eq_true_eq] at run
          exact ⟨id, s', data, b, left, right, m, k, declared,
            ⟨isData, weigh, run.1.1, _, isCon, List.mem_singleton_self _⟩, run.1.2, first, second,
            run.2⟩
        · cases run
      · cases run
    · cases run
  · cases run

end Families

end PathTheory
