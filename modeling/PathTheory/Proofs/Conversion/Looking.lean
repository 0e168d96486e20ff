import PathTheory.Proofs.Conversion.Convertible
import PathTheory.Proofs.Reduction.Unblocked
import PathTheory.Proofs.Syntax.Injective
import PathTheory.Equation.Conversion
/-!
What the comparison looks at, up to the names of binders. The value that stands for a term, with the
fields of variables replaced by what their types fix, is found for the reading as it is found for the
term. A term settles if this comes to an end for it and for all parts that the comparison goes on to,
under whatever names the binders on the way have.
-/
namespace PathTheory

section Binderless

mutual

def Nameless.Binderless : Nameless → Prop
  | .bound _ | .free _ | .hole _ => True
  | .node _ parts => parts.Binderless

def NamelessParts.Binderless : NamelessParts → Prop
  | .nil => True
  | .part t rest => t.Binderless ∧ rest.Binderless
  | .binder _ _ => False

end

mutual

/-- Without binders there is one tree of a reading. -/
theorem Scoped.eq_of_read : ∀ {t u : Scoped}, (t.read []).Binderless → t.read [] = u.read [] → t = u
  | .var _, u, _, same | .hole _, u, _, same => by
      cases u <;> cases same
      rfl
  | .node l parts, u, bare, same => by
      cases u with
      | node k others =>
          obtain ⟨rfl, inner⟩ := Nameless.node.inj same
          rw [Parts.eq_of_read bare inner]
      | _ => cases same

theorem Parts.eq_of_read : ∀ {t u : Parts}, (t.read []).Binderless → t.read [] = u.read [] → t = u
  | .nil, u, _, same => by
      cases u <;> cases same
      rfl
  | .part t rest, u, bare, same => by
      cases u with
      | part t' rest' =>
          obtain ⟨head, tail⟩ := NamelessParts.part.inj same
          rw [Scoped.eq_of_read bare.1 head, Parts.eq_of_read bare.2 tail]
      | _ => cases same
  | .binder _ _ _, _, bare, _ => bare.elim

end

theorem CaseTree.eq_of_reading {t u : CaseTree} (bare : t.reading.Binderless)
    (same : t.reading = u.reading) : t = u :=
  CaseTree.toScoped_injective (Scoped.eq_of_read bare same)

end Binderless

namespace Nameless

/-- The value that a record type fixes for one of its fields. -/
def fixes? (f : DefId) : Nameless → Option Nameless
  | .node (.record _ _) fields => fields.slot? f
  | _ => none

/-- A field of a variable whose type fixes that field is the fixed value. -/
def implemented (env : Environment) (Γ : Types) : Nat → Nameless → Traced Nameless
  | 0, _ => .fail .outOfFuel
  | fuel + 1, t => match t with
    | .node (.field f _) (.part (.free x) .nil) => match Γ.lookup x with
      | none => return t
      | some type => do
          match (← whnfWith env env.fuel type).fixes? f with
          | some value => do implemented env Γ fuel (← whnfWith env env.fuel value)
          | none => return t
    | _ => return t

/-- The comparison looks at this value in the place of the term. -/
def Shows (env : Environment) (Γ : Types) (t v : Nameless) : Prop :=
  (do implemented env Γ env.fuel (← whnfWith env env.fuel t)).result? = some v

end Nameless

theorem Term.fixes?_reading (t : Term) (f : DefId) :
    t.reading.fixes? f = (t.fixed? f).map Term.reading := by
  cases t with
  | record c u fields => exact fields_slot? f fields
  | _ => rfl

section Looking

variable {env : Environment} {V : Var → Prop} {low n : Nat} {Γ : Context}

theorem Term.Within.fixed? {t value : Term} {f : DefId} (within : t.Within V n)
    (fixes : t.fixed? f = some value) : value.Within V n := by
  cases t with
  | record c levels fields =>
      exact Within.fixed ⟨Term.below_new.mpr within.below, within.free⟩ fixes
  | _ => cases fixes

theorem implementedField_within (known : env.Within V low) (fuel : Nat) : ∀ (t : Term) (n : Nat),
    low ≤ n → (∀ e ∈ Γ, e.2.Within V n) → t.Within V n →
    Yields (Unify.implementedField Γ env fuel t) n fun v m => v.Within V m := by
  have fair := Term.whnf_within known
  induction fuel with
  | zero => exact fun _ _ _ _ _ => Yields.throw
  | succ fuel ih =>
      intro t n order types within
      unfold Unify.implementedField
      split
      · split
        · exact Yields.pure within
        · rename_i found
          have typeWithin := types _ (mem_of_lookup found)
          refine (fair _ n order typeWithin).bind fun r m next seen => ?_
          split
          · rename_i fixes
            refine (fair _ m (order.trans next) (seen.fixed? fixes)).bind fun w k later here => ?_
            have both := next.trans later
            exact ih w k (order.trans both) (entries_later types both) here
          · exact Yields.pure (within.mono next)
      · exact Yields.pure within

theorem implementedField_mirrors (known : env.Within V low) (fuel : Nat) : ∀ (t : Term) (n : Nat),
    low ≤ n → (∀ e ∈ Γ, e.2.Within V n) → t.Within V n →
    Mirrors (Unify.implementedField Γ env fuel t) n
      (t.reading.implemented env Γ.reading fuel) fun v y => y = v.reading := by
  have fair := Term.whnf_within known
  have mirror : Mirroring (Term.whnf env) _ V low := whnfWith_mirrors known env.fuel
  induction fuel with
  | zero => exact fun _ _ _ _ _ => Mirrors.fail
  | succ fuel ih =>
      intro t n order types within
      cases t with
      | field f u arg =>
          cases arg with
          | ref x =>
              have reading : (Term.field f u (.ref x)).reading =
                .node (.field f u) (.part (.free x) .nil) := rfl
              rw [reading]
              unfold Unify.implementedField Nameless.implemented
              simp only [Context.lookup_reading]
              cases found : Γ.lookup x with
              | none => exact Mirrors.pure rfl
              | some type =>
                  have typeWithin := types _ (mem_of_lookup found)
                  refine (mirror type n order typeWithin).bind (fair type n order typeWithin) ?_
                  rintro r m _ next seen rfl
                  rw [Term.fixes?_reading]
                  cases fixes : r.fixed? f with
                  | none => exact Mirrors.pure rfl
                  | some value =>
                      have later := order.trans next
                      have here := seen.fixed? fixes
                      refine (mirror value m later here).bind (fair value m later here) ?_
                      rintro w k _ after inScope rfl
                      have both := next.trans after
                      exact ih w k (order.trans both) (entries_later types both) inScope
          | _ => exact Mirrors.pure rfl
      | _ => exact Mirrors.pure rfl

/-- Whatever the binders of a term are called, the comparison looks at what the reading shows. -/
theorem Nameless.Shows.looked {t : Term} {v : Nameless} (known : env.Within V low)
    (order : low ≤ n) (types : ∀ e ∈ Γ, e.2.Within V n) (within : t.Within V n)
    (shows : t.reading.Shows env Γ.reading v) :
    ∃ w m, (do Unify.implementedField Γ env env.fuel (← t.whnf env)) n = .ok (w, m) ∧ n ≤ m ∧
      w.Within V m ∧ w.reading = v := by
  have reduces := Term.whnf_within known t n order within
  have mirrored : Mirrors (do Unify.implementedField Γ env env.fuel (← t.whnf env)) n
      (Nameless.whnfWith env env.fuel t.reading >>= Nameless.implemented env Γ.reading env.fuel)
      fun w y => y = w.reading := by
    refine (whnfWith_mirrors known env.fuel t n order within).bind reduces ?_
    rintro w m _ next seen rfl
    exact implementedField_mirrors known env.fuel w m (order.trans next) (entries_later types next)
      seen
  obtain ⟨w, m, done, same⟩ := mirrored.result shows
  have yields : Yields (do Unify.implementedField Γ env env.fuel (← t.whnf env)) n
      fun w m => w.Within V m := reduces.bind fun w m next seen =>
    implementedField_within known env.fuel w m (order.trans next) (entries_later types next) seen
  obtain ⟨next, seen⟩ := yields w m done
  exact ⟨w, m, done, next, seen, same.symm⟩

/-- Analysis of subterms, which never lowers the counter. -/
def Rises (stuckOn : Term → Fresh (Option Term)) (V : Var → Prop) (low : Nat) : Prop :=
  ∀ t n, low ≤ n → t.Within V n → Yields (stuckOn t) n fun _ _ => True

theorem blockedBy_rises (known : env.Within V low) {stuckOn : Term → Fresh (Option Term)}
    (rises : Rises stuckOn V low) (order : low ≤ n) {t : Term} (within : t.Within V n) :
    Yields (t.blockedBy env stuckOn) n fun _ _ => True := by
  have fair := Term.whnf_within known
  have answer : ∀ {o : Option Term} {m : Nat}, Yields (pure o) m fun _ _ => True :=
    Yields.pure trivial
  have blocked : ∀ (u : Term) (w : Walk) (m : Nat), low ≤ m → w.Within V m →
      Yields (w.blockedBy stuckOn u) m fun _ _ => True := by
    intro u w m later seen
    cases w with
    | stuck arg => exact rises arg m later seen
    | reduced _ | missing => exact answer
  cases t with
  | app fn arg => exact rises fn n order (Term.within_app.mp within).1
  | proj whole index => exact rises whole n order (Term.within_proj.mp within)
  | field f levels arg => exact rises arg n order (Term.within_field.mp within)
  | call f levels args =>
      have inScope := Term.within_call.mp within
      have atArg : ∀ {i m : Nat} {a : Term}, n ≤ m → args[i]? = some a →
          Yields (stuckOn a) m fun _ _ => True := by
        intro i m a next found
        have here := inScope _ (List.mem_of_getElem? found)
        exact rises _ m (order.trans next) (here.mono next)
      have orRest : ∀ {rest : Fresh (Option Term)} {interval : Option Term} {m : Nat},
          Yields rest m (fun _ _ => True) →
          Yields (if interval.isSome then pure interval else rest) m fun _ _ => True := by
        intro rest interval m yields
        split
        · exact answer
        · exact yields
      unfold Term.blockedBy
      simp only
      cases isFn : env.function? f with
      | none => exact answer
      | some fn =>
          simp only
          split
          · -- with or without a third argument, the family comes next
            split
            case' h_1 found =>
              refine (atArg (Nat.le_refl n) found).bind fun _ m next _ => orRest ?_
            case' h_2 => refine answer.bind fun _ m next _ => orRest ?_
            all_goals
              split
              · rename_i family
                exact atArg next family
              · exact answer
          · split
            · rename_i tree isBody
              have put := (Subst.within_empty (V := V) (n := n)).addStd levels
              have inReach := ((known.trees f fn tree isFn isBody).mono order).widen
                fun x inScope => (Or.inl inScope : (Subst.std levels).Reach V x)
              refine (put.yields_tree inReach).bind fun tree' m next seen => ?_
              refine (run_within fair (order.trans next) seen.1 (within_later inScope next)).bind ?_
              exact fun w k after here => blocked _ w k (order.trans (next.trans after)) here
            · exact answer
  | caseOf args params result tree =>
      refine (run_within fair order within.caseTree within.caseArgs).bind fun w m next seen => ?_
      exact blocked _ w m (order.trans next) seen
  | _ => exact answer

theorem stuckOnWith_rises (known : env.Within V low) (fuel : Nat) :
    Rises (stuckOnWith env fuel) V low := by
  induction fuel with
  | zero => exact fun _ _ _ _ => Yields.throw
  | succ fuel ih =>
      intro t n order within
      rw [stuckOnWith_succ]
      refine (Term.whnf_within known t n order within).bind fun v m next seen => ?_
      exact blockedBy_rises known ih (order.trans next) seen

theorem Term.stuckMeta_rises (known : env.Within V low) (order : low ≤ n) {t : Term}
    (within : t.Within V n) : Yields (t.stuckMeta env) n fun _ _ => True :=
  (stuckOnWith_rises known env.fuel t n order within).bind fun _ _ _ _ => Yields.pure trivial

/-- Reduction has no business with a value. -/
theorem Nameless.shows_value {Γ : Types} {t : Nameless} {fuel : Nat} (more : env.fuel = fuel + 1)
    (value : t.isValue = true) : t.Shows env Γ t := by
  have stays : implemented env Γ (fuel + 1) t = pure t := by
    unfold implemented
    split
    · cases value
    · rfl
  have itself : (whnfWith env (fuel + 1) t).result? = some t := by
    rw [whnfWith, headStep?_value value]
    rfl
  unfold Shows
  rw [more, Traced.result?_bind, itself, Option.bind_some, stays]
  rfl

theorem Nameless.Shows.of_value {Γ : Types} {t v : Nameless} (shows : t.Shows env Γ v)
    (value : t.isValue = true) : v = t := by
  cases more : env.fuel with
  | zero =>
      unfold Shows at shows
      rw [more] at shows
      cases shows
  | succ fuel => exact Option.some.inj (shows.symm.trans (shows_value more value))

end Looking

/-- The question what blocks the term has an answer, whatever its binders are called. -/
def Nameless.Analysed (env : Environment) (low : Nat) (v : Nameless) : Prop :=
  ∀ (u : Term) (n : Nat), low ≤ n → u.Below n → u.reading = v → ∃ r, u.stuckMeta env n = .ok r

theorem Nameless.Analysed.answer {env : Environment} {V : Var → Prop} {low n : Nat} {v : Nameless}
    {u : Term} (analysed : v.Analysed env low) (known : env.Within V low) (order : low ≤ n)
    (within : u.Within V n) (same : u.reading = v) :
    ∃ o m, u.stuckMeta env n = .ok (o, m) ∧ n ≤ m := by
  obtain ⟨⟨o, m⟩, done⟩ := analysed u n order within.below same
  exact ⟨o, m, done, (Term.stuckMeta_rises known order within o m done).1⟩

theorem Term.isValue_reading (t : Term) : t.reading.isValue = t.isValue := by
  cases t <;> rfl

theorem Term.whnf_value {env : Environment} {fuel : Nat} {t : Term} (more : env.fuel = fuel + 1)
    (value : t.isValue = true) (n : Nat) : t.whnf env n = .ok (t, n) := by
  unfold Term.whnf
  rw [more]
  cases t <;> first | rfl | cases value

theorem Term.stuckMeta_value {env : Environment} {fuel : Nat} {t : Term} (more : env.fuel = fuel + 1)
    (value : t.isValue = true) (n : Nat) : t.stuckMeta env n = .ok (none, n) := by
  have stays := Term.whnf_value more value n
  have ends : ∃ o, stuckOnWith env (fuel + 1) t n = .ok (o, n) ∧ o >>= Term.hole? = none := by
    rw [stuckOnWith_succ]
    cases t <;> first | exact ⟨_, fresh_then stays rfl, rfl⟩ | cases value
  obtain ⟨o, done, noHole⟩ := ends
  unfold Term.stuckMeta Term.stuckOn
  rw [more, ← noHole]
  exact fresh_then done rfl

theorem Nameless.analysed_value {env : Environment} {low fuel : Nat} {v : Nameless}
    (more : env.fuel = fuel + 1) (value : v.isValue = true) : v.Analysed env low := by
  rintro u n - - rfl
  rw [Term.isValue_reading] at value
  exact ⟨_, Term.stuckMeta_value more value n⟩

/-- The types of a telescope are among these types and have the property, with the terms for the
    binders around them and names for its own. -/
def NamelessParts.EachType (K P : Nameless → Prop) (ρ : List Nameless) : NamelessParts → Prop
  | .part A (.binder _ rest) =>
      K (A.fill ρ 0) ∧ P (A.fill ρ 0) ∧ ∀ x, rest.EachType K P (.free x :: ρ)
  | _ => True

namespace Nameless

/-- The parts of a value that the comparison goes on to have the property, and the types of the
    variables on the way are among these types. Case trees are compared as they are written, and the
    field of a record is looked up by its name: no tree has a binder, and no record fixes a field to
    two values. -/
def Descends (K P : Nameless → Prop) : Nameless → Prop
  | .node .lam (.part A (.binder _ (.part body .nil))) => K A ∧ ∀ x, P (body.named x)
  | .node .pi (.part A (.binder _ (.part body .nil))) => K A ∧ P A ∧ ∀ x, P (body.named x)
  | .node .sigma types => types.EachType K P []
  | .node .tuple parts => ∀ c ∈ parts.list.dropLast, P c
  | .node (.con _ _) (.part (.node .ofType params) args) =>
      (∀ c ∈ params.list, P c) ∧ ∀ c ∈ args.list, P c
  | .node (.record _ _) fields => ∀ e ∈ fields.slots, fields.slot? e.1 = some e.2 ∧ P e.2
  | .node .caseOf parts => ∀ args tree, caseParts? parts = some (args, tree) →
      tree.Binderless ∧ ∀ a ∈ args, P a
  | .node (.error _) _ => True
  | .node _ parts => ∀ c ∈ parts.list, P c
  | _ => True

/-- With this much fuel the comparison of the term with its variants comes to an end, whichever of
    these types the variables have. -/
def Settles (env : Environment) (low : Nat) (K : Nameless → Prop) : Nat → Nameless → Prop
  | 0, _ => False
  | fuel + 1, t => ∀ Γ : Types, (∀ e ∈ Γ, K e.2) →
      ∃ v, t.Shows env Γ v ∧ v.Analysed env low ∧ v.Descends K (Settles env low K fuel)

theorem Settles.of_value {env : Environment} {low fuel k : Nat} {K : Nameless → Prop} {v : Nameless}
    (more : env.fuel = fuel + 1) (value : v.isValue = true)
    (descends : v.Descends K (Settles env low K k)) : v.Settles env low K (k + 1) :=
  fun _ _ => ⟨v, shows_value more value, analysed_value more value, descends⟩

end Nameless

end PathTheory
