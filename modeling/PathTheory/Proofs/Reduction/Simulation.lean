import PathTheory.Proofs.Reduction.Fuel
import PathTheory.Proofs.Reduction.UpTo
import PathTheory.Library
import Mathlib.Order.Filter.AtTopBot.Basic
/-!
Reduction carried over to another place: to a later environment, in which more metavariables are
solved, and to terms that have other terms in the place of variables. Whatever a reduction reads off
the value of an argument is read off it there as well. What it passed over because nothing could be
read off has to be passed over again, and what is known of that is left open here; so is whether the
reduction in the other place is known to end or taken as it ends.
-/
namespace PathTheory

open Filter

/-- Nothing comes in but metavariables and solutions of unsolved ones. -/
structure Environment.Further (env env' : Environment) : Prop where
  definitions : env'.definitions = env.definitions
  solution : ∀ m t, env.solution? m = some t → env'.solution? m = some t

namespace Environment.Further

variable {env env' env'' : Environment}

theorem refl (env : Environment) : env.Further env := ⟨rfl, fun _ _ => id⟩

theorem trans (first : env.Further env') (next : env'.Further env'') : env.Further env'' :=
  ⟨next.definitions.trans first.definitions, fun m t known =>
    next.solution m t (first.solution m t known)⟩

theorem function? (further : env.Further env') (f : DefId) : env'.function? f = env.function? f := by
  unfold Environment.function? definition?
  rw [further.definitions]

theorem data? (further : env.Further env') (d : DefId) : env'.data? d = env.data? d := by
  unfold Environment.data? definition?
  rw [further.definitions]

theorem constructor? (further : env.Further env') (c : DefId) :
    env'.constructor? c = env.constructor? c := by
  unfold Environment.constructor? definition?
  rw [further.definitions]

theorem endpoint? (further : env.Further env') (t : Nameless) :
    t.endpoint? env' = t.endpoint? env := by
  unfold Nameless.endpoint? Environment.endpoint?
  simp only [further.constructor?, further.data?]

end Environment.Further

/-- What can be said of a computation on fuel, whatever fuel it has. -/
structure Promise where
  Holds : {α : Type} → (Nat → Traced α) → (α → Prop) → Prop
  known : ∀ {α : Type} {b : Nat → Traced α} {x : α} {P : α → Prop},
    (∀ k, (b k).result? = some x) → P x → Holds b P
  weaken : ∀ {α : Type} {b : Nat → Traced α} {P Q : α → Prop},
    Holds b P → (∀ x, P x → Q x) → Holds b Q
  bind : ∀ {α β : Type} {b : Nat → Traced α} {f : Nat → α → Traced β} {P : α → Prop}
    {Q : β → Prop}, Holds b P → (∀ x, P x → Holds (fun k => f k x) Q) →
      Holds (fun k => b k >>= f k) Q
  -- one level of recursion more
  later : ∀ {α : Type} {b c : Nat → Traced α} {P : α → Prop}, Holds b P →
    (c 0).result? = none → (∀ k, (c (k + 1)).result? = (b k).result?) → Holds c P

namespace Promise

/-- With fuel enough the computation ends, always in the same. -/
def ends : Promise where
  Holds b P := ∃ x, P x ∧ ∀ᶠ k in atTop, (b k).result? = some x
  known same holds := ⟨_, holds, Eventually.of_forall same⟩
  weaken := fun ⟨x, holds, ends⟩ more => ⟨x, more x holds, ends⟩
  bind := by
    rintro α β b f P Q ⟨x, holds, ends⟩ next
    obtain ⟨y, result, after⟩ := next x holds
    refine ⟨y, result, ?_⟩
    filter_upwards [ends, after] with k first rest
    rw [Traced.result?_bind, first, Option.bind_some, rest]
  later := by
    rintro α b c P ⟨x, holds, ends⟩ - same
    obtain ⟨enough, ends⟩ := eventually_atTop.mp ends
    refine ⟨x, holds, ?_⟩
    filter_upwards [eventually_ge_atTop (enough + 1)] with k larger
    obtain ⟨k, rfl⟩ := Nat.exists_eq_add_of_le' (Nat.le_of_add_left_le larger)
    rw [same, ends k (Nat.le_of_succ_le_succ larger)]

/-- What the computation ends in, if it ends. -/
def whenever : Promise where
  Holds b P := ∀ k x, (b k).result? = some x → P x
  known same holds k x ends := by
    cases (same k).symm.trans ends
    exact holds
  weaken known more k x ends := more x (known k x ends)
  bind := by
    intro α β b f P Q first next k y ends
    rw [Traced.result?_bind] at ends
    obtain ⟨x, here, rest⟩ := Option.bind_eq_some_iff.mp ends
    exact next x (first k x here) k y rest
  later := by
    intro α b c P known none same k x ends
    cases k with
    | zero =>
        rw [none] at ends
        cases ends
    | succ k => exact known k x (same k ▸ ends)

variable {M : Promise} {α : Type}

theorem pure {x : α} {P : α → Prop} (holds : P x) :
    M.Holds (fun _ => (Pure.pure x : Traced α)) P :=
  M.known (fun _ => rfl) holds

theorem ends_iff {b : Nat → Traced α} {x : α} :
    ends.Holds b (· = x) ↔ ∀ᶠ k in atTop, (b k).result? = some x := by
  constructor
  · rintro ⟨_, rfl, ends⟩
    exact ends
  · exact fun ends => ⟨x, rfl, ends⟩

end Promise

theorem eventually_result {env : Environment} {fuel : Nat} {t v : Nameless}
    (done : (Nameless.whnfWith env fuel t).result? = some v) :
    ∀ᶠ k in atTop, (Nameless.whnfWith env k t).result? = some v := by
  filter_upwards [eventually_ge_atTop fuel] with k enough
  exact (whnfWith_le env enough t).result? done

/-- Only the transport of the library is one. -/
def Environment.OnlyCoe (env : Environment) : Prop :=
  ∀ f fn, env.function? f = some fn → fn.transports = true →
    Definition.function fn = Library.coeFunction

theorem Environment.onlyCoe_of_definitions {env : Environment}
    (all : ∀ d ∈ env.definitions.toList, ∀ fn, d.function? = some fn → fn.transports = true →
      Definition.function fn = Library.coeFunction) : env.OnlyCoe := by
  intro f fn known transports
  obtain ⟨d, known, isFn⟩ := Option.bind_eq_some_iff.mp known
  exact all d (Array.mem_toList_iff.mpr (Array.mem_of_getElem? known)) fn isFn transports

theorem Environment.Further.onlyCoe {env env' : Environment} (further : env.Further env')
    (only : env'.OnlyCoe) : env.OnlyCoe := by
  intro f fn known
  rw [← further.function? f] at known
  exact only f fn known

/-- Definitions mention no variable that is replaced, apart from their parameters, and what
    transports is the transport of the library. -/
structure Environment.SealedUpTo (env : Environment) (spot : Nameless → Nameless → Prop) : Prop where
  bodies : ∀ f fn t, env.function? f = some fn → fn.body = some (.term t) →
    ∀ x ∈ t.freeVars, x ∈ fn.params.vars ∨ spot (.free x) (.free x)
  trees : ∀ f fn t, env.function? f = some fn → fn.body = some (.tree t) →
    ∀ x ∈ t.freeVars, spot (.free x) (.free x)
  transports : env.OnlyCoe

/-- What is given of all that a reduction passes over is enough for each of them to be passed over
    again. -/
structure Sparing (M : Promise) (env env' : Environment) (spot : Nameless → Nameless → Prop)
    (given : Passed → Prop) (fuel : Nat) : Prop where
  ends : ∀ {rules arg v l}, Nameless.whnfWith env fuel arg = .ok (v, l) → (∀ p ∈ l, given p) →
    v.endpoint? env = none → given (.ends rules arg) → ∀ {arg'}, arg.UpTo spot arg' →
      M.Holds (fun k => Nameless.whnfWith env' k arg') fun w =>
        ∀ side, w.endpoint? env' = some side → rules.at? side = none
  family : ∀ {t v l}, Nameless.whnfWith env fuel t = .ok (v, l) → (∀ p ∈ l, given p) →
    v.lamBody? = none → given (.family t) → ∀ {t'}, t.UpTo spot t' →
      M.Holds (fun k => Nameless.whnfWith env' k t') fun _ => True
  solution : ∀ {t}, given (.solution t) → t.UpTo spot t

section Simulation

variable {M : Promise} {env env' : Environment} {spot : Nameless → Nameless → Prop}
  {given : Passed → Prop} {fuel : Nat}

/-- Reduction to a value is carried over. -/
def Follows (M : Promise) (env env' : Environment) (spot : Nameless → Nameless → Prop)
    (given : Passed → Prop) (fuel : Nat) : Prop :=
  ∀ t v l, Nameless.whnfWith env fuel t = .ok (v, l) → (∀ p ∈ l, given p) → v.isValue = true →
    ∀ {t'}, t.UpTo spot t' → M.Holds (fun k => Nameless.whnfWith env' k t') (v.UpTo spot ·)

/-- Rules with the arguments that they are for, on both sides. -/
abbrev Tried (spot : Nameless → Nameless → Prop) (e e' : Ends Nameless × Nameless) : Prop :=
  e.1.UpTo spot e'.1 ∧ e.2.UpTo spot e'.2

theorem tryEnds_followed (further : env.Further env') (puts : PutsTerms spot)
    (sparing : Sparing M env env' spot given fuel) (follows : Follows M env env' spot given fuel)
    {ends ends' : List (Ends Nameless × Nameless)} (same : List.Forall₂ (Tried spot) ends ends')
    {o : Option Nameless} {l : List Passed}
    (done : Nameless.tryEnds env (Nameless.whnfWith env fuel) ends = .ok (o, l))
    (known : ∀ p ∈ l, given p) :
    M.Holds (fun k => Nameless.tryEnds env' (Nameless.whnfWith env' k) ends')
      (Option.Rel (Nameless.UpTo spot) o) := by
  induction same generalizing o l with
  | nil =>
      cases done
      exact Promise.pure .none
  | @cons e e' others others' here _ ih =>
      obtain ⟨rules, arg⟩ := e
      obtain ⟨rules', arg'⟩ := e'
      obtain ⟨sameRules, sameArg⟩ := here
      unfold Nameless.tryEnds at done ⊢
      rw [sameRules.isEmpty]
      split at done
      · rename_i empty
        simpa only [empty, if_true] using ih done known
      · rename_i notEmpty
        simp only [notEmpty, Bool.false_eq_true, if_false]
        obtain ⟨v, before, later, ran, rest, rfl⟩ := Traced.bind_ok done
        obtain ⟨knownHere, knownLater⟩ := List.forall_mem_append.mp known
        cases isEnd : v.endpoint? env with
        | some side =>
            simp only [isEnd] at rest
            refine M.bind (follows arg v before ran knownHere (Nameless.value_of_endpoint isEnd)
              sameArg) fun w like => ?_
            simp only [endpoint?_upTo puts like ((further.endpoint? v).trans isEnd)]
            have rule := sameRules side
            cases atLeft : rules.at? side with
            | some body =>
                rw [atLeft] at rule rest
                cases rest
                cases atRight : rules'.at? side with
                | none =>
                    rw [atRight] at rule
                    cases rule
                | some body' =>
                    rw [atRight] at rule
                    exact Promise.pure rule
            | none =>
                rw [atLeft] at rule rest
                cases atRight : rules'.at? side with
                | none => exact ih rest knownLater
                | some body' =>
                    rw [atRight] at rule
                    cases rule
        | none =>
            simp only [isEnd] at rest
            obtain ⟨_, passed, last, noted, next, rfl⟩ := Traced.bind_ok rest
            cases noted
            have knownLast : ∀ p ∈ last, given p := fun p member =>
              knownLater p (List.mem_append_right _ member)
            refine M.bind (sparing.ends ran knownHere isEnd
              (knownLater (.ends rules arg) List.mem_cons_self) sameArg) fun w noRule => ?_
            cases found : w.endpoint? env' with
            | some side =>
                have rule := sameRules side
                rw [noRule side found] at rule
                cases atRight : rules'.at? side with
                | none => simpa only [atRight] using ih next knownLast
                | some body' =>
                    rw [atRight] at rule
                    cases rule
            | none =>
                exact M.bind (M.known (P := fun _ => True) (fun _ => rfl) trivial) fun _ _ =>
                  ih next knownLast

/-- A computation that may end in a term, and what it does in the other place. -/
def Followed (M : Promise) (spot : Nameless → Nameless → Prop) (given : Passed → Prop)
    (a : Traced (Option Nameless)) (b : Nat → Traced (Option Nameless)) : Prop :=
  ∀ r l, a = .ok (some r, l) → (∀ p ∈ l, given p) →
    M.Holds b fun o => ∃ r', o = some r' ∧ r.UpTo spot r'

theorem Followed.none {b : Nat → Traced (Option Nameless)} :
    Followed M spot given (pure Option.none) b := by
  intro r l done
  cases done

theorem Followed.some {r r' : Nameless} (same : r.UpTo spot r') :
    Followed M spot given (pure (Option.some r)) fun _ => pure (Option.some r') := by
  intro _ l done _
  cases done
  exact Promise.pure ⟨r', rfl, same⟩

theorem zip_tried {ends ends' : List (Ends Nameless)} {args args' : List Nameless}
    (rules : List.Forall₂ (Ends.UpTo spot) ends ends') (same : AllUpTo spot args args') :
    List.Forall₂ (Tried spot) (ends.zip args) (ends'.zip args') := by
  induction rules generalizing args args' with
  | nil => exact .nil
  | cons rule _ ih =>
      cases same with
      | nil => exact .nil
      | cons arg others => exact .cons ⟨rule, arg⟩ (ih others)

theorem atEnds_followed (further : env.Further env') (puts : PutsTerms spot)
    (sparing : Sparing M env env' spot given fuel) (follows : Follows M env env' spot given fuel)
    {inner inner' : NamelessParts} {ρ ρ' args args' : List Nameless}
    (sameInner : inner.UpTo spot inner') (outer : AllUpTo spot ρ ρ')
    (same : AllUpTo spot args args') {a : Traced (Option Nameless)}
    {b : Nat → Traced (Option Nameless)} (otherwise : Followed M spot given a b) :
    Followed M spot given (Nameless.atEnds env (Nameless.whnfWith env fuel) inner ρ args a) fun k =>
      Nameless.atEnds env' (Nameless.whnfWith env' k) inner' ρ' args' (b k) := by
  intro r l done known
  unfold Nameless.atEnds at done ⊢
  cases entered : inner.enter ρ args with
  | none =>
      rw [entered] at done
      cases done
  | some found =>
      obtain ⟨ends, values, left⟩ := found
      simp only [entered] at done
      obtain ⟨ends', values', left', entered', sameEnds, sameValues, sameLeft⟩ :=
        enter_upTo sameInner outer same entered
      simp only [entered']
      obtain ⟨o, before, later, ran, rest, rfl⟩ := Traced.bind_ok done
      obtain ⟨knownHere, knownLater⟩ := List.forall_mem_append.mp known
      have rules := ends_upTo puts sameEnds
      have taken : AllUpTo spot (args.take (args.length - left.length))
          (args'.take (args'.length - left'.length)) := by
        rw [same.length_eq, sameLeft.length_eq]
        exact List.forall₂_take _ same
      have dropped := List.forall₂_drop
        ((args.take (args.length - left.length)).length - ends.ends.length) taken
      have tried := tryEnds_followed further puts sparing follows (zip_tried rules dropped) ran
        knownHere
      rw [taken.length_eq, rules.length_eq] at tried
      refine M.bind tried fun o' rule => ?_
      cases rule with
      | some body =>
          cases rest
          exact Promise.pure ⟨_, rfl, applyAll_upTo (body.fill puts.shut sameValues 0) sameLeft⟩
      | none => exact otherwise r later rest knownLater

theorem inspect_followed (puts : PutsTerms spot) (follows : Follows M env env' spot given fuel)
    {arg arg' : Nameless} (same : arg.UpTo spot arg')
    {f : Shape → List Nameless → Traced (Option Nameless)}
    {g : Nat → Shape → List Nameless → Traced (Option Nameless)}
    (next : ∀ shape components components', AllUpTo spot components components' →
      Followed M spot given (f shape components) fun k => g k shape components') :
    Followed M spot given (Nameless.inspect (Nameless.whnfWith env fuel) arg f) fun k =>
      Nameless.inspect (Nameless.whnfWith env' k) arg' (g k) := by
  intro r l done known
  obtain ⟨v, before, later, ran, rest, rfl⟩ := Traced.bind_ok done
  obtain ⟨knownHere, knownLater⟩ := List.forall_mem_append.mp known
  cases shown : v.shape? with
  | none =>
      rw [shown] at rest
      cases rest
  | some found =>
      obtain ⟨shape, components⟩ := found
      rw [shown] at rest
      refine M.bind (follows arg v before ran knownHere (Nameless.value_of_shape shown) same)
        fun w like => ?_
      obtain ⟨components', shown', alike⟩ := shape?_upTo puts like shown
      simp only [shown']
      exact next shape components components' alike r later rest knownLater

theorem walk_followed (further : env.Further env') (puts : PutsTerms spot)
    (sparing : Sparing M env env' spot given fuel) (follows : Follows M env env' spot given fuel) :
    ∀ (ρ : List Nameless) (t : Nameless) (args : List Nameless) {ρ' : List Nameless} {t' : Nameless}
      {args' : List Nameless}, AllUpTo spot ρ ρ' → t.UpTo spot t' → AllUpTo spot args args' →
      Followed M spot given (t.walk env (Nameless.whnfWith env fuel) ρ args) fun k =>
        t'.walk env' (Nameless.whnfWith env' k) ρ' args' := by
  refine (Nameless.walk.mutual_induct
    (fun ρ t args => ∀ {ρ' t' args'}, AllUpTo spot ρ ρ' → t.UpTo spot t' → AllUpTo spot args args' →
      Followed M spot given (t.walk env (Nameless.whnfWith env fuel) ρ args) fun k =>
        t'.walk env' (Nameless.whnfWith env' k) ρ' args')
    (fun ρ t args => ∀ {ρ' t' args'}, AllUpTo spot ρ ρ' → t.UpTo spot t' → AllUpTo spot args args' →
      Followed M spot given (t.walkGiven env (Nameless.whnfWith env fuel) ρ args) fun k =>
        t'.walkGiven env' (Nameless.whnfWith env' k) ρ' args')
    (fun ρ t args => ∀ {ρ' t' args'}, AllUpTo spot ρ ρ' → t.UpTo spot t' → AllUpTo spot args args' →
      Followed M spot given (t.walkBranch env (Nameless.whnfWith env fuel) ρ args) fun k =>
        t'.walkBranch env' (Nameless.whnfWith env' k) ρ' args')
    (fun ρ shape t args => ∀ {ρ' t' args'}, AllUpTo spot ρ ρ' → t.UpTo spot t' →
      AllUpTo spot args args' →
      Followed M spot given (t.walkChildren env (Nameless.whnfWith env fuel) ρ shape args) fun k =>
        t'.walkChildren env' (Nameless.whnfWith env' k) ρ' shape args')
    ?leaf ?leafShort ?branch ?interval ?otherTree ?given ?notGiven ?param ?inspects ?childless
    ?otherBranch ?hit ?miss ?noChild).1
  case leaf =>
    intro ρ parts args body values left entered ρ' t' args' outer same sameArgs
    obtain ⟨parts', rfl, sameParts⟩ := puts.node same
    obtain ⟨_, values', left', entered', inner, sameValues, sameLeft⟩ :=
      enter_upTo sameParts outer sameArgs entered
    cases inner with
    | part body nothing =>
        cases nothing
        simp only [Nameless.walk, entered, entered']
        exact Followed.some (applyAll_upTo (body.fill puts.shut sameValues 0) sameLeft)
  case leafShort =>
    intro ρ parts args short ρ' t' args' _ _ _
    simp only [Nameless.walk]
    exact Followed.none
  case branch =>
    intro ρ parts args ih ρ' t' args' outer same sameArgs
    obtain ⟨parts', rfl, sameParts⟩ := puts.node same
    exact ih outer sameParts sameArgs
  case interval =>
    intro ρ inner rest args ih ρ' t' args' outer same sameArgs
    obtain ⟨_, rfl, sameParts⟩ := puts.node same
    cases sameParts with
    | part ends others =>
        obtain ⟨inner', rfl, sameInner⟩ := puts.node ends
        cases others with
        | part rest nothing =>
            cases nothing
            exact atEnds_followed further puts sparing follows sameInner outer sameArgs
              (ih outer rest sameArgs)
  case otherTree =>
    intro t ρ args notLeaf notBranch notInterval ρ' t' args' _ _ _
    simp only [Nameless.walk.eq_4 _ _ _ _ _ notLeaf notBranch notInterval]
    exact Followed.none
  case given =>
    intro ρ tree args ih ρ' t' args' outer same sameArgs
    obtain ⟨_, rfl, sameParts⟩ := puts.node same
    cases sameParts with
    | part tree nothing =>
        cases nothing
        exact ih outer tree sameArgs
  case notGiven =>
    intro t ρ args notGiven ρ' t' args' _ _ _
    simp only [Nameless.walkGiven.eq_2 _ _ _ _ _ notGiven]
    exact Followed.none
  case param =>
    intro ρ t mode rest a args ih ρ' t' args' outer same sameArgs
    cases same with
    | part _ binder =>
        cases binder with
        | binder _ rest =>
            cases sameArgs with
            | cons here others =>
                have inside := ih (.cons here outer) rest others
                exact inside
  case inspects =>
    intro ρ k child others arg args notParam ihHit ihMiss ρ' t' args' outer same sameArgs
    cases same with
    | @part _ _ _ others' node sameOthers =>
        obtain ⟨_, rfl, sameParts⟩ := puts.node node
        cases sameParts with
        | part sameChild nothing =>
            cases nothing
            cases sameArgs with
            | cons here left =>
                have stillNotParam : ∀ mode rest, others' = .binder mode rest → False := by
                  rintro mode rest rfl
                  cases sameOthers with
                  | binder mode rest => exact notParam _ _ rfl
                simp only [NamelessParts.walkBranch.eq_2 _ _ _ _ _ _ _ _ notParam,
                  NamelessParts.walkBranch.eq_2 _ _ _ _ _ _ _ _ stillNotParam]
                refine inspect_followed puts follows here fun shape components components' alike => ?_
                have append := List.rel_append alike left
                split
                · exact ihHit components outer sameChild append
                · exact ihMiss shape components outer sameOthers append
  case childless =>
    intro ρ arg args ρ' t' args' _ same sameArgs
    cases same
    cases sameArgs with
    | cons here _ => exact inspect_followed puts follows here fun _ _ _ _ => Followed.none
  case otherBranch =>
    intro t ρ args notParam notChild notNil ρ' t' args' _ _ _
    simp only [NamelessParts.walkBranch.eq_4 _ _ _ _ _ notParam notChild notNil]
    exact Followed.none
  case hit =>
    intro ρ shape k child others args hit ih ρ' t' args' outer same sameArgs
    cases same with
    | part node sameOthers =>
        obtain ⟨_, rfl, sameParts⟩ := puts.node node
        cases sameParts with
        | part sameChild nothing =>
            cases nothing
            simpa only [NamelessParts.walkChildren, hit, if_true] using
              ih outer sameChild sameArgs
  case miss =>
    intro ρ shape k child others args miss ih ρ' t' args' outer same sameArgs
    cases same with
    | part node sameOthers =>
        obtain ⟨_, rfl, sameParts⟩ := puts.node node
        cases sameParts with
        | part sameChild nothing =>
            cases nothing
            simpa only [NamelessParts.walkChildren, miss, Bool.false_eq_true, if_false] using
              ih outer sameOthers sameArgs
  case noChild =>
    intro t ρ shape args notChild ρ' t' args' _ _ _
    simp only [NamelessParts.walkChildren.eq_2 _ _ _ _ _ _ notChild]
    exact Followed.none

theorem atCall_upTo {levels : Universe} {t y : Nameless} {l : List Passed}
    (stays : ∀ x ∈ t.freeVars, spot (.free x) (.free x)) (done : t.atCall levels = .ok (y, l)) :
    y.UpTo spot y := by
  have made : y = t.inst (Subst.std levels).onUniverse .free := by
    unfold Nameless.atCall at done
    split at done
    · cases done
      rfl
    · cases done
  refine .self fun x member => ?_
  rw [made, Nameless.mem_inst_freeVars] at member
  obtain ⟨z, occurs, same⟩ := member
  obtain rfl := List.mem_singleton.mp same
  exact stays x occurs

theorem bodyAt?_followed (further : env.Further env') (puts : PutsTerms spot)
    (closed : env.SealedUpTo spot) (sparing : Sparing M env env' spot given fuel)
    (follows : Follows M env env' spot given fuel) {f : DefId} {fn : FunctionDef}
    (known : env.function? f = some fn) (levels : Universe) {args args' : List Nameless}
    (same : AllUpTo spot args args') :
    Followed M spot given (Nameless.bodyAt? env (Nameless.whnfWith env fuel) fn levels args)
      fun k => Nameless.bodyAt? env' (Nameless.whnfWith env' k) fn levels args' := by
  intro r l done all
  unfold Nameless.bodyAt? at done ⊢
  cases isBody : fn.body with
  | none =>
      rw [isBody] at done
      cases done
  | some b =>
      cases b with
      | term t =>
          simp only [isBody] at done ⊢
          obtain ⟨body, before, later, ran, rest, rfl⟩ := Traced.bind_ok done
          cases rest
          have stays : ∀ x ∈ (t.toScoped.read fn.params.vars.reverse).freeVars,
              spot (.free x) (.free x) := by
            intro x member
            obtain ⟨occurs, outside⟩ := t.toScoped.mem_read_freeVars.mp member
            rw [Term.toScoped_freeVars] at occurs
            exact (closed.bodies f fn t known isBody x occurs).resolve_left fun param =>
              outside (List.mem_reverse.mpr param)
          have ends := Traced.result?_ok.mpr ⟨_, ran⟩
          refine M.bind (M.known (fun _ => ends) (atCall_upTo stays ran)) fun body' like => ?_
          exact Promise.pure ⟨_, rfl, like.fill puts.shut (List.rel_reverse same) 0⟩
      | tree t =>
          simp only [isBody] at done ⊢
          obtain ⟨tree, before, later, ran, rest, rfl⟩ := Traced.bind_ok done
          have stays : ∀ x ∈ t.reading.freeVars, spot (.free x) (.free x) := fun x member =>
            closed.trees f fn t known isBody x (CaseTree.mem_reading_freeVars.mp member)
          have allLater := (List.forall_mem_append.mp all).2
          have ends := Traced.result?_ok.mpr ⟨_, ran⟩
          refine M.bind (M.known (fun _ => ends) (atCall_upTo stays ran)) fun tree' like => ?_
          exact walk_followed further puts sparing follows [] tree args .nil like same r later rest
            allLater

theorem transport?_followed (puts : PutsTerms spot) (follows : Follows M env env' spot given fuel)
    {args args' : List Nameless} (same : AllUpTo spot args args') :
    Followed M spot given (Nameless.transport? (Nameless.whnfWith env fuel) args) fun k =>
      Nameless.transport? (Nameless.whnfWith env' k) args' := by
  intro r l done known
  cases same with
  | nil => cases done
  | @cons family family' others others' here left =>
      obtain ⟨v, before, later, ran, rest, rfl⟩ := Traced.bind_ok done
      cases isLam : v.lamBody? with
      | none =>
          rw [isLam] at rest
          obtain ⟨_, _, _, _, impossible, _⟩ := Traced.bind_ok rest
          cases impossible
      | some body =>
          rw [isLam] at rest
          have knownHere := (List.forall_mem_append.mp known).1
          have found : (if body.mentions 0 then none else others.head?) = some r :=
            Option.some.inj (Traced.result?_ok.mpr ⟨_, rest⟩)
          refine M.bind (follows family v before ran knownHere (Nameless.value_of_lam isLam) here)
            fun w like => ?_
          obtain ⟨body', isLam', alike⟩ := lamBody?_upTo puts like isLam
          simp only [isLam', ← alike.mentions puts.shut 0]
          split at found
          · cases found
          · rename_i unused
            rw [List.head?_eq_getElem?] at found
            obtain ⟨r', found', result⟩ := getElem?_upTo left found
            simp only [unused, Bool.false_eq_true, if_false, List.head?_eq_getElem?, found']
            exact Promise.pure ⟨r', rfl, result⟩

/-- A transport that is none becomes one only of its second argument. -/
theorem transport?_passed (sparing : Sparing M env env' spot given fuel)
    (follows : Follows M env env' spot given fuel) {args args' : List Nameless}
    (same : AllUpTo spot args args') {l : List Passed}
    (done : Nameless.transport? (Nameless.whnfWith env fuel) args = .ok (none, l))
    (known : ∀ p ∈ l, given p) :
    M.Holds (fun k => Nameless.transport? (Nameless.whnfWith env' k) args') fun o =>
      ∀ r, o = some r → args'[1]? = some r := by
  cases same with
  | nil => exact Promise.pure nofun
  | @cons family family' others others' here left =>
      obtain ⟨v, before, later, ran, rest, rfl⟩ := Traced.bind_ok done
      obtain ⟨knownHere, knownLater⟩ := List.forall_mem_append.mp known
      have ends : M.Holds (fun k => Nameless.whnfWith env' k family') fun _ => True := by
        cases isLam : v.lamBody? with
        | some body =>
            exact M.weaken (follows family v before ran knownHere (Nameless.value_of_lam isLam) here)
              fun _ _ => trivial
        | none =>
            rw [isLam] at rest
            obtain ⟨_, passed, last, noted, next, rfl⟩ := Traced.bind_ok rest
            cases noted
            exact sparing.family ran knownHere isLam (knownLater (.family family) List.mem_cons_self)
              here
      refine M.bind ends fun w _ => ?_
      cases w.lamBody? with
      | none => exact M.bind (M.known (P := fun _ => True) (fun _ => rfl) trivial) fun _ _ =>
          Promise.pure nofun
      | some body =>
          refine Promise.pure fun r found => ?_
          split at found
          · cases found
          · simpa [List.head?_eq_getElem?] using found

/-- The transport of the library gives what it transports, if it gives anything. -/
theorem coe_body {fn : FunctionDef} (isCoe : Definition.function fn = Library.coeFunction)
    {whnf : Nameless → Traced Nameless} {levels : Universe} {args : List Nameless} {r : Nameless}
    {l : List Passed} (saturated : fn.params.length = args.length)
    (done : Nameless.bodyAt? env whnf fn levels args = .ok (some r, l)) : args[1]? = some r := by
  cases isCoe
  match args, saturated with
  | [family, a, i], _ =>
      obtain ⟨tree, _, _, ran, rest, _⟩ := Traced.bind_ok done
      unfold Nameless.atCall at ran
      split at ran
      · cases ran
        obtain ⟨o, _, _, tried, next, _⟩ := Traced.bind_ok rest
        cases o with
        | none => cases next
        | some body =>
            obtain ⟨e, member, side, isBody⟩ := tryEnds_body tried
            change e ∈ [(⟨some (.bound 1), none⟩, i)] at member
            obtain rfl := List.mem_singleton.mp member
            cases side <;> cases isBody
            cases next
            rfl
      · cases ran

theorem unfolding?_followed (further : env.Further env') (puts : PutsTerms spot)
    (closed : env.SealedUpTo spot) (sparing : Sparing M env env' spot given fuel)
    (follows : Follows M env env' spot given fuel) (f : DefId) (levels : Universe)
    {args args' : List Nameless} (same : AllUpTo spot args args') :
    Followed M spot given (Nameless.unfolding? env (Nameless.whnfWith env fuel) f levels args)
      fun k => Nameless.unfolding? env' (Nameless.whnfWith env' k) f levels args' := by
  intro r l done all
  unfold Nameless.unfolding? at done ⊢
  simp only [further.function?]
  cases known : env.function? f with
  | none =>
      rw [known] at done
      cases done
  | some fn =>
      simp only [known, ← same.length_eq] at done ⊢
      split at done
      · cases done
      · rename_i saturated
        simp only [saturated, if_false]
        obtain ⟨o, before, later, first, rest, rfl⟩ := Traced.bind_ok done
        obtain ⟨allHere, allLater⟩ := List.forall_mem_append.mp all
        by_cases transports : fn.transports = true
        · simp only [transports, if_true] at first ⊢
          cases o with
          | some t =>
              cases rest
              refine M.bind (transport?_followed puts follows same r before first allHere) ?_
              rintro _ ⟨r', rfl, like⟩
              exact Promise.pure ⟨r', rfl, like⟩
          | none =>
              have isCoe := closed.transports f fn known transports
              have second := coe_body isCoe (not_ne_iff.mp saturated) rest
              refine M.bind (transport?_passed sparing follows same first allHere) fun o isSecond => ?_
              cases o with
              | none =>
                  exact bodyAt?_followed further puts closed sparing follows known levels same r later
                    rest allLater
              | some t =>
                  obtain ⟨r', found, like⟩ := getElem?_upTo same second
                  cases found.symm.trans (isSecond t rfl)
                  exact Promise.pure ⟨_, rfl, like⟩
        · simp only [transports, Bool.false_eq_true, if_false] at first ⊢
          cases first
          refine M.bind (M.known (P := (· = none)) (fun _ => rfl) rfl) ?_
          rintro _ rfl
          exact bodyAt?_followed further puts closed sparing follows known levels same r later rest
            allLater

/-- What is read off a value is read off what it becomes. -/
theorem view_followed (follows : Follows M env env' spot given fuel)
    {view view' : Nameless → Option Nameless}
    (value : ∀ {v r}, view v = some r → v.isValue = true)
    (seen : ∀ {v v' r}, v.UpTo spot v' → view v = some r →
      ∃ r', view' v' = some r' ∧ r.UpTo spot r') {t t' : Nameless} (same : t.UpTo spot t') :
    Followed M spot given (do return view (← Nameless.whnfWith env fuel t)) fun k => do
      return view' (← Nameless.whnfWith env' k t') := by
  intro r l done known
  obtain ⟨v, before, rest, ran, ends, rfl⟩ := Traced.bind_ok done
  have found : view v = some r := Option.some.inj (Traced.result?_ok.mpr ⟨_, ends⟩)
  have knownHere := (List.forall_mem_append.mp known).1
  refine M.bind (follows t v before ran knownHere (value found) same) fun v' like => ?_
  obtain ⟨r', found', alike⟩ := seen like found
  exact Promise.pure ⟨r', found', alike⟩

/-- A head step is carried over. -/
theorem headStep?_followed (further : env.Further env') (puts : PutsTerms spot)
    (closed : env.SealedUpTo spot) (sparing : Sparing M env env' spot given fuel)
    (follows : Follows M env env' spot given fuel) {t t' : Nameless} (same : t.UpTo spot t') :
    Followed M spot given (t.headStep? env (Nameless.whnfWith env fuel)) fun k =>
      t'.headStep? env' (Nameless.whnfWith env' k) := by
  rw [Nameless.headStep?.eq_def]
  split
  · rename_i m
    intro r l done known
    cases found : env.solution? m with
    | none =>
        rw [found] at done
        cases done
    | some u =>
        rw [found] at done
        obtain ⟨_, _, _, noted, rest, rfl⟩ := Traced.bind_ok done
        cases noted
        cases rest
        have like := sparing.solution (known (.solution u.reading) List.mem_cons_self)
        cases same with
        | swap here =>
            obtain ⟨_, impossible⟩ := puts.var here
            cases impossible
        | hole _ =>
            simp only [Nameless.headStep?, further.solution m u found]
            exact M.bind (M.known (P := fun _ => True) (fun _ => rfl) trivial) fun _ _ =>
              Promise.pure ⟨_, rfl, like⟩
  · rename_i fn arg
    obtain ⟨_, rfl, parts⟩ := puts.node same
    cases parts with
    | part fn others =>
        cases others with
        | part arg nothing =>
            cases nothing
            refine view_followed follows ?_ ?_ fn
            · intro v r found
              obtain ⟨body, isLam, _⟩ := Option.map_eq_some_iff.mp found
              exact Nameless.value_of_lam isLam
            · intro v v' r like found
              obtain ⟨body, isLam, rfl⟩ := Option.map_eq_some_iff.mp found
              obtain ⟨body', isLam', alike⟩ := lamBody?_upTo puts like isLam
              exact ⟨_, by rw [isLam', Option.map_some], alike.fill puts.shut (.cons arg .nil) 0⟩
  · obtain ⟨_, rfl, parts⟩ := puts.node same
    cases parts with
    | part whole nothing =>
        cases nothing
        exact view_followed follows Nameless.value_of_component
          (fun like found => component?_upTo puts like found) whole
  · obtain ⟨_, rfl, parts⟩ := puts.node same
    cases parts with
    | part arg nothing =>
        cases nothing
        exact view_followed follows Nameless.value_of_fixed
          (fun like found => fixed?_upTo puts like found) arg
  · obtain ⟨_, rfl, parts⟩ := puts.node same
    exact unfolding?_followed further puts closed sparing follows _ _ (list_upTo parts)
  · rename_i parts
    obtain ⟨parts', rfl, sameParts⟩ := puts.node same
    cases isCase : Nameless.caseParts? parts with
    | none => exact Followed.none
    | some found =>
        obtain ⟨args, tree⟩ := found
        obtain ⟨args', tree', isCase', sameArgs, sameTree⟩ := caseParts?_upTo sameParts isCase
        simp only [Nameless.headStep?, isCase']
        exact walk_followed further puts sparing follows [] tree args .nil sameTree sameArgs
  · exact Followed.none

/-- A step, and then what is left of a reduction. -/
theorem Promise.step {t : Nameless} {P : Option Nameless → Prop} {Q : Nameless → Prop}
    (stepped : M.Holds (fun k => t.headStep? env' (Nameless.whnfWith env' k)) P)
    (reduced : ∀ o, P o → M.Holds (fun k => match o with
      | some next => Nameless.whnfWith env' k next
      | none => Pure.pure t) Q) : M.Holds (fun k => Nameless.whnfWith env' k t) Q :=
  M.later (M.bind stepped reduced) rfl fun _ => rfl

/-- More fuel for the first reduction changes nothing as long as what it passes over is spared. -/
theorem Follows.succ (further : env.Further env') (puts : PutsTerms spot)
    (closed : env.SealedUpTo spot) (sparing : Sparing M env env' spot given fuel)
    (follows : Follows M env env' spot given fuel) :
    Follows M env env' spot given (fuel + 1) := by
  intro t v l done known value t' same
  obtain ⟨o, before, later, first, rest, rfl⟩ := Traced.bind_ok done
  obtain ⟨knownHere, knownLater⟩ := List.forall_mem_append.mp known
  cases o with
  | none =>
      cases rest
      have still := isValue_upTo puts same value
      refine Promise.step (P := (· = none)) (M.known (fun k => ?_) rfl) ?_
      · rw [Nameless.headStep?_value still, Traced.result?_pure]
      · rintro _ rfl
        exact Promise.pure same
  | some next =>
      refine Promise.step
        (headStep?_followed further puts closed sparing follows same next before first knownHere) ?_
      rintro _ ⟨next', rfl, like⟩
      exact follows next v later rest knownLater value like

/-- Reduction to a value is carried over, however much fuel it takes. -/
theorem whnf_follows (further : env.Further env') (puts : PutsTerms spot)
    (closed : env.SealedUpTo spot) (sparing : ∀ fuel, Sparing M env env' spot given fuel)
    (fuel : Nat) : Follows M env env' spot given fuel := by
  induction fuel with
  | zero =>
      intro t v l done
      cases done
  | succ fuel ih => exact ih.succ further puts closed (sparing fuel)

end Simulation

end PathTheory
