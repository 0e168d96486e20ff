import PathTheory.Proofs.Reduction.Simulation
import PathTheory.Proofs.Reduction.Reading
import PathTheory.Proofs.Reduction.Stuck
import PathTheory.Session
/-!
Terms that no metavariable blocks. The question what blocks a term has one answer, but an argument
can be waited for in several places: an interval node looks at one column after the other and goes on
behind an argument that is no end. The main statement is that nothing else is missing in the answer:
a term for which it is no metavariable reduces to the same term once more metavariables are solved,
as long as no rule comes to apply that was passed over because of an argument that a metavariable
blocks.
-/
namespace PathTheory

open Filter

/-- What blocks a term whose arguments have been run through a tree. -/
def Walk.blockedBy (stuckOn : Term → Fresh (Option Term)) (t : Term) : Walk → Fresh (Option Term)
  | .reduced _ => return none
  | .stuck arg => stuckOn arg
  | .missing => return some t

/-- What blocks a term in weak head normal form. -/
def Term.blockedBy (env : Environment) (stuckOn : Term → Fresh (Option Term)) (t : Term) :
    Fresh (Option Term) :=
  match t with
  | .hole _ | .error _ _ => return some t
  | .app fn _ => stuckOn fn
  | .proj whole _ => stuckOn whole
  | .field _ _ arg => stuckOn arg
  | .call f levels args =>
      match env.function? f with
      | none => return none
      | some fn =>
        if fn.transports then do
          let interval ← match args[2]? with
            | some i => stuckOn i
            | none => pure none
          if interval.isSome then return interval
          match args[0]? with
          | some family => stuckOn family
          | none => return none
        else match fn.body with
          | some (.tree tree) => do
              let tree ← (Subst.std levels).applyTree env tree
              (← tree.run env (Term.whnf env) args).blockedBy stuckOn t
          | _ => return none
  | .caseOf args _ _ tree => do (← tree.run env (Term.whnf env) args).blockedBy stuckOn t
  | _ => return none

theorem stuckOnWith_succ (env : Environment) (fuel : Nat) (t : Term) :
    stuckOnWith env (fuel + 1) t = t.whnf env >>= Term.blockedBy env (stuckOnWith env fuel) := rfl

/-- A rule that was passed over does not come to apply: what it waits for ends in something that it
    does not apply to. -/
def Passed.Stays (env : Environment) : Passed → Prop
  | .ends rules arg => ∃ fuel v, (Nameless.whnfWith env fuel arg).result? = some v ∧
      ∀ side, v.endpoint? env = some side → rules.at? side = none
  | .family t => ∃ fuel v, (Nameless.whnfWith env fuel t).result? = some v ∧ v.lamBody? = none
  | .solution _ => True

/-- What a rule that was passed over waits for. -/
def Passed.subject? : Passed → Option Nameless
  | .ends _ arg => some arg
  | .family t => some t
  | .solution _ => none

/-- No metavariable blocks what the rule waits for. -/
def Passed.Unblocked (env : Environment) (low : Nat) (p : Passed) : Prop :=
  ∃ (t : Term) (n m : Nat), low ≤ n ∧ t.Below n ∧ p.subject? = some t.reading ∧
    t.stuckMeta env n = .ok (none, m)

/-- The reading of a term that no metavariable blocks, by as much fuel as it takes to say so. -/
def Idle (env : Environment) (low : Nat) (v : Nameless) : Prop :=
  ∃ (u : Term) (fuel n m : Nat) (r : Option Term), low ≤ n ∧ u.Below n ∧ u.reading = v ∧
    u.blockedBy env (stuckOnWith env fuel) n = .ok (r, m) ∧ r.bind Term.hole? = none

section Identity

theorem Nameless.put_ref (t : Nameless) : t.put Term.ref = t :=
  Nameless.inst_self (fun _ => rfl) t fun _ _ => rfl

theorem Nameless.upTo_ref (t : Nameless) : t.UpTo (Putting Term.ref) t := by
  have same := t.upTo_put (τ := Term.ref)
  rwa [t.put_ref] at same

theorem Nameless.UpTo.eq_of_ref {a b : Nameless} (same : a.UpTo (Putting Term.ref) b) : b = a :=
  same.eq_put.trans a.put_ref

theorem pairs_upTo_ref (l : List (Ends Nameless × Nameless)) :
    List.Forall₂ (Tried (Putting Term.ref)) l l := by
  refine List.forall₂_same.mpr fun e _ => ⟨fun side => ?_, e.2.upTo_ref⟩
  cases e.1.at? side with
  | none => exact .none
  | some body => exact .some body.upTo_ref

end Identity

section Analysis

variable {env : Environment} {low n m fuel : Nat} {t : Term} {r : Option Term}

/-- What is found for a term is found for what it reduces to. -/
theorem idle_of_stuckOn (known : env.Within (fun _ => True) low) (order : low ≤ n)
    (below : t.Below n) (done : stuckOnWith env fuel t n = .ok (r, m))
    (noMeta : r.bind Term.hole? = none) {v : Nameless}
    (reduced : (Nameless.whnfWith env env.fuel t.reading).result? = some v) : Idle env low v := by
  cases fuel with
  | zero => cases done
  | succ fuel =>
      rw [stuckOnWith_succ] at done
      obtain ⟨u, k, ran, blocked⟩ := fresh_bind done
      have within : t.Within (fun _ => True) n := ⟨below, fun _ _ => trivial⟩
      obtain ⟨later, seen⟩ := whnfWith_within known env.fuel t n order within u k ran
      obtain ⟨y, same, rfl⟩ := (whnfWith_mirrors known env.fuel t n order within).ok ran
      cases same.symm.trans reduced
      exact ⟨u, fuel, k, m, r, order.trans later, seen.below, rfl, blocked, noMeta⟩

theorem stuckMeta_answer (done : t.stuckMeta env n = .ok (none, m)) :
    ∃ r, t.stuckOn env n = .ok (r, m) ∧ r.bind Term.hole? = none := by
  obtain ⟨r, k, ran, final⟩ := fresh_bind done
  obtain ⟨same, rfl⟩ := Prod.mk.inj (fresh_pure final)
  exact ⟨r, ran, same.symm⟩

end Analysis

/-- A value of a reduction is its own value. -/
theorem whnfWith_again {env : Environment} {fuel : Nat} {t v : Nameless}
    (done : (Nameless.whnfWith env fuel t).result? = some v) :
    (Nameless.whnfWith env fuel v).result? = some v := by
  obtain ⟨k, rfl, stops⟩ := whnfWith_last env done
  rw [Nameless.whnfWith, Traced.result?_bind, stops]
  rfl

/-- What is known in a later environment of the reductions that take some fuel. -/
structure Carrying (env env' : Environment) (low fuel : Nat) (given : Passed → Prop) : Prop where
  enough : fuel ≤ env.fuel
  sparing : Sparing .ends env env' (Putting .ref) given fuel
  families : ∀ t v l, Nameless.whnfWith env fuel t = .ok (v, l) → (∀ p ∈ l, given p) →
    v.lamBody? = none → given (.family t) → (Passed.family t).Stays env'
  follows : Follows .ends env env' (Putting .ref) given fuel
  waits : ∀ t v l, Nameless.whnfWith env fuel t = .ok (v, l) → (∀ p ∈ l, given p) →
    Idle env low v → ∀ᶠ k in atTop, (Nameless.whnfWith env' k t).result? = some v

section Steps

variable {env env' : Environment} {low fuel : Nat} {given : Passed → Prop}

/-- A computation that ends with nothing, with fuel enough. -/
def Still {α : Type} (a : Nat → Traced (Option α)) : Prop := ∀ᶠ k in atTop, (a k).result? = some none

theorem Still.pure {α : Type} : Still fun _ => (pure none : Traced (Option α)) :=
  Eventually.of_forall fun _ => rfl

namespace Carrying

theorem value (carrying : Carrying env env' low fuel given) {t v : Nameless} {l : List Passed}
    (done : Nameless.whnfWith env fuel t = .ok (v, l)) (known : ∀ p ∈ l, given p)
    (isValue : v.isValue = true) :
    ∀ᶠ k in atTop, (Nameless.whnfWith env' k t).result? = some v := by
  obtain ⟨_, same, ends⟩ := carrying.follows t v l done known isValue t.upTo_ref
  rwa [same.eq_of_ref] at ends

theorem reduced (carrying : Carrying env env' low fuel given) {t v : Nameless} {l : List Passed}
    (done : Nameless.whnfWith env fuel t = .ok (v, l)) :
    (Nameless.whnfWith env env.fuel t).result? = some v :=
  (whnfWith_le env carrying.enough t).result? (Traced.result?_ok.mpr ⟨l, done⟩)

theorem tryEnds_still (further : env.Further env') (carrying : Carrying env env' low fuel given)
    {ends : List (Ends Nameless × Nameless)} {l : List Passed}
    (done : Nameless.tryEnds env (Nameless.whnfWith env fuel) ends = .ok (none, l))
    (known : ∀ p ∈ l, given p) :
    Still fun k => Nameless.tryEnds env' (Nameless.whnfWith env' k) ends := by
  obtain ⟨_, ⟨⟩, tried⟩ := tryEnds_followed further (putting_puts .ref) carrying.sparing
    carrying.follows (pairs_upTo_ref ends) done known
  exact tried

end Carrying

/-- What is read off a term that nothing is read off. -/
theorem view_still (carrying : Carrying env env' low fuel given)
    (known : env.Within (fun _ => True) low) {t : Term} {n m depth : Nat} {r : Option Term}
    (order : low ≤ n) (below : t.Below n) (done : stuckOnWith env depth t n = .ok (r, m))
    (noMeta : r.bind Term.hole? = none) (view : Nameless → Option Nameless) {l : List Passed}
    (none : (do return view (← Nameless.whnfWith env fuel t.reading)) = .ok (Option.none, l))
    (all : ∀ p ∈ l, given p) :
    Still fun k => do return view (← Nameless.whnfWith env' k t.reading) := by
  obtain ⟨v, before, _, ran, ends, rfl⟩ := Traced.bind_ok none
  cases isView : view v with
  | some _ =>
      rw [isView] at ends
      cases ends
  | none =>
      have idle := idle_of_stuckOn known order below done noMeta (carrying.reduced ran)
      have waits := carrying.waits t.reading v before ran (List.forall_mem_append.mp all).1 idle
      filter_upwards [waits] with k same
      rw [Traced.result?_bind, same, Option.bind_some, isView, Traced.result?_pure]

/-- The argument that a walk is stuck on, if it is stuck on one, is blocked by no metavariable. -/
def Walk.Idle (env : Environment) (low : Nat) (w : Walk) : Prop :=
  ∀ arg, w = .stuck arg → ∀ v, (Nameless.whnfWith env env.fuel arg.reading).result? = some v →
    PathTheory.Idle env low v

mutual

theorem walk_still (further : env.Further env') (carrying : Carrying env env' low fuel given)
    (known : env.Within (fun _ => True) low) :
    ∀ (tree : CaseTree) {s : Subst} {scope : List Var} {ρ : List Nameless} {args : List Term}
      {w : Walk} {n m : Nat} {l : List Passed}, low ≤ n → tree.Within (fun _ => True) n →
      (∀ a ∈ args, a.Within (fun _ => True) n) →
      tree.walk env (Term.whnf env) s args n = .ok (w, m) → w.Idle env low →
      (tree.toScoped.read scope).walk env (Nameless.whnfWith env fuel) ρ (args.map Term.reading) =
        .ok (none, l) → (∀ p ∈ l, given p) →
      Still fun k => (tree.toScoped.read scope).walk env' (Nameless.whnfWith env' k) ρ
        (args.map Term.reading)
  | .leaf params body, s, scope, ρ, args, w, n, m, l, _, _, _, _, _, done, _ => by
      simp only [walk_leaf_reading params] at done ⊢
      split at done
      · rename_i short
        simp only [if_pos short]
        exact .pure
      · cases done
  | .branch params children, s, scope, ρ, args, w, n, m, l, order, tree, within, ran, idle, done,
      all => by
      simp only [walk_branch_reading params, List.length_map] at done ⊢
      unfold CaseTree.walk at ran
      by_cases short : args.length < params.length
      · simp only [if_pos short]
        exact .pure
      · rw [if_neg short] at ran
        simp only [if_neg short, ← List.map_drop] at done ⊢
        have rest : ∀ a ∈ args.drop params.length, a.Within (fun _ => True) n := within_drop within
        cases left : args.drop params.length with
        | nil =>
            simp only [List.map_nil, walkBranch_nil]
            exact .pure
        | cons arg others =>
            rw [left] at ran rest
            simp only [left, List.map_cons, walkBranch_children] at done ⊢
            obtain ⟨head, tail⟩ := List.forall_mem_cons.mp rest
            obtain ⟨scrutinee, k, reduced, next⟩ := fresh_bind ran
            obtain ⟨later, seen⟩ := whnfWith_within known env.fuel arg n order head scrutinee k reduced
            obtain ⟨y, mirrored, rfl⟩ :=
              (whnfWith_mirrors known env.fuel arg n order head).ok reduced
            obtain ⟨v, before, after, value, final, rfl⟩ := Traced.bind_ok done
            cases (carrying.reduced value).symm.trans mirrored
            obtain ⟨allHere, allLater⟩ := List.forall_mem_append.mp all
            rw [Term.shape?_reading] at final
            cases shown : scrutinee.shape? with
            | none =>
                rw [shown] at next
                cases fresh_pure next
                have here := idle scrutinee rfl _ (whnfWith_again mirrored)
                filter_upwards [carrying.waits _ _ _ value allHere here] with k same
                simp [Nameless.inspect, Traced.result?_bind, same, Term.shape?_reading, shown,
                  Traced.result?_pure]
            | some found =>
                obtain ⟨shape, components⟩ := found
                rw [shown] at next
                simp only [shown, Option.map_some, ← List.map_append] at final
                have isValue := Nameless.value_of_shape ((Term.shape?_reading scrutinee).trans
                  (congrArg _ shown))
                have parts := seen.shown shown
                have below : ∀ a ∈ components ++ others, a.Within (fun _ => True) k :=
                  List.forall_mem_append.mpr ⟨parts, fun a other => (tail a other).mono later⟩
                have still := walkChildren_still further carrying known children
                  (order.trans later) (fun entry member => ((tree.children entry member).widen
                    fun _ _ => trivial).mono later) below next idle final allLater
                filter_upwards [carrying.value value allHere isValue, still] with k same after
                simpa [Nameless.inspect, Traced.result?_bind, same, Term.shape?_reading, shown]
                  using after
  | .interval params ends rest, s, scope, ρ, args, w, n, m, l, order, tree, within, ran, idle, done,
      all => by
      simp only [walk_interval_reading params, List.length_map] at done ⊢
      unfold CaseTree.walk at ran
      by_cases short : args.length < params.length
      · simp only [if_pos short]
        exact .pure
      · rw [if_neg short] at ran
        simp only [if_neg short] at done ⊢
        obtain ⟨o, before, after, tried, final, rfl⟩ := Traced.bind_ok done
        obtain ⟨allHere, allLater⟩ := List.forall_mem_append.mp all
        cases o with
        | some body => cases final
        | none =>
            have pairs : ∀ e ∈ ends.zip ((args.take params.length).drop
                (params.length - ends.length)), PairWithin (fun _ => True) (fun _ => True) n e := by
              intro e member
              obtain ⟨isEnd, isArg⟩ := List.of_mem_zip member
              have inner := tree.ends e.1 isEnd
              exact ⟨⟨fun t is => (inner.1 t is).widen fun _ _ => trivial,
                fun t is => (inner.2 t is).widen fun _ _ => trivial⟩,
                within e.2 (List.mem_of_mem_take (List.mem_of_mem_drop isArg))⟩
            have fair := whnfWith_within known env.fuel
            obtain ⟨outcome, k, ranEnds, next⟩ := fresh_bind ran
            obtain ⟨later, _⟩ := tryEnds_within fair _ none n order pairs (by simp) outcome k ranEnds
            obtain ⟨y, mirrored, same⟩ := (tryEnds_mirrors fair (whnfWith_mirrors known env.fuel)
              ((Telescope.vars params).reverse ++ scope) _ none n order pairs).ok ranEnds
            rw [← endsAt_readings] at mirrored
            have reached := (tryEnds_le (fun t => whnfWith_le env carrying.enough t) _).result?
              (Traced.result?_ok.mpr ⟨before, tried⟩)
            have noBody : outcome.body? = none := by
              cases mirrored.symm.trans reached
              exact Option.map_eq_none_iff.mp same.symm
            cases outcome with
            | body t => cases noBody
            | none blocked =>
                have ends := carrying.tryEnds_still further tried allHere
                cases rest with
                | none =>
                    filter_upwards [ends] with k none
                    simp only [Traced.result?_bind, none, Option.bind_some]
                    rfl
                | some rest =>
                    have still := walk_still further carrying known rest (order.trans later)
                      ((tree.rest rest rfl).mono later) (within_later within later) next idle final
                      allLater
                    filter_upwards [ends, still] with k none after
                    simp only [Traced.result?_bind, none, Option.bind_some]
                    exact after

theorem walkChildren_still (further : env.Further env')
    (carrying : Carrying env env' low fuel given) (known : env.Within (fun _ => True) low) :
    ∀ (children : List (Shape × CaseTree)) {s : Subst} {scope : List Var} {ρ : List Nameless}
      {shape : Shape} {args : List Term} {w : Walk} {n m : Nat} {l : List Passed}, low ≤ n →
      (∀ entry ∈ children, entry.2.Within (fun _ => True) n) →
      (∀ a ∈ args, a.Within (fun _ => True) n) →
      walkChildren env (Term.whnf env) s shape children args n = .ok (w, m) → w.Idle env low →
      ((childrenParts children).read scope).walkChildren env (Nameless.whnfWith env fuel) ρ shape
        (args.map Term.reading) = .ok (none, l) → (∀ p ∈ l, given p) →
      Still fun k => ((childrenParts children).read scope).walkChildren env'
        (Nameless.whnfWith env' k) ρ shape (args.map Term.reading)
  | [], _, _, _, _, _, _, _, _, _, _, _, _, _, _, _, _ => Still.pure
  | (key, child) :: others, s, scope, ρ, shape, args, w, n, m, l, order, trees, within, ran, idle,
      done, all => by
      obtain ⟨head, tail⟩ := List.forall_mem_cons.mp trees
      have here : ∀ (e : Environment) (f : Nat),
          ((childrenParts ((key, child) :: others)).read scope).walkChildren e
            (Nameless.whnfWith e f) ρ shape (args.map Term.reading) = if key.matches shape then
              (child.toScoped.read scope).walk e (Nameless.whnfWith e f) ρ (args.map Term.reading)
            else ((childrenParts others).read scope).walkChildren e (Nameless.whnfWith e f) ρ shape
              (args.map Term.reading) := fun _ _ => rfl
      unfold walkChildren at ran
      simp only [here] at done ⊢
      split at ran
      · rename_i hit
        simp only [if_pos hit] at done ⊢
        exact walk_still further carrying known child order head within ran idle done all
      · rename_i miss
        simp only [if_neg miss] at done ⊢
        exact walkChildren_still further carrying known others order tail within ran idle done all

end

/-- A transport that is stuck on its family stays so. -/
theorem transport?_still (carrying : Carrying env env' low fuel given) {args : List Nameless}
    {l : List Passed}
    (done : Nameless.transport? (Nameless.whnfWith env fuel) args = .ok (none, l))
    (known : ∀ p ∈ l, given p) :
    Still fun k => Nameless.transport? (Nameless.whnfWith env' k) args := by
  cases args with
  | nil => exact .pure
  | cons family others =>
      obtain ⟨v, before, later, ran, rest, rfl⟩ := Traced.bind_ok done
      obtain ⟨knownHere, knownLater⟩ := List.forall_mem_append.mp known
      cases isLam : v.lamBody? with
      | some body =>
          rw [isLam] at rest
          have unused : (if body.mentions 0 then none else others.head?) = none :=
            Option.some.inj (Traced.result?_ok.mpr ⟨_, rest⟩)
          filter_upwards [carrying.value ran knownHere (Nameless.value_of_lam isLam)] with k same
          simp only [Nameless.transport?, Traced.result?_bind, same, Option.bind_some, isLam, unused,
            Traced.result?_pure]
      | none =>
          rw [isLam] at rest
          obtain ⟨_, passed, last, noted, next, rfl⟩ := Traced.bind_ok rest
          cases noted
          obtain ⟨enough, w, ends, notLam⟩ :=
            carrying.families family v before ran knownHere isLam (knownLater _ List.mem_cons_self)
          filter_upwards [eventually_result ends] with k same
          simp only [Nameless.transport?, Traced.result?_bind, same, Option.bind_some, notLam,
            Traced.result?_pass, Traced.result?_pure]

/-- The transport of the library gives nothing where its argument is no end with a rule. -/
theorem coe_still (further : env.Further env') (carrying : Carrying env env' low fuel given)
    {fn : FunctionDef} (isCoe : Definition.function fn = Library.coeFunction) {levels : Universe}
    {args : List Nameless} {l : List Passed} (saturated : fn.params.length = args.length)
    (done : Nameless.bodyAt? env (Nameless.whnfWith env fuel) fn levels args = .ok (none, l))
    (known : ∀ p ∈ l, given p) :
    Still fun k => Nameless.bodyAt? env' (Nameless.whnfWith env' k) fn levels args := by
  cases isCoe
  match args, saturated with
  | [family, a, i], _ =>
      obtain ⟨tree, before, later, ran, rest, rfl⟩ := Traced.bind_ok done
      obtain ⟨_, knownLater⟩ := List.forall_mem_append.mp known
      have made := Traced.result?_ok.mpr ⟨_, ran⟩
      unfold Nameless.atCall at ran
      split at ran
      · cases ran
        obtain ⟨o, _, _, tried, next, rfl⟩ := Traced.bind_ok rest
        cases o with
        | some body => cases next
        | none =>
            have ends := carrying.tryEnds_still further tried (List.forall_mem_append.mp knownLater).1
            filter_upwards [ends] with k none
            simp only [Nameless.bodyAt?, Traced.result?_bind, made, Option.bind_some]
            change (Nameless.tryEnds env' (Nameless.whnfWith env' k) _ >>= _).result? = _
            rw [Traced.result?_bind, none]
            rfl
      · cases ran

/-- A tree that does not lead to a body, where no metavariable is what it is stuck on. -/
theorem run_still (further : env.Further env') (carrying : Carrying env env' low fuel given)
    (known : env.Within (fun _ => True) low) {tree : CaseTree} {args : List Term} {t : Term}
    {depth n k m : Nat} {w : Walk} {r : Option Term} (order : low ≤ n)
    (inScope : tree.Within (fun _ => True) n) (within : ∀ a ∈ args, a.Within (fun _ => True) n)
    (ran : tree.run env (Term.whnf env) args n = .ok (w, k))
    (blocked : w.blockedBy (stuckOnWith env depth) t k = .ok (r, m))
    (noMeta : r.bind Term.hole? = none) {l : List Passed}
    (done : tree.reading.walk env (Nameless.whnfWith env fuel) [] (args.map Term.reading) =
      .ok (none, l)) (all : ∀ p ∈ l, given p) :
    Still fun k => tree.reading.walk env' (Nameless.whnfWith env' k) [] (args.map Term.reading) := by
  refine walk_still further carrying known tree order inScope within ran ?_ done all
  rintro arg rfl v reduced
  obtain ⟨later, seen⟩ :=
    run_within (whnfWith_within known env.fuel) order inScope within _ k ran
  exact idle_of_stuckOn known (order.trans later) seen.below blocked noMeta reduced

theorem unfolding?_still (further : env.Further env') (carrying : Carrying env env' low fuel given)
    (known : env.Within (fun _ => True) low) (coe : env.OnlyCoe)
    {f : DefId} {levels : Universe} {args : List Term} {depth n m : Nat} {r : Option Term}
    (order : low ≤ n) (within : ∀ a ∈ args, a.Within (fun _ => True) n)
    (blocked : (Term.call f levels args).blockedBy env (stuckOnWith env depth) n = .ok (r, m))
    (noMeta : r.bind Term.hole? = none) {l : List Passed}
    (done : Nameless.unfolding? env (Nameless.whnfWith env fuel) f levels (args.map Term.reading) =
      .ok (none, l)) (all : ∀ p ∈ l, given p) :
    Still fun k => Nameless.unfolding? env' (Nameless.whnfWith env' k) f levels
      (args.map Term.reading) := by
  unfold Nameless.unfolding? at done ⊢
  simp only [further.function?]
  cases isFunction : env.function? f with
  | none => exact .pure
  | some fn =>
      simp only [isFunction] at done ⊢
      by_cases saturated : fn.params.length = (args.map Term.reading).length
      · rw [if_neg (not_not.mpr saturated)] at done
        simp only [if_neg (not_not.mpr saturated)]
        obtain ⟨o, before, later, first, rest, rfl⟩ := Traced.bind_ok done
        obtain ⟨allHere, allLater⟩ := List.forall_mem_append.mp all
        cases o with
        | some _ => cases rest
        | none =>
            by_cases transports : fn.transports = true
            · simp only [transports, if_true] at first ⊢
              filter_upwards [transport?_still carrying first allHere,
                coe_still further carrying (coe f fn isFunction transports) saturated rest allLater]
                with k none still
              simp only [Traced.result?_bind, none, Option.bind_some, still]
            · simp only [transports, Bool.false_eq_true, if_false] at first ⊢
              refine Eventually.mono (?_ : Still fun k => Nameless.bodyAt? env'
                (Nameless.whnfWith env' k) fn levels (args.map Term.reading)) fun k still => by
                  simpa only [Traced.result?_bind, Traced.result?_pure, Option.bind_some] using still
              unfold Nameless.bodyAt? at rest ⊢
              unfold Term.blockedBy at blocked
              simp only [isFunction, transports, Bool.false_eq_true, if_false] at blocked
              cases isBody : fn.body with
              | none => exact .pure
              | some body =>
                  simp only [isBody] at rest blocked ⊢
                  cases body with
                  | term body =>
                      obtain ⟨_, _, _, _, impossible, _⟩ := Traced.bind_ok rest
                      cases impossible
                  | tree tree =>
                      obtain ⟨tree', i, put, through⟩ := fresh_bind blocked
                      obtain ⟨w, j, ran, blocked⟩ := fresh_bind through
                      obtain ⟨y, before', later', applied, walked, rfl⟩ := Traced.bind_ok rest
                      have inScope := (known.trees f fn tree isFunction isBody).mono order
                      obtain ⟨_, mirrored, rfl⟩ := (applyTree_mirrors levels inScope).ok put
                      cases (Traced.result?_ok.mpr ⟨_, applied⟩).symm.trans mirrored
                      have inReach := inScope.widen fun x inScope =>
                        (Or.inl inScope : (Subst.std levels).Reach (fun _ => True) x)
                      obtain ⟨next, treeWithin, _⟩ :=
                        (Subst.within_empty.addStd levels).yields_tree inReach tree' i put
                      have still := run_still further carrying known (order.trans next) treeWithin
                        (within_later within next) ran blocked noMeta walked
                        (List.forall_mem_append.mp allLater).2
                      filter_upwards [still] with k none
                      simpa only [Traced.result?_bind, mirrored, Option.bind_some] using none
      · simp only [if_pos saturated]
        exact .pure

/-- Where no step is made and no metavariable is in the way, none is made later. -/
theorem headStep?_still (further : env.Further env') (carrying : Carrying env env' low fuel given)
    (known : env.Within (fun _ => True) low) (coe : env.OnlyCoe)
    {v : Nameless} (idle : Idle env low v) {l : List Passed}
    (done : v.headStep? env (Nameless.whnfWith env fuel) = .ok (none, l)) (all : ∀ p ∈ l, given p) :
    Still fun k => v.headStep? env' (Nameless.whnfWith env' k) := by
  obtain ⟨u, depth, n, m, r, order, below, rfl, blocked, noMeta⟩ := idle
  have within : u.Within (fun _ => True) n := ⟨below, fun _ _ => trivial⟩
  cases u with
  | hole h =>
      cases fresh_pure blocked
      cases noMeta
  | app fn arg =>
      let view : Nameless → Option Nameless := fun v => v.lamBody?.map (·.fill [arg.reading] 0)
      exact view_still carrying known order (Term.within_app.mp within).1.below blocked noMeta view
        done all
  | proj whole index =>
      exact view_still carrying known order (Term.within_proj.mp within).below blocked noMeta
        (Nameless.component? index) done all
  | field f levels arg =>
      exact view_still carrying known order (Term.within_field.mp within).below blocked noMeta
        (Nameless.fixed? f) done all
  | call f levels args =>
      rw [call_headStep?] at done
      simp only [call_headStep?]
      exact unfolding?_still further carrying known coe order (Term.within_call.mp within) blocked
        noMeta done all
  | caseOf args params result tree =>
      rw [caseOf_headStep?] at done
      simp only [caseOf_headStep?]
      obtain ⟨w, k, ran, blocked⟩ := fresh_bind blocked
      exact run_still further carrying known order within.caseTree within.caseArgs ran blocked noMeta
        done all
  | _ => exact .pure

/-- A rule that was passed over does not come to apply, or no metavariable is in its way. -/
def Passed.Excluded (env env' : Environment) (low : Nat) (p : Passed) : Prop :=
  p.Stays env' ∨ p.Unblocked env low

/-- Terms that are reduced with the fuel at hand and that no metavariable blocks reduce to the same
    later. -/
def Waits (env env' : Environment) (low fuel : Nat) : Prop :=
  ∀ t v l, Nameless.whnfWith env fuel t = .ok (v, l) → (∀ p ∈ l, p.Excluded env env' low) →
    Idle env low v → ∀ᶠ k in atTop, (Nameless.whnfWith env' k t).result? = some v

/-- What a rule waits for reduces to the same later, if a metavariable is not in its way. -/
theorem Waits.unblocked (waits : Waits env env' low fuel)
    (known : env.Within (fun _ => True) low) (enough : fuel ≤ env.fuel) {p : Passed}
    {t v : Nameless} {l : List Passed} (subject : p.subject? = some t)
    (ran : Nameless.whnfWith env fuel t = .ok (v, l)) (all : ∀ p ∈ l, p.Excluded env env' low)
    (unblocked : p.Unblocked env low) : ∃ k, (Nameless.whnfWith env' k t).result? = some v := by
  obtain ⟨u, n, m, order, below, isSubject, none⟩ := unblocked
  cases subject.symm.trans isSubject
  obtain ⟨r, stuck, noMeta⟩ := stuckMeta_answer none
  have reduced := (whnfWith_le env enough _).result? (Traced.result?_ok.mpr ⟨l, ran⟩)
  exact (waits _ v l ran all (idle_of_stuckOn known order below stuck noMeta reduced)).exists

theorem Waits.carrying (waits : Waits env env' low fuel)
    (known : env.Within (fun _ => True) low) (further : env.Further env') (enough : fuel ≤ env.fuel)
    (follows : Follows .ends env env' (Putting .ref) (Passed.Excluded env env' low) fuel) :
    Carrying env env' low fuel (Passed.Excluded env env' low) := by
  have families : ∀ t v l, Nameless.whnfWith env fuel t = .ok (v, l) →
      (∀ p ∈ l, p.Excluded env env' low) → v.lamBody? = none →
      (Passed.family t).Excluded env env' low → (Passed.family t).Stays env' := by
    intro t v l ran all notLam excluded
    refine excluded.elim id fun unblocked => ?_
    obtain ⟨k, same⟩ := waits.unblocked known enough rfl ran all unblocked
    exact ⟨k, v, same, notLam⟩
  refine ⟨enough, ⟨?_, ?_, fun {t} _ => t.upTo_ref⟩, families, follows, waits⟩
  · intro rules arg v l ran all noEnd excluded arg' same
    rw [same.eq_of_ref]
    rcases excluded with ⟨k, w, ends, noRule⟩ | unblocked
    · exact ⟨w, noRule, eventually_result ends⟩
    · obtain ⟨k, ends⟩ := waits.unblocked known enough rfl ran all unblocked
      refine ⟨v, fun side isEnd => ?_, eventually_result ends⟩
      rw [further.endpoint?, noEnd] at isEnd
      cases isEnd
  · intro t v l ran all notLam excluded t' same
    rw [same.eq_of_ref]
    obtain ⟨k, w, ends, _⟩ := families t v l ran all notLam excluded
    exact ⟨w, trivial, eventually_result ends⟩

/-- Where only the library's transport transports, the definitions are fit for terms as they are. -/
theorem Environment.OnlyCoe.sealed (coe : env.OnlyCoe) : env.SealedUpTo (Putting .ref) where
  bodies := fun _ _ _ _ _ _ _ => .inr (putting_keeps rfl)
  trees := fun _ _ _ _ _ _ _ => putting_keeps rfl
  transports := coe

/-- The induction is on the fuel of the first reduction. Whatever is looked at takes less, and so does
    what a passed rule waits for. -/
theorem waits_and_follows (known : env.Within (fun _ => True) low) (further : env.Further env')
    (coe : env.OnlyCoe) (fuel : Nat) (enough : fuel ≤ env.fuel) :
    Waits env env' low fuel ∧
      Follows .ends env env' (Putting .ref) (Passed.Excluded env env' low) fuel := by
  induction fuel with
  | zero => exact ⟨nofun, nofun⟩
  | succ fuel ih =>
      obtain ⟨waits, follows⟩ := ih (Nat.le_of_succ_le enough)
      have carrying := waits.carrying known further (Nat.le_of_succ_le enough) follows
      have puts := putting_puts Term.ref
      have closed := coe.sealed
      refine ⟨?_, follows.succ further puts closed carrying.sparing⟩
      intro t v l done all idle
      obtain ⟨o, before, later, first, rest, rfl⟩ := Traced.bind_ok done
      obtain ⟨allHere, allLater⟩ := List.forall_mem_append.mp all
      cases o with
      | none =>
          cases rest
          have still := headStep?_still further carrying known coe idle first allHere
          refine Promise.ends_iff.mp (Promise.step (Promise.ends_iff.mpr still) ?_)
          rintro _ rfl
          exact Promise.pure rfl
      | some next =>
          have stepped := headStep?_followed further puts closed carrying.sparing follows t.upTo_ref
            next before first allHere
          refine Promise.ends_iff.mp (Promise.step stepped ?_)
          rintro _ ⟨_, rfl, same⟩
          rw [same.eq_of_ref]
          exact Promise.ends_iff.mpr (waits next v later rest allLater idle)

/-- **A term that no metavariable blocks stays what it is.** Where the stuck analysis finds no
    metavariable, reduction in every later environment ends, with fuel enough, in the same term up to
    the names of bound variables, as long as no rule comes to apply that was passed over because of an
    argument that a metavariable blocks. -/
theorem Term.whnf_further {V W : Var → Prop} {n n' m k : Nat} {t v : Term} (known : env.Within V n)
    (knownLater : env'.Within W n') (order : n ≤ n') (further : env.Further env')
    (coe : env.OnlyCoe) (below : t.Below n) (done : t.whnf env n = .ok (v, m))
    (unblocked : t.stuckMeta env n = .ok (none, k))
    (excluded : ∀ p ∈ t.passesAll env, p.Excluded env env' n) :
    (∃ enough, ∀ fuel, enough ≤ fuel → ∀ i, n' ≤ i → ∃ r j,
      whnfWith env' fuel t i = .ok (r, j) ∧ r.AlphaEq v) ∧
    ∀ i r j, n' ≤ i → t.whnf env' i = .ok (r, j) → r.AlphaEq v := by
  have everywhere := known.widen (W := fun _ => True) fun _ _ => trivial
  have everywhereLater := knownLater.widen (W := fun _ => True) fun _ _ => trivial
  have within : ∀ i, n ≤ i → t.Within (fun _ => True) i :=
    fun i later => ⟨below.mono later, fun _ _ => trivial⟩
  obtain ⟨y, mirrored, rfl⟩ :=
    (whnfWith_mirrors everywhere env.fuel t n (Nat.le_refl n) (within n (Nat.le_refl n))).ok done
  obtain ⟨l, ran⟩ := Traced.result?_ok.mp mirrored
  have all : ∀ p ∈ l, p.Excluded env env' n := by
    rw [passesAll, ran] at excluded
    exact excluded
  obtain ⟨r, stuck, noMeta⟩ := stuckMeta_answer unblocked
  have idle := idle_of_stuckOn everywhere (Nat.le_refl n) below stuck noMeta mirrored
  have waits := (waits_and_follows everywhere further coe env.fuel (Nat.le_refl _)).1
  obtain ⟨enough, ends⟩ := eventually_atTop.mp (waits t.reading v.reading l ran all idle)
  constructor
  · refine ⟨enough, fun fuel atLeast i later => ?_⟩
    obtain ⟨r, j, moved, same⟩ := (whnfWith_mirrors everywhereLater fuel t i later
      (within i (order.trans later))).result (ends fuel atLeast)
    exact ⟨r, j, moved, same.symm⟩
  · intro i r j later moved
    obtain ⟨y, ends', rfl⟩ := (whnfWith_mirrors everywhereLater env'.fuel t i later
      (within i (order.trans later))).ok moved
    have larger := (whnfWith_le env' (Nat.le_max_left env'.fuel enough) _).result? ends'
    exact Option.some.inj (larger.symm.trans (ends _ (Nat.le_max_right _ _)))

end Steps

section Examples

open Library Matching

def twoPoints : Telescope :=
  Telescope.ofPairs [(⟨29, "i"⟩, intervalType), (⟨30, "j"⟩, intervalType)]

/-- Two ends in the first column and one in the second. -/
def twoPointsClauses : List Clause := [
  ⟨.none, [.ofCon left [], .binding ⟨31, "j"⟩], some (numeral 0)⟩,
  ⟨.none, [.ofCon right [], .binding ⟨32, "j"⟩], some (numeral 1)⟩,
  ⟨.none, [.binding ⟨33, "i"⟩, .ofCon left []], some (numeral 2)⟩]

def twoPointsTree : CaseTree :=
  .interval twoPoints [⟨some (numeral 0), some (numeral 1)⟩, ⟨some (numeral 2), none⟩] none

def twoPointsFunction : DefId := ⟨11, "f"⟩

/-- The library with a function of two points of the interval and a metavariable for one. -/
def twoPointsEnvironment (solution : Option Term) : Environment := { environment 100 with
  definitions := (environment 100).definitions.push
    (.function ⟨twoPoints, natType, some (.tree twoPointsTree), false, .done⟩)
  metas := #[⟨"m", intervalType, [], .expression, solution, .none⟩] }

/-- Neither point is known. -/
def twoPointsCall : Term := .call twoPointsFunction .std [.ref ⟨34, "x"⟩, .hole ⟨0⟩]

theorem twoPoints_further (value : Term) :
    (twoPointsEnvironment none).Further (twoPointsEnvironment (some value)) where
  definitions := rfl
  solution m t found := by
    match m with
    | ⟨0⟩ => cases found
    | ⟨_ + 1⟩ => cases found

theorem twoPoints_within : (twoPointsEnvironment none).Within (fun x => x.id < 35) 35 := by
  refine Environment.within_of_below (by decide) fun m => ?_
  match m with
  | ⟨0⟩ => rfl
  | ⟨_ + 1⟩ => rfl

theorem twoPoints_solved : (twoPointsEnvironment (some rightTerm)).Within (fun x => x.id < 35) 35 :=
  { twoPoints_within with
    solutions := by
      intro m t found
      match m with
      | ⟨0⟩ =>
          cases found
          exact ⟨by decide, by decide⟩
      | ⟨_ + 1⟩ => cases found }

theorem twoPoints_onlyCoe : (twoPointsEnvironment none).OnlyCoe := by
  refine Environment.onlyCoe_of_definitions ?_
  simp [twoPointsEnvironment, environment, natData, zeroCon, sucCon, intervalData, endCon,
    pathData, pathConstructor, eqFunction, atFunction, coeFunction, Definition.function?]

/-- At the right end the second column has no rule. -/
theorem twoPointsCall_further :
    twoPointsCall.passesAll (twoPointsEnvironment none) =
      [.ends ⟨some (numeral 0).reading, some (numeral 1).reading⟩ (.free ⟨34, "x"⟩),
        .ends ⟨some (numeral 2).reading, none⟩ (.hole ⟨0⟩)] ∧
    (∃ enough, ∀ fuel, enough ≤ fuel → ∀ i, 35 ≤ i → ∃ r j,
      whnfWith (twoPointsEnvironment (some rightTerm)) fuel twoPointsCall i = .ok (r, j) ∧
        r.AlphaEq twoPointsCall) ∧
    ∀ i r j, 35 ≤ i → twoPointsCall.whnf (twoPointsEnvironment (some rightTerm)) i = .ok (r, j) →
      r.AlphaEq twoPointsCall := by
  refine ⟨rfl, Term.whnf_further twoPoints_within twoPoints_solved (Nat.le_refl 35)
    (twoPoints_further rightTerm) twoPoints_onlyCoe (by decide) rfl rfl ?_⟩
  refine List.forall_mem_cons.mpr ⟨.inr ?_, List.forall_mem_singleton.mpr (.inl ?_)⟩
  · exact ⟨.ref ⟨34, "x"⟩, 35, 35, Nat.le_refl 35, by decide, rfl, rfl⟩
  · refine ⟨2, rightTerm.reading, rfl, fun side isEnd => ?_⟩
    cases side with
    | left => cases isEnd
    | right => rfl

/-- The analysis has no answer for the first column alone, and none for the second one. -/
theorem twoPointsCall_blocked :
    (compile ⟨environment 100, .standard, true, false, none⟩ .none twoPoints twoPointsClauses
      34).map (fun r => (r.1.tree, r.2)) = .ok (some twoPointsTree, 34) ∧
    twoPointsCall.whnf (twoPointsEnvironment none) 35 = .ok (twoPointsCall, 35) ∧
    twoPointsCall.stuckMeta (twoPointsEnvironment none) 35 = .ok (none, 35) ∧
    (twoPointsEnvironment none).Further (twoPointsEnvironment (some leftTerm)) ∧
    twoPointsCall.whnf (twoPointsEnvironment (some leftTerm)) 35 = .ok (numeral 2, 35) ∧
    ((Unify.compare twoPointsCall (numeral 2) .eq .none).run .empty |>.run
      (twoPointsEnvironment none) |>.run 35).map (fun r => r.1.1.1) = .ok false ∧
    ((Unify.compare twoPointsCall (numeral 2) .eq .none).run .empty |>.run
      (twoPointsEnvironment (some leftTerm)) |>.run 35).map (fun r => r.1.1.1) = .ok true := by
  refine ⟨rfl, rfl, rfl, twoPoints_further leftTerm, rfl, rfl, rfl⟩

end Examples

end PathTheory
