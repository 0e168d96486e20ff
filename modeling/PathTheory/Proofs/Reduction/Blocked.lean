import PathTheory.Library
import PathTheory.Proofs.Reduction.Allowed
import PathTheory.Proofs.Syntax.Searching
/-!
What blocks a term. A metavariable that does is unsolved, and solutions lead there from the term as
long as the bodies of functions lead to solved metavariables only.
-/
namespace PathTheory

open Relation

/-- Only these metavariables, and everything else. -/
def Allowance.only (P : MetaId → Prop) : Allowance := ⟨P, True, fun _ => True, fun _ => True⟩

/-- Everything but metavariables. -/
def Allowance.holeless : Allowance := .only fun _ => False

section Only

variable {P Q : MetaId → Prop}

theorem Allowance.only_le (weaker : ∀ m, P m → Q m) : Allowance.only P ≤ .only Q :=
  ⟨weaker, id, fun _ => id, fun _ => id⟩

mutual

theorem Scoped.allowed_only : ∀ t : Scoped, (∀ m ∈ t.holes, P m) → t.Allowed (.only P)
  | .var _, _ => trivial
  | .hole m, given => given m List.mem_cons_self
  | .node l parts, given => ⟨by cases l <;> trivial, parts.allowed_only given⟩

theorem Parts.allowed_only : ∀ t : Parts, (∀ m ∈ t.holes, P m) → t.Allowed (.only P)
  | .nil, _ => trivial
  | .part t rest, given =>
      ⟨t.allowed_only fun m member => given m (List.mem_append_left _ member),
        rest.allowed_only fun m member => given m (List.mem_append_right _ member)⟩
  | .binder _ _ rest, given => rest.allowed_only given

end

theorem Term.allowed_only {t : Term} : t.Allowed (.only P) ↔ ∀ m ∈ t.holes, P m := by
  refine ⟨fun allowed m member => allowed.hole member, fun given => ?_⟩
  rw [← t.toScoped_holes] at given
  exact t.toScoped.allowed_only given

end Only

namespace Environment

variable {env : Environment}

/-- Nothing that solutions lead to from here is unsolved. -/
def Resolved (env : Environment) (m : MetaId) : Prop :=
  ∀ k, ReflTransGen env.Leads m k → env.solution? k ≠ none

/-- The bodies of functions lead to solved metavariables only. -/
def Determined (env : Environment) : Prop :=
  ∀ f fn, env.function? f = some fn → ∀ b ∈ fn.body, b.Allowed (.only env.Resolved)

/-- No definition mentions a metavariable. -/
def Holeless (env : Environment) : Prop :=
  ∀ x definition, env.definition? x = some definition → definition.Allowed .holeless

theorem Holeless.determined (holeless : env.Holeless) : env.Determined := by
  intro f fn found b isBody
  obtain ⟨definition, here, isFunction⟩ := Option.bind_eq_some_iff.mp found
  have allowed := holeless f definition here
  cases definition <;> cases isFunction
  exact (allowed.2.2 b isBody).mono (Allowance.only_le fun _ => False.elim)

end Environment

theorem Library.environment_holeless (fuel : Nat) : (Library.environment fuel).Holeless := by
  have all : ∀ definition ∈ (Library.environment fuel).definitions.toList,
      definition.Allowed .holeless := by
    simp [Library.environment, Library.natData, Library.zeroCon, Library.sucCon,
      Library.intervalData, Library.endCon, Library.pathData, Library.pathConstructor,
      Library.eqFunction, Library.atFunction, Library.coeFunction, Library.pathParams,
      Library.sectionType, Library.natType, Library.intervalType, Library.leftTerm,
      Library.rightTerm, Library.constant, Telescope.ofPairs, Definition.Allowed, Body.Allowed,
      Ends.Allowed, Allowance.holeless,
      Allowance.only]
  intro x definition found
  exact all definition (Array.mem_toList_iff.mpr (Array.mem_of_getElem? found))

section Whnf

variable {A : Allowance} {env : Environment}

/-- If the term is a metavariable, it is an unsolved one. -/
def Term.OpenHole (env : Environment) (t : Term) : Prop :=
  ∀ m, t.hole? = some m → env.solution? m = none

theorem Environment.reaches_of_hole? {t : Term} {m : MetaId} (isHole : t.hole? = some m) :
    env.Reaches t m := by
  cases t <;> cases isHole
  exact ⟨m, List.mem_singleton_self m, .refl⟩

/-- A solved metavariable reduces further. -/
theorem whnfWith_openHole (fuel : Nat) (t : Term) :
    (whnfWith env fuel t).Always (·.OpenHole env) := by
  induction fuel generalizing t with
  | zero => exact .throw
  | succ fuel ih =>
      unfold whnfWith
      intro n r k done
      obtain ⟨next, i, step, rest⟩ := fresh_bind done
      cases next with
      | some u => exact ih u i r k rest
      | none =>
          cases fresh_pure rest
          intro m isHole
          cases t <;> cases isHole
          exact congrArg Prod.fst (fresh_pure step).symm

theorem Term.whnf_openHole (t : Term) : (t.whnf env).Always (·.OpenHole env) :=
  whnfWith_openHole _ t

/-- Terms that allowed terms can be stuck on. -/
def CanBlock (A : Allowance) (env : Environment) (u : Term) : Prop := u.Allowed A ∧ u.OpenHole env

/-- A transport is stuck on its family, unless its interval is in the way. -/
theorem family_allowed {stuckOn : Term → Fresh (Option Term)} {args : List Term}
    (each : ∀ a ∈ args, (stuckOn a).Always fun r => ∀ u ∈ r, CanBlock A env u)
    (interval : Option Term) (given : ∀ u ∈ interval, CanBlock A env u) :
    Fresh.Always (if interval.isSome then return interval else
      match args[0]? with
      | some family => stuckOn family
      | none => return none) fun r => ∀ u ∈ r, CanBlock A env u := by
  split
  · exact .pure given
  · split
    · rename_i found
      exact each _ (List.mem_of_getElem? found)
    · exact .pure fun u absent => by cases absent

theorem stuckOnWith_allowed (known : env.Computes A) (fuel : Nat) {t : Term}
    (allowed : t.Allowed A) :
    (stuckOnWith env fuel t).Always fun r => ∀ u ∈ r, CanBlock A env u := by
  induction fuel generalizing t with
  | zero => exact .throw
  | succ fuel ih =>
      have reduced : (t.whnf env).Always (CanBlock A env) := fun n r k done =>
        ⟨Term.whnf_allowed known allowed n r k done, Term.whnf_openHole t n r k done⟩
      refine .bind reduced fun t' fine => ?_
      have here : Fresh.Always (pure (some t')) fun r => ∀ u ∈ r, CanBlock A env u :=
        .pure fun u member => Option.mem_some_iff.mp member ▸ fine
      have nowhere : Fresh.Always (pure none) fun r => ∀ u ∈ r, CanBlock A env u :=
        .pure fun u absent => by cases absent
      -- a tree that gets stuck hands on the argument that it looks at
      have throughTree : ∀ {after : Walk → Fresh (Option Term)}, (∀ u, after (.reduced u) =
          pure none) → (∀ arg, after (.stuck arg) = stuckOnWith env fuel arg) →
          after .missing = pure (some t') → ∀ (tree : CaseTree) (args : List Term),
          tree.Allowed A → (∀ a ∈ args, a.Allowed A) →
          Fresh.Always (tree.run env (Term.whnf env) args >>= after)
            fun r => ∀ u ∈ r, CanBlock A env u := by
        intro after reduced stuck missing tree args inside given
        refine .bind (walk_allowed known (fun _ fine => Term.whnf_allowed known fine) tree .empty
          args inside Subst.allowed_empty given) fun outcome result => ?_
        cases outcome with
        | reduced u =>
            rw [reduced]
            exact nowhere
        | stuck arg =>
            rw [stuck]
            exact ih result
        | missing =>
            rw [missing]
            exact here
      have fromArgs : ∀ {args : List Term} {j : Nat} {u : Term}, (∀ a ∈ args, a.Allowed A) →
          args[j]? = some u → u.Allowed A := fun given found =>
        given _ (List.mem_of_getElem? found)
      dsimp only
      split
      · exact here
      · exact here
      · exact ih (Term.allowed_app.mp fine.1).1
      · exact ih (Term.allowed_proj.mp fine.1)
      · exact ih (Term.allowed_field.mp fine.1).2
      · obtain ⟨own, given⟩ := Term.allowed_call.mp fine.1
        split
        · exact nowhere
        · rename_i fn found
          split
          · have orFamily := family_allowed fun a member => ih (given a member)
            split
            · rename_i atEnd
              exact .bind (ih (fromArgs given atEnd)) orFamily
            · exact .bind nowhere orFamily
          · split
            · rename_i tree isBody
              refine .bind (Subst.applyTree_allowed known Subst.allowed_std
                (known.body _ _ own found _ isBody)) fun tree' inside => ?_
              exact throughTree (fun _ => rfl) (fun _ => rfl) rfl tree' _ inside given
            · exact nowhere
      · obtain ⟨given, _, inside⟩ := Term.allowed_caseOf.mp fine.1
        exact throughTree (fun _ => rfl) (fun _ => rfl) rfl _ _ inside given
      · exact nowhere

theorem Term.stuckMeta_allowed (known : env.Computes A) {t : Term} (allowed : t.Allowed A) :
    (t.stuckMeta env).Always fun r => ∀ m ∈ r, A.hole m ∧ env.solution? m = none := by
  refine .bind (stuckOnWith_allowed known env.fuel allowed) fun r blocks => .pure fun m member => ?_
  obtain ⟨u, isStuck, isHole⟩ := Option.bind_eq_some_iff.mp (Option.mem_def.mp member)
  obtain ⟨own, unsolved⟩ := blocks u isStuck
  refine ⟨?_, unsolved m isHole⟩
  cases u <;> cases isHole
  exact own

/-- A metavariable that blocks a term is unsolved, and solutions lead there from the term. -/
theorem Term.stuckMeta_reaches (t : Term) : (t.stuckMeta env).Always fun r =>
    env.Determined → ∀ m ∈ r, env.solution? m = none ∧ env.Reaches t m := by
  intro n r k done determined m member
  have known : env.Computes (.only fun m => env.Reaches t m ∨ env.Resolved m) := by
    constructor
    · intro f fn _ found b isBody
      exact (determined f fn found b isBody).mono (Allowance.only_le fun _ => .inr)
    · intro m u own solved
      refine Term.allowed_only.mpr fun j member => own.imp ?_ ?_
      · exact fun ⟨k, inside, way⟩ => ⟨k, inside, way.tail ⟨u, solved, member⟩⟩
      · exact fun resolved k way => resolved k (way.head ⟨u, solved, member⟩)
  have allowed : t.Allowed (.only fun m => env.Reaches t m ∨ env.Resolved m) :=
    Term.allowed_only.mpr fun m member => .inl ⟨m, member, .refl⟩
  obtain ⟨own, unsolved⟩ := Term.stuckMeta_allowed known allowed n r k done m member
  exact ⟨unsolved, own.resolve_right fun resolved => resolved m .refl unsolved⟩

end Whnf

end PathTheory
