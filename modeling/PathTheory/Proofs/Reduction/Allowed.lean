import PathTheory.Proofs.Syntax.Allowed
import PathTheory.Typing
/-!
Environments whose definitions and metavariables stay within what is allowed. Reduction, and the
type that is read off a term, mention nothing that the term and the environment do not.
-/
namespace PathTheory

def Body.Allowed (A : Allowance) : Body → Prop
  | .term t => t.Allowed A
  | .tree t => t.Allowed A

def Definition.Allowed (A : Allowance) : Definition → Prop
  | .function f => Telescope.Allowed A f.params ∧ f.result.Allowed A ∧ ∀ b ∈ f.body, b.Allowed A
  | .data d => Telescope.Allowed A d.params ∧ ∀ c ∈ d.constructors, A.definition c
  | .constructor c => Telescope.Allowed A c.params ∧ A.data c.data
  | .cls c => ∀ f ∈ c.fields, A.definition f
  | .field f => f.type.Allowed A ∧ A.definition f.ofClass

structure MetaEntry.Allowed (A : Allowance) (entry : MetaEntry) : Prop where
  type : entry.type.Allowed A
  kind : ∀ c, entry.kind = .instanceOf c → A.definition c
  solution : ∀ t ∈ entry.solution, t.Allowed A

/-- What can be reached from allowed terms is allowed as well. -/
structure Environment.Allowed (A : Allowance) (env : Environment) : Prop where
  definitions : ∀ d definition, A.definition d → env.definition? d = some definition →
    definition.Allowed A
  data : ∀ d, A.data d → A.definition d ∧ (A.error ∨ (env.data? d).isSome)
  instances : ∀ i ∈ env.instances, A.definition i.ofClass → A.definition i.value
  metas : ∀ m entry, A.hole m → env.meta? m = some entry → entry.Allowed A

/-- What reduction looks up in an environment, bodies and solutions, stays within what is allowed. -/
structure Environment.Computes (A : Allowance) (env : Environment) : Prop where
  body : ∀ f fn, A.definition f → env.function? f = some fn → ∀ b ∈ fn.body, b.Allowed A
  solution : ∀ m t, A.hole m → env.solution? m = some t → t.Allowed A

theorem Body.Allowed.mono {A B : Allowance} {b : Body} (allowed : b.Allowed A) (order : A ≤ B) :
    b.Allowed B := by
  cases b with
  | term t => exact Term.Allowed.mono (t := t) allowed order
  | tree t => exact CaseTree.Allowed.mono (t := t) allowed order

theorem Definition.Allowed.mono {A B : Allowance} {d : Definition} (allowed : d.Allowed A)
    (order : A ≤ B) : d.Allowed B := by
  cases d with
  | function f =>
      obtain ⟨params, result, body⟩ := allowed
      exact ⟨params.mono order, result.mono order, fun b member => (body b member).mono order⟩
  | data d =>
      obtain ⟨params, constructors⟩ := allowed
      exact ⟨params.mono order, fun c member => order.definition c (constructors c member)⟩
  | constructor c =>
      obtain ⟨params, data⟩ := allowed
      exact ⟨params.mono order, order.data _ data⟩
  | cls c => exact fun f member => order.definition f (allowed f member)
  | field f =>
      obtain ⟨type, ofClass⟩ := allowed
      exact ⟨type.mono order, order.definition _ ofClass⟩

theorem MetaEntry.Allowed.mono {A B : Allowance} {entry : MetaEntry} (allowed : entry.Allowed A)
    (order : A ≤ B) : entry.Allowed B :=
  ⟨allowed.type.mono order, fun c isClass => order.definition c (allowed.kind c isClass),
    fun t solved => (allowed.solution t solved).mono order⟩

namespace Environment

variable {A : Allowance} {env : Environment}

theorem allowed_of_free (free : A.Free) (env : Environment) : env.Allowed A := by
  refine ⟨fun _ d _ _ => ?_, fun d _ => ⟨free.definition d, .inl free.error⟩,
    fun i _ _ => free.definition _, fun _ entry _ _ => ?_⟩
  · cases d with
    | function f =>
        refine ⟨fun b _ => b.type.allowed_of_free free, f.result.allowed_of_free free,
          fun b _ => ?_⟩
        cases b with
        | term t => exact t.allowed_of_free free
        | tree t => exact t.allowed_of_free free
    | data d => exact ⟨fun b _ => b.type.allowed_of_free free, fun c _ => free.definition c⟩
    | constructor c => exact ⟨fun b _ => b.type.allowed_of_free free, free.data _⟩
    | cls c => exact fun f _ => free.definition f
    | field f => exact ⟨f.type.allowed_of_free free, free.definition _⟩
  · exact ⟨entry.type.allowed_of_free free, fun c _ => free.definition c,
      fun t _ => t.allowed_of_free free⟩

namespace Allowed

theorem function? (known : env.Allowed A) {f : DefId} {fn : FunctionDef} (own : A.definition f)
    (found : env.function? f = some fn) : Telescope.Allowed A fn.params ∧ fn.result.Allowed A ∧
      ∀ b ∈ fn.body, b.Allowed A := by
  obtain ⟨definition, here, isFunction⟩ := Option.bind_eq_some_iff.mp found
  have allowed := known.definitions f definition own here
  cases definition <;> cases isFunction
  exact allowed

theorem data? (known : env.Allowed A) {d : DefId} {data : DataDef} (own : A.definition d)
    (found : env.data? d = some data) :
    Telescope.Allowed A data.params ∧ ∀ c ∈ data.constructors, A.definition c := by
  obtain ⟨definition, here, isData⟩ := Option.bind_eq_some_iff.mp found
  have allowed := known.definitions d definition own here
  cases definition <;> cases isData
  exact allowed

theorem constructor? (known : env.Allowed A) {c : DefId} {con : ConstructorDef}
    (own : A.definition c) (found : env.constructor? c = some con) :
    Telescope.Allowed A con.params ∧ A.data con.data := by
  obtain ⟨definition, here, isConstructor⟩ := Option.bind_eq_some_iff.mp found
  have allowed := known.definitions c definition own here
  cases definition <;> cases isConstructor
  exact allowed

theorem cls? (known : env.Allowed A) {c : DefId} {cls : ClassDef} (own : A.definition c)
    (found : env.cls? c = some cls) : ∀ f ∈ cls.fields, A.definition f := by
  obtain ⟨definition, here, isClass⟩ := Option.bind_eq_some_iff.mp found
  have allowed := known.definitions c definition own here
  cases definition <;> cases isClass
  exact allowed

theorem field? (known : env.Allowed A) {f : DefId} {field : FieldDef} (own : A.definition f)
    (found : env.field? f = some field) :
    field.type.Allowed A ∧ A.definition field.ofClass := by
  obtain ⟨definition, here, isField⟩ := Option.bind_eq_some_iff.mp found
  have allowed := known.definitions f definition own here
  cases definition <;> cases isField
  exact allowed

theorem solution (known : env.Allowed A) {m : MetaId} {t : Term} (own : A.hole m)
    (solved : env.solution? m = some t) : t.Allowed A := by
  obtain ⟨entry, found, solution⟩ := Option.bind_eq_some_iff.mp solved
  exact (known.metas m entry own found).solution t solution

/-- What may be missing is the only thing that can change without the environment. -/
theorem error_mono (known : env.Allowed A) {error : Prop} (weaker : A.error → error) :
    env.Allowed { A with error } := by
  have order : A ≤ { A with error } := ⟨fun _ => id, weaker, fun _ => id, fun _ => id⟩
  exact ⟨fun d definition own found => (known.definitions d definition own found).mono order,
    fun d own => ⟨(known.data d own).1, (known.data d own).2.imp_left weaker⟩, known.instances,
    fun m entry own found => (known.metas m entry own found).mono order⟩

theorem computes (known : env.Allowed A) : env.Computes A :=
  ⟨fun _ _ own found => (known.function? own found).2.2, fun _ _ own solved =>
    known.solution own solved⟩

end Allowed

theorem Computes.carries (known : env.Computes A) (zonks : Bool) : env.Carries A A zonks :=
  ⟨id, fun _ => id, fun _ => id, fun _ own _ => own, fun _ own _ solved =>
    known.solution _ _ own solved⟩

end Environment

section Apply

variable {A : Allowance} {env : Environment} {s : Subst}

theorem Subst.apply_allowed (known : env.Computes A) (images : s.Allowed A) {t : Term}
    (allowed : t.Allowed A) : (s.apply env t).Always (·.Allowed A) :=
  Term.substWith_allowed (known.carries s.zonks).rule rfl images allowed

theorem Subst.applyTelescope_allowed (known : env.Computes A) (images : s.Allowed A)
    {params : Telescope} (allowed : Telescope.Allowed A params) :
    (s.applyTelescope env params).Always fun r => Telescope.Allowed A r.1 ∧ r.2.Allowed A :=
  (substTelescope_allowed (known.carries s.zonks).rule rfl images allowed).weaken
    fun _ r => ⟨r.1, r.2.1⟩

theorem Subst.applyTree_allowed (known : env.Computes A) (images : s.Allowed A) {tree : CaseTree}
    (allowed : tree.Allowed A) : (s.applyTree env tree).Always (·.Allowed A) :=
  CaseTree.substWith_allowed (known.carries s.zonks).rule rfl images allowed

theorem Term.zonk_allowed (known : env.Computes A) (levels : List (LevelVar × Level)) {t : Term}
    (allowed : t.Allowed A) : (t.zonk env levels).Always (·.Allowed A) :=
  Subst.apply_allowed known Subst.allowed_zonking allowed

end Apply

def Walk.Allowed (A : Allowance) : Walk → Prop
  | .reduced t => t.Allowed A
  | .stuck arg => arg.Allowed A
  | .missing => True

def EndsOutcome.Allowed (A : Allowance) : EndsOutcome → Prop
  | .body t => t.Allowed A
  | .none blocked => ∀ t ∈ blocked, t.Allowed A

section Walking

variable {A : Allowance} {env : Environment} {whnf : Term → Fresh Term}

theorem tryEnds_allowed (reduces : ∀ t, t.Allowed A → (whnf t).Always (·.Allowed A))
    {ends : List (Ends Term × Term)} {blocked : Option Term}
    (each : ∀ e ∈ ends, e.1.Allowed A ∧ e.2.Allowed A) (before : ∀ t ∈ blocked, t.Allowed A) :
    (tryEnds env whnf ends blocked).Always (·.Allowed A) := by
  induction ends generalizing blocked with
  | nil => exact .pure before
  | cons e others ih =>
      obtain ⟨e, arg⟩ := e
      obtain ⟨⟨own, given⟩, rest⟩ := List.forall_mem_cons.mp each
      unfold tryEnds
      split
      · exact ih rest before
      · refine .bind (reduces arg given) fun arg' given' => ?_
        split
        · split
          · rename_i body found
            exact .pure (own.at found)
          · exact ih rest before
        · refine ih rest fun t member => ?_
          cases blocked with
          | none => cases Option.mem_some_iff.mp member; exact given'
          | some first => exact before t member

theorem mem_zip {l : List (Ends Term)} {r : List Term} (left : ∀ e ∈ l, e.Allowed A)
    (right : ∀ a ∈ r, a.Allowed A) : ∀ e ∈ l.zip r, e.1.Allowed A ∧ e.2.Allowed A := by
  intro e member
  obtain ⟨first, second⟩ := List.of_mem_zip (a := e.1) (b := e.2) member
  exact ⟨left _ first, right _ second⟩

mutual

theorem walk_allowed (known : env.Computes A)
    (reduces : ∀ t, t.Allowed A → (whnf t).Always (·.Allowed A)) : ∀ (tree : CaseTree) (s : Subst)
    (args : List Term), tree.Allowed A → s.Allowed A → (∀ a ∈ args, a.Allowed A) →
      (tree.walk env whnf s args).Always (·.Allowed A)
  | .leaf params body, s, args, allowed, images, given => by
      have inside := (CaseTree.allowed_leaf.mp allowed).2
      unfold CaseTree.walk
      split
      · exact .pure trivial
      · refine .bind (Subst.apply_allowed known (images.bind given).1 inside) fun r fine => ?_
        refine .pure ?_
        exact Term.allowed_applyAll fine fun a member => given a (List.mem_of_mem_drop member)
  | .branch params children, s, args, allowed, images, given => by
      have inside := (CaseTree.allowed_branch.mp allowed).2
      unfold CaseTree.walk
      split
      · exact .pure trivial
      · have left : ∀ a ∈ args.drop params.length, a.Allowed A := fun a member =>
          given a (List.mem_of_mem_drop member)
        split
        · exact .pure trivial
        · rename_i arg others here
          rw [here] at left
          obtain ⟨first, rest⟩ := List.forall_mem_cons.mp left
          refine .bind (reduces arg first) fun scrutinee fine => ?_
          split
          · exact .pure fine
          · rename_i shape components shown
            exact walkChildren_allowed known reduces shape children _ _ inside
              (images.bind given).1 (List.forall_mem_append.mpr ⟨fine.shown shown, rest⟩)
  | .interval params ends rest, s, args, allowed, images, given => by
      obtain ⟨⟨_, inEnds⟩, inRest⟩ := CaseTree.allowed_interval.mp allowed
      unfold CaseTree.walk
      split
      · exact .pure trivial
      · have bound : ∀ a ∈ (args.take params.length).drop (params.length - ends.length),
            a.Allowed A := fun a member =>
          given a (List.mem_of_mem_take (List.mem_of_mem_drop member))
        refine .bind (tryEnds_allowed reduces (mem_zip inEnds bound) nofun) fun outcome fine => ?_
        split
        · refine .bind (Subst.apply_allowed known (images.bind given).1 fine) fun r reduced => ?_
          refine .pure ?_
          exact Term.allowed_applyAll reduced fun a member => given a (List.mem_of_mem_drop member)
        · exact walkRest_allowed known reduces rest s _ args inRest images given fine

theorem walkChildren_allowed (known : env.Computes A)
    (reduces : ∀ t, t.Allowed A → (whnf t).Always (·.Allowed A)) (shape : Shape) :
    ∀ (children : List (Shape × CaseTree)) (s : Subst) (args : List Term),
      (∀ entry ∈ children, entry.2.Allowed A) → s.Allowed A → (∀ a ∈ args, a.Allowed A) →
        (walkChildren env whnf s shape children args).Always (·.Allowed A)
  | [], _, _, _, _, _ => .pure trivial
  | (k, child) :: others, s, args, allowed, images, given => by
      obtain ⟨here, later⟩ := List.forall_mem_cons.mp allowed
      unfold walkChildren
      split
      · exact walk_allowed known reduces child s args here images given
      · exact walkChildren_allowed known reduces shape others s args later images given

theorem walkRest_allowed (known : env.Computes A)
    (reduces : ∀ t, t.Allowed A → (whnf t).Always (·.Allowed A)) : ∀ (rest : Option CaseTree)
    (s : Subst) (blocked : Option Term) (args : List Term), (∀ tree ∈ rest, tree.Allowed A) →
      s.Allowed A → (∀ a ∈ args, a.Allowed A) → (∀ t ∈ blocked, t.Allowed A) →
        (walkRest env whnf s blocked rest args).Always (·.Allowed A)
  | none, _, blocked, _, _, _, _, fine => by
      cases blocked with
      | none => exact .pure trivial
      | some arg => exact .pure (fine arg rfl)
  | some tree, s, _, args, allowed, images, given, _ =>
      walk_allowed known reduces tree s args (allowed tree rfl) images given

end

theorem transport?_allowed {args : List Term} (given : ∀ a ∈ args, a.Allowed A) :
    (transport? whnf args).Always fun r => ∀ t ∈ r, t.Allowed A := by
  cases args with
  | nil => exact .pure nofun
  | cons family others =>
      have rest := (List.forall_mem_cons.mp given).2
      refine .bind .anything fun r _ => ?_
      split
      · refine .pure fun t member => ?_
        split at member
        · cases member
        · exact rest t (List.mem_of_head? member)
      · exact .pure nofun

theorem bodyAt?_allowed (known : env.Computes A)
    (reduces : ∀ t, t.Allowed A → (whnf t).Always (·.Allowed A)) {fn : FunctionDef}
    (inside : ∀ b ∈ fn.body, b.Allowed A) (levels : Universe) {args : List Term}
    (given : ∀ a ∈ args, a.Allowed A) :
    (bodyAt? env whnf fn levels args).Always fun r => ∀ t ∈ r, t.Allowed A := by
  unfold bodyAt?
  split
  · exact .pure nofun
  · rename_i body isBody
    have images : ((Subst.instantiate fn.params args).addStd levels).Allowed A :=
      Subst.allowed_addStd.mpr (Subst.allowed_instantiate given)
    refine .bind (Subst.apply_allowed known images (inside _ isBody)) fun r fine => ?_
    exact .pure fun t member => Option.mem_some_iff.mp member ▸ fine
  · rename_i tree isBody
    refine .bind (Subst.applyTree_allowed known Subst.allowed_std (inside _ isBody)) ?_
    intro tree' fine
    refine .bind (walk_allowed known reduces tree' .empty args fine Subst.allowed_empty given) ?_
    intro outcome result
    split
    · exact .pure fun t member => Option.mem_some_iff.mp member ▸ result
    · exact .pure nofun

theorem unfolding?_allowed (known : env.Computes A)
    (reduces : ∀ t, t.Allowed A → (whnf t).Always (·.Allowed A)) {f : DefId}
    (own : A.definition f) (levels : Universe) {args : List Term}
    (given : ∀ a ∈ args, a.Allowed A) :
    (unfolding? env whnf f levels args).Always fun r => ∀ t ∈ r, t.Allowed A := by
  unfold unfolding?
  split
  · exact .pure nofun
  · rename_i fn found
    have inside := known.body _ _ own found
    split
    · exact .pure nofun
    · have transported : Fresh.Always
          (if fn.transports then transport? whnf args else return none)
          (fun r => ∀ t ∈ r, t.Allowed A) := by
        split
        · exact transport?_allowed given
        · exact .pure nofun
      refine .bind transported fun r fine => ?_
      split
      · exact .pure fun t member => Option.mem_some_iff.mp member ▸ fine _ rfl
      · exact bodyAt?_allowed known reduces inside levels given

theorem headStep?_allowed (known : env.Computes A)
    (reduces : ∀ t, t.Allowed A → (whnf t).Always (·.Allowed A)) {t : Term}
    (allowed : t.Allowed A) :
    (headStep? env whnf t).Always fun r => ∀ u ∈ r, u.Allowed A := by
  unfold headStep?
  split
  · exact .pure fun u solved => known.solution _ _ allowed solved
  · obtain ⟨head, given⟩ := Term.allowed_app.mp allowed
    refine .bind (reduces _ head) fun fn fine => ?_
    split
    · have inside := (Term.allowed_lam.mp fine).2
      refine .bind (Subst.apply_allowed known (Subst.allowed_single.mpr given) inside) ?_
      exact fun r result => .pure fun u member => Option.mem_some_iff.mp member ▸ result
    · exact .pure nofun
  · refine .bind (reduces _ (Term.allowed_proj.mp allowed)) fun whole fine => ?_
    split
    · exact .pure fun u member => (Term.allowed_tuple.mp fine).1 u (List.mem_of_getElem? member)
    · exact .pure nofun
  · refine .bind (reduces _ (Term.allowed_field.mp allowed).2) fun arg fine => ?_
    split
    · exact .pure fun u found => Term.Allowed.fixed (Term.allowed_new.mp fine) found
    · exact .pure nofun
  · obtain ⟨own, given⟩ := Term.allowed_call.mp allowed
    exact unfolding?_allowed known reduces own _ given
  · obtain ⟨given, _, inside⟩ := Term.allowed_caseOf.mp allowed
    refine .bind (walk_allowed known reduces _ .empty _ inside Subst.allowed_empty given) ?_
    intro outcome result
    split
    · exact .pure fun u member => Option.mem_some_iff.mp member ▸ result
    · exact .pure nofun
  · exact .pure nofun

end Walking

section Whnf

variable {A : Allowance} {env : Environment}

theorem whnfWith_allowed (known : env.Computes A) (fuel : Nat) {t : Term}
    (allowed : t.Allowed A) : (whnfWith env fuel t).Always (·.Allowed A) := by
  induction fuel generalizing t with
  | zero => exact .throw
  | succ fuel ih =>
      unfold whnfWith
      refine .bind (headStep?_allowed known (fun u fine => ih fine) allowed) fun next fine => ?_
      split
      · exact ih (fine _ rfl)
      · exact .pure allowed

theorem Term.whnf_allowed (known : env.Computes A) {t : Term} (allowed : t.Allowed A) :
    (t.whnf env).Always (·.Allowed A) := whnfWith_allowed known _ allowed

end Whnf

section Typing

variable {A : Allowance} {env : Environment}

def Context.Allowed (A : Allowance) (Γ : Context) : Prop := ∀ entry ∈ Γ, entry.2.Allowed A

@[simp]
theorem Context.allowed_cons {x : Var} {type : Term} {Γ : Context} :
    Context.Allowed A ((x, type) :: Γ) ↔ type.Allowed A ∧ Context.Allowed A Γ :=
  List.forall_mem_cons

theorem Context.Allowed.mono {B : Allowance} {Γ : Context} (given : Context.Allowed A Γ)
    (order : A ≤ B) : Context.Allowed B Γ := fun entry member => (given entry member).mono order

theorem Context.Allowed.lookup {Γ : Context} (given : Context.Allowed A Γ) {x : Var} {type : Term}
    (found : List.lookup x Γ = some type) : type.Allowed A := given _ (mem_of_lookup found)

/-- Whatever an optional computation ends with has the property. -/
def OptionAlways {α : Type} (a : OptionT Fresh α) (P : α → Prop) : Prop :=
  Fresh.Always a.run fun r => ∀ x ∈ r, P x

namespace OptionAlways

variable {α β : Type} {P : α → Prop} {R : β → Prop}

theorem pure {x : α} (holds : P x) : OptionAlways (pure x) P :=
  Fresh.Always.pure fun _ member => Option.mem_some_iff.mp member ▸ holds

theorem failure : OptionAlways (failure : OptionT Fresh α) P := Fresh.Always.pure nofun

theorem bind {a : OptionT Fresh α} {f : α → OptionT Fresh β} (first : OptionAlways a P)
    (next : ∀ x, P x → OptionAlways (f x) R) : OptionAlways (a >>= f) R := by
  unfold OptionAlways
  rw [OptionT.run_bind]
  refine Fresh.Always.bind first fun r fine => ?_
  cases r with
  | none => exact Fresh.Always.pure nofun
  | some x => exact next x (fine x rfl)

theorem lift {a : Fresh α} (holds : a.Always P) : OptionAlways (liftM a) P :=
  Fresh.Always.bind holds fun _ fine => .pure fun _ member =>
    Option.mem_some_iff.mp member ▸ fine

theorem anything {a : OptionT Fresh α} : OptionAlways a fun _ => True :=
  fun _ _ _ _ _ _ => trivial

end OptionAlways

theorem componentType?_allowed (known : env.Allowed A) {whole : Term}
    (allowed : whole.Allowed A) (left index : Nat) {params : Telescope} {s : Subst}
    (types : Telescope.Allowed A params) (images : s.Allowed A) :
    OptionAlways (componentType? env whole left index params s) (·.Allowed A) := by
  induction params generalizing left index s with
  | nil =>
      cases left <;> exact .failure
  | cons b rest ih =>
      obtain ⟨here, others⟩ := Telescope.allowed_cons.mp types
      cases left with
      | zero => exact .lift (Subst.apply_allowed known.computes images here)
      | succ left =>
          refine ih left (index + 1) others (Subst.allowed_add.mpr ⟨?_, images⟩)
          exact Term.allowed_proj.mpr allowed

theorem Term.typeOf?_allowed (known : env.Allowed A) : ∀ (t : Term) (Γ : Context),
    Context.Allowed A Γ → t.Allowed A → OptionAlways (t.typeOf? env Γ) (·.Allowed A)
  | .ref x, Γ, given, _ => by
      unfold Term.typeOf?
      exact Fresh.Always.pure fun _ found => given.lookup found
  | .lam mode x domain body, Γ, given, allowed => by
      obtain ⟨outside, inside⟩ := Term.allowed_lam.mp allowed
      unfold Term.typeOf?
      refine .bind (Term.typeOf?_allowed known body _
        (Context.allowed_cons.mpr ⟨outside, given⟩) inside) fun type fine => .pure ?_
      exact Term.allowed_pi.mpr ⟨outside, fine⟩
  | .pi _ x domain codomain, Γ, _, _ => by
      unfold Term.typeOf?
      refine .bind .anything fun _ _ => .bind .anything fun _ _ => .bind .anything fun _ _ => ?_
      refine .bind .anything fun _ _ => .bind .anything fun w _ => ?_
      split
      · exact .pure Term.allowed_univ
      · exact .failure
  | .sigma params, Γ, _, _ => by
      unfold Term.typeOf?
      exact .bind .anything fun _ _ => .pure Term.allowed_univ
  | .tuple _ type, Γ, _, allowed => by
      unfold Term.typeOf?
      exact .pure (Term.allowed_tuple.mp allowed).2
  | .proj whole index, Γ, given, allowed => by
      have inside := Term.allowed_proj.mp allowed
      unfold Term.typeOf?
      refine .bind (Term.typeOf?_allowed known whole Γ given inside) fun type fine => ?_
      refine .bind (.lift (Term.whnf_allowed known.computes fine)) fun type' fine' => ?_
      split
      · exact componentType?_allowed known inside _ _ (Term.allowed_sigma.mp fine')
          Subst.allowed_empty
      · exact .failure
  | .univ u, Γ, _, _ => by
      unfold Term.typeOf?
      exact .bind .anything fun _ _ => .pure Term.allowed_univ
  | .app fn arg, Γ, given, allowed => by
      obtain ⟨head, inside⟩ := Term.allowed_app.mp allowed
      unfold Term.typeOf?
      refine .bind (Term.typeOf?_allowed known fn Γ given head) fun type fine => ?_
      refine .bind (.lift (Term.whnf_allowed known.computes fine)) fun type' fine' => ?_
      split
      · exact .lift (Subst.apply_allowed known.computes (Subst.allowed_single.mpr inside)
          (Term.allowed_pi.mp fine').2)
      · exact .failure
  | .call f levels args, Γ, _, allowed => by
      obtain ⟨own, inside⟩ := Term.allowed_call.mp allowed
      unfold Term.typeOf?
      split
      · rename_i fn found
        obtain ⟨params, result, _⟩ := known.function? own found
        have images : ((Subst.instantiate fn.params args).addStd levels).Allowed A :=
          Subst.allowed_addStd.mpr (Subst.allowed_instantiate inside)
        refine .bind (.lift (Subst.applyTelescope_allowed known.computes images (params.drop _))) ?_
        intro ⟨rest, inner⟩ ⟨fine, images'⟩
        refine .bind (.lift (Subst.apply_allowed known.computes images' result)) fun type fine' => .pure ?_
        exact Term.allowed_piOver.mpr ⟨fine, fine'⟩
      · exact .failure
  | .con c levels params _, Γ, _, allowed => by
      obtain ⟨own, inside, _⟩ := Term.allowed_con.mp allowed
      unfold Term.typeOf?
      split
      · rename_i con found
        exact .pure (Term.allowed_data.mpr ⟨(known.constructor? own found).2, inside⟩)
      · exact .failure
  | .data d levels _, Γ, _, _ => by
      unfold Term.typeOf?
      split
      · exact .bind .anything fun _ _ => .pure Term.allowed_univ
      · exact .failure
  | .record c levels _, Γ, _, _ => by
      unfold Term.typeOf?
      split
      · exact .bind .anything fun _ _ => .pure Term.allowed_univ
      · exact .failure
  | .field f levels arg, Γ, _, allowed => by
      obtain ⟨own, inside⟩ := Term.allowed_field.mp allowed
      unfold Term.typeOf?
      split
      · rename_i field found
        have images : ((Subst.single field.this arg).addStd levels).Allowed A :=
          Subst.allowed_addStd.mpr (Subst.allowed_single.mpr inside)
        exact .lift (Subst.apply_allowed known.computes images (known.field? own found).1)
      · exact .failure
  | .new r, Γ, _, allowed => by
      unfold Term.typeOf?
      exact .pure (Term.allowed_new.mp allowed)
  | .caseOf args params result _, Γ, _, allowed => by
      obtain ⟨inside, ⟨_, type⟩, _⟩ := Term.allowed_caseOf.mp allowed
      unfold Term.typeOf?
      exact .lift (Subst.apply_allowed known.computes (Subst.allowed_instantiate inside) type)
  | .hole m, Γ, _, allowed => by
      unfold Term.typeOf?
      refine Fresh.Always.pure fun type found => ?_
      obtain ⟨entry, here, rfl⟩ := Option.map_eq_some_iff.mp found
      exact (known.metas m entry allowed here).type
  | .error _ _, Γ, _, _ => by
      unfold Term.typeOf?
      exact .failure

end Typing

end PathTheory
