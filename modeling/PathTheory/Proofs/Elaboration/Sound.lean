import PathTheory.Proofs.Elaboration.Allowed
/-!
Types, applications and calls keep to what is allowed. Each rule is gone through once, with the
judgements for smaller expressions as a hypothesis.
-/
namespace PathTheory

open Surface (Expr)

/-- A term with its type. -/
abbrev Typed : Allowance → Term × Term → Prop := fun A r => r.1.Allowed A ∧ r.2.Allowed A

/-- What is asked of the judgements for smaller expressions. -/
structure Judge.Sound (g : Ground) (config : Config) (j : Judge) : Prop where
  check : ∀ {c : Moment} {Γ : Context} {e : Expr} {type : Term},
    Context.Allowed (c.allowance g) Γ → e.Within g.definition g.error →
      type.Allowed (c.allowance g) →
        Elaborate.Sound g config c (j.check Γ e type) fun A t => t.Allowed A
  infer : ∀ {c : Moment} {Γ : Context} {e : Expr},
    Context.Allowed (c.allowance g) Γ → e.Within g.definition g.error →
      Elaborate.Sound g config c (j.infer Γ e) Typed

namespace Elaborate

variable {g : Ground} {config : Config} {c : Moment} {j : Judge} {Γ : Context}

section Types

theorem inferType_sound (sound : Judge.Sound g config j) (given : Context.Allowed (c.allowance g) Γ)
    {e : Expr} (within : e.Within g.definition g.error) :
    Sound g config c (inferType j Γ e) fun A r => r.1.Allowed A := by
  refine (sound.infer given within).bind fun r c₁ _ ⟨fine, fromType⟩ => ?_
  refine (whnf_sound fromType).bind fun type c₂ order₂ fromType => ?_
  have fine := fine.mono order₂
  split
  · exact .pure fine
  · split
    · exact .pure fine
    · refine freshUniverse_sound.bind fun u c₃ order₃ _ => ?_
      refine (compare_sound (fromType.mono order₃) Term.allowed_univ .le e.span).bind ?_
      intro holds c₄ order₄ _
      split
      · exact .pure (fine.mono (order₃.trans order₄))
      · refine (mismatch_sound _ _ _).bind fun d c₅ _ isError => ?_
        exact (fail_sound isError).bind fun t _ _ allowed => .pure allowed

theorem checkBinders_sound (sound : Judge.Sound g config j) {binders : List (Binding Expr)}
    (given : Context.Allowed (c.allowance g) Γ)
    (within : ∀ b ∈ binders, b.type.Within g.definition g.error) :
    Sound g config c (checkBinders j Γ binders) fun A r => Telescope.Allowed A r.1 ∧
      Context.Allowed A r.2.1 ∧ r.1.map Binding.head = binders.map Binding.head := by
  induction binders generalizing c Γ with
  | nil => exact .pure ⟨Telescope.allowed_nil, given, rfl⟩
  | cons b rest ih =>
      obtain ⟨mode, x, e⟩ := b
      obtain ⟨here, others⟩ := List.forall_mem_cons.mp within
      refine (inferType_sound sound given here).bind fun r c₁ order₁ fine => ?_
      refine (bind_sound (given.mono order₁) x fine).bind fun Γ' c₂ order₂ given' => ?_
      refine (ih given' others).bind fun r' c₃ order₃ ⟨params, inner, heads⟩ =>
        .pure ⟨?_, inner, ?_⟩
      · exact Telescope.allowed_cons.mpr ⟨fine.mono (order₂.trans order₃), params⟩
      · exact congrArg ((mode, x) :: ·) heads

end Types

section Application

theorem supplyImplicits_sound (Γ : Context) (span : Span) (fuel : Nat) {term type : Term}
    (fine : term.Allowed (c.allowance g)) (fromType : type.Allowed (c.allowance g)) :
    Sound g config c (supplyImplicits Γ span fuel term type) Typed := by
  induction fuel generalizing c term type with
  | zero => exact .throw
  | succ fuel ih =>
      refine (whnf_sound fromType).bind fun head c₁ order₁ fromHead => ?_
      split
      · obtain ⟨fromDomain, fromCodomain⟩ := Term.allowed_pi.mp fromHead
        refine (implicitValue_sound Γ _ fromDomain span).bind fun arg c₂ order₂ fromArg => ?_
        refine (subst_sound (Subst.allowed_single.mpr fromArg) (fromCodomain.mono order₂)).bind ?_
        intro type' c₃ order₃ fromType'
        refine ih (Term.allowed_app.mpr ⟨?_, fromArg.mono order₃⟩) fromType'
        exact fine.mono (order₁.trans (order₂.trans order₃))
      · exact .pure ⟨fine.mono order₁, fromType.mono order₁⟩

/-- Either an error that stands for the whole, or a result with the property. -/
def OrError {α : Type} (P : Allowance → α → Prop) : Allowance → Except Term α → Prop
  | A, .error t => t.Allowed A
  | A, .ok x => P A x

theorem applyOne_sound (sound : Judge.Sound g config j) (span : Span) (mode : Mode) {arg : Expr}
    (within : arg.Within g.definition g.error) (fuel : Nat) {fn type : Term}
    (given : Context.Allowed (c.allowance g) Γ) (fine : fn.Allowed (c.allowance g))
    (fromType : type.Allowed (c.allowance g)) :
    Sound g config c (applyOne j Γ span mode arg fuel fn type) (OrError Typed) := by
  induction fuel generalizing c fn type with
  | zero => exact .throw
  | succ fuel ih =>
      refine (whnf_sound fromType).bind fun head c₁ order₁ fromHead => ?_
      have refuse : Sound g config c₁ (do
          if head.isError then return .error head
          return .error (← fail (← mismatch arg.span (note "a function type") head)))
          (OrError Typed) := by
        split
        · exact .pure fromHead
        · exact (mismatch_sound _ _ _).bind fun _ _ _ isError =>
            (fail_sound isError).bind fun _ _ _ allowed => .pure allowed
      have fine := fine.mono order₁
      have given := given.mono order₁
      dsimp only
      split
      · obtain ⟨fromDomain, fromCodomain⟩ := Term.allowed_pi.mp fromHead
        split
        · refine (implicitValue_sound Γ _ fromDomain span).bind fun value c₂ order₂ fromValue => ?_
          refine (subst_sound (Subst.allowed_single.mpr fromValue)
            (fromCodomain.mono order₂)).bind fun type' c₃ order₃ fromType' => ?_
          have order := order₂.trans order₃
          refine ih (given.mono order) (Term.allowed_app.mpr ⟨?_, fromValue.mono order₃⟩) fromType'
          exact fine.mono order
        · split
          · refine (sound.check given within fromDomain).bind fun value c₂ order₂ fromValue => ?_
            refine (subst_sound (Subst.allowed_single.mpr fromValue)
              (fromCodomain.mono order₂)).bind fun type' c₃ order₃ fromType' => .pure ⟨?_, fromType'⟩
            exact Term.allowed_app.mpr ⟨fine.mono (order₂.trans order₃), fromValue.mono order₃⟩
          · exact refuse
      · exact refuse

theorem apply_sound (sound : Judge.Sound g config j) (span : Span) {args : List (Mode × Expr)}
    (within : ∀ arg ∈ args, arg.2.Within g.definition g.error) {fn type : Term}
    (given : Context.Allowed (c.allowance g) Γ) (fine : fn.Allowed (c.allowance g))
    (fromType : type.Allowed (c.allowance g)) :
    Sound g config c (apply j Γ span fn type args) Typed := by
  induction args generalizing c fn type with
  | nil => exact .pure ⟨fine, fromType⟩
  | cons arg rest ih =>
      obtain ⟨mode, arg⟩ := arg
      obtain ⟨here, others⟩ := List.forall_mem_cons.mp within
      refine .look ((applyOne_sound sound span mode here _ given fine fromType).bind ?_)
      intro r c₁ order₁ result
      cases r with
      | ok r => exact ih others (given.mono order₁) result.1 result.2
      | error t => exact .pure ⟨result, result⟩

end Application

section Call

theorem levelArgument_sound (terms : List Term) (us : List Universe) :
    Sound g config c (levelArgument terms us) Anything := by
  unfold levelArgument
  dsimp only
  split
  · exact freshUniverse_sound
  · exact .pure trivial

theorem classLevelArgument_sound (d : DefId) (terms : List Term) (sort : Universe) :
    Sound g config c (classLevelArgument d terms sort) Anything := by
  refine .get ?_
  split
  · exact .pure trivial
  · exact levelArgument_sound terms _

/-- How far the arguments of a call have been gone through, with a value for each parameter that
    has been left behind. -/
structure Fills (g : Ground) (count : Nat) (A : Allowance) (f : Filling) : Prop where
  params : Telescope.Allowed A f.params
  args : ∀ arg ∈ f.args, arg.2.Within g.definition g.error
  subst : f.subst.Allowed A
  values : ∀ v ∈ f.values, v.Allowed A
  complete : f.values.length + f.params.length = count

theorem fill_sound (sound : Judge.Sound g config j) (span : Span) {params : Telescope}
    {args : List (Mode × Expr)} (within : ∀ arg ∈ args, arg.2.Within g.definition g.error)
    {u : Subst} {values : List Term} (given : Context.Allowed (c.allowance g) Γ)
    (fromParams : Telescope.Allowed (c.allowance g) params) (images : u.Allowed (c.allowance g))
    (fromValues : ∀ v ∈ values, v.Allowed (c.allowance g)) :
    Sound g config c (fill j Γ span params args u values)
      (OrError (Fills g (values.length + params.length))) := by
  induction params generalizing c args u values with
  | nil => exact .pure ⟨Telescope.allowed_nil, within, images, fromValues, rfl⟩
  | cons b rest ih =>
      obtain ⟨mode, x, type⟩ := b
      obtain ⟨fromType, fromRest⟩ := Telescope.allowed_cons.mp fromParams
      refine (subst_sound images fromType).bind fun type' c₁ order₁ fromType' => ?_
      have given := given.mono order₁
      have fromRest := fromRest.mono order₁
      have images := images.mono order₁
      have fromValues := Term.allowed_mono fromValues order₁
      -- a further value leaves one parameter less
      have next : ∀ {c₂ : Moment} {value : Term} {others : List (Mode × Expr)},
          c₁.allowance g ≤ c₂.allowance g → value.Allowed (c₂.allowance g) →
          (∀ arg ∈ others, arg.2.Within g.definition g.error) →
          Sound g config c₂ (fill j Γ span rest others (u.add x value) (values ++ [value]))
            (OrError (Fills g (values.length + (rest.length + 1)))) := by
        intro c₂ value others order₂ fromValue within
        have count : values.length + (rest.length + 1) = (values ++ [value]).length + rest.length := by
          simp only [List.length_append, List.length_singleton]
          omega
        rw [count]
        refine ih within (given.mono order₂) (fromRest.mono order₂)
          (Subst.allowed_add.mpr ⟨fromValue, images.mono order₂⟩) ?_
        exact List.forall_mem_append.mpr ⟨Term.allowed_mono fromValues order₂,
          List.forall_mem_singleton.mpr fromValue⟩
      have implicit : Sound g config c₁ (do
          let value ← implicitValue Γ x type' span
          fill j Γ span rest args (u.add x value) (values ++ [value]))
          (OrError (Fills g (values.length + (rest.length + 1)))) :=
        (implicitValue_sound Γ x fromType' span).bind fun value c₂ order₂ fromValue =>
          next order₂ fromValue within
      have explicit : ∀ {arg : Expr} {others : List (Mode × Expr)},
          arg.Within g.definition g.error →
          (∀ arg ∈ others, arg.2.Within g.definition g.error) → Sound g config c₁ (do
            let value ← j.check Γ arg type'
            fill j Γ span rest others (u.add x value) (values ++ [value]))
            (OrError (Fills g (values.length + (rest.length + 1)))) := fun here others =>
        (sound.check given here fromType').bind fun value c₂ order₂ fromValue =>
          next order₂ fromValue others
      have stop : Fills g (values.length + (rest.length + 1)) (c₁.allowance g)
          ⟨⟨mode, x, type⟩ :: rest, [], u, values⟩ :=
        ⟨Telescope.allowed_cons.mpr ⟨fromType.mono order₁, fromRest⟩, List.forall_mem_nil _, images,
          fromValues, rfl⟩
      cases mode with
      | implicit =>
          cases args with
          | nil =>
              dsimp only
              split
              · exact implicit
              · exact .pure stop
          | cons arg others =>
              obtain ⟨mode', arg⟩ := arg
              obtain ⟨here, later⟩ := List.forall_mem_cons.mp within
              cases mode' with
              | implicit => exact explicit here later
              | explicit => exact implicit
      | explicit =>
          cases args with
          | nil => exact .pure stop
          | cons arg others =>
              obtain ⟨mode', arg⟩ := arg
              obtain ⟨here, later⟩ := List.forall_mem_cons.mp within
              cases mode' with
              | explicit => exact explicit here later
              | implicit =>
                  exact (mismatch_sound _ _ _).bind fun _ _ _ isError =>
                    (fail_sound isError).bind fun _ _ _ allowed => .pure allowed

theorem abstractRest_sound {params : Telescope} {u : Subst} {values : List Term}
    (fromParams : Telescope.Allowed (c.allowance g) params) (images : u.Allowed (c.allowance g))
    (fromValues : ∀ v ∈ values, v.Allowed (c.allowance g)) :
    Sound g config c (abstractRest params u values) fun A r =>
      Telescope.Allowed A r.1 ∧ r.2.1.Allowed A ∧ (∀ v ∈ r.2.2, v.Allowed A) ∧
        r.2.2.length = values.length + params.length := by
  induction params generalizing c u values with
  | nil => exact .pure ⟨Telescope.allowed_nil, images, fromValues, rfl⟩
  | cons b rest ih =>
      obtain ⟨mode, x, type⟩ := b
      obtain ⟨fromType, fromRest⟩ := Telescope.allowed_cons.mp fromParams
      refine (subst_sound images fromType).bind fun type' c₁ order₁ fromType' => ?_
      refine Sound.readingAny.bind fun y c₂ order₂ _ => ?_
      refine (Sound.lift (Unify.bind_sound y (fromType'.mono order₂))).bind fun _ c₃ order₃ _ => ?_
      have order := order₁.trans (order₂.trans order₃)
      refine (ih (fromRest.mono order) (Subst.allowed_add.mpr ⟨Term.allowed_ref, images.mono order⟩)
        (List.forall_mem_append.mpr ⟨Term.allowed_mono fromValues order,
          List.forall_mem_singleton.mpr Term.allowed_ref⟩)).bind ?_
      rintro ⟨binders, u', values'⟩ c₄ order₄ ⟨fromBinders, images', fromValues', count⟩
      refine .pure ⟨Telescope.allowed_cons.mpr ⟨?_, fromBinders⟩, images', fromValues', ?_⟩
      · exact fromType'.mono (order₂.trans (order₃.trans order₄))
      · simp only [List.length_append, List.length_singleton] at count
        simp only [count, List.length_cons]
        omega

/-- What is called is allowed, and so is the call once there is a value for each parameter. -/
structure Callee.Allowed (A : Allowance) (callee : Callee) : Prop where
  params : Telescope.Allowed A callee.params
  result : callee.result.Allowed A
  make : ∀ B (values : List Term), A ≤ B → (∀ v ∈ values, v.Allowed B) →
    values.length = callee.params.length → (callee.make values).Allowed B

theorem call_sound (sound : Judge.Sound g config j) (span : Span) {callee : Callee}
    (fromCallee : Callee.Allowed (c.allowance g) callee) {args : List (Mode × Expr)}
    (within : ∀ arg ∈ args, arg.2.Within g.definition g.error)
    (given : Context.Allowed (c.allowance g) Γ) :
    Sound g config c (call j Γ span callee args) Typed := by
  refine (fill_sound sound span within given fromCallee.params Subst.allowed_std
    (List.forall_mem_nil _)).bind fun r c₁ order₁ filled => ?_
  cases r with
  | error t => exact .pure ⟨filled, filled⟩
  | ok filling =>
      refine (abstractRest_sound filled.params filled.subst filled.values).bind ?_
      rintro ⟨binders, u, values⟩ c₂ order₂ ⟨fromBinders, images, fromValues, count⟩
      have complete : values.length = callee.params.length := by
        have total := filled.complete
        simp only [List.length_nil, Nat.zero_add] at total
        exact count.trans total
      have order := order₁.trans order₂
      have fine := fromCallee.make _ values order fromValues complete
      refine (subst_sound images (fromCallee.result.mono order)).bind ?_
      intro type c₃ order₃ fromType
      have fine := fine.mono order₃
      split
      · exact apply_sound sound span filled.args (given.mono (order.trans order₃)) fine fromType
      · have fromBinders := fromBinders.mono order₃
        exact .pure ⟨Term.allowed_lamOver.mpr ⟨fromBinders, fine⟩,
          Term.allowed_piOver.mpr ⟨fromBinders, fromType⟩⟩

theorem inferCall_sound (sound : Judge.Sound g config j) (span : Span) {id : DefId}
    (own : g.definition id) {args : List (Mode × Expr)}
    (within : ∀ arg ∈ args, arg.2.Within g.definition g.error)
    (given : Context.Allowed (c.allowance g) Γ) :
    Sound g config c (inferCall j Γ span id args) Typed := by
  refine .within fun suits => .look ?_
  split
  · exact failBoth_sound rfl
  · rename_i f found
    obtain ⟨params, result, _⟩ := suits.known.definitions id _ own found
    refine (levelArgument_sound _ _).bind fun levels c₁ order₁ _ => ?_
    refine call_sound sound span ⟨params.mono order₁, result.mono order₁, ?_⟩ within
      (given.mono order₁)
    exact fun B values order fromValues _ =>
      Term.allowed_call.mpr ⟨order.definition id own, fromValues⟩
  · rename_i d found
    obtain ⟨params, _⟩ := suits.known.definitions id _ own found
    have isData : (c.env.data? id).isSome := by
      unfold Environment.data?
      rw [found]
      rfl
    refine (levelArgument_sound _ _).bind fun levels c₁ order₁ _ => ?_
    refine call_sound sound span ⟨params.mono order₁, Term.allowed_univ, ?_⟩ within
      (given.mono order₁)
    exact fun B values order fromValues _ =>
      Term.allowed_data.mpr ⟨order.data id (suits.data id own isData), fromValues⟩
  · rename_i con found
    obtain ⟨conParams, ofData⟩ := suits.known.definitions id _ own found
    cases isData : c.env.data? con.data with
    | none => exact failBoth_sound rfl
    | some data =>
        obtain ⟨dataParams, _⟩ := suits.known.data? (suits.known.data _ ofData).1 isData
        refine (levelArgument_sound _ _).bind fun levels c₁ order₁ _ => ?_
        refine call_sound sound span ⟨?_, ?_, ?_⟩ within (given.mono order₁)
        · exact .append (List.forall_mem_map.mpr (dataParams.mono order₁)) (conParams.mono order₁)
        · refine Term.allowed_data.mpr ⟨order₁.data _ ofData, ?_⟩
          exact List.forall_mem_map.mpr fun _ _ => Term.allowed_ref
        · intro B values order fromValues _
          exact Term.allowed_con.mpr ⟨order.definition id own,
            fun a member => fromValues a (List.mem_of_mem_take member),
            fun a member => fromValues a (List.mem_of_mem_drop member)⟩
  · rename_i field found
    obtain ⟨type, ofClass⟩ := suits.known.definitions id _ own found
    cases isClass : c.env.cls? field.ofClass with
    | none => exact failBoth_sound rfl
    | some cls =>
        refine (classLevelArgument_sound _ _ _).bind fun levels c₁ order₁ _ => ?_
        refine call_sound sound span ⟨?_, type.mono order₁, ?_⟩ within (given.mono order₁)
        · refine Telescope.allowed_cons.mpr ⟨?_, Telescope.allowed_nil⟩
          exact Term.allowed_record.mpr ⟨ofClass, List.forall_mem_nil _⟩
        · intro B values order fromValues count
          obtain ⟨value, rfl⟩ := List.length_eq_one_iff.mp count
          exact Term.allowed_field.mpr ⟨order.definition id own, List.forall_mem_singleton.mp fromValues⟩
  · refine (classLevelArgument_sound _ _ _).bind fun levels c₁ order₁ _ => ?_
    refine Sound.checkedAny.bind fun sort c₂ order₂ _ => ?_
    refine apply_sound sound span within (given.mono (order₁.trans order₂)) ?_ Term.allowed_univ
    exact Term.allowed_record.mpr ⟨own, List.forall_mem_nil _⟩

theorem fixFields_sound (sound : Judge.Sound g config j) {d : DefId} (own : g.definition d)
    (levels : Universe) {written : List (DefId × Expr)}
    (within : ∀ entry ∈ written, entry.2.Within g.definition g.error) {fields : List DefId}
    (named : ∀ f ∈ fields, g.definition f) {done : List (DefId × Term)}
    (given : Context.Allowed (c.allowance g) Γ)
    (fromDone : ∀ entry ∈ done, entry.2.Allowed (c.allowance g)) :
    Sound g config c (fixFields j Γ d levels written fields done)
      fun A r => ∀ entry ∈ r, entry.2.Allowed A := by
  induction fields generalizing c done with
  | nil => exact .pure fromDone
  | cons f rest ih =>
      obtain ⟨here, others⟩ := List.forall_mem_cons.mp named
      refine .within fun suits => .look ?_
      split
      · rename_i e field isGiven isField
        have fromField := (suits.known.field? here isField).1
        have this : (Term.new (.record d levels done)).Allowed (c.allowance g) :=
          Term.allowed_new.mpr (Term.allowed_record.mpr ⟨own, fromDone⟩)
        refine (subst_sound (Subst.allowed_addStd.mpr (Subst.allowed_single.mpr this))
          fromField).bind fun type c₁ order₁ fromType => ?_
        refine (sound.check (given.mono order₁) (within _ (mem_of_lookup isGiven)) fromType).bind ?_
        intro value c₂ order₂ fromValue
        have order := order₁.trans order₂
        refine ih others (given.mono order) (List.forall_mem_append.mpr ⟨?_, ?_⟩)
        · exact fun entry member => (fromDone entry member).mono order
        · exact List.forall_mem_singleton.mpr fromValue
      · exact ih others given fromDone

theorem inferRecord_sound (sound : Judge.Sound g config j) (span : Span) {d : DefId}
    (own : g.definition d) {written : List (DefId × Expr)}
    (within : ∀ entry ∈ written, entry.2.Within g.definition g.error)
    (given : Context.Allowed (c.allowance g) Γ) :
    Sound g config c (inferRecord j Γ span d written) Typed := by
  refine .within fun suits => .look ?_
  cases isClass : c.env.cls? d with
  | none => exact failBoth_sound rfl
  | some cls =>
      have named := suits.known.cls? own isClass
      refine (classLevelArgument_sound _ _ _).bind fun levels c₁ order₁ _ => ?_
      cases written.find? (!cls.fields.contains ·.1) with
      | some entry => exact failBothMismatch_sound _ _ _
      | none =>
          refine (fixFields_sound sound own levels within named (given.mono order₁)
            (List.forall_mem_nil _)).bind fun fields c₂ order₂ fromFields => ?_
          refine Sound.checkedAny.bind fun sort c₃ order₃ _ => .pure ⟨?_, Term.allowed_univ⟩
          refine Term.allowed_record.mpr ⟨own, fun entry member => ?_⟩
          exact (fromFields entry (List.mem_mergeSort.mp member)).mono order₃

end Call

end Elaborate

end PathTheory
