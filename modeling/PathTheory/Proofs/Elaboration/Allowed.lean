import PathTheory.Proofs.Elaboration.Run
import PathTheory.Proofs.Matching.Allowed
/-!
What elaboration may hand on. Expressions name definitions, and an absurd pattern stands for a
value that cannot be; beyond that, elaboration brings in metavariables that it makes and errors
that it reports. A computation is sound if it keeps what has been made and reported, and the
environment and its result within what is allowed then.
-/
namespace PathTheory

open Relation

namespace Surface

variable {definition : DefId → Prop} {error : Prop}

mutual

/-- The definitions that a pattern names, and whether something may be missing behind it. -/
def Pat.Within (definition : DefId → Prop) (error : Prop) : Pat → Prop
  | .var _ => True
  | .con _ c args => definition c ∧ patsWithin definition error args
  | .tuple _ args => patsWithin definition error args
  | .absurd _ => error
  | .number _ _ => definition Library.zero ∧ definition Library.suc

def patsWithin (definition : DefId → Prop) (error : Prop) : List Pat → Prop
  | [] => True
  | p :: rest => p.Within definition error ∧ patsWithin definition error rest

end

/-- What the patterns of a clause name. Behind an absurd pattern something is missing; but nothing
    depends on it if the pattern is the last one, for the last parameter, and there is no body. -/
def ClauseOf.Matches (definition : DefId → Prop) (error last : Prop) (clause : ClauseOf Expr) :
    Prop :=
  (∀ p ∈ clause.patterns, p.Within definition error) ∨ last ∧ clause.body = none ∧
    ∃ before span, clause.patterns = before ++ [.absurd span] ∧
      ∀ p ∈ before, p.Within definition error

theorem ClauseOf.Matches.mono {last last' : Prop} {clause : ClauseOf Expr}
    (matched : clause.Matches definition error last) (more : last → last') :
    clause.Matches definition error last' :=
  matched.imp_right fun ⟨isLast, rest⟩ => ⟨more isLast, rest⟩

namespace Expr

/-- The expressions that an expression is put together from. -/
def children : Expr → List Expr
  | var _ _ | const _ _ | univ _ _ | hole _ | number _ _ => []
  | app _ head args => head :: args.map (·.2)
  | lam _ params body => body :: params.filterMap (·.type)
  | pi _ params codomain => codomain :: params.map (·.type)
  | sigma _ params => params.map (·.type)
  | tuple _ components => components
  | proj _ whole _ => [whole]
  | caseOf _ args result clauses =>
      args.flatMap (fun arg => arg.value :: arg.type.toList) ++ result.toList ++
        clauses.filterMap (·.body)
  | record _ _ fields | new _ _ fields => fields.map (·.2)

/-- The definitions that an expression names by itself. -/
def names : Expr → List DefId
  | const _ d => [d]
  | number _ _ => [Library.nat, Library.zero, Library.suc]
  | record _ c _ | new _ c _ => [c]
  | _ => []

/-- The clauses of a case expression, which match all of its scrutinees. -/
def clauses : Expr → List (ClauseOf Expr)
  | caseOf _ _ _ clauses => clauses
  | _ => []

/-- What is named anywhere in an expression. -/
def Within (definition : DefId → Prop) (error : Prop) (e : Expr) : Prop :=
  ∀ part, ReflTransGen (fun whole part => part ∈ whole.children) e part →
    (∀ d ∈ part.names, definition d) ∧
      ∀ clause ∈ part.clauses, clause.Matches definition error True

theorem within_iff {e : Expr} : e.Within definition error ↔
    (∀ d ∈ e.names, definition d) ∧
      (∀ clause ∈ e.clauses, clause.Matches definition error True) ∧
        ∀ child ∈ e.children, child.Within definition error := by
  constructor
  · intro within
    exact ⟨(within e .refl).1, (within e .refl).2, fun child member part way =>
      within part (.head member way)⟩
  · rintro ⟨names, clauses, children⟩ part way
    rcases ReflTransGen.cases_head way with rfl | ⟨child, member, rest⟩
    · exact ⟨names, clauses⟩
    · exact children child member part rest

variable {e : Expr}

theorem Within.names (within : e.Within definition error) : ∀ d ∈ e.names, definition d :=
  (within_iff.mp within).1

theorem Within.clauses (within : e.Within definition error) :
    ∀ clause ∈ e.clauses, clause.Matches definition error True := (within_iff.mp within).2.1

theorem Within.child (within : e.Within definition error) {child : Expr}
    (member : child ∈ e.children) : child.Within definition error :=
  (within_iff.mp within).2.2 child member

end Expr

/-- What a clause names, in its patterns and its body. -/
def ClauseOf.Within (definition : DefId → Prop) (error last : Prop) (clause : ClauseOf Expr) :
    Prop :=
  clause.Matches definition error last ∧ ∀ e ∈ clause.body, e.Within definition error

def ScrutineeOf.Within (definition : DefId → Prop) (error : Prop) (arg : ScrutineeOf Expr) : Prop :=
  arg.value.Within definition error ∧ ∀ e ∈ arg.type, e.Within definition error

/-- The last one of the given parameters, if there is one, is matched by the patterns of clauses. -/
def LastMatched (eliminated : Option (List Var)) (params : List (Mode × Var)) : Prop :=
  ∀ b ∈ params.getLast?, match eliminated with
    | some xs => b.2 ∈ xs
    | none => b.1 = .explicit

def BodyExpr.Within (definition : DefId → Prop) (error : Prop) (params : List (Mode × Var)) :
    BodyExpr → Prop
  | .term e => e.Within definition error
  | .clauses eliminated written =>
      ∀ clause ∈ written, clause.Within definition error (LastMatched eliminated params)
  | .abstract => True

end Surface

/-- A parameter without its type. -/
def Binding.head {α : Type} (b : Binding α) : Mode × Var := (b.mode, b.var)

/-- Where elaboration has got to. -/
structure Moment where
  state : ElaborationState
  store : Store
  env : Environment

namespace Moment

/-- Nothing that has to stay has gone between two moments. -/
structure Later (c c' : Moment) : Prop where
  grows : Unify.Grows c.store c.env c'.store c'.env
  names : c'.env.names = c.env.names
  reported : ∀ d ∈ c.state.reported, d ∈ c'.state.reported

theorem Later.refl (c : Moment) : c.Later c := ⟨.refl _ _, rfl, fun _ => id⟩

theorem Later.trans {c₁ c₂ c₃ : Moment} (first : c₁.Later c₂) (next : c₂.Later c₃) :
    c₁.Later c₃ :=
  ⟨first.grows.trans next.grows, next.names.trans first.names,
    fun d noted => next.reported d (first.reported d noted)⟩

theorem Later.spares {c c' : Moment} (later : c.Later c') (own : List DefId) :
    c.env.Spares own c'.env :=
  .of_same later.grows.definitions later.names later.grows.instances later.grows.solution

/-- A header is put under a name, and elaboration goes on. -/
theorem Later.header {c₁ c₂ c₃ : Moment} (before : c₁.Later c₂) {id : DefId} {d : Definition}
    (after : Later { c₂ with env := c₂.env.set id d } c₃) : c₁.env.Spares [id] c₃.env :=
  ((before.spares [id]).trans (.set c₂.env (List.mem_singleton_self id) d)).trans
    (after.spares [id])

end Moment

/-- Errors are possible once one has been reported. -/
def Ground.after (g : Ground) (st : ElaborationState) : Ground :=
  { g with error := g.error ∨ ∃ d ∈ st.reported, d.isWarning = false }

/-- What terms may mention at a moment. -/
def Moment.allowance (g : Ground) (c : Moment) : Allowance := (g.after c.state).at c.store c.env

theorem Moment.Later.order {g : Ground} {c c' : Moment} (later : c.Later c') :
    c.allowance g ≤ c'.allowance g := by
  refine ⟨later.grows.at.hole, fun possible => ?_, fun _ => id, fun _ => id⟩
  rcases possible with (given | ⟨d, reported, isError⟩) | ⟨d, noted, isError⟩
  · exact .inl (.inl given)
  · exact .inl (.inr ⟨d, later.reported d reported, isError⟩)
  · exact .inr ⟨d, later.grows.diagnostics d noted, isError⟩

/-- A moment that is within what is allowed, and from which elaboration can go on. -/
structure Ground.Suits (g : Ground) (config : Config) (c : Moment) : Prop where
  holds : (g.after c.state).Holds c.store c.env
  -- data types may be named as types once they may be mentioned
  data : ∀ d, g.definition d → (c.env.data? d).isSome → g.data d
  number : g.data Library.nat
  -- the store knows of what has been made
  made : g.bounded → ∀ m : MetaId, g.first ≤ m.index → m.index < c.env.metas.size →
    m ∈ c.store.metas
  -- missing clauses are listed
  limit : g.error ∨ 0 < config.missingLimit

namespace Ground.Suits

variable {g : Ground} {config : Config} {c : Moment}

theorem known (suits : g.Suits config c) : c.env.Allowed (c.allowance g) := suits.holds.known

theorem later (suits : g.Suits config c) {c' : Moment} (later : c.Later c')
    (holds : (g.after c'.state).Holds c'.store c'.env) : g.Suits config c' := by
  refine ⟨holds, fun d own isData => suits.data d own ?_, suits.number, fun bounded m old new => ?_,
    suits.limit⟩
  · unfold Environment.data? Environment.definition? at isData
    rwa [later.grows.definitions] at isData
  · by_cases before : m.index < c.env.metas.size
    · exact later.grows.metas m (suits.made bounded m old before)
    · exact later.grows.made m (Nat.not_lt.mp before) new

theorem report (suits : g.Suits config c) (d : Diagnostic) {c' : Moment}
    (reports : c' = { c with state.reported := c.state.reported.push d }) :
    c.Later c' ∧ g.Suits config c' := by
  subst reports
  have later : c.Later { c with state.reported := c.state.reported.push d } :=
    ⟨.refl _ _, rfl, fun d' noted => Array.mem_push.mpr (.inl noted)⟩
  have order := later.order (g := g)
  exact ⟨later, suits.later later ⟨suits.holds.first, suits.known.error_mono order.error,
    suits.holds.store.mono order⟩⟩

end Ground.Suits

namespace Elaborate

variable {g : Ground} {config : Config}

/-- However the computation ends, it has kept what was there and stayed within what is allowed, and
    the result has the property. -/
def Sound {α : Type} (g : Ground) (config : Config) (c : Moment) (a : Elaborate α)
    (Q : Allowance → α → Prop) : Prop :=
  g.Suits config c → ∀ n x st s env m,
    a config c.state c.store c.env n = .ok ((((x, st), s), env), m) →
      c.Later ⟨st, s, env⟩ ∧ g.Suits config ⟨st, s, env⟩ ∧ Q (Moment.allowance g ⟨st, s, env⟩) x

/-- Nothing is asked of a result. -/
abbrev Anything {α : Type} : Allowance → α → Prop := fun _ _ => True

namespace Sound

variable {α β γ : Type} {c : Moment} {a : Elaborate α} {f : α → Elaborate β}
  {P : Allowance → α → Prop} {Q : Allowance → β → Prop}

theorem pure {x : α} (holds : P (c.allowance g) x) : Sound g config c (pure x) P := by
  intro suits n y st s env m done
  cases done
  exact ⟨.refl c, suits, holds⟩

theorem throw {fault : Fault} : Sound g config c (throw fault : Elaborate α) P := by
  intro suits n y st s env m impossible
  cases impossible

theorem bind (first : Sound g config c a P)
    (next : ∀ x c', c.allowance g ≤ c'.allowance g → P (c'.allowance g) x →
      Sound g config c' (f x) Q) : Sound g config c (a >>= f) Q := by
  intro suits n y st s env m done
  obtain ⟨x, st₁, s₁, env₁, k, start, rest⟩ := elaborate_bind done
  obtain ⟨later₁, suits₁, holds⟩ := first suits _ _ _ _ _ _ start
  obtain ⟨later₂, suits₂, result⟩ :=
    next x ⟨st₁, s₁, env₁⟩ later₁.order holds suits₁ _ _ _ _ _ _ rest
  exact ⟨later₁.trans later₂, suits₂, result⟩

theorem weaken {P' : Allowance → α → Prop} (first : Sound g config c a P)
    (weaker : ∀ A x, P A x → P' A x) : Sound g config c a P' := by
  intro suits n y st s env m done
  obtain ⟨later, suits', result⟩ := first suits _ _ _ _ _ _ done
  exact ⟨later, suits', weaker _ _ result⟩

theorem within (sound : g.Suits config c → Sound g config c a P) : Sound g config c a P :=
  fun suits => sound suits suits

theorem ask {f : Config → Elaborate β} (next : Sound g config c (f config) Q) :
    Sound g config c (read >>= f) Q := next

theorem get {f : ElaborationState → Elaborate β} (next : Sound g config c (f c.state) Q) :
    Sound g config c (get >>= f) Q := next

theorem look {f : Environment → Elaborate β} (next : Sound g config c (f c.env) Q) :
    Sound g config c (Elaborate.env >>= f) Q := next

theorem lookStore {f : Store → Elaborate β} (next : Sound g config c (f c.store) Q) :
    Sound g config c (liftM (m := Unify) MonadState.get >>= f) Q := next

/-- What the store does by itself. -/
theorem lift {way : Unify.Way} [Unify.Passage way] {a : Unify α}
    (sound : Unify.Sound way (g.after c.state) c.store c.env a P) :
    Sound g config c (liftM a) P := by
  intro suits n x st s env m done
  obtain ⟨rfl, run⟩ := elaborate_lift done
  obtain ⟨went, holds, result⟩ := sound suits.holds _ _ _ _ _ run
  have history := Unify.Passage.history went
  have later : c.Later ⟨c.state, s, env⟩ := ⟨history.grows, history.names, fun _ => id⟩
  exact ⟨later, suits.later later holds, result⟩

theorem checked {a : Checked α} {R : α → Prop} (holds : ∀ x, a = .ok x → R x) :
    Sound g config c (liftM a) fun _ x => R x := by
  have sound : Unify.Sound Unify.History (g.after c.state) c.store c.env (liftM a)
      fun _ x => R x := by
    intro within n x s env m done
    obtain ⟨rfl, rfl, _, run⟩ := Unify.checked_run done
    exact ⟨.start, within, holds x run⟩
  exact .lift sound

theorem checkedAny {a : Checked α} : Sound g config c (liftM a) Anything :=
  .checked (R := fun _ => True) fun _ _ => trivial

/-- What is read off the environment leaves everything as it is. -/
theorem reading {r : Environment → Fresh α}
    (always : c.env.Allowed (c.allowance g) → (r c.env).Always (P (c.allowance g))) :
    Sound g config c (reading r) P :=
  have sound : Unify.Sound Unify.History (g.after c.state) c.store c.env (Unify.reading r) P :=
    .read always
  .lift sound

theorem readingAny {r : Environment → Fresh α} : Sound g config c (Elaborate.reading r) Anything :=
  .reading fun _ => .anything

theorem mapM {f : γ → Elaborate α} {R : Allowance → γ → Prop} {P : Allowance → γ → α → Prop}
    (monoR : ∀ {A B : Allowance} {x : γ}, A ≤ B → R A x → R B x)
    (monoP : ∀ {A B : Allowance} {x : γ} {y : α}, A ≤ B → P A x y → P B x y) {l : List γ}
    (given : ∀ x ∈ l, R (c.allowance g) x) (each : ∀ x ∈ l, ∀ c, R (c.allowance g) x →
      Sound g config c (f x) fun A y => P A x y) :
    Sound g config c (l.mapM f) fun A ys => List.Forall₂ (P A) l ys := by
  induction l generalizing c with
  | nil =>
      rw [List.mapM_nil]
      exact pure .nil
  | cons x l ih =>
      obtain ⟨here, others⟩ := List.forall_mem_cons.mp given
      obtain ⟨first, rest⟩ := List.forall_mem_cons.mp each
      rw [List.mapM_cons]
      refine (first c here).bind fun y _ order₁ result => ?_
      refine (ih (fun y member => monoR order₁ (others y member)) rest).bind ?_
      exact fun ys _ order₂ results => pure (.cons (monoP order₂ result) results)

theorem filterMapM {f : γ → Elaborate (Option α)} {R : Allowance → γ → Prop}
    (monoR : ∀ {A B : Allowance} {x : γ}, A ≤ B → R A x → R B x)
    (monoP : ∀ {A B : Allowance} {y : α}, A ≤ B → P A y → P B y) {l : List γ}
    (given : ∀ x ∈ l, R (c.allowance g) x) (each : ∀ x ∈ l, ∀ c, R (c.allowance g) x →
      Sound g config c (f x) fun A found => ∀ y ∈ found, P A y) :
    Sound g config c (l.filterMapM f) fun A ys => ∀ y ∈ ys, P A y := by
  induction l generalizing c with
  | nil => exact pure (List.forall_mem_nil _)
  | cons x l ih =>
      obtain ⟨here, others⟩ := List.forall_mem_cons.mp given
      obtain ⟨first, rest⟩ := List.forall_mem_cons.mp each
      rw [List.filterMapM_cons]
      refine (first c here).bind fun found _ order₁ result => ?_
      have later := ih (fun y member => monoR order₁ (others y member)) rest
      cases found with
      | none => exact later
      | some y =>
          refine later.bind fun ys _ order₂ results => pure ?_
          exact List.forall_mem_cons.mpr ⟨monoP order₂ (result y rfl), results⟩

theorem filterM {f : γ → Elaborate Bool} {l : List γ}
    (each : ∀ x ∈ l, ∀ c, Sound g config c (f x) Anything) :
    Sound g config c (l.filterM f) Anything := by
  have onto : ∀ (l kept : List γ) (c : Moment), (∀ x ∈ l, ∀ c, Sound g config c (f x) Anything) →
      Sound g config c (l.filterAuxM f kept) Anything := by
    intro l
    induction l with
    | nil => exact fun _ _ _ => pure trivial
    | cons x l ih =>
        intro kept c each
        obtain ⟨here, others⟩ := List.forall_mem_cons.mp each
        exact (here c).bind fun _ c' _ _ => ih _ c' others
  exact (onto l [] c each).bind fun _ _ _ _ => pure trivial

theorem forEach {f : γ → Elaborate α} {l : List γ}
    (each : ∀ x ∈ l, ∀ c, Sound g config c (f x) P) :
    Sound g config c (forIn l PUnit.unit fun x _ => do
      let _ ← f x
      Pure.pure (ForInStep.yield PUnit.unit)) Anything := by
  induction l generalizing c with
  | nil => exact pure trivial
  | cons x l ih =>
      obtain ⟨here, others⟩ := List.forall_mem_cons.mp each
      rw [List.forIn_cons]
      simp only [bind_assoc, pure_bind]
      exact (here c).bind fun _ _ _ _ => ih others

end Sound

section Basic

variable {c : Moment}

/-- Elaboration may change its mind about where it is. -/
theorem state_sound {f : ElaborationState → ElaborationState}
    (same : ∀ st, (f st).reported = st.reported) :
    Sound g config c (modify f : Elaborate PUnit) Anything := by
  intro suits n x st s env m done
  cases done
  have later : c.Later { c with state := f c.state } :=
    ⟨.refl _ _, rfl, fun d reported => (same c.state).symm ▸ reported⟩
  have ground : g.after (f c.state) = g.after c.state := by
    unfold Ground.after
    rw [same]
  exact ⟨later, suits.later later (ground.symm ▸ suits.holds), trivial⟩

theorem report_error (d : Diagnostic) :
    Sound g config c (report d) fun A _ => d.isWarning = false → A.error := by
  intro suits n x st s env m done
  cases done
  obtain ⟨later, suits'⟩ := suits.report d rfl
  exact ⟨later, suits', fun isError => .inl (.inr ⟨d, Array.mem_push_self, isError⟩)⟩

theorem report_sound (d : Diagnostic) : Sound g config c (report d) Anything :=
  (report_error d).weaken fun _ _ _ => trivial

/-- What stands where something went wrong is reported. -/
theorem fail_sound {d : Diagnostic} (isError : d.isWarning = false) :
    Sound g config c (fail d) fun A t => t.Allowed A :=
  (report_error d).bind fun _ _ _ possible =>
    .pure (Term.allowed_note.mpr (possible isError))

theorem failBoth_sound {d : Diagnostic} (isError : d.isWarning = false) :
    Sound g config c (failBoth d) fun A r => r.1.Allowed A ∧ r.2.Allowed A :=
  (fail_sound isError).bind fun _ _ _ allowed => .pure ⟨allowed, allowed⟩

theorem mismatch_sound (span : Span) (expected actual : Term) :
    Sound g config c (mismatch span expected actual) fun _ d => d.isWarning = false := by
  refine Sound.readingAny.bind fun expected _ _ _ => Sound.readingAny.bind fun actual _ _ _ => ?_
  exact .checked fun _ said => Unify.mismatch_error said

theorem failMismatch_sound (span : Span) (expected actual : Term) :
    Sound g config c (do fail (← mismatch span expected actual)) fun A t => t.Allowed A :=
  (mismatch_sound span expected actual).bind fun _ _ _ isError => fail_sound isError

theorem failBothMismatch_sound (span : Span) (expected actual : Term) :
    Sound g config c (do failBoth (← mismatch span expected actual))
      fun A r => r.1.Allowed A ∧ r.2.Allowed A :=
  (mismatch_sound span expected actual).bind fun _ _ _ isError => failBoth_sound isError

theorem whnf_sound {t : Term} (allowed : t.Allowed (c.allowance g)) :
    Sound g config c (whnf t) fun A r => r.Allowed A :=
  .reading fun known => Term.whnf_allowed known.computes allowed

theorem subst_sound {u : Subst} {t : Term} (images : u.Allowed (c.allowance g))
    (allowed : t.Allowed (c.allowance g)) : Sound g config c (subst u t) fun A r => r.Allowed A :=
  .reading fun known => Subst.apply_allowed known.computes images allowed

theorem compare_sound {left right : Term} (fromLeft : left.Allowed (c.allowance g))
    (fromRight : right.Allowed (c.allowance g)) (cmp : Cmp) (span : Span) :
    Sound g config c (compare left right cmp span) Anything :=
  .lift (Unify.compare_sound _ _ _ _ _ _ fromLeft fromRight)

theorem bind_sound {Γ : Context} (given : Context.Allowed (c.allowance g) Γ) (x : Var) {type : Term}
    (allowed : type.Allowed (c.allowance g)) :
    Sound g config c (bind Γ x type) fun A Γ' => Context.Allowed A Γ' :=
  (Sound.lift (Unify.bind_sound x allowed)).bind fun _ _ order _ =>
    .pure (Context.allowed_cons.mpr ⟨allowed.mono order, given.mono order⟩)

theorem freshMeta_sound (Γ : Context) (name : String) {type : Term}
    (allowed : type.Allowed (c.allowance g)) (span : Span) :
    Sound g config c (freshMeta Γ name type span) fun A t => t.Allowed A :=
  .lift (Unify.freshMeta_sound name allowed _ (by nofun) span)

theorem freshUniverse_sound : Sound g config c freshUniverse Anything :=
  .lift Unify.freshUniverse_sound

theorem unknownType_sound (Γ : Context) (span : Span) :
    Sound g config c (unknownType Γ span) fun A t => t.Allowed A :=
  freshUniverse_sound.bind fun _ _ _ _ => freshMeta_sound Γ _ Term.allowed_univ span

theorem implicitValue_sound (Γ : Context) (x : Var) {type : Term}
    (allowed : type.Allowed (c.allowance g)) (span : Span) :
    Sound g config c (implicitValue Γ x type span) fun A t => t.Allowed A := by
  refine .look ((whnf_sound allowed).bind fun head c' order fine => ?_)
  refine .lift (Unify.freshMeta_sound _ (allowed.mono order) _ (fun d isClass => ?_) span)
  split at isClass
  · split at isClass
    · cases isClass
      exact (Term.allowed_record.mp fine).1
    · cases isClass
  · cases isClass

theorem demandBelow_sound (span : Span) (u v : Universe) :
    Sound g config c (demandBelow span u v) Anything :=
  .lift (Unify.compareUniverses_sound u v .le span)

theorem universeFor_sound (sort : Option Universe) :
    Sound g config c (universeFor sort) Anything := by
  cases sort with
  | some u => exact .pure trivial
  | none =>
      refine .get ?_
      split
      · exact .pure trivial
      · exact freshUniverse_sound

theorem sortAbove_sound (us : List Universe) (span : Span) :
    Sound g config c (sortAbove us span) Anything := by
  refine (Sound.checkedAny).bind fun found _ _ _ => ?_
  cases found with
  | some u => exact .pure trivial
  | none =>
      refine freshUniverse_sound.bind fun fresh _ _ _ => ?_
      refine (Sound.lift (Unify.recordDemands_sound span [])).bind fun _ _ _ _ => ?_
      exact (Sound.forEach fun u _ c => demandBelow_sound span u fresh).bind
        fun _ _ _ _ => .pure trivial

theorem sortOfPi_sound (domain codomain : Universe) (span : Span) :
    Sound g config c (sortOfPi domain codomain span) Anything := by
  refine (Sound.checkedAny).bind fun found _ _ _ => ?_
  cases found with
  | some u => exact .pure trivial
  | none => exact (Sound.checkedAny).bind fun _ _ _ _ => sortAbove_sound _ span

theorem sortOf_sound (type : Term) : Sound g config c (sortOf type) Anything :=
  .lookStore .readingAny

theorem isIntervalType_sound (type : Term) : Sound g config c (isIntervalType type) Anything := by
  refine .look (Sound.readingAny.bind fun head _ _ _ => ?_)
  cases head <;> exact .pure trivial

theorem reportAll_sound (ds : List Diagnostic) :
    Sound g config c (forIn ds PUnit.unit fun d _ => do
      report d
      pure (ForInStep.yield PUnit.unit)) fun A _ => (∃ d ∈ ds, d.isWarning = false) → A.error := by
  induction ds generalizing c with
  | nil => exact .pure nofun
  | cons d ds ih =>
      rw [List.forIn_cons]
      simp only [bind_assoc, pure_bind]
      refine (report_error d).bind fun _ c' _ possible suits n x st s env m done => ?_
      obtain ⟨later, suits', result⟩ := ih suits n x st s env m done
      refine ⟨later, suits', fun ⟨d', listed, isError⟩ => ?_⟩
      rcases List.mem_cons.mp listed with rfl | listed
      · exact later.order.error (possible isError)
      · exact result ⟨d', listed, isError⟩

/-- Clauses that do not compile have an error reported for them. -/
theorem compile_sound (span : Span) {params : Telescope}
    (fromParams : Telescope.Allowed (c.allowance g) params) {clauses : List Matching.Clause}
    (given : ∀ clause ∈ clauses, clause.Allowed (c.allowance g)) (sort : Option Universe)
    (inCase : Bool) : Sound g config c (compile span params clauses sort inCase) fun A found =>
      (∀ tree ∈ found, tree.Allowed A) ∧ (found = none → A.error) := by
  refine .within fun suits => .look (.ask ?_)
  have known : Matching.Setting.Known (c.allowance g) (c.allowance g).error
      ⟨c.env, config, true, inCase, sort⟩ :=
    ⟨suits.known, fun d own => (suits.known.data d own).2,
      suits.limit.imp_left fun given => .inl (.inl given)⟩
  have compiled : Sound g config c
      (liftM (Matching.compile ⟨c.env, config, true, inCase, sort⟩ span params clauses))
      fun A outcome => (∀ tree ∈ outcome.tree, tree.Allowed A) ∧ (outcome.tree = none →
        A.error ∨ ∃ d ∈ outcome.diagnostics, d.isWarning = false) :=
    .reading (r := fun _ => Matching.compile ⟨c.env, config, true, inCase, sort⟩ span params
      clauses) fun _ => Matching.compile_allowed known fromParams given
  refine compiled.bind fun outcome c₁ _ ⟨fromTree, missing⟩ => ?_
  refine .lookStore ((Sound.lift (.modify (Unify.History.single ?_) fun holds => ?_)).bind
    fun _ c₂ order₂ _ => ?_)
  · exact .demand c₁.store.levels.span outcome.demands
  · exact Unify.holds_demand holds _
  refine (reportAll_sound outcome.diagnostics).bind fun _ c₃ order₃ possible => .pure ?_
  have order := order₂.trans order₃
  refine ⟨fun tree found => (fromTree tree found).mono order, fun isNone => ?_⟩
  exact (missing isNone).elim order.error possible

end Basic

end Elaborate

end PathTheory
