import PathTheory.Proofs.Level.Instantiation
import PathTheory.Proofs.Reduction.Views
/-!
Finished terms. Nothing in them is left to inference, no metavariable and no inferred level, and
nothing stands for an error. The main statement is that terms stay finished in reduction, and over
the same variables, if the definitions are.
-/
namespace PathTheory

theorem Level.subst_closed {f : LevelVar → Option Level} {a b : Level}
    (put : ∀ x c, f x = some c → c.hasInference = false) (closed : a.hasInference = false)
    (done : a.subst f = .ok b) : b.hasInference = false := by
  have origin := Level.subst_origin done
  cases a with
  | shift x c m =>
      cases replaced : f x with
      | none =>
          simp only [Level.Origin, replaced, Option.getD_none, Level.ofVar] at origin
          cases b <;> simp_all [Level.var?, Level.hasInference]
      | some r =>
          have here := put x r replaced
          simp only [Level.Origin, replaced, Option.getD_some] at origin
          cases b <;> cases r <;> simp_all [Level.var?, Level.hasInference]
  | _ => cases b <;> simp_all [Level.Origin, Level.var?, Level.hasInference]

theorem Universe.Closed.replacement {levels : Universe} (closed : levels.Closed) {x : LevelVar}
    {c : Level} (put : levels.replacement x = some c) : c.hasInference = false := by
  have either : c = levels.h ∨ c = levels.p := by
    unfold Universe.replacement Subst.std Subst.addStd Subst.addLevel at put
    simp only [List.lookup_cons] at put
    split at put
    · exact .inl (Option.some.inj put).symm
    · split at put
      · exact .inr (Option.some.inj put).symm
      · cases put
  rcases either with rfl | rfl
  · exact closed.h
  · exact closed.p

/-- A universe of a definition, at the levels of a call. -/
theorem Universe.Closed.atCall {levels u : Universe} (call : levels.Closed) (closed : u.Closed) :
    ((Subst.std levels).onUniverse u).Closed := by
  unfold Subst.onUniverse
  cases done : (Subst.std levels).sort u with
  | error fault => exact closed
  | ok v =>
      obtain ⟨p, pDone, rest⟩ := bind_ok (Universe.sort_std levels u ▸ done)
      obtain ⟨h, hDone, made⟩ := bind_ok rest
      unfold Universe.make at made
      split at made
      · cases made
      · cases made
        exact ⟨Level.subst_closed (fun _ _ => call.replacement) closed.p pDone,
          Level.subst_closed (fun _ _ => call.replacement) closed.h hDone⟩

/-- No error, and no inferred level. -/
def Label.Finished (l : Label) : Prop :=
  match l with
  | .error _ => False
  | l => ∀ u ∈ l.sort?, u.Closed

instance (u : Universe) : Decidable u.Closed :=
  decidable_of_iff (u.p.hasInference = false ∧ u.h.hasInference = false)
    ⟨fun ⟨p, h⟩ => ⟨p, h⟩, fun ⟨p, h⟩ => ⟨p, h⟩⟩

def Label.isError : Label → Bool
  | .error _ => true
  | _ => false

instance (l : Label) : Decidable l.Finished :=
  decidable_of_iff (l.isError = false ∧ ∀ u ∈ l.sort?, u.Closed) <| by
    cases l <;> simp [Label.Finished, Label.isError]

theorem Label.Finished.map {f : Universe → Universe} (kept : ∀ u, u.Closed → (f u).Closed)
    {l : Label} (finished : l.Finished) : (l.map f).Finished := by
  cases l with
  | error message => exact finished
  | univ u | call _ u | con _ u | data _ u | record _ u | field _ u =>
      intro v isSort
      cases isSort
      exact kept u (finished u rfl)
  | _ => exact finished

mutual

/-- Nothing is left to inference, nothing stands for an error, and the free variables are allowed. -/
def Nameless.Finished (V : Var → Prop) : Nameless → Prop
  | .bound _ => True
  | .free x => V x
  | .hole _ => False
  | .node label parts => label.Finished ∧ parts.Finished V

def NamelessParts.Finished (V : Var → Prop) : NamelessParts → Prop
  | .nil => True
  | .part t rest => t.Finished V ∧ rest.Finished V
  | .binder _ rest => rest.Finished V

end

mutual

def Scoped.Finished (V : Var → Prop) : Scoped → Prop
  | .var x => V x
  | .hole _ => False
  | .node label parts => label.Finished ∧ parts.Finished V

def Parts.Finished (V : Var → Prop) : Parts → Prop
  | .nil => True
  | .part t rest => t.Finished V ∧ rest.Finished V
  | .binder _ x rest => rest.Finished fun z => V z ∨ z = x

end

mutual

def Nameless.decideFinished (V : Var → Prop) [DecidablePred V] :
    (t : Nameless) → Decidable (t.Finished V)
  | .bound _ => .isTrue trivial
  | .free x => inferInstanceAs (Decidable (V x))
  | .hole _ => .isFalse id
  | .node _ parts => @instDecidableAnd _ _ inferInstance (parts.decideFinished V)

def NamelessParts.decideFinished (V : Var → Prop) [DecidablePred V] :
    (t : NamelessParts) → Decidable (t.Finished V)
  | .nil => .isTrue trivial
  | .part t rest => @instDecidableAnd _ _ (t.decideFinished V) (rest.decideFinished V)
  | .binder _ rest => rest.decideFinished V

end

mutual

def Scoped.decideFinished : (t : Scoped) → (V : Var → Prop) → [DecidablePred V] →
    Decidable (t.Finished V)
  | .var x, V, _ => inferInstanceAs (Decidable (V x))
  | .hole _, _, _ => .isFalse id
  | .node _ parts, V, _ => @instDecidableAnd _ _ inferInstance (parts.decideFinished V)

def Parts.decideFinished : (t : Parts) → (V : Var → Prop) → [DecidablePred V] →
    Decidable (t.Finished V)
  | .nil, _, _ => .isTrue trivial
  | .part t rest, V, _ => @instDecidableAnd _ _ (t.decideFinished V) (rest.decideFinished V)
  | .binder _ x rest, V, _ => rest.decideFinished fun z => V z ∨ z = x

end

instance (V : Var → Prop) [DecidablePred V] (t : Nameless) : Decidable (t.Finished V) :=
  t.decideFinished V

instance (V : Var → Prop) [DecidablePred V] (t : Scoped) : Decidable (t.Finished V) :=
  t.decideFinished V

section Variables

variable {V W : Var → Prop}

mutual

theorem Scoped.Finished.mono : ∀ {t : Scoped} {V W : Var → Prop}, (∀ x, V x → W x) →
    t.Finished V → t.Finished W
  | .var x, _, _, wider, finished => wider x finished
  | .hole _, _, _, _, finished => finished
  | .node _ parts, _, _, wider, finished =>
      ⟨finished.1, Parts.Finished.mono (t := parts) wider finished.2⟩

theorem Parts.Finished.mono : ∀ {t : Parts} {V W : Var → Prop}, (∀ x, V x → W x) →
    t.Finished V → t.Finished W
  | .nil, _, _, _, _ => trivial
  | .part _ _, _, _, wider, finished => ⟨finished.1.mono wider, finished.2.mono wider⟩
  | .binder _ _ rest, _, _, wider, finished =>
      Parts.Finished.mono (t := rest) (fun z => Or.imp_left (wider z)) finished

end

mutual

/-- What a scope binds is allowed in the tree, and not free in the reading. -/
theorem Scoped.read_finished : ∀ (t : Scoped) (scope : List Var) (V : Var → Prop),
    (t.read scope).Finished V ↔ t.Finished fun x => V x ∨ x ∈ scope
  | .var x, scope, V => by
      unfold Scoped.read
      cases found : position x scope with
      | some i => simp [Nameless.Finished, Scoped.Finished, mem_of_position found]
      | none => simp [Nameless.Finished, Scoped.Finished, position_eq_none_iff.mp found]
  | .hole _, _, _ => Iff.rfl
  | .node _ parts, scope, V => by
      simp [Scoped.read, Nameless.Finished, Scoped.Finished, parts.read_finished]

theorem Parts.read_finished : ∀ (t : Parts) (scope : List Var) (V : Var → Prop),
    (t.read scope).Finished V ↔ t.Finished fun x => V x ∨ x ∈ scope
  | .nil, _, _ => Iff.rfl
  | .part t rest, scope, V => by
      simp [Parts.read, NamelessParts.Finished, Parts.Finished, t.read_finished,
        rest.read_finished]
  | .binder _ x rest, scope, V => by
      have same : (fun z => V z ∨ z ∈ x :: scope) = fun z => (V z ∨ z ∈ scope) ∨ z = x := by
        funext z
        rw [List.mem_cons, or_comm (a := z = x), or_assoc]
      rw [Parts.read, NamelessParts.Finished, rest.read_finished, same]
      rfl

end

mutual

theorem Nameless.Finished.fill {ρ : List Nameless} (filling : ∀ r ∈ ρ, r.Finished V) :
    ∀ {t : Nameless} (d : Nat), t.Finished V → (t.fill ρ d).Finished V
  | .bound i, d, _ => by
      unfold Nameless.fill
      split
      · trivial
      · cases found : ρ[i - d]? with
        | none => simp [List.getD, found, Nameless.Finished]
        | some r =>
            simpa [List.getD, found] using filling r (List.mem_of_getElem? found)
  | .free _, _, finished => finished
  | .hole _, _, finished => finished
  | .node _ parts, d, finished =>
      ⟨finished.1, NamelessParts.Finished.fill filling (t := parts) d finished.2⟩

theorem NamelessParts.Finished.fill {ρ : List Nameless} (filling : ∀ r ∈ ρ, r.Finished V) :
    ∀ {t : NamelessParts} (d : Nat), t.Finished V → (t.fill ρ d).Finished V
  | .nil, _, _ => trivial
  | .part _ _, d, finished => ⟨finished.1.fill filling d, finished.2.fill filling d⟩
  | .binder _ rest, d, finished =>
      NamelessParts.Finished.fill filling (t := rest) (d + 1) finished

end

mutual

theorem Nameless.Finished.inst {f : Universe → Universe} (kept : ∀ u, u.Closed → (f u).Closed)
    {σ : Var → Nameless} (put : ∀ x, V x → (σ x).Finished W) :
    ∀ {t : Nameless}, t.Finished V → (t.inst f σ).Finished W
  | .bound _, _ => trivial
  | .free x, finished => put x finished
  | .hole _, finished => finished
  | .node _ parts, finished =>
      ⟨finished.1.map kept, NamelessParts.Finished.inst kept put (t := parts) finished.2⟩

theorem NamelessParts.Finished.inst {f : Universe → Universe}
    (kept : ∀ u, u.Closed → (f u).Closed) {σ : Var → Nameless}
    (put : ∀ x, V x → (σ x).Finished W) :
    ∀ {t : NamelessParts}, t.Finished V → (t.inst f σ).Finished W
  | .nil, _ => trivial
  | .part _ _, finished => ⟨finished.1.inst kept put, finished.2.inst kept put⟩
  | .binder _ rest, finished => NamelessParts.Finished.inst kept put (t := rest) finished

end

theorem Nameless.Finished.mono {t : Nameless} (wider : ∀ x, V x → W x) (finished : t.Finished V) :
    t.Finished W := by
  have same : t.inst id .free = t := Nameless.inst_self (fun _ => rfl) _ fun _ _ => rfl
  rw [← same]
  exact finished.inst (fun _ closed => closed) wider

mutual

theorem Nameless.Finished.free : ∀ {t : Nameless}, t.Finished V → ∀ x ∈ t.freeVars, V x
  | .bound _, _, _, member => by cases member
  | .free _, finished, _, member => List.mem_singleton.mp member ▸ finished
  | .hole _, _, _, member => by cases member
  | .node _ parts, finished, x, member => NamelessParts.Finished.free (t := parts) finished.2 x member

theorem NamelessParts.Finished.free : ∀ {t : NamelessParts}, t.Finished V → ∀ x ∈ t.freeVars, V x
  | .nil, _, _, member => by cases member
  | .part _ _, finished, x, member => by
      rcases List.mem_append.mp member with inHead | inRest
      · exact finished.1.free x inHead
      · exact finished.2.free x inRest
  | .binder _ rest, finished, x, member =>
      NamelessParts.Finished.free (t := rest) finished x member

end

end Variables

section Views

variable {V : Var → Prop}

theorem NamelessParts.Finished.list : ∀ {p : NamelessParts}, p.Finished V →
    ∀ t ∈ p.list, t.Finished V
  | .nil, _, _, member => by cases member
  | .part _ rest, finished, t, member => by
      rcases List.mem_cons.mp member with rfl | later
      · exact finished.1
      · exact finished.2.list t later
  | .binder _ rest, finished, t, member =>
      NamelessParts.Finished.list (p := rest) finished t member

theorem NamelessParts.Finished.enter : ∀ {p : NamelessParts} {ρ args : List Nameless}
    {rest : NamelessParts} {values left : List Nameless}, p.Finished V →
    (∀ r ∈ ρ, r.Finished V) → (∀ a ∈ args, a.Finished V) →
    p.enter ρ args = some (rest, values, left) →
      rest.Finished V ∧ (∀ r ∈ values, r.Finished V) ∧ ∀ a ∈ left, a.Finished V
  | .nil, _, _, _, _, _, finished, filling, given, entered
  | .binder _ _, _, _, _, _, _, finished, filling, given, entered
  | .part _ .nil, _, _, _, _, _, finished, filling, given, entered
  | .part _ (.part _ _), _, _, _, _, _, finished, filling, given, entered => by
      cases entered
      exact ⟨finished, filling, given⟩
  | .part _ (.binder _ _), _, [], _, _, _, _, _, _, entered => by cases entered
  | .part _ (.binder _ rest), _, a :: args, _, _, _, finished, filling, given, entered => by
      obtain ⟨head, tail⟩ := List.forall_mem_cons.mp given
      exact NamelessParts.Finished.enter (p := rest) finished.2
        (List.forall_mem_cons.mpr ⟨head, filling⟩) tail entered

theorem Nameless.Finished.given {t r : Nameless} (finished : t.Finished V)
    (found : t.given? = some r) : r.Finished V := by
  unfold Nameless.given? at found
  split at found
  · cases found
    exact finished.2.1
  · cases found

theorem NamelessParts.Finished.ends : ∀ {p : NamelessParts}, p.Finished V →
    ∀ e ∈ p.ends, ∀ side r, e.at? side = some r → r.Finished V
  | .nil, _, _, member | .binder _ _, _, _, member | .part _ .nil, _, _, member
  | .part _ (.binder _ _), _, _, member => by cases member
  | .part a (.part b rest), finished, e, member => by
      intro side r found
      rcases List.mem_cons.mp member with rfl | later
      · cases side with
        | left => exact finished.1.given found
        | right => exact finished.2.1.given found
      · exact NamelessParts.Finished.ends (p := rest) finished.2.2 e later side r found

theorem Nameless.Finished.applyAll {fn : Nameless} {args : List Nameless}
    (finished : fn.Finished V) (given : ∀ a ∈ args, a.Finished V) :
    (fn.applyAll args).Finished V := by
  induction args generalizing fn with
  | nil => exact finished
  | cons a args ih =>
      obtain ⟨head, tail⟩ := List.forall_mem_cons.mp given
      exact ih ⟨by simp [Label.Finished, Label.sort?], finished, head, trivial⟩ tail

theorem Nameless.Finished.shown {t : Nameless} {shape : Shape} {components : List Nameless}
    (finished : t.Finished V) (shown : t.shape? = some (shape, components)) :
    ∀ c ∈ components, c.Finished V := by
  unfold Nameless.shape? at shown
  split at shown
  · cases shown
    exact finished.2.2.list
  · cases shown
    exact fun c member => finished.2.list c (List.mem_of_mem_dropLast member)
  · cases shown

theorem Nameless.Finished.lamBody {t body : Nameless} (finished : t.Finished V)
    (isLam : t.lamBody? = some body) : body.Finished V := by
  unfold Nameless.lamBody? at isLam
  split at isLam
  · cases isLam
    exact finished.2.2.1
  · cases isLam

theorem Nameless.Finished.component {t r : Nameless} {i : Nat} (finished : t.Finished V)
    (found : t.component? i = some r) : r.Finished V := by
  unfold Nameless.component? at found
  split at found
  · exact finished.2.list r (List.mem_of_mem_dropLast (List.mem_of_getElem? found))
  · cases found

theorem NamelessParts.Finished.slot {f : DefId} {fields : NamelessParts} {r : Nameless}
    (finished : fields.Finished V) (found : fields.slot? f = some r) : r.Finished V := by
  induction fields using NamelessParts.slot?.induct (f := f) with
  | case1 t rest =>
      simp only [NamelessParts.slot?, if_true, Option.some.injEq] at found
      subst found
      exact finished.1.2.1
  | case2 g t rest other ih =>
      simp only [NamelessParts.slot?, if_neg other] at found
      exact ih finished.2 found
  | case3 fields noSlot =>
      rw [NamelessParts.slot?.eq_2 _ _ noSlot] at found
      cases found

theorem Nameless.Finished.fixed {t r : Nameless} {f : DefId} (finished : t.Finished V)
    (found : t.fixed? f = some r) : r.Finished V := by
  unfold Nameless.fixed? at found
  split at found
  · exact finished.2.1.2.slot found
  · cases found

theorem Nameless.Finished.caseParts {parts : NamelessParts} {args : List Nameless}
    {tree : Nameless} (finished : parts.Finished V)
    (isCase : Nameless.caseParts? parts = some (args, tree)) :
    (∀ a ∈ args, a.Finished V) ∧ tree.Finished V := by
  unfold Nameless.caseParts? at isCase
  split at isCase
  · rename_i last motive others shown
    cases isCase
    have all : ∀ t ∈ tree :: motive :: others, t.Finished V := by
      intro t member
      rw [← shown] at member
      exact finished.list t (List.mem_reverse.mp member)
    refine ⟨fun a member => all a ?_, all tree List.mem_cons_self⟩
    exact List.mem_cons_of_mem _ (List.mem_cons_of_mem _ (List.mem_reverse.mp member))
  · cases isCase

theorem Nameless.Finished.atCall {levels : Universe} {t y : Nameless} {l : List Passed}
    (call : levels.Closed) (finished : t.Finished V) (done : t.atCall levels = .ok (y, l)) :
    y.Finished V := by
  unfold Nameless.atCall at done
  split at done
  · cases done
    have put : ∀ x, V x → (Nameless.free x).Finished V := fun _ allowed => allowed
    exact finished.inst (fun _ => call.atCall) put
  · cases done

end Views

/-- The definitions are finished, and mention their parameters only. -/
structure Environment.Finished (env : Environment) : Prop where
  bodies : ∀ f fn t, env.function? f = some fn → fn.body = some (.term t) →
    t.toScoped.Finished fun x => x ∈ fn.params.vars
  trees : ∀ f fn t, env.function? f = some fn → fn.body = some (.tree t) →
    t.toScoped.Finished fun _ => False

section Reduction

variable {env : Environment} {V : Var → Prop} {whnf : Nameless → Traced Nameless}

/-- If the computation ends in a term, that is finished. -/
def Finishing (V : Var → Prop) (a : Traced (Option Nameless)) : Prop :=
  ∀ r l, a = .ok (some r, l) → r.Finished V

theorem Finishing.none : Finishing V (pure Option.none) := by
  intro r l done
  cases done

theorem Finishing.some {t : Nameless} (finished : t.Finished V) :
    Finishing V (pure (Option.some t)) := by
  intro r l done
  cases done
  exact finished

theorem Finishing.bind {α : Type} {a : Traced α} {f : α → Traced (Option Nameless)}
    (next : ∀ x l, a = .ok (x, l) → Finishing V (f x)) : Finishing V (a >>= f) := by
  intro r l done
  obtain ⟨x, before, later, first, rest, _⟩ := Traced.bind_ok done
  exact next x before first r later rest

/-- Reduction of subterms keeps them finished. -/
def Keeps (V : Var → Prop) (whnf : Nameless → Traced Nameless) : Prop :=
  ∀ t v l, t.Finished V → whnf t = .ok (v, l) → v.Finished V

theorem atEnds_finished {inner : NamelessParts} {ρ args : List Nameless}
    (finished : inner.Finished V) (filling : ∀ r ∈ ρ, r.Finished V)
    (given : ∀ a ∈ args, a.Finished V) {otherwise : Traced (Option Nameless)}
    (rest : Finishing V otherwise) :
    Finishing V (Nameless.atEnds env whnf inner ρ args otherwise) := by
  unfold Nameless.atEnds
  cases entered : inner.enter ρ args with
  | none => exact Finishing.none
  | some found =>
      obtain ⟨ends, values, left⟩ := found
      obtain ⟨endsFinished, valuesFinished, leftFinished⟩ := finished.enter filling given entered
      refine Finishing.bind fun o l tried => ?_
      cases o with
      | none => exact rest
      | some body =>
          obtain ⟨e, member, side, isBody⟩ := tryEnds_body tried
          have bodyFinished := endsFinished.ends e.1 (List.of_mem_zip member).1 side body isBody
          exact Finishing.some ((bodyFinished.fill valuesFinished 0).applyAll leftFinished)

theorem inspect_finished (keeps : Keeps V whnf) {arg : Nameless} (finished : arg.Finished V)
    {next : Shape → List Nameless → Traced (Option Nameless)}
    (later : ∀ shape components, (∀ c ∈ components, c.Finished V) →
      Finishing V (next shape components)) :
    Finishing V (Nameless.inspect whnf arg next) := by
  refine Finishing.bind fun v l done => ?_
  cases shown : v.shape? with
  | none => exact Finishing.none
  | some found => exact later _ _ ((keeps arg v l finished done).shown shown)

theorem walk_finished (keeps : Keeps V whnf) : ∀ (ρ : List Nameless) (t : Nameless)
    (args : List Nameless), t.Finished V → (∀ r ∈ ρ, r.Finished V) → (∀ a ∈ args, a.Finished V) →
      Finishing V (t.walk env whnf ρ args) := by
  refine (Nameless.walk.mutual_induct
    (fun ρ t args => t.Finished V → (∀ r ∈ ρ, r.Finished V) → (∀ a ∈ args, a.Finished V) →
      Finishing V (t.walk env whnf ρ args))
    (fun ρ t args => t.Finished V → (∀ r ∈ ρ, r.Finished V) → (∀ a ∈ args, a.Finished V) →
      Finishing V (t.walkGiven env whnf ρ args))
    (fun ρ t args => t.Finished V → (∀ r ∈ ρ, r.Finished V) → (∀ a ∈ args, a.Finished V) →
      Finishing V (t.walkBranch env whnf ρ args))
    (fun ρ shape t args => t.Finished V → (∀ r ∈ ρ, r.Finished V) →
      (∀ a ∈ args, a.Finished V) → Finishing V (t.walkChildren env whnf ρ shape args))
    ?leaf ?leafShort ?branch ?interval ?otherTree ?given ?notGiven ?param ?inspects ?childless
    ?otherBranch ?hit ?miss ?noChild).1
  case leaf =>
    intro ρ parts args body values left entered finished filling given
    simp only [Nameless.walk, entered]
    obtain ⟨rest, values, left⟩ := finished.2.enter filling given entered
    exact Finishing.some ((rest.1.fill values 0).applyAll left)
  case leafShort =>
    intro ρ parts args short _ _ _
    simp only [Nameless.walk]
    exact Finishing.none
  case branch =>
    intro ρ parts args ih finished
    exact ih finished.2
  case interval =>
    intro ρ inner rest args ih finished filling given
    exact atEnds_finished finished.2.1.2 filling given (ih finished.2.2.1 filling given)
  case otherTree =>
    intro t ρ args notLeaf notBranch notInterval _ _ _
    simp only [Nameless.walk.eq_4 _ _ _ _ _ notLeaf notBranch notInterval]
    exact Finishing.none
  case given =>
    intro ρ tree args ih finished
    exact ih finished.2.1
  case notGiven =>
    intro t ρ args notGiven _ _ _
    simp only [Nameless.walkGiven.eq_2 _ _ _ _ _ notGiven]
    exact Finishing.none
  case param =>
    intro ρ t mode rest a args ih finished filling given
    obtain ⟨head, tail⟩ := List.forall_mem_cons.mp given
    exact ih finished.2 (List.forall_mem_cons.mpr ⟨head, filling⟩) tail
  case inspects =>
    intro ρ k child others arg args notParam ihHit ihMiss finished filling given
    obtain ⟨head, tail⟩ := List.forall_mem_cons.mp given
    simp only [NamelessParts.walkBranch.eq_2 _ _ _ _ _ _ _ _ notParam]
    refine inspect_finished keeps head fun shape components seen => ?_
    have all := List.forall_mem_append.mpr ⟨seen, tail⟩
    split
    · exact ihHit components finished.1.2.1 filling all
    · exact ihMiss shape components finished.2 filling all
  case childless =>
    intro ρ arg args _ _ given
    exact inspect_finished keeps (given arg List.mem_cons_self) fun _ _ _ => Finishing.none
  case otherBranch =>
    intro t ρ args notParam notChild notNil _ _ _
    simp only [NamelessParts.walkBranch.eq_4 _ _ _ _ _ notParam notChild notNil]
    exact Finishing.none
  case hit =>
    intro ρ shape k child others args hit ih finished filling given
    simpa only [NamelessParts.walkChildren, hit, if_true] using ih finished.1.2.1 filling given
  case miss =>
    intro ρ shape k child others args miss ih finished filling given
    simpa only [NamelessParts.walkChildren, miss, Bool.false_eq_true, if_false] using
      ih finished.2 filling given
  case noChild =>
    intro t ρ shape args notChild _ _ _
    simp only [NamelessParts.walkChildren.eq_2 _ _ _ _ _ _ notChild]
    exact Finishing.none

theorem transport?_finished {args : List Nameless} (given : ∀ a ∈ args, a.Finished V) :
    Finishing V (Nameless.transport? whnf args) := by
  cases args with
  | nil => exact Finishing.none
  | cons family others =>
      refine Finishing.bind fun v l _ => ?_
      cases v.lamBody? with
      | none => exact Finishing.bind fun _ _ _ => Finishing.none
      | some body =>
          intro r l done
          have found : (if body.mentions 0 then none else others.head?) = some r :=
            Option.some.inj (Traced.result?_ok.mpr ⟨_, done⟩)
          split at found
          · cases found
          · exact given r (List.mem_cons_of_mem _ (List.mem_of_mem_head? found))

theorem bodyAt?_finished (known : env.Finished) (keeps : Keeps V whnf) {f : DefId}
    {fn : FunctionDef} (isFn : env.function? f = some fn) {levels : Universe}
    (call : levels.Closed) {args : List Nameless} (given : ∀ a ∈ args, a.Finished V) :
    Finishing V (Nameless.bodyAt? env whnf fn levels args) := by
  unfold Nameless.bodyAt?
  cases isBody : fn.body with
  | none => exact Finishing.none
  | some b =>
      cases b with
      | term t =>
          refine Finishing.bind fun body l done => ?_
          have finished : (t.toScoped.read fn.params.vars.reverse).Finished V :=
            (t.toScoped.read_finished _ V).mpr
              ((known.bodies f fn t isFn isBody).mono fun x param =>
                .inr (List.mem_reverse.mpr param))
          have filling : ∀ r ∈ args.reverse, r.Finished V := fun r member =>
            given r (List.mem_reverse.mp member)
          exact Finishing.some ((finished.atCall call done).fill filling 0)
      | tree t =>
          refine Finishing.bind fun tree l done => ?_
          have finished : t.reading.Finished V :=
            (t.toScoped.read_finished _ V).mpr
              ((known.trees f fn t isFn isBody).mono fun _ never => never.elim)
          exact walk_finished keeps [] tree args (finished.atCall call done) (by simp) given

theorem unfolding?_finished (known : env.Finished) (keeps : Keeps V whnf) {f : DefId}
    {levels : Universe} (call : levels.Closed) {args : List Nameless}
    (given : ∀ a ∈ args, a.Finished V) :
    Finishing V (Nameless.unfolding? env whnf f levels args) := by
  unfold Nameless.unfolding?
  cases isFn : env.function? f with
  | none => exact Finishing.none
  | some fn =>
      simp only
      split
      · exact Finishing.none
      · refine Finishing.bind fun o l done => ?_
        cases o with
        | none => exact bodyAt?_finished known keeps isFn call given
        | some t =>
            refine Finishing.some ?_
            split at done
            · exact transport?_finished given t l done
            · cases done

theorem headStep?_finished (known : env.Finished) (keeps : Keeps V whnf) {t : Nameless}
    (finished : t.Finished V) : Finishing V (t.headStep? env whnf) := by
  have view : ∀ {s : Nameless} (look : Nameless → Option Nameless), s.Finished V →
      (∀ {v r}, v.Finished V → look v = some r → r.Finished V) →
      Finishing V (do return look (← whnf s)) := by
    intro s look sFinished looking
    refine Finishing.bind fun v l done => ?_
    intro r l' found
    exact looking (keeps s v l sFinished done)
      (Option.some.inj (Traced.result?_ok.mpr ⟨_, found⟩))
  rw [Nameless.headStep?.eq_def]
  split
  · exact finished.elim
  · rename_i fn arg
    refine view (fun v => v.lamBody?.map (·.fill [arg] 0)) finished.2.1 fun {v r} seen found => ?_
    obtain ⟨body, isLam, rfl⟩ := Option.map_eq_some_iff.mp found
    exact (seen.lamBody isLam).fill (by simpa using finished.2.2.1) 0
  · exact view _ finished.2.1 Nameless.Finished.component
  · exact view _ finished.2.1 Nameless.Finished.fixed
  · exact unfolding?_finished known keeps (finished.1 _ rfl) finished.2.list
  · rename_i parts
    cases isCase : Nameless.caseParts? parts with
    | none => exact Finishing.none
    | some found =>
        obtain ⟨given, tree⟩ := Nameless.Finished.caseParts finished.2 isCase
        exact walk_finished keeps [] _ _ tree (by simp) given
  · exact Finishing.none

/-- Terms stay finished in reduction, over the same variables. -/
theorem whnfWith_finished (known : env.Finished) (fuel : Nat) :
    Keeps V (Nameless.whnfWith env fuel) := by
  induction fuel with
  | zero =>
      intro t v l _ done
      cases done
  | succ fuel ih =>
      intro t v l finished done
      obtain ⟨o, before, later, first, rest, _⟩ := Traced.bind_ok done
      cases o with
      | none =>
          cases rest
          exact finished
      | some next =>
          exact ih next v later (headStep?_finished known ih finished next before first) rest

end Reduction

end PathTheory
