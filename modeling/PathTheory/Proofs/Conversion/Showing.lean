import PathTheory.Proofs.Conversion.Convertible
import PathTheory.Proofs.Conversion.Running
import PathTheory.Proofs.Reduction.Reading
/-!
What a comparison sees of finished terms. Weak head reduction and the fields of variables show what
the readings show, and no metavariable ever blocks a finished term.
-/
namespace PathTheory

open Unify

/-- Definitions that are older than the counter and finished. -/
structure Environment.Ready (env : Environment) (low : Nat) : Prop where
  within : env.Within (fun _ => True) low
  finished : env.Finished

theorem library_finished (fuel : Nat) : (Library.environment fuel).Finished where
  bodies f fn t known isBody := by
    rcases library_function known with same | same | same
    · cases same
      cases isBody
      decide
    · cases same
      cases isBody
    · cases same
      cases isBody
  trees f fn t known isBody := by
    rcases library_function known with same | same | same
    · cases same
      cases isBody
    · cases same
      cases isBody
      decide
    · cases same
      cases isBody
      decide

theorem library_ready (fuel : Nat) : (Library.environment fuel).Ready Library.firstFresh :=
  ⟨(library_within fuel).widen fun _ _ => trivial, library_finished fuel⟩

section Reduction

variable {env : Environment} {low n : Nat}

theorem Term.Ready.reduces (known : env.Ready low) (order : low ≤ n) {t : Term}
    (ready : t.Ready n) : Yields (t.whnf env) n fun v m => v.Ready m ∧
      t.reading.Evaluates env v.reading ∧
        ∀ V, t.reading.Finished V → v.reading.Finished V := by
  intro v m done
  obtain ⟨later, within⟩ := whnfWith_within known.within env.fuel t n order ready.within v m done
  have mirrored := whnfWith_mirrors known.within env.fuel t n order ready.within
  obtain ⟨y, ends, rfl⟩ := mirrored.ok done
  obtain ⟨l, traced⟩ := Traced.result?_ok.mp ends
  have kept : ∀ V, t.reading.Finished V → v.reading.Finished V := fun V finished =>
    whnfWith_finished known.finished env.fuel t.reading v.reading l finished traced
  exact ⟨later, ⟨within.below, kept _ ready.finished⟩, ⟨env.fuel, ends⟩, kept⟩

section Parts

variable {V : Var → Prop} {args : List Term}

theorem termsParts_finished (finished : ((termsParts args .nil).read []).Finished V) :
    ∀ a ∈ args, a.reading.Finished V := by
  have all := finished.list
  rw [terms_list] at all
  exact fun a member => all _ (List.mem_map_of_mem member)

theorem components_finished {type : Term} (finished : (Term.tuple args type).reading.Finished V) :
    ∀ a ∈ args, a.reading.Finished V := by
  have all := finished.2.list
  intro a member
  refine all _ (List.mem_of_mem_dropLast ?_)
  rw [tuple_list]
  exact List.mem_map_of_mem member

theorem caseArgs_finished {params : Telescope} {result : Term} {tree : CaseTree}
    (finished : (Term.caseOf args params result tree).reading.Finished V) :
    ∀ a ∈ args, a.reading.Finished V := by
  obtain ⟨all, _⟩ := Nameless.Finished.caseParts finished.2 (caseOf_parts args params result tree)
  exact fun a member => all _ (List.mem_map_of_mem member)

end Parts

namespace Term.Ready

variable {t u : Term} {args : List Term}

theorem app_fn (ready : (Term.app t u).Ready n) : t.Ready n :=
  ⟨(below_app.mp ready.below).1, ready.finished.2.1⟩

theorem app_arg (ready : (Term.app t u).Ready n) : u.Ready n :=
  ⟨(below_app.mp ready.below).2, ready.finished.2.2.1⟩

theorem proj_whole {i : Nat} (ready : (Term.proj t i).Ready n) : t.Ready n :=
  ⟨below_proj.mp ready.below, ready.finished.2.1⟩

theorem field_arg {f : DefId} {levels : Universe} (ready : (Term.field f levels t).Ready n) :
    t.Ready n := ⟨below_field.mp ready.below, ready.finished.2.1⟩

theorem new_record (ready : (Term.new t).Ready n) : t.Ready n :=
  ⟨below_new.mp ready.below, ready.finished.2.1⟩

theorem call_args {f : DefId} {levels : Universe} (ready : (Term.call f levels args).Ready n) :
    ∀ a ∈ args, a.Ready n := fun a member =>
  ⟨below_call.mp ready.below a member, termsParts_finished ready.finished.2 a member⟩

theorem data_args {d : DefId} {levels : Universe} (ready : (Term.data d levels args).Ready n) :
    ∀ a ∈ args, a.Ready n := fun a member =>
  ⟨below_data.mp ready.below a member, termsParts_finished ready.finished.2 a member⟩

theorem con_params {c : DefId} {levels : Universe} {params : List Term}
    (ready : (Term.con c levels params args).Ready n) : ∀ a ∈ params, a.Ready n := fun a member =>
  ⟨(below_con.mp ready.below).1 a member, termsParts_finished ready.finished.2.1.2 a member⟩

theorem con_args {c : DefId} {levels : Universe} {params : List Term}
    (ready : (Term.con c levels params args).Ready n) : ∀ a ∈ args, a.Ready n := fun a member =>
  ⟨(below_con.mp ready.below).2 a member, termsParts_finished ready.finished.2.2 a member⟩

theorem components {type : Term} (ready : (Term.tuple args type).Ready n) :
    ∀ a ∈ args, a.Ready n := fun a member =>
  ⟨(below_tuple.mp ready.below).1 a member, components_finished ready.finished a member⟩

theorem fixed {c f : DefId} {levels : Universe} {fields : List (DefId × Term)}
    (ready : (Term.record c levels fields).Ready n) (found : fields.lookup f = some t) :
    t.Ready n := by
  have slot := fields_slot? f fields
  rw [found] at slot
  exact ⟨below_record.mp ready.below _ (mem_of_lookup found), ready.finished.2.slot slot⟩

theorem case_args {params : Telescope} {result : Term} {tree : CaseTree}
    (ready : (Term.caseOf args params result tree).Ready n) : ∀ a ∈ args, a.Ready n :=
  fun a member =>
    ⟨(below_caseOf.mp ready.below).1 a member, caseArgs_finished ready.finished a member⟩

end Term.Ready

/-- Reduction of subterms keeps them ready. -/
def Readies (whnf : Term → Fresh Term) (low : Nat) : Prop :=
  ∀ t n, low ≤ n → t.Ready n → Yields (whnf t) n fun v m => v.Ready m

theorem whnf_readies (known : env.Ready low) : Readies (Term.whnf env) low :=
  fun _ _ order ready => (ready.reduces known order).weaken fun _ _ => And.left

theorem terms_ready {l : List Term} (below : ∀ a ∈ l, a.Below n)
    (finished : ∀ t ∈ l.map Term.reading, t.Finished fun _ => True) : ∀ a ∈ l, a.Ready n :=
  fun a member => ⟨below a member, finished _ (List.mem_map_of_mem member)⟩

theorem ready_later {m : Nat} {l : List Term} (ready : ∀ a ∈ l, a.Ready n) (order : n ≤ m) :
    ∀ a ∈ l, a.Ready m := fun a member => (ready a member).mono order

theorem Term.Ready.shown {t : Term} {shape : Shape} {components : List Term} (ready : t.Ready n)
    (seen : t.shape? = some (shape, components)) : ∀ a ∈ components, a.Ready n := by
  refine terms_ready (fun a member => (ready.within.shown seen a member).below) ?_
  have shown : t.reading.shape? = some (shape, components.map Term.reading) := by
    rw [Term.shape?_reading, seen]
    rfl
  exact ready.finished.shown shown

variable {whnf : Term → Fresh Term}

/-- What stands in the way of a walk is ready, if the arguments are. -/
def Blocks (walk : Fresh Walk) (n : Nat) : Prop := ∀ v m, walk n = .ok (.stuck v, m) → v.Ready m

theorem Blocks.pure {w : Walk} (ready : ∀ v, w = .stuck v → v.Ready n) : Blocks (pure w) n := by
  intro v m done
  cases done
  exact ready v rfl

theorem Blocks.bind {α : Type} {a : Fresh α} {f : α → Fresh Walk} {P : α → Nat → Prop}
    (first : Yields a n P) (next : ∀ x m, n ≤ m → P x m → Blocks (f x) m) :
    Blocks (a >>= f) n := by
  intro v k done
  obtain ⟨x, m, start, rest⟩ := fresh_bind done
  obtain ⟨order, holds⟩ := first x m start
  exact next x m order holds v k rest

theorem Blocks.reduced {a : Fresh Term} {f : Term → Term} :
    Blocks (do return .reduced (f (← a))) n := by
  intro v k done
  obtain ⟨x, m, _, rest⟩ := fresh_bind done
  cases rest

theorem tryEnds_ready (readies : Readies whnf low) : ∀ (l : List (Ends Term × Term))
    (blocked : Option Term) (n : Nat), low ≤ n → (∀ e ∈ l, e.2.Ready n) →
    (∀ t ∈ blocked, t.Ready n) → Yields (tryEnds env whnf l blocked) n fun o m =>
      ∀ b, o = .none (some b) → b.Ready m := by
  intro l
  induction l with
  | nil =>
      intro blocked n _ _ old
      refine Yields.pure fun b same => ?_
      cases same
      exact old b rfl
  | cons e others ih =>
      intro blocked n order ready old
      obtain ⟨here, rest⟩ := List.forall_mem_cons.mp ready
      unfold tryEnds
      split
      · exact ih blocked n order rest old
      · refine (readies e.2 n order here).bind fun v m next isReady => ?_
        have later : ∀ e ∈ others, e.2.Ready m := fun e member => (rest e member).mono next
        have oldLater : ∀ t ∈ blocked, t.Ready m := fun t is => (old t is).mono next
        split
        · split
          · refine Yields.pure fun b same => ?_
            cases same
          · exact ih blocked m (order.trans next) later oldLater
        · refine ih _ m (order.trans next) later fun t is => ?_
          cases blocked with
          | none =>
              cases is
              exact isReady
          | some b =>
              cases is
              exact oldLater _ rfl

mutual

theorem walk_blocks (readies : Readies whnf low) : ∀ (tree : CaseTree) (s : Subst)
    (args : List Term) (n : Nat), low ≤ n → (∀ a ∈ args, a.Ready n) →
    Blocks (tree.walk env whnf s args) n
  | .leaf params body, s, args, n, order, ready => by
      unfold CaseTree.walk
      split
      · exact Blocks.pure nofun
      · exact Blocks.reduced
  | .branch params children, s, args, n, order, ready => by
      unfold CaseTree.walk
      split
      · exact Blocks.pure nofun
      · have rest : ∀ a ∈ args.drop params.length, a.Ready n :=
          fun a member => ready a (List.mem_of_mem_drop member)
        cases left : args.drop params.length with
        | nil => exact Blocks.pure nofun
        | cons arg others =>
            rw [left] at rest
            obtain ⟨head, tail⟩ := List.forall_mem_cons.mp rest
            refine Blocks.bind (readies arg n order head) fun scrutinee m next isReady => ?_
            cases shown : scrutinee.shape? with
            | none =>
                refine Blocks.pure fun v same => ?_
                cases same
                exact isReady
            | some found =>
                refine walkChildren_blocks readies children _ _ _ m (order.trans next) ?_
                exact List.forall_mem_append.mpr ⟨isReady.shown shown, ready_later tail next⟩
  | .interval params ends rest, s, args, n, order, ready => by
      unfold CaseTree.walk
      split
      · exact Blocks.pure nofun
      · have pairs : ∀ e ∈ ends.zip ((args.take params.length).drop
            (params.length - ends.length)), e.2.Ready n := fun e member =>
          ready e.2 (List.mem_of_mem_take (List.mem_of_mem_drop (List.of_mem_zip member).2))
        have unblocked : ∀ t ∈ (none : Option Term), t.Ready n := fun t absent => by cases absent
        refine Blocks.bind (tryEnds_ready readies _ none n order pairs unblocked)
          fun o m next blocked => ?_
        cases o with
        | body t => exact Blocks.reduced
        | none b =>
            refine walkRest_blocks readies b rest s args m (order.trans next) ?_
              (ready_later ready next)
            rintro t rfl
            exact blocked t rfl

theorem walkChildren_blocks (readies : Readies whnf low) : ∀ (children : List (Shape × CaseTree))
    (s : Subst) (shape : Shape) (args : List Term) (n : Nat), low ≤ n → (∀ a ∈ args, a.Ready n) →
    Blocks (walkChildren env whnf s shape children args) n
  | [], s, shape, args, n, _, _ => Blocks.pure nofun
  | (k, child) :: others, s, shape, args, n, order, ready => by
      unfold walkChildren
      split
      · exact walk_blocks readies child s args n order ready
      · exact walkChildren_blocks readies others s shape args n order ready

theorem walkRest_blocks (readies : Readies whnf low) (blocked : Option Term) :
    ∀ (rest : Option CaseTree) (s : Subst) (args : List Term) (n : Nat), low ≤ n →
    (∀ t ∈ blocked, t.Ready n) → (∀ a ∈ args, a.Ready n) →
    Blocks (walkRest env whnf s blocked rest args) n
  | none, s, args, n, _, old, _ => by
      unfold walkRest
      cases blocked with
      | none => exact Blocks.pure nofun
      | some b =>
          refine Blocks.pure fun v same => ?_
          cases same
          exact old b rfl
  | some tree, s, args, n, order, _, ready => by
      unfold walkRest
      exact walk_blocks readies tree s args n order ready

end

theorem run_ready (known : env.Ready low) (order : low ≤ n) {tree : CaseTree}
    (within : tree.Within (fun _ => True) n) {args : List Term} (ready : ∀ a ∈ args, a.Ready n) :
    Yields (tree.run env (Term.whnf env) args) n fun w m => ∀ v, w = .stuck v → v.Ready m := by
  have fair := whnfWith_within known.within env.fuel
  have inScope : ∀ a ∈ args, a.Within (fun _ => True) n := fun a member => (ready a member).within
  intro w m done
  obtain ⟨next, _⟩ := run_within fair order within inScope w m done
  refine ⟨next, ?_⟩
  rintro v rfl
  exact walk_blocks (whnf_readies known) tree .empty args n order ready v m done

/-- No metavariable blocks the term, whatever does. -/
abbrev Unblocked (o : Option Term) : Prop := ∀ u ∈ o, u.hole? = none

theorem stuckOn_unblocked (known : env.Ready low) : ∀ (fuel : Nat) (t : Term) (n : Nat), low ≤ n →
    t.Ready n → Yields (stuckOnWith env fuel t) n fun o _ => Unblocked o := by
  intro fuel
  induction fuel with
  | zero =>
      intro t n _ _
      exact Yields.throw
  | succ fuel ih =>
      intro t n order ready
      have nothing : ∀ {m}, Yields (pure none : Fresh (Option Term)) m fun o _ => Unblocked o :=
        Yields.pure nofun
      have through : ∀ {tree : CaseTree} {args : List Term} {u : Term} {m : Nat}
          {answer : Walk → Fresh (Option Term)}, (∀ t, answer (.reduced t) = pure none) →
          (∀ v, answer (.stuck v) = stuckOnWith env fuel v) → answer .missing = pure (some u) →
          low ≤ m → tree.Within (fun _ => True) m → (∀ a ∈ args, a.Ready m) → u.hole? = none →
          Yields (tree.run env (Term.whnf env) args >>= answer) m fun o _ => Unblocked o := by
        intro tree args u m answer atReduced atStuck atMissing later within argsReady noHole
        refine (run_ready known later within argsReady).bind fun w k next isReady => ?_
        cases w with
        | reduced t =>
            rw [atReduced]
            exact nothing
        | stuck v =>
            rw [atStuck]
            exact ih v k (later.trans next) (isReady v rfl)
        | missing =>
            rw [atMissing]
            refine Yields.pure fun v same => ?_
            cases same
            exact noHole
      unfold stuckOnWith
      refine (ready.reduces known order).bind fun v m next seen => ?_
      have later := order.trans next
      obtain ⟨isReady, -, -⟩ := seen
      cases v with
      | hole h => exact isReady.finished.elim
      | error message term => exact isReady.finished.1.elim
      | app fn arg => exact ih fn m later isReady.app_fn
      | proj whole index => exact ih whole m later isReady.proj_whole
      | field f levels arg => exact ih arg m later isReady.field_arg
      | call f levels args =>
          have argsReady := isReady.call_args
          have family : ∀ {atFamily : Fresh (Option Term)},
              (args[0]? = none → atFamily = pure none) →
              (∀ u, args[0]? = some u → atFamily = stuckOnWith env fuel u) →
              ∀ interval k, m ≤ k → Unblocked interval →
                Yields (if interval.isSome then pure interval else atFamily) k
                  fun o _ => Unblocked o := by
            intro atFamily noFamily isFamily interval k after free
            split
            · exact Yields.pure free
            · cases found : args[0]? with
              | none =>
                  rw [noFamily found]
                  exact nothing
              | some u =>
                  rw [isFamily u found]
                  exact ih u k (later.trans after)
                    ((argsReady u (List.mem_of_getElem? found)).mono after)
          simp only
          cases isFn : env.function? f with
          | none => exact nothing
          | some fn =>
              simp only
              split
              · split
                · rename_i found
                  have intervalReady := argsReady _ (List.mem_of_getElem? found)
                  refine (ih _ m later intervalReady).bind (family ?_ ?_)
                  · exact fun is => by simp only [is]
                  · exact fun u is => by simp only [is]
                · refine nothing.bind (family ?_ ?_)
                  · exact fun is => by simp only [is]
                  · exact fun u is => by simp only [is]
              · split
                · rename_i tree isBody
                  have put := (Subst.within_empty (V := fun _ => True) (n := m)).addStd levels
                  have inReach := (((known.within.trees f fn tree isFn isBody).mono later).widen
                    fun x inScope => (Or.inl inScope : (Subst.std levels).Reach (fun _ => True) x))
                  refine (put.yields_tree inReach).bind fun tree' k after seen => ?_
                  exact through (fun _ => rfl) (fun _ => rfl) rfl (later.trans after) seen.1
                    (ready_later argsReady after) rfl
                · exact nothing
      | caseOf args params result tree =>
          exact through (fun _ => rfl) (fun _ => rfl) rfl later isReady.within.caseTree
            isReady.case_args rfl
      | _ => exact nothing

theorem stuckMeta_none (known : env.Ready low) (order : low ≤ n) {t : Term} (ready : t.Ready n) :
    Yields (t.stuckMeta env) n fun o _ => o = none := by
  refine (stuckOn_unblocked known env.fuel t n order ready).bind fun o m _ unblocked => ?_
  refine Yields.pure ?_
  cases o with
  | none => rfl
  | some u => exact unblocked u rfl

end Reduction

/-- The variables that the types speak of. -/
def Types.Scope (Γ : Types) (x : Var) : Prop := x ∈ Γ.map Prod.fst

instance (Γ : Types) : DecidablePred Γ.Scope :=
  fun x => inferInstanceAs (Decidable (x ∈ Γ.map Prod.fst))

/-- Types that the store has for some of its variables, and that mention these variables only. -/
structure Types.Legible (Γ : Types) (s : Store) : Prop where
  known : ∀ x type, Γ.lookup x = some type → ∃ t, s.context.lookup x = some t ∧ t.reading = type
  closed : ∀ x type, Γ.lookup x = some type → type.Finished Γ.Scope

namespace Types

variable {Γ : Types} {s s' : Store} {x : Var}

theorem Scope.lookup (inScope : Γ.Scope x) : ∃ type, Γ.lookup x = some type := by
  cases found : Γ.lookup x with
  | some type => exact ⟨type, rfl⟩
  | none =>
      obtain ⟨e, member, rfl⟩ := List.mem_map.mp inScope
      exact absurd (List.lookup_eq_none_iff.mp found e member) (by simp)

theorem Scope.of_lookup {type : Nameless} (found : Γ.lookup x = some type) : Γ.Scope x :=
  List.mem_map_of_mem (mem_of_lookup found)

theorem Legible.met (legible : Γ.Legible s) (inScope : Γ.Scope x) :
    x ∈ s.context.map Prod.fst := by
  obtain ⟨type, found⟩ := inScope.lookup
  obtain ⟨t, there, _⟩ := legible.known x type found
  exact List.mem_map_of_mem (mem_of_lookup there)

/-- New variables of the store do not cover the old ones. -/
theorem Legible.later (legible : Γ.Legible s) (grows : s.Grows s') (apart : s'.Apart) :
    Γ.Legible s' where
  known x type found := by
    obtain ⟨t, there, same⟩ := legible.known x type found
    obtain ⟨new, context⟩ := grows
    have distinct : (new.map Prod.fst ++ s.context.map Prod.fst).Nodup := by
      rw [← List.map_append, context]
      exact apart
    have outside : new.lookup x = none := by
      rw [List.lookup_eq_none_iff]
      intro e isNew
      have old := legible.met (Scope.of_lookup found)
      have other := (List.nodup_append.mp distinct).2.2 e.1 (List.mem_map_of_mem isNew) x old
      simpa using other.symm
    refine ⟨t, ?_, same⟩
    rw [← context, List.lookup_append, outside, there]
    rfl
  closed := legible.closed

/-- A binder comes into the scope with its type. -/
theorem Legible.bind (legible : Γ.Legible s) {type : Term} (bound : s'.context = (x, type) :: s.context)
    (closed : type.reading.Finished Γ.Scope) :
    Types.Legible ((x, type.reading) :: Γ) s' where
  known z ty found := by
    rw [List.lookup_cons] at found
    rw [bound, List.lookup_cons]
    split at found
    · cases found
      exact ⟨type, rfl, rfl⟩
    · exact legible.known z _ found
  closed z ty found := by
    have wider : ∀ w, Γ.Scope w → Types.Scope ((x, type.reading) :: Γ) w :=
      fun w member => List.mem_cons_of_mem _ member
    rw [List.lookup_cons] at found
    split at found
    · cases found
      exact closed.mono wider
    · exact (legible.closed z _ found).mono wider

theorem Legible.unmet (legible : Γ.Legible s) {type : Term}
    (bound : s'.context = (x, type) :: s.context) (apart : s'.Apart) : ¬ Γ.Scope x := by
  intro inScope
  have distinct : (x :: s.context.map Prod.fst).Nodup := by
    have all := apart
    rwa [Store.Apart, bound] at all
  exact (List.nodup_cons.mp distinct).1 (legible.met inScope)

end Types

theorem Term.fixed?_eq_some {t value : Term} {f : DefId} (fixed : t.fixed? f = some value) :
    ∃ c levels fields, t = .record c levels fields ∧ fields.lookup f = some value := by
  cases t with
  | record c levels fields => exact ⟨c, levels, fields, rfl, fixed⟩
  | _ => cases fixed

section Fields

variable {env : Environment} {low n : Nat} {s : Store}

/-- The value of a field is what the readings show. -/
theorem implementedField_reveals (known : env.Ready low) (ready : s.Ready n) : ∀ (fuel : Nat) (t : Term)
    (m : Nat), low ≤ m → n ≤ m → t.Ready m →
    Yields (implementedField s.context env fuel t) m fun v k => v.Ready k ∧
      ∀ Γ : Types, Γ.Legible s → t.reading.Finished Γ.Scope → v.reading.Finished Γ.Scope ∧
        ∀ a, a.Evaluates env t.reading → Reveals env Γ a v.reading := by
  intro fuel
  induction fuel with
  | zero =>
      intro t m _ _ _
      exact Yields.throw
  | succ fuel ih =>
      intro t m order old isReady
      have itself : Yields (pure t) m fun v k => v.Ready k ∧
          ∀ Γ : Types, Γ.Legible s → t.reading.Finished Γ.Scope → v.reading.Finished Γ.Scope ∧
            ∀ a, a.Evaluates env t.reading → Reveals env Γ a v.reading :=
        Yields.pure ⟨isReady, fun Γ _ finished => ⟨finished, fun _ => .evaluated⟩⟩
      unfold implementedField
      split
      · rename_i f u x
        split
        · exact itself
        · rename_i type found
          have typeReady := (ready.lookup found).mono old
          refine (typeReady.reduces known order).bind fun r k next seen => ?_
          obtain ⟨rReady, typeReveals, typeKept⟩ := seen
          cases fixed : r.fixed? f with
          | none => exact (Yields.pure ⟨isReady.mono next, fun Γ _ finished =>
              ⟨finished, fun _ => .evaluated⟩⟩)
          | some value =>
              obtain ⟨c, levels, fields, rfl, holds⟩ := Term.fixed?_eq_some fixed
              have slot := fields_slot? f fields
              rw [holds, Option.map_some] at slot
              have valueReady := rReady.fixed holds
              refine (valueReady.reduces known (order.trans next)).bind fun w i later shown => ?_
              obtain ⟨wReady, valueReveals, valueKept⟩ := shown
              have before := next.trans later
              refine (ih w i (order.trans before) (old.trans before) wReady).weaken ?_
              rintro v j ⟨vReady, result⟩
              refine ⟨vReady, fun Γ legible finished => ?_⟩
              obtain ⟨ty, inTypes⟩ := Types.Scope.lookup finished.2.1
              obtain ⟨type', inContext, rfl⟩ := legible.known x ty inTypes
              obtain rfl : type = type' := Option.some.inj (found.symm.trans inContext)
              have closed := typeKept _ (legible.closed x _ inTypes)
              have valueFinished := valueKept _ (closed.2.slot slot)
              obtain ⟨vFinished, reveals⟩ := result Γ legible valueFinished
              exact ⟨vFinished, fun a evaluates =>
                .implemented evaluates inTypes typeReveals slot (reveals _ valueReveals)⟩
      · exact itself

end Fields

end PathTheory
