import PathTheory.Proofs.Level.Assignment
import PathTheory.Proofs.Level.Overflow
/-!
The solver as a whole. Homotopy and predicative levels are solved apart, offsets before constants.
It answers with a solution exactly when there is one that is infinite only where an infinite left
side forces it, and its answer is then below every solution. A cycle is reported also where only
infinity would satisfy it.
-/
namespace PathTheory

open Rank LevelEquations

theorem solving_bind {α β : Type} {a : Solving α} {f : α → Solving β} {r : Except LevelError β}
    (done : (a >>= f).run = .ok r) : ∃ s, a.run = .ok s ∧
      match s with
      | .error e => r = .error e
      | .ok x => (f x).run = .ok r := by
  obtain ⟨s, first, rest⟩ := bind_ok (a := a.run) done
  refine ⟨s, first, ?_⟩
  cases s with
  | error e => exact (Except.ok.inj rest).symm
  | ok x => exact rest

theorem solving_lift {α : Type} {a : Checked α} {r : Except LevelError α}
    (done : (liftM a : Solving α).run = .ok r) : ∃ x, a = .ok x ∧ r = .ok x := by
  obtain ⟨x, first, rest⟩ := bind_ok (a := a) done
  exact ⟨x, first, (Except.ok.inj rest).symm⟩

namespace LevelVar

theorem mem_insertOrdered {x y : LevelVar} {xs : List LevelVar} :
    x ∈ insertOrdered y xs ↔ x = y ∨ x ∈ xs := by
  induction xs with
  | nil => simp [insertOrdered]
  | cons z rest ih =>
      unfold insertOrdered
      split
      · rename_i same
        have known : y = z := by
          simpa using same
        simp [known]
      · split
        · simp
        · simp only [List.mem_cons, ih]
          exact or_left_comm

theorem mem_ordered {x : LevelVar} {xs : List LevelVar} : x ∈ ordered xs ↔ x ∈ xs := by
  induction xs with
  | nil => rfl
  | cons y rest ih =>
      rw [ordered, List.foldr_cons, mem_insertOrdered, List.mem_cons]
      exact or_congr_right ih

end LevelVar

theorem lookup_map_pair {β : Type} (g : LevelVar → β) (xs : List LevelVar) (x : LevelVar) :
    (xs.map fun y => (y, g y)).lookup x = if x ∈ xs then some (g x) else none := by
  induction xs with
  | nil => rfl
  | cons y rest ih =>
      rw [List.map_cons, lookup_cons_if, ih]
      by_cases same : x = y
      · simp [same]
      · simp [same]

/-- Each inferred variable of the constraints starts at its floor. -/
theorem lookup_initialValues (constraints : List LevelConstraint) (x : LevelVar) :
    (initialValues constraints).lookup x =
      if x ∈ constraints.flatMap LevelConstraint.inferred then some (.finite none x.floor)
      else none := by
  rw [initialValues, lookup_map_pair fun y => LevelValue.finite none y.floor]
  simp only [LevelVar.mem_ordered]

theorem initial_valued (constraints : List LevelConstraint) :
    Valued constraints (initialValues constraints) := by
  intro c listed x inferred
  have member : x ∈ constraints.flatMap LevelConstraint.inferred :=
    List.mem_flatMap.mpr ⟨c, listed, inferred⟩
  rw [lookup_initialValues, if_pos member]
  rfl

theorem settlePhase_run {phase : SolvePhase} {constraints : List LevelConstraint}
    {progress : LevelProgress} {r : Except LevelError LevelProgress}
    (done : (settlePhase phase constraints progress).run = .ok r) :
    ∃ after left, settle phase constraints (progress.values.length + 2) progress =
        .ok (after, left) ∧ (left = none → r = .ok after) ∧ ∀ x, left = some x →
          r = .error (.cycle
            (raisingChain after.reasons (progress.values.length + 1) [] x [])) := by
  unfold settlePhase at done
  obtain ⟨s, first, rest⟩ := solving_bind done
  obtain ⟨⟨after, left⟩, settled, rfl⟩ := solving_lift first
  refine ⟨after, left, settled, ?_⟩
  cases left with
  | none => exact ⟨fun _ => (Except.ok.inj rest).symm, nofun⟩
  | some x =>
      refine ⟨nofun, ?_⟩
      rintro _ ⟨⟩
      exact (Except.ok.inj rest).symm

/-- A phase that succeeds ends with closed ranks. -/
theorem settlePhase_ok {phase : SolvePhase} {constraints : List LevelConstraint}
    {progress after : LevelProgress} (valued : Valued constraints progress.values)
    (done : (settlePhase phase constraints progress).run = .ok (.ok after)) :
    Passes phase constraints progress.values after.values ∧
      phase.Closed constraints (phase.ranks after.values) := by
  obtain ⟨final, left, settled, rest, stuck⟩ := settlePhase_run done
  obtain ⟨passes, closed⟩ := settle_ok valued settled
  cases left with
  | none =>
      cases rest rfl
      exact ⟨passes, closed rfl (Nat.succ_pos _)⟩
  | some x => cases stuck x rfl

theorem lagging_le_length (phase : SolvePhase) (constraints : List LevelConstraint)
    (values : List (LevelVar × LevelValue)) :
    (lagging phase constraints values).card ≤ values.length := by
  calc (lagging phase constraints values).card
      ≤ (values.map Prod.fst).toFinset.card := Finset.card_filter_le _ _
    _ ≤ (values.map Prod.fst).length := List.toFinset_card_le _
    _ = values.length := List.length_map _

/-- A phase succeeds if there are closed ranks above its start that are infinite only where this is
    forced. -/
theorem settlePhase_complete {phase : SolvePhase} {constraints : List LevelConstraint}
    {progress : LevelProgress} {r : Except LevelError LevelProgress} {υ : LevelVar → Rank}
    (valued : Valued constraints progress.values) (closed : phase.Closed constraints υ)
    (above : phase.ranks progress.values ≤ υ)
    (forced : ∀ x, (progress.values.lookup x).isSome → υ x = ⊤ → Forced constraints x)
    (done : (settlePhase phase constraints progress).run = .ok r) : ∃ after, r = .ok after := by
  obtain ⟨after, left, settled, rest, _⟩ := settlePhase_run done
  have finished : left = none := by
    apply settle_rests valued _ _ settled
    · intro x isKey infinite
      apply forced x isKey
      exact top_le_iff.mp (infinite ▸ SolvePhase.closure_le closed above x)
    · have few := lagging_le_length phase constraints progress.values
      omega
  exact ⟨after, rest finished⟩

namespace LevelEquations

/-- The constraints of one kind. -/
def ofKind (e : LevelEquations) (kind : LevelKind) : List LevelConstraint :=
  e.constraints.toList.filter (·.kind? == some kind)

/-- A constraint with an infinite variable. -/
def Infinite (values : List (LevelVar × LevelValue)) (c : LevelConstraint) : Prop :=
  ∃ x ∈ c.vars, values.lookup x = some .infinite

theorem solveKind_run {e : LevelEquations} {kind : LevelKind}
    {r : Except LevelError (List (LevelVar × LevelValue))}
    (done : (e.solveKind kind).run = .ok r) :
    ∃ s, (settlePhase .based (e.ofKind kind) ⟨initialValues (e.ofKind kind), []⟩).run = .ok s ∧
      match s with
      | .error failure => r = .error failure
      | .ok based => ∃ t, (settlePhase .free (e.ofKind kind) based).run = .ok t ∧
          match t with
          | .error failure => r = .error failure
          | .ok final =>
              (kind = .predicative → ∀ c ∈ e.ofKind kind, ¬ Infinite final.values c) ∧
                  r = .ok final.values ∨
                (∃ c, r = .error (.unsolved c)) ∧
                  kind = .predicative ∧ ∃ c ∈ e.ofKind kind, Infinite final.values c := by
  unfold solveKind at done
  obtain ⟨s, first, rest⟩ := solving_bind done
  refine ⟨s, first, ?_⟩
  cases s with
  | error failure => exact rest
  | ok based =>
      obtain ⟨t, second, rest⟩ := solving_bind rest
      refine ⟨t, second, ?_⟩
      cases t with
      | error failure => exact rest
      | ok final =>
          have infinite_iff (c : LevelConstraint) :
              (c.vars.any fun x => final.values.lookup x == some .infinite) = true ↔
                Infinite final.values c := by
            simp [Infinite]
          by_cases predicative : kind = .predicative
          · simp only [predicative, beq_self_eq_true, if_true] at rest
            rw [← predicative] at rest
            cases search : (e.ofKind kind).find? fun c =>
              c.vars.any fun x => final.values.lookup x == some .infinite with
            | some c =>
                right
                have member := List.mem_of_find?_eq_some search
                have hit := List.find?_some search
                unfold ofKind at search
                rw [search] at rest
                exact ⟨⟨_, (Except.ok.inj rest).symm⟩, predicative, c, member,
                  (infinite_iff c).mp hit⟩
            | none =>
                left
                unfold ofKind at search
                rw [search] at rest
                refine ⟨fun _ c listed infinite => ?_, (Except.ok.inj rest).symm⟩
                exact List.find?_eq_none.mp search c listed ((infinite_iff c).mpr infinite)
          · left
            refine ⟨fun impossible => absurd impossible predicative, ?_⟩
            have other : (kind == .predicative) = false := by
              simpa using predicative
            rw [other] at rest
            exact (Except.ok.inj rest).symm

/-- What is known of the values found for one kind of levels. -/
structure Found (constraints : List LevelConstraint) (kind : LevelKind)
    (values : List (LevelVar × LevelValue)) : Prop where
  keys : ∀ x, (values.lookup x).isSome ↔ x ∈ constraints.flatMap LevelConstraint.inferred
  floors : ∀ x n k, values.lookup x = some (.finite k n) → x.floor ≤ n
  offsets : SolvePhase.based.Closed constraints (SolvePhase.based.ranks values)
  constants : SolvePhase.free.Closed constraints (SolvePhase.free.ranks values)
  forced : ∀ x, values.lookup x = some .infinite → Forced constraints x
  least : ∀ t : LevelSolution, t.Solves constraints → (∀ c ∈ constraints, c.OneKind) → ∀ x,
    SolvePhase.based.ranks values x ≤ t.ranks .based x ∧
      SolvePhase.free.ranks values x ≤ t.ranks .free x
  finite : kind = .predicative → ∀ c ∈ constraints, ¬ Infinite values c

theorem initial_offsets (constraints : List LevelConstraint) (x : LevelVar) :
    SolvePhase.based.ranks (initialValues constraints) x = ⊥ := by
  rw [SolvePhase.ranks, lookup_initialValues]
  by_cases member : x ∈ constraints.flatMap LevelConstraint.inferred
  · rw [if_pos member]
    rfl
  · rw [if_neg member]

theorem infinite_offset_iff {t : LevelSolution} {x : LevelVar} :
    t.ranks .based x = ⊤ ↔ t.get? x = some .infinity := by
  unfold LevelSolution.ranks
  cases t.get? x with
  | none => simp
  | some a =>
      cases a with
      | const c => simp [Level.slope]
      | infinity => simp [Level.slope]
      | shift y c m => simpa [Level.slope] using (ofInt_lt_top c).ne

theorem infinite_constant {t : LevelSolution} {x : LevelVar} (infinite : t.ranks .free x = ⊤) :
    t.get? x = some .infinity := by
  unfold LevelSolution.ranks at infinite
  cases known : t.get? x with
  | none => simp [known] at infinite
  | some a =>
      simp only [known] at infinite
      by_contra apart
      have finite : a ≠ .infinity := fun same => apart (same ▸ rfl)
      exact Level.finite_under finite (fun _ => 0) (WithBot.coe_injective infinite)

/-- After the offsets are found, every value is still under each solution. -/
theorem start_constants {constraints : List LevelConstraint}
    {values : List (LevelVar × LevelValue)} {t : LevelSolution} (solves : t.Solves constraints)
    (passes : Passes .based constraints (initialValues constraints) values)
    (offsets : SolvePhase.based.ranks values ≤ t.ranks .based) :
    SolvePhase.free.ranks values ≤ t.ranks .free := by
  intro x
  cases found : values.lookup x with
  | none => simp [SolvePhase.ranks, found]
  | some v =>
      have isKey : x ∈ constraints.flatMap LevelConstraint.inferred := by
        have known : (values.lookup x).isSome := by
          simp [found]
        rw [lookup_isSome_iff, passes.keys, ← lookup_isSome_iff, lookup_initialValues] at known
        by_contra other
        simp [other] at known
      obtain ⟨c, listed, inferred⟩ := List.mem_flatMap.mp isKey
      obtain ⟨a, assigned⟩ := Option.isSome_iff_exists.mp (solves.total c listed x inferred)
      cases v with
      | infinite =>
          have top : SolvePhase.based.ranks values x = ⊤ := ranks_eq_top_iff.mpr found
          have infinite := infinite_offset_iff.mp (top_le_iff.mp (top ▸ offsets x))
          simp [LevelSolution.ranks, infinite, Level.under, Level.value]
      | finite k n =>
          obtain ⟨k', start⟩ := passes.keeps_constants found
          rw [lookup_initialValues, if_pos isKey] at start
          cases start
          simp only [SolvePhase.ranks, found, SolvePhase.rank, LevelSolution.ranks, assigned]
          exact WithBot.coe_le_coe.mpr ((solves.admitted x a assigned).2.floor _)

theorem start_offsets (constraints : List LevelConstraint) (ρ : LevelVar → Rank) :
    SolvePhase.based.ranks (initialValues constraints) ≤ ρ := by
  intro x
  rw [initial_offsets]
  exact bot_le

theorem solveKind_ok {e : LevelEquations} {kind : LevelKind}
    {values : List (LevelVar × LevelValue)} (done : (e.solveKind kind).run = .ok (.ok values)) :
    Found (e.ofKind kind) kind values := by
  obtain ⟨s, first, next⟩ := solveKind_run done
  cases s with
  | error failure => cases next
  | ok based =>
      obtain ⟨t, second, next⟩ := next
      cases t with
      | error failure => cases next
      | ok final =>
          have startValued := initial_valued (e.ofKind kind)
          obtain ⟨basedPasses, basedClosed⟩ := settlePhase_ok startValued first
          obtain ⟨freePasses, constants⟩ := settlePhase_ok
            (basedPasses.valued startValued) second
          have kept := freePasses.keeps_offsets basedClosed
          rcases next with ⟨finite, same⟩ | ⟨⟨failure, impossible⟩, _⟩
          · cases same
            constructor
            · intro x
              rw [lookup_isSome_iff, freePasses.keys, basedPasses.keys, ← lookup_isSome_iff,
                lookup_initialValues]
              split <;> simp_all
            · intro x n k found
              have grown := freePasses.ranks_le x
              have after : SolvePhase.free.ranks final.values x = ofInt n := by
                simp [SolvePhase.ranks, found, SolvePhase.rank]
              have known : (based.values.lookup x).isSome := by
                rw [lookup_isSome_iff, ← freePasses.keys, ← lookup_isSome_iff, found]
                rfl
              obtain ⟨v, before⟩ := Option.isSome_iff_exists.mp known
              rw [after] at grown
              cases v with
              | infinite =>
                  have top : SolvePhase.free.ranks based.values x = ⊤ :=
                    ranks_eq_top_iff.mpr before
                  exact absurd (top ▸ grown) (not_le.mpr (ofInt_lt_top n))
              | finite k' m =>
                  obtain ⟨start, initial⟩ := basedPasses.keeps_constants before
                  rw [lookup_initialValues] at initial
                  split at initial
                  · cases initial
                    simpa [SolvePhase.ranks, before, SolvePhase.rank, ofInt_le] using grown
                  · cases initial
            · rw [kept]
              exact basedClosed
            · exact constants
            · intro x infinite
              apply freePasses.forced _ x (ranks_eq_top_iff.mpr infinite)
              intro y top
              apply basedPasses.forced _ y
              · rw [ranks_eq_top_iff] at top ⊢
                exact top
              · intro z impossible
                rw [initial_offsets] at impossible
                cases impossible
            · intro t solves oneKind x
              have offsets := basedPasses.below_closed (solves.offsets_closed oneKind)
                (start_offsets _ _)
              constructor
              · rw [kept]
                exact offsets x
              · exact freePasses.below_closed solves.constants_closed
                  (start_constants solves basedPasses offsets) x
            · exact finite
          · cases impossible

/-- Each kind is solved if there is a solution that is infinite only where this is forced. -/
theorem solveKind_complete {e : LevelEquations} {kind : LevelKind}
    {r : Except LevelError (List (LevelVar × LevelValue))} {t : LevelSolution}
    (oneKind : ∀ c ∈ e.ofKind kind, c.OneKind)
    (ofKind : ∀ c ∈ e.ofKind kind, ∀ x ∈ c.vars, x.kind = kind)
    (solves : t.Solves (e.ofKind kind))
    (forced : ∀ x, x.kind = kind → t.get? x = some .infinity → Forced (e.ofKind kind) x)
    (done : (e.solveKind kind).run = .ok r) : ∃ values, r = .ok values := by
  obtain ⟨s, first, next⟩ := solveKind_run done
  have startValued := initial_valued (e.ofKind kind)
  have keyKind : ∀ x, ((initialValues (e.ofKind kind)).lookup x).isSome → x.kind = kind := by
    intro x isKey
    rw [lookup_initialValues] at isKey
    split at isKey
    · rename_i member
      obtain ⟨c, listed, inferred⟩ := List.mem_flatMap.mp member
      exact ofKind c listed x (List.mem_filter.mp inferred).1
    · cases isKey
  obtain ⟨based, rfl⟩ := settlePhase_complete startValued (solves.offsets_closed oneKind)
    (start_offsets _ _)
    (fun x isKey top => forced x (keyKind x isKey) (infinite_offset_iff.mp top)) first
  obtain ⟨u, second, next⟩ := next
  obtain ⟨basedPasses, basedClosed⟩ := settlePhase_ok startValued first
  have offsets := basedPasses.below_closed (solves.offsets_closed oneKind) (start_offsets _ _)
  have basedValued := basedPasses.valued startValued
  obtain ⟨final, rfl⟩ := settlePhase_complete basedValued solves.constants_closed
    (start_constants solves basedPasses offsets)
    (fun x isKey top => forced x
      (keyKind x (by rwa [lookup_isSome_iff, ← basedPasses.keys, ← lookup_isSome_iff]))
      (infinite_constant top)) second
  rcases next with ⟨_, same⟩ | ⟨_, predicative, c, listed, x, isVar, infinite⟩
  · exact ⟨_, same⟩
  · obtain ⟨freePasses, _⟩ := settlePhase_ok basedValued second
    have kept := freePasses.keeps_offsets basedClosed
    have top : SolvePhase.based.ranks final.values x = ⊤ := ranks_eq_top_iff.mpr infinite
    rw [kept] at top
    have assigned := infinite_offset_iff.mp (top_le_iff.mp (top ▸ offsets x))
    have admits := (solves.admitted x _ assigned).2
    exact absurd rfl (admits.finite ((ofKind c listed x isVar).trans predicative))

theorem entry_run {all : List (LevelVar × LevelValue)} {x : LevelVar}
    {r : Except LevelError (Option (LevelVar × Level))} (done : (entry all x).run = .ok r) :
    match all.lookup x with
    | none => r = .ok none
    | some v => ∃ a, v.toLevel x.kind = .ok a ∧ r = .ok (some (x, a)) := by
  unfold entry at done
  cases found : all.lookup x with
  | none =>
      simp only [found] at done
      exact (Except.ok.inj done).symm
  | some v =>
      simp only [found] at done
      obtain ⟨s, first, rest⟩ := solving_bind done
      obtain ⟨a, made, rfl⟩ := solving_lift first
      exact ⟨a, made, (Except.ok.inj rest).symm⟩

/-- The solution gives each variable the level that was found for it. -/
theorem entries_lookup {all : List (LevelVar × LevelValue)} {xs : List LevelVar}
    {r : Except LevelError (List (LevelVar × Level))}
    (done : (xs.filterMapM (entry all)).run = .ok r) : ∃ entries, r = .ok entries ∧
      ∀ x, (all.lookup x = none → entries.lookup x = none) ∧
        ∀ v, all.lookup x = some v → x ∈ xs →
          ∃ a, v.toLevel x.kind = .ok a ∧ entries.lookup x = some a := by
  induction xs generalizing r with
  | nil =>
      refine ⟨[], (Except.ok.inj done).symm, fun x => ⟨fun _ => rfl, ?_⟩⟩
      intro v _ impossible
      cases impossible
  | cons y rest ih =>
      rw [List.filterMapM_cons] at done
      obtain ⟨s, first, next⟩ := solving_bind done
      have spec := entry_run first
      cases found : all.lookup y with
      | none =>
          simp only [found] at spec
          subst spec
          obtain ⟨entries, rfl, known⟩ := ih next
          refine ⟨entries, rfl, fun x => ⟨(known x).1, fun v isValue member => ?_⟩⟩
          rcases List.mem_cons.mp member with rfl | member
          · simp [found] at isValue
          · exact (known x).2 v isValue member
      | some value =>
          simp only [found] at spec
          obtain ⟨b, made, rfl⟩ := spec
          obtain ⟨s, second, next⟩ := solving_bind next
          obtain ⟨entries, rfl, known⟩ := ih second
          refine ⟨(y, b) :: entries, (Except.ok.inj next).symm, fun x => ?_⟩
          rw [lookup_cons_if]
          by_cases same : x = y
          · subst same
            rw [if_pos rfl]
            refine ⟨fun missing => ?_, fun v isValue _ => ?_⟩
            · simp [found] at missing
            · rw [found, Option.some.injEq] at isValue
              exact ⟨b, isValue ▸ made, rfl⟩
          · rw [if_neg same]
            refine ⟨(known x).1, fun v isValue member => ?_⟩
            exact (known x).2 v isValue ((List.mem_cons.mp member).resolve_left same)

theorem firstUnsatisfied_none {s : LevelSolution} {constraints : List LevelConstraint}
    (done : firstUnsatisfied s constraints = .ok none) :
    ∀ c ∈ constraints, s.satisfies c = .ok true := by
  induction constraints with
  | nil => exact fun c impossible => absurd impossible List.not_mem_nil
  | cons d rest ih =>
      obtain ⟨met, satisfied, next⟩ := bind_ok done
      cases met with
      | false => cases next
      | true =>
          intro c listed
          rcases List.mem_cons.mp listed with rfl | listed
          · exact satisfied
          · exact ih next c listed

theorem firstUnsatisfied_some {s : LevelSolution} {constraints : List LevelConstraint}
    {c : LevelConstraint} (done : firstUnsatisfied s constraints = .ok (some c)) :
    c ∈ constraints ∧ s.satisfies c = .ok false := by
  induction constraints with
  | nil => cases done
  | cons d rest ih =>
      obtain ⟨met, satisfied, next⟩ := bind_ok done
      cases met with
      | false =>
          cases next
          exact ⟨List.mem_cons_self, satisfied⟩
      | true =>
          obtain ⟨listed, failed⟩ := ih next
          exact ⟨List.mem_cons_of_mem _ listed, failed⟩

/-- The values of both kinds, and the solution made of them. -/
structure Assembled (e : LevelEquations) (values : LevelKind → List (LevelVar × LevelValue))
    (s : LevelSolution) : Prop where
  found : ∀ kind, Found (e.ofKind kind) kind (values kind)
  levels : ∀ x, match (values x.kind).lookup x with
    | none => s.get? x = none
    | some v => ∃ a, v.toLevel x.kind = .ok a ∧ s.get? x = some a

section Kinds

variable {e : LevelEquations}

theorem ofKind_among {kind : LevelKind} {c : LevelConstraint} (listed : c ∈ e.ofKind kind) :
    c ∈ e.constraints.toList := (List.mem_filter.mp listed).1

/-- A constraint of one kind is solved with its kind. -/
theorem mem_ofKind {c : LevelConstraint} (listed : c ∈ e.constraints.toList)
    (oneKind : c.OneKind) {x : LevelVar} (inferred : x ∈ c.inferred) : c ∈ e.ofKind x.kind := by
  refine List.mem_filter.mpr ⟨listed, ?_⟩
  cases first : c.inferred with
  | nil => simp [first] at inferred
  | cons y rest =>
      have yListed : y ∈ c.inferred := by
        simp [first]
      have same : y.kind = x.kind := oneKind y (List.mem_filter.mp yListed).1 x
        (List.mem_filter.mp inferred).1
      simp [LevelConstraint.kind?, first, same]

theorem ofKind_kind {kind : LevelKind} {c : LevelConstraint} (listed : c ∈ e.ofKind kind)
    (oneKind : c.OneKind) {x : LevelVar} (isVar : x ∈ c.vars) : x.kind = kind := by
  have chosen := (List.mem_filter.mp listed).2
  cases first : c.inferred with
  | nil => simp [LevelConstraint.kind?, first] at chosen
  | cons y rest =>
      have yListed : y ∈ c.inferred := by
        simp [first]
      have known : y.kind = kind := by
        simpa [LevelConstraint.kind?, first] using chosen
      rw [← known]
      exact oneKind x isVar y (List.mem_filter.mp yListed).1

theorem forced_ofKind (oneKind : ∀ c ∈ e.constraints.toList, c.OneKind) {x : LevelVar}
    (forced : Forced e.constraints.toList x) : Forced (e.ofKind x.kind) x := by
  induction forced with
  | @limit c x listed infinite target =>
      exact .limit (mem_ofKind listed (oneKind c listed) (LevelConstraint.target_inferred target))
        infinite target
  | @step c x y listed source target forced ih =>
      have inferred := LevelConstraint.target_inferred target
      have same : y.kind = x.kind := by
        apply oneKind c listed y _ x (List.mem_filter.mp inferred).1
        simp [LevelConstraint.vars, source]
      exact .step (mem_ofKind listed (oneKind c listed) inferred) source target (same ▸ ih)

theorem Found.kind_eq {kind : LevelKind} {values : List (LevelVar × LevelValue)}
    (oneKind : ∀ c ∈ e.constraints.toList, c.OneKind) (found : Found (e.ofKind kind) kind values)
    {x : LevelVar} (known : (values.lookup x).isSome) :
    x.kind = kind ∧ x.isInference = true := by
  obtain ⟨c, listed, inferred⟩ := List.mem_flatMap.mp ((found.keys x).mp known)
  obtain ⟨isVar, isInference⟩ := List.mem_filter.mp inferred
  exact ⟨ofKind_kind listed (oneKind c (ofKind_among listed)) isVar, isInference⟩

end Kinds

/-- The values found for both kinds, and what the solver makes of them. -/
theorem solve_steps {e : LevelEquations} {r : Except LevelError LevelSolution}
    (done : e.solve.run = .ok r) :
    (∃ kind failure, (e.solveKind kind).run = .ok (.error failure) ∧ r = .error failure) ∨
      ∃ values : LevelKind → List (LevelVar × LevelValue),
        (∀ kind, Found (e.ofKind kind) kind (values kind)) ∧ ∃ s : LevelSolution,
          (∀ x, match (values .predicative ++ values .homotopy).lookup x with
            | none => s.get? x = none
            | some v => ∃ a, v.toLevel x.kind = .ok a ∧ s.get? x = some a) ∧
          (r = .ok s ∧ (∀ c ∈ e.constraints.toList, s.satisfies c = .ok true) ∨
            ∃ c ∈ e.constraints.toList, s.satisfies c = .ok false ∧ r = .error (.unsolved c)) := by
  unfold solve at done
  obtain ⟨homotopyRun, first, next⟩ := solving_bind done
  cases homotopyRun with
  | error failure => exact .inl ⟨.homotopy, failure, first, next⟩
  | ok homotopy =>
      obtain ⟨predicativeRun, second, next⟩ := solving_bind next
      cases predicativeRun with
      | error failure => exact .inl ⟨.predicative, failure, second, next⟩
      | ok predicative =>
          right
          obtain ⟨entriesRun, third, next⟩ := solving_bind next
          obtain ⟨entries, rfl, known⟩ := entries_lookup third
          refine ⟨fun | .homotopy => homotopy | .predicative => predicative, ?_, ⟨entries⟩, ?_, ?_⟩
          · intro kind
            cases kind with
            | homotopy => exact solveKind_ok first
            | predicative => exact solveKind_ok second
          · intro x
            have spec := known x
            dsimp only
            cases value : (predicative ++ homotopy).lookup x with
            | none => exact spec.1 value
            | some v =>
                apply spec.2 v value
                rw [LevelVar.mem_ordered, ← lookup_isSome_iff, value]
                rfl
          · obtain ⟨checked, fourth, next⟩ := solving_bind next
            obtain ⟨failed, checkedAll, rfl⟩ := solving_lift fourth
            cases failed with
            | none =>
                left
                exact ⟨(Except.ok.inj next).symm, firstUnsatisfied_none checkedAll⟩
            | some c =>
                right
                obtain ⟨listed, unmet⟩ := firstUnsatisfied_some checkedAll
                exact ⟨c, listed, unmet, (Except.ok.inj next).symm⟩

theorem solve_run {e : LevelEquations} {r : Except LevelError LevelSolution}
    (oneKind : ∀ c ∈ e.constraints.toList, c.OneKind) (done : e.solve.run = .ok r) :
    (∃ kind failure, (e.solveKind kind).run = .ok (.error failure) ∧ r = .error failure) ∨
      ∃ values s, Assembled e values s ∧
        (r = .ok s ∧ (∀ c ∈ e.constraints.toList, s.satisfies c = .ok true) ∨
          ∃ c ∈ e.constraints.toList, s.satisfies c = .ok false ∧ r = .error (.unsolved c)) := by
  refine (solve_steps done).imp_right ?_
  rintro ⟨values, found, s, levels, final⟩
  refine ⟨values, s, ⟨found, fun x => ?_⟩, final⟩
  have together : (values .predicative ++ values .homotopy).lookup x =
      (values x.kind).lookup x := by
    rw [List.lookup_append]
    cases isKind : x.kind with
    | predicative =>
        cases other : (values .homotopy).lookup x with
        | none => simp
        | some v =>
            have known := ((found .homotopy).kind_eq oneKind (x := x) (by simp [other])).1
            rw [isKind] at known
            cases known
    | homotopy =>
        cases other : (values .predicative).lookup x with
        | none => simp
        | some v =>
            have known := ((found .predicative).kind_eq oneKind (x := x) (by simp [other])).1
            rw [isKind] at known
            cases known
  rw [← together]
  exact levels x

theorem Found.param {constraints : List LevelConstraint} {kind : LevelKind}
    {values : List (LevelVar × LevelValue)} (found : Found constraints kind values)
    (k : LevelKind) : values.lookup (.param k) = none := by
  rw [← Option.not_isSome_iff_eq_none, found.keys]
  intro member
  obtain ⟨c, _, inferred⟩ := List.mem_flatMap.mp member
  cases (List.mem_filter.mp inferred).2

/-- What the solver gives satisfies every constraint and leaves the level parameters alone. -/
theorem solve_satisfies {e : LevelEquations} {s : LevelSolution}
    (done : e.solve.run = .ok (.ok s)) :
    (∀ c ∈ e.constraints.toList, s.satisfies c = .ok true) ∧
      ∀ k, s.get? (.param k) = none := by
  rcases solve_steps done with ⟨_, _, _, impossible⟩ | ⟨values, found, t, levels, final⟩
  · cases impossible
  · rcases final with ⟨same, satisfied⟩ | ⟨_, _, _, impossible⟩
    · cases same
      refine ⟨satisfied, fun k => ?_⟩
      have spec := levels (.param k)
      rwa [List.lookup_append, (found .predicative).param k, (found .homotopy).param k] at spec
    · cases impossible

namespace Assembled

variable {e : LevelEquations} {values : LevelKind → List (LevelVar × LevelValue)}
  {s : LevelSolution}

theorem value_of_level (assembled : Assembled e values s) {x : LevelVar} {a : Level}
    (assigned : s.get? x = some a) :
    ∃ v, (values x.kind).lookup x = some v ∧ v.toLevel x.kind = .ok a := by
  have spec := assembled.levels x
  cases found : (values x.kind).lookup x with
  | none =>
      simp only [found] at spec
      cases spec.symm.trans assigned
  | some v =>
      simp only [found] at spec
      obtain ⟨b, made, known⟩ := spec
      cases known.symm.trans assigned
      exact ⟨v, rfl, made⟩

theorem infinite_iff (assembled : Assembled e values s) {x : LevelVar} :
    s.get? x = some .infinity ↔ (values x.kind).lookup x = some .infinite := by
  constructor
  · intro assigned
    obtain ⟨v, found, made⟩ := assembled.value_of_level assigned
    rw [found, (LevelValue.toLevel_shape made).2.2.mp rfl]
  · intro infinite
    have spec := assembled.levels x
    simp only [infinite] at spec
    obtain ⟨a, made, known⟩ := spec
    rw [known, (LevelValue.toLevel_shape made).2.2.mpr rfl]

theorem assigns (assembled : Assembled e values s)
    (oneKind : ∀ c ∈ e.constraints.toList, c.OneKind) : s.Assigns e.constraints.toList where
  admitted := by
    intro x a assigned
    obtain ⟨v, found, made⟩ := assembled.value_of_level assigned
    have settled := assembled.found x.kind
    have known : ((values x.kind).lookup x).isSome := by
      simp [found]
    obtain ⟨closed, kind, infinite⟩ := LevelValue.toLevel_shape made
    refine ⟨(settled.kind_eq oneKind known).2, closed, kind, ?_, ?_⟩
    · rintro predicative rfl
      obtain ⟨c, listed, inferred⟩ := List.mem_flatMap.mp ((settled.keys x).mp known)
      exact settled.finite predicative c listed
        ⟨x, (List.mem_filter.mp inferred).1, infinite.mp rfl ▸ found⟩
    · intro p
      rw [LevelValue.toLevel_under made]
      cases v with
      | infinite => exact le_top
      | finite k n =>
          have floor := settled.floors x n k found
          cases k with
          | none => exact WithTop.coe_le_coe.mpr floor
          | some k => exact WithTop.coe_le_coe.mpr (floor.trans (le_max_right _ _))
  total := by
    intro c listed x inferred
    have member : x ∈ (e.ofKind x.kind).flatMap LevelConstraint.inferred :=
      List.mem_flatMap.mpr ⟨c, mem_ofKind listed (oneKind c listed) inferred, inferred⟩
    obtain ⟨v, found⟩ := Option.isSome_iff_exists.mp
      (((assembled.found x.kind).keys x).mpr member)
    have spec := assembled.levels x
    simp only [found] at spec
    obtain ⟨a, _, known⟩ := spec
    simp [known]

theorem valuation_eq (assembled : Assembled e values s) (p : LevelKind → Nat) (x : LevelVar) :
    s.valuation p x = readings (values x.kind) p x := by
  have spec := assembled.levels x
  cases found : (values x.kind).lookup x with
  | none =>
      simp only [found] at spec
      simp [LevelSolution.valuation, Level.substituted, spec, readings, found]
  | some v =>
      simp only [found] at spec
      obtain ⟨a, made, known⟩ := spec
      have under := LevelValue.toLevel_under made p
      simpa [LevelSolution.valuation, Level.substituted, known, readings, found, Level.under] using under

theorem infinite_forced (assembled : Assembled e values s) {x : LevelVar}
    (infinite : s.get? x = some .infinity) : Forced e.constraints.toList x :=
  ((assembled.found x.kind).forced x (assembled.infinite_iff.mp infinite)).mono
    fun _ => ofKind_among

/-- The values found are below every solution. -/
theorem least (assembled : Assembled e values s)
    (oneKind : ∀ c ∈ e.constraints.toList, c.OneKind) {t : LevelSolution}
    (solves : t.Solves e.constraints.toList) {c : LevelConstraint}
    (listed : c ∈ e.constraints.toList) {x : LevelVar} (inferred : x ∈ c.inferred)
    (p : LevelKind → Nat) : s.valuation p x ≤ t.valuation p x := by
  have part : t.Solves (e.ofKind x.kind) :=
    ⟨solves.toAssigns.subset fun _ => ofKind_among,
      fun d among => solves.satisfied d (ofKind_among among)⟩
  have settled := assembled.found x.kind
  obtain ⟨offset, constant⟩ := settled.least t part
    (fun d among => oneKind d (ofKind_among among)) x
  obtain ⟨a, assigned⟩ := Option.isSome_iff_exists.mp (solves.total c listed x inferred)
  have member : x ∈ (e.ofKind x.kind).flatMap LevelConstraint.inferred :=
    List.mem_flatMap.mpr ⟨c, mem_ofKind listed (oneKind c listed) inferred, inferred⟩
  rw [assembled.valuation_eq]
  exact LevelSolution.readings_le assigned (solves.admitted x a assigned).2
    ((settled.keys x).mpr member) offset constant p

/-- If there is a solution, the values found satisfy all constraints. -/
theorem satisfied (assembled : Assembled e values s)
    (oneKind : ∀ c ∈ e.constraints.toList, c.OneKind) {t : LevelSolution}
    (solves : t.Solves e.constraints.toList) {c : LevelConstraint}
    (listed : c ∈ e.constraints.toList) (p : LevelKind → Nat) :
    c.left.value (s.valuation p) ≤ c.right.value (s.valuation p) := by
  cases target : c.target? with
  | some x =>
      have inferred := LevelConstraint.target_inferred target
      have among := mem_ofKind listed (oneKind c listed) inferred
      have settled := assembled.found x.kind
      have valued : Valued (e.ofKind x.kind) (values x.kind) := fun d listed y inferred =>
        (settled.keys y).mpr (List.mem_flatMap.mpr ⟨d, listed, inferred⟩)
      have params : ∀ k, (values x.kind).lookup (.param k) = none := by
        intro k
        by_contra known
        have impossible := (settled.kind_eq oneKind (Option.isSome_iff_ne_none.mpr known)).2
        cases impossible
      have closed := closed_satisfied valued params settled.offsets settled.constants among
        (oneKind c listed) target p
      have same : ∀ y ∈ c.vars, s.valuation p y = readings (values x.kind) p y := by
        intro y isVar
        rw [assembled.valuation_eq, ofKind_kind among (oneKind c listed) isVar]
      calc c.left.value (s.valuation p)
          ≤ c.left.value (readings (values x.kind) p) := by
            apply Level.value_mono
            intro y isVar
            exact (same y (by simp [LevelConstraint.vars, isVar])).le
        _ ≤ c.right.value (readings (values x.kind) p) := closed
        _ ≤ c.right.value (s.valuation p) := by
            apply Level.value_mono
            intro y isVar
            exact (same y (by simp [LevelConstraint.vars, isVar])).ge
  | none =>
      have assigns := assembled.assigns oneKind
      have holds := (solves.toAssigns.satisfies_iff listed (solves.satisfied c listed)).mp rfl p
      have paramValue : ∀ {u : LevelSolution}, u.Assigns e.constraints.toList → ∀ k,
          u.valuation p (.param k) = ((p k : Int) : WithTop Int) := by
        intro u assigned k
        simp [LevelSolution.valuation, Level.substituted, assigned.param k, LevelVar.kind]
      calc c.left.value (s.valuation p) ≤ c.left.value (t.valuation p) := by
            apply Level.value_mono
            intro y isVar
            cases y with
            | param k => rw [paramValue assigns, paramValue solves.toAssigns]
            | infer id k =>
                exact assembled.least oneKind solves listed
                  (LevelConstraint.source_inferred isVar rfl) p
        _ ≤ c.right.value (t.valuation p) := holds
        _ ≤ c.right.value (s.valuation p) := by
            apply Level.value_mono
            intro y isVar
            cases y with
            | param k => rw [paramValue assigns, paramValue solves.toAssigns]
            | infer id k =>
                cases rightIs : c.right <;>
                  simp_all [LevelConstraint.target?, Level.var?, LevelVar.isInference]

end Assembled

/-- A solution that is infinite only where an infinite left side leads. -/
def Solvable (constraints : List LevelConstraint) : Prop :=
  ∃ t : LevelSolution, t.Solves constraints ∧
    ∀ x, t.get? x = some .infinity → Forced constraints x

/-- With a solution at hand neither kind fails, and nothing is left unsatisfied. -/
theorem solve_complete {e : LevelEquations} {r : Except LevelError LevelSolution}
    (oneKind : ∀ c ∈ e.constraints.toList, c.OneKind) (solvable : Solvable e.constraints.toList)
    (done : e.solve.run = .ok r) : ∃ s, r = .ok s := by
  obtain ⟨t, solves, forced⟩ := solvable
  rcases solve_run oneKind done with ⟨kind, failure, failed, _⟩ | ⟨values, s, assembled, final⟩
  · have part : t.Solves (e.ofKind kind) :=
      ⟨solves.toAssigns.subset fun _ => ofKind_among,
        fun d among => solves.satisfied d (ofKind_among among)⟩
    obtain ⟨_, impossible⟩ := solveKind_complete
      (fun d among => oneKind d (ofKind_among among))
      (fun d among x isVar => ofKind_kind among (oneKind d (ofKind_among among)) isVar) part
      (fun x isKind infinite => isKind ▸ forced_ofKind oneKind (forced x infinite)) failed
    cases impossible
  · rcases final with ⟨same, _⟩ | ⟨c, listed, unmet, _⟩
    · exact ⟨s, same⟩
    · have assigns := assembled.assigns oneKind
      have met := (assigns.satisfies_iff listed unmet).mpr
        (assembled.satisfied oneKind solves listed)
      cases met

/-- Unless a level overflows, the solver finds a solution exactly when there is one that is infinite
    only where an infinite left side leads, and what it finds is below every solution at all level
    parameters. -/
theorem solve_complete_and_least (e : LevelEquations)
    (oneKind : ∀ c ∈ e.constraints.toList, c.OneKind) :
    match e.solve.run with
    | .error fault => fault = .addOverflow ∨ fault = .subOverflow
    | .ok r =>
        ((∃ s, r = .ok s) ↔ Solvable e.constraints.toList) ∧
        ∀ s, r = .ok s → s.Solves e.constraints.toList ∧
          (∀ x, x.kind = .predicative → s.get? x ≠ some .infinity) ∧
          ∀ t : LevelSolution, t.Solves e.constraints.toList →
            ∀ c ∈ e.constraints.toList, ∀ x ∈ c.inferred, ∀ p,
              s.valuation p x ≤ t.valuation p x := by
  cases done : e.solve.run with
  | error fault => exact solve_overflows e fault done
  | ok r =>
      have solved : ∀ s, r = .ok s → ∃ values, Assembled e values s ∧
          ∀ c ∈ e.constraints.toList, s.satisfies c = .ok true := by
        rintro s rfl
        rcases solve_run oneKind done with ⟨kind, failure, _, impossible⟩ | ⟨values, u, assembled,
          ⟨same, satisfied⟩ | ⟨c, _, _, impossible⟩⟩
        · cases impossible
        · cases same
          exact ⟨values, assembled, satisfied⟩
        · cases impossible
      refine ⟨⟨?_, fun solvable => solve_complete oneKind solvable done⟩, ?_⟩
      · rintro ⟨s, same⟩
        obtain ⟨values, assembled, satisfied⟩ := solved s same
        exact ⟨s, ⟨assembled.assigns oneKind, satisfied⟩, fun x => assembled.infinite_forced⟩
      · intro s same
        obtain ⟨values, assembled, satisfied⟩ := solved s same
        have assigns := assembled.assigns oneKind
        refine ⟨⟨assigns, satisfied⟩, ?_, ?_⟩
        · intro x predicative infinite
          exact (assigns.admitted x _ infinite).2.finite predicative rfl
        · intro t solves c listed x inferred p
          exact assembled.least oneKind solves listed inferred p

def rising : LevelEquations where
  constraints := #[
    ⟨.infinity, .ofVar (.infer 0 .homotopy), .none⟩,
    ⟨.shift (.param .predicative) 1 none, .ofVar (.infer 1 .predicative), .none⟩,
    ⟨.shift (.infer 1 .predicative) 2 (some 4), .ofVar (.infer 2 .predicative), .none⟩]
  span := .none

theorem rising_oneKind : ∀ c ∈ rising.constraints.toList, c.OneKind := by
  intro c listed x isVar y isVarToo
  simp [rising] at listed
  rcases listed with rfl | rfl | rfl <;>
    simp_all [LevelConstraint.vars, Level.var?, Level.ofVar, LevelVar.kind] <;>
    rcases isVar with rfl | rfl <;> rcases isVarToo with rfl | rfl <;> rfl

theorem rising_solved : ∃ s, rising.solve.run = .ok (.ok s) ∧
    s.Solves rising.constraints.toList := by
  have run : rising.solve.run = .ok (.ok ⟨[
      (.infer 0 .homotopy, .infinity),
      (.infer 1 .predicative, .shift (.param .predicative) 1 none),
      (.infer 2 .predicative, .shift (.param .predicative) 3 (some 4))]⟩) := by rfl
  have spec := solve_complete_and_least rising rising_oneKind
  rw [run] at spec
  exact ⟨_, run, (spec.2 _ rfl).1⟩

/-- A homotopy level that has to be above itself: only infinity satisfies this, and no infinite left
    side asks for it. -/
def selfRaising : LevelEquations where
  constraints := #[⟨.shift (.infer 0 .homotopy) 1 none, .ofVar (.infer 0 .homotopy), .none⟩]
  span := .none

theorem selfRaising_unsolved : (∀ c ∈ selfRaising.constraints.toList, c.OneKind) ∧
    ¬ ((∃ s, selfRaising.solve.run = .ok (.ok s)) ↔
      ∃ t : LevelSolution, t.Solves selfRaising.constraints.toList) := by
  have run : selfRaising.solve.run = .ok (.error (.cycle
      [⟨.shift (.infer 0 .homotopy) 1 none, .ofVar (.infer 0 .homotopy), .none⟩])) := by rfl
  have solves : (⟨[(.infer 0 .homotopy, .infinity)]⟩ : LevelSolution).Solves
      selfRaising.constraints.toList := by
    refine ⟨⟨?_, ?_⟩, ?_⟩
    · intro x a assigned
      rw [LevelSolution.get?, lookup_cons_if] at assigned
      split at assigned
      · rename_i same
        cases same
        cases assigned
        refine ⟨rfl, rfl, ?_, ?_, fun p => le_top⟩
        · intro y impossible
          cases impossible
        · intro impossible
          cases impossible
      · cases assigned
    · intro c listed x inferred
      simp [selfRaising] at listed
      subst listed
      have same : x = .infer 0 .homotopy := by
        have member := (List.mem_filter.mp inferred).1
        simpa [LevelConstraint.vars, Level.var?, Level.ofVar] using member
      rw [same]
      rfl
    · intro c listed
      simp [selfRaising] at listed
      subst listed
      rfl
  refine ⟨?_, fun claim => ?_⟩
  · intro c listed x isVar y isVarToo
    simp [selfRaising] at listed
    subst listed
    simp_all [LevelConstraint.vars, Level.var?, Level.ofVar]
  · obtain ⟨s, solved⟩ := claim.mpr ⟨_, solves⟩
    cases run.symm.trans solved

end LevelEquations

end PathTheory
