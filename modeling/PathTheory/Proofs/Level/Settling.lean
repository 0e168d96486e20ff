import PathTheory.Proofs.Level.Relaxation
import Mathlib.Data.Finset.Card
import Mathlib.Order.CompleteLattice.Basic
import Mathlib.Logic.Relation
/-!
Rounds of relaxation. Ranks that meet every need are closed, and there are least ones above the
ranks at the start. A round never leaves them, and it brings at least one more variable to its
final rank as long as infinity is reached only where it is forced. So there are no more rounds than
variables, and one that finds nothing to raise.
-/
namespace PathTheory

open Rank

/-- The variables that an infinite left side leads to. -/
inductive Forced (constraints : List LevelConstraint) : LevelVar → Prop where
  | limit {c : LevelConstraint} {x : LevelVar} (listed : c ∈ constraints)
      (infinite : c.left = .infinity) (target : c.target? = some x) : Forced constraints x
  | step {c : LevelConstraint} {x y : LevelVar} (listed : c ∈ constraints)
      (source : c.left.var? = some y) (target : c.target? = some x)
      (forced : Forced constraints y) : Forced constraints x

theorem Forced.isInference {constraints : List LevelConstraint} {x : LevelVar}
    (forced : Forced constraints x) : x.isInference = true := by
  cases forced with
  | limit _ _ target => exact (LevelConstraint.target_inference target).1
  | step _ _ target _ => exact (LevelConstraint.target_inference target).1

theorem Forced.mono {before after : List LevelConstraint} {x : LevelVar}
    (forced : Forced before x) (more : ∀ c ∈ before, c ∈ after) : Forced after x := by
  induction forced with
  | limit listed infinite target => exact .limit (more _ listed) infinite target
  | step listed source target _ ih => exact .step (more _ listed) source target ih

namespace SolvePhase

/-- Ranks that meet what every constraint needs. -/
def Closed (phase : SolvePhase) (constraints : List LevelConstraint) (ρ : LevelVar → Rank) :
    Prop :=
  ∀ c ∈ constraints, ∀ x, c.target? = some x → c.need phase ρ ≤ ρ x

/-- The least closed ranks above the given ones. -/
noncomputable def closure (phase : SolvePhase) (constraints : List LevelConstraint)
    (ρ : LevelVar → Rank) : LevelVar → Rank :=
  sInf {υ | phase.Closed constraints υ ∧ ρ ≤ υ}

theorem closure_le {phase : SolvePhase} {constraints : List LevelConstraint}
    {ρ υ : LevelVar → Rank} (closed : phase.Closed constraints υ) (above : ρ ≤ υ) :
    phase.closure constraints ρ ≤ υ :=
  sInf_le ⟨closed, above⟩

theorem le_closure (phase : SolvePhase) (constraints : List LevelConstraint)
    (ρ : LevelVar → Rank) : ρ ≤ phase.closure constraints ρ := by
  apply le_sInf
  intro υ member
  exact member.2

theorem closure_closed (phase : SolvePhase) (constraints : List LevelConstraint)
    (ρ : LevelVar → Rank) : phase.Closed constraints (phase.closure constraints ρ) := by
  intro c listed x target
  rw [closure, sInf_apply]
  apply le_iInf
  rintro ⟨υ, closed, above⟩
  calc c.need phase (phase.closure constraints ρ) ≤ c.need phase υ :=
        c.need_mono phase (closure_le closed above)
    _ ≤ υ x := closed c listed x target

/-- A forced variable is infinite in all closed ranks. -/
theorem Closed.forced_top {phase : SolvePhase} {constraints : List LevelConstraint}
    {ρ : LevelVar → Rank} (closed : phase.Closed constraints ρ) {x : LevelVar}
    (forced : Forced constraints x) : ρ x = ⊤ := by
  induction forced with
  | limit listed infinite target =>
      have need := (LevelConstraint.need_eq_top_iff phase ρ target).mpr
        (.inl infinite)
      exact top_le_iff.mp (need ▸ closed _ listed _ target)
  | step listed source target forced ih =>
      have need := (LevelConstraint.need_eq_top_iff phase ρ target).mpr
        (.inr ⟨_, source, forced.isInference, ih⟩)
      exact top_le_iff.mp (need ▸ closed _ listed _ target)

end SolvePhase

theorem lookup_cons_if {β : Type} (x : LevelVar) (v : β) (rest : List (LevelVar × β))
    (y : LevelVar) : ((x, v) :: rest).lookup y = if y = x then some v else rest.lookup y := by
  by_cases same : y = x
  · simp [same]
  · have apart : (y == x) = false := by
      simpa using same
    rw [List.lookup_cons, apart, if_neg same]

theorem lookup_replaceValue {x : LevelVar} {old : LevelValue}
    {values : List (LevelVar × LevelValue)} (known : values.lookup x = some old)
    (v : LevelValue) (y : LevelVar) :
    (replaceValue x v values).lookup y = if y = x then some v else values.lookup y := by
  induction values with
  | nil => cases known
  | cons entry rest ih =>
      obtain ⟨z, value⟩ := entry
      by_cases same : x = z
      · subst same
        simp only [replaceValue, if_true, lookup_cons_if]
        by_cases hit : y = x
        · simp [hit]
        · simp [hit]
      · have knownRest : rest.lookup x = some old := by
          simpa [lookup_cons_if, same] using known
        simp only [replaceValue, if_neg same, lookup_cons_if, ih knownRest]
        by_cases hit : y = z
        · have apart : y ≠ x := fun eq => same (eq.symm.trans hit)
          rw [if_pos hit, if_neg apart, if_pos hit]
        · simp [hit]

theorem replaceValue_keys (x : LevelVar) (v : LevelValue)
    (values : List (LevelVar × LevelValue)) :
    (replaceValue x v values).map Prod.fst = values.map Prod.fst := by
  induction values with
  | nil => rfl
  | cons entry rest ih =>
      obtain ⟨z, value⟩ := entry
      unfold replaceValue
      split
      · rfl
      · simp [ih]

/-- One round over the constraints, with the variables that it raises. -/
inductive Pass (phase : SolvePhase) : List LevelConstraint → List (LevelVar × LevelValue) →
    List (LevelVar × LevelValue) → List LevelVar → Prop where
  | nil {values} : Pass phase [] values values []
  | keep {c rest before after raised}
      (met : ∀ x, c.target? = some x → (before.lookup x).isSome →
        c.need phase (phase.ranks before) ≤ phase.ranks before x)
      (tail : Pass phase rest before after raised) : Pass phase (c :: rest) before after raised
  | raise {c rest before after raised x v} (raises : c.Raises phase before x v)
      (tail : Pass phase rest (replaceValue x v before) after raised) :
      Pass phase (c :: rest) before after (x :: raised)

theorem relaxAll_ok {phase : SolvePhase} {constraints : List LevelConstraint}
    {progress after : LevelProgress} {raised : List LevelVar}
    (done : relaxAll phase constraints progress = .ok (after, raised)) :
    Pass phase constraints progress.values after.values raised := by
  induction constraints generalizing progress after raised with
  | nil =>
      cases done
      exact .nil
  | cons c rest ih =>
      simp only [relaxAll] at done
      obtain ⟨r, relaxed, next⟩ := bind_ok done
      have spec := LevelConstraint.relax_ok relaxed
      cases r with
      | none => exact .keep spec (ih next)
      | some raise =>
          obtain ⟨x, v⟩ := raise
          obtain ⟨⟨last, others⟩, tail, next⟩ := bind_ok next
          cases next
          exact .raise spec (ih tail)

namespace LevelConstraint.Raises

variable {c : LevelConstraint} {phase : SolvePhase} {values : List (LevelVar × LevelValue)}
  {x : LevelVar} {v : LevelValue}

theorem lookup (raises : c.Raises phase values x v) (y : LevelVar) :
    (replaceValue x v values).lookup y = if y = x then some v else values.lookup y := by
  obtain ⟨based, free, d, found, _⟩ := raises.finite
  exact lookup_replaceValue found v y

theorem ranks (raises : c.Raises phase values x v) :
    phase.ranks (replaceValue x v values) =
      Function.update (phase.ranks values) x (c.need phase (phase.ranks values)) := by
  funext y
  by_cases same : y = x
  · subst same
    simp [SolvePhase.ranks, raises.lookup, raises.rank]
  · simp [SolvePhase.ranks, raises.lookup, same]

theorem ranks_le (raises : c.Raises phase values x v) :
    phase.ranks values ≤ phase.ranks (replaceValue x v values) := by
  rw [raises.ranks, le_update_iff]
  exact ⟨(not_le.mp raises.unmet).le, fun _ _ => le_rfl⟩

end LevelConstraint.Raises

namespace Pass

variable {phase : SolvePhase} {constraints : List LevelConstraint}
  {before after : List (LevelVar × LevelValue)} {raised : List LevelVar}

theorem keys (pass : Pass phase constraints before after raised) :
    after.map Prod.fst = before.map Prod.fst := by
  induction pass with
  | nil => rfl
  | keep _ _ ih => exact ih
  | raise _ _ ih => exact ih.trans (replaceValue_keys _ _ _)

theorem known (pass : Pass phase constraints before after raised) (x : LevelVar) :
    (after.lookup x).isSome = (before.lookup x).isSome := by
  induction pass with
  | nil => rfl
  | keep _ _ ih => exact ih
  | @raise c rest before after raised y v raises _ ih =>
      obtain ⟨based, free, d, found, _⟩ := raises.finite
      rw [ih, raises.lookup]
      by_cases same : x = y
      · simp [same, found]
      · simp [same]

theorem ranks_le (pass : Pass phase constraints before after raised) :
    phase.ranks before ≤ phase.ranks after := by
  induction pass with
  | nil => exact le_rfl
  | keep _ _ ih => exact ih
  | raise raises _ ih => exact raises.ranks_le.trans ih

/-- A round stays below all closed ranks that are above its start. -/
theorem below_closed (pass : Pass phase constraints before after raised)
    {υ : LevelVar → Rank} (closed : phase.Closed constraints υ)
    (above : phase.ranks before ≤ υ) : phase.ranks after ≤ υ := by
  induction pass with
  | nil => exact above
  | keep _ _ ih => exact ih (fun c listed => closed c (List.mem_cons_of_mem _ listed)) above
  | raise raises _ ih =>
      apply ih fun c listed => closed c (List.mem_cons_of_mem _ listed)
      rw [raises.ranks, update_le_iff]
      refine ⟨?_, fun _ _ => above _⟩
      exact (LevelConstraint.need_mono _ phase above).trans
        (closed _ List.mem_cons_self _ raises.target)

/-- What was needed before a round is met after it. -/
theorem meets (pass : Pass phase constraints before after raised)
    {c : LevelConstraint} (listed : c ∈ constraints) {x : LevelVar} (target : c.target? = some x)
    (isKey : (before.lookup x).isSome) :
    c.need phase (phase.ranks before) ≤ phase.ranks after x := by
  induction pass with
  | nil => cases listed
  | keep met tail ih =>
      rcases List.mem_cons.mp listed with rfl | listed
      · exact (met x target isKey).trans (tail.ranks_le x)
      · exact ih listed isKey
  | @raise d rest before after raised y v raises tail ih =>
      have isKeyStill : ((replaceValue y v before).lookup x).isSome := by
        rw [raises.lookup]
        split
        · rfl
        · exact isKey
      rcases List.mem_cons.mp listed with rfl | listed
      · have same : x = y := by
          simpa [target] using raises.target
        subst same
        refine le_trans ?_ (tail.ranks_le x)
        simp [raises.ranks]
      · exact (c.need_mono phase raises.ranks_le).trans (ih listed isKeyStill)

theorem idle (pass : Pass phase constraints before after []) : after = before := by
  generalize none : ([] : List LevelVar) = raised at pass
  induction pass with
  | nil => rfl
  | keep _ _ ih => exact ih none
  | raise => cases none

/-- Ranks that are closed already leave nothing to raise. -/
theorem closed_idle (pass : Pass phase constraints before after raised)
    (closed : phase.Closed constraints (phase.ranks before)) : raised = [] := by
  induction pass with
  | nil => rfl
  | keep _ _ ih => exact ih fun c listed => closed c (List.mem_cons_of_mem _ listed)
  | raise raises => exact absurd (closed _ List.mem_cons_self _ raises.target) raises.unmet

theorem closure_eq (pass : Pass phase constraints before after raised) :
    phase.closure constraints (phase.ranks after) =
      phase.closure constraints (phase.ranks before) := by
  apply le_antisymm
  · exact SolvePhase.closure_le (phase.closure_closed _ _)
      (pass.below_closed (phase.closure_closed _ _) (phase.le_closure _ _))
  · exact SolvePhase.closure_le (phase.closure_closed _ _)
      (pass.ranks_le.trans (phase.le_closure _ _))

end Pass

/-- Every inferred variable of the constraints has a value. -/
def Valued (constraints : List LevelConstraint) (values : List (LevelVar × LevelValue)) : Prop :=
  ∀ c ∈ constraints, ∀ x ∈ c.inferred, (values.lookup x).isSome

/-- The variables that are not at their final rank yet. -/
noncomputable def lagging (phase : SolvePhase) (constraints : List LevelConstraint)
    (values : List (LevelVar × LevelValue)) : Finset LevelVar :=
  (values.map Prod.fst).toFinset.filter fun x =>
    phase.ranks values x ≠ phase.closure constraints (phase.ranks values) x

theorem LevelConstraint.target_inferred {c : LevelConstraint} {x : LevelVar}
    (target : c.target? = some x) : x ∈ c.inferred := by
  obtain ⟨inferred, offset, cap, right⟩ := target_inference target
  simp [LevelConstraint.inferred, vars, right, Level.var?, inferred]

theorem LevelConstraint.source_inferred {c : LevelConstraint} {x : LevelVar}
    (source : c.left.var? = some x) (inferred : x.isInference = true) : x ∈ c.inferred := by
  simp [LevelConstraint.inferred, vars, source, inferred]

theorem lookup_isSome_iff {values : List (LevelVar × LevelValue)} {x : LevelVar} :
    (values.lookup x).isSome ↔ x ∈ values.map Prod.fst := by
  induction values with
  | nil => simp
  | cons entry rest ih =>
      obtain ⟨y, v⟩ := entry
      rw [lookup_cons_if]
      by_cases same : x = y
      · simp [same]
      · simp [same, ih]

section Progress

variable {phase : SolvePhase} {constraints : List LevelConstraint}
  {before after : List (LevelVar × LevelValue)} {raised : List LevelVar}

theorem mem_lagging {x : LevelVar} : x ∈ lagging phase constraints before ↔
    (before.lookup x).isSome ∧
      phase.ranks before x ≠ phase.closure constraints (phase.ranks before) x := by
  simp [lagging]

/-- A lagging variable that is forced to infinity has one behind it, maybe itself, that a round
    makes infinite. -/
theorem forced_caught (pass : Pass phase constraints before after raised)
    (valued : Valued constraints before) {x : LevelVar} (forced : Forced constraints x)
    (lags : x ∈ lagging phase constraints before) :
    ∃ y ∈ lagging phase constraints before, phase.ranks after y = ⊤ := by
  induction forced with
  | @limit c x listed infinite target =>
      refine ⟨x, lags, top_le_iff.mp ?_⟩
      have isKey := valued c listed x (LevelConstraint.target_inferred target)
      have need := (LevelConstraint.need_eq_top_iff phase (phase.ranks before)
        target).mpr (.inl infinite)
      exact need ▸ pass.meets listed target isKey
  | @step c x y listed source target forced ih =>
      by_cases behind : y ∈ lagging phase constraints before
      · exact ih behind
      · refine ⟨x, lags, top_le_iff.mp ?_⟩
        have isKey := valued c listed x (LevelConstraint.target_inferred target)
        have sourceKey := valued c listed y
          (LevelConstraint.source_inferred source forced.isInference)
        have final : phase.ranks before y = phase.closure constraints (phase.ranks before) y := by
          by_contra apart
          exact behind (mem_lagging.mpr ⟨sourceKey, apart⟩)
        have infinite : phase.ranks before y = ⊤ :=
          final.trans ((phase.closure_closed _ _).forced_top forced)
        have need := (LevelConstraint.need_eq_top_iff phase (phase.ranks before)
        target).mpr (.inr ⟨y, source, forced.isInference, infinite⟩)
        exact need ▸ pass.meets listed target isKey

/-- The final ranks with every lagging variable one lower. -/
noncomputable def lowered (phase : SolvePhase) (constraints : List LevelConstraint)
    (values : List (LevelVar × LevelValue)) (x : LevelVar) : Rank :=
  let final := phase.closure constraints (phase.ranks values) x
  if x ∈ lagging phase constraints values then final + ofInt (-1) else final

theorem lowered_le (phase : SolvePhase) (constraints : List LevelConstraint)
    (values : List (LevelVar × LevelValue)) (x : LevelVar) :
    lowered phase constraints values x ≤ phase.closure constraints (phase.ranks values) x := by
  unfold lowered
  split
  · exact pred_le _
  · exact le_rfl

/-- If a round brought no lagging variable to its final rank, lower ranks would be closed. -/
theorem lowered_closed (pass : Pass phase constraints before after raised)
    (valued : Valued constraints before)
    (behind : ∀ x ∈ lagging phase constraints before,
      phase.ranks after x < phase.closure constraints (phase.ranks before) x)
    (finite : ∀ x ∈ lagging phase constraints before,
      phase.closure constraints (phase.ranks before) x ≠ ⊤) :
    phase.Closed constraints (lowered phase constraints before) := by
  have closed := phase.closure_closed constraints (phase.ranks before)
  intro c listed x target
  by_cases lags : x ∈ lagging phase constraints before
  · have isKey := valued c listed x (LevelConstraint.target_inferred target)
    have step := c.need_between phase (ρ := phase.ranks before)
      (υ := lowered phase constraints before)
      (σ := phase.closure constraints (phase.ranks before)) (by
        intro y source inferred
        have sourceKey := valued c listed y (LevelConstraint.source_inferred source inferred)
        by_cases sourceLags : y ∈ lagging phase constraints before
        · right
          simp [lowered, sourceLags]
        · left
          have final : phase.ranks before y =
              phase.closure constraints (phase.ranks before) y := by
            by_contra apart
            exact sourceLags (mem_lagging.mpr ⟨sourceKey, apart⟩)
          simp [lowered, sourceLags, final])
    have same : lowered phase constraints before x =
        phase.closure constraints (phase.ranks before) x + ofInt (-1) := by
      simp [lowered, lags]
    rw [same]
    refine step.trans (max_le ?_ ?_)
    · exact le_pred_of_lt ((pass.meets listed target isKey).trans_lt (behind x lags))
        (finite x lags)
    · gcongr
      exact closed c listed x target
  · have same : lowered phase constraints before x =
        phase.closure constraints (phase.ranks before) x := by
      simp [lowered, lags]
    rw [same]
    exact (c.need_mono phase (lowered_le phase constraints before)).trans
      (closed c listed x target)

theorem ranks_le_lowered
    (finite : ∀ x ∈ lagging phase constraints before,
      phase.closure constraints (phase.ranks before) x ≠ ⊤) :
    phase.ranks before ≤ lowered phase constraints before := by
  intro x
  have below := phase.le_closure constraints (phase.ranks before) x
  by_cases lags : x ∈ lagging phase constraints before
  · have strict := lt_of_le_of_ne below (mem_lagging.mp lags).2
    simpa [lowered, lags] using le_pred_of_lt strict (finite x lags)
  · simpa [lowered, lags] using below

/-- A round brings a lagging variable to its final rank, if only forced variables are infinite
    there. -/
theorem catches_up (pass : Pass phase constraints before after raised)
    (valued : Valued constraints before)
    (forced : ∀ x, (before.lookup x).isSome →
      phase.closure constraints (phase.ranks before) x = ⊤ → Forced constraints x)
    (pending : (lagging phase constraints before).Nonempty) :
    ∃ x ∈ lagging phase constraints before,
      phase.ranks after x = phase.closure constraints (phase.ranks before) x := by
  by_contra none
  push Not at none
  have below := pass.below_closed (phase.closure_closed constraints _) (phase.le_closure _ _)
  have behind : ∀ x ∈ lagging phase constraints before,
      phase.ranks after x < phase.closure constraints (phase.ranks before) x :=
    fun x lags => lt_of_le_of_ne (below x) (none x lags)
  have finite : ∀ x ∈ lagging phase constraints before,
      phase.closure constraints (phase.ranks before) x ≠ ⊤ := by
    intro x lags infinite
    obtain ⟨y, lagsToo, caught⟩ := forced_caught pass valued
      (forced x (mem_lagging.mp lags).1 infinite) lags
    exact not_top_lt (caught ▸ behind y lagsToo)
  obtain ⟨x, lags⟩ := pending
  have least := SolvePhase.closure_le (lowered_closed pass valued behind finite)
    (ranks_le_lowered finite) x
  simp only [lowered, lags, if_true] at least
  have some : phase.closure constraints (phase.ranks before) x ≠ ⊥ :=
    ((bot_le).trans_lt (behind x lags)).ne'
  exact absurd least (not_le.mpr (pred_lt (finite x lags) some))

theorem lagging_shrinks (pass : Pass phase constraints before after raised)
    (valued : Valued constraints before)
    (forced : ∀ x, (before.lookup x).isSome →
      phase.closure constraints (phase.ranks before) x = ⊤ → Forced constraints x)
    (busy : raised ≠ []) :
    (lagging phase constraints after).card < (lagging phase constraints before).card := by
  apply Finset.card_lt_card
  have pending : (lagging phase constraints before).Nonempty := by
    by_contra none
    rw [Finset.not_nonempty_iff_eq_empty] at none
    apply busy
    apply pass.closed_idle
    intro c listed x target
    have isKey := valued c listed x (LevelConstraint.target_inferred target)
    have final : phase.ranks before x = phase.closure constraints (phase.ranks before) x := by
      by_contra apart
      have lags : x ∈ lagging phase constraints before := mem_lagging.mpr ⟨isKey, apart⟩
      simp [none] at lags
    rw [final]
    exact (c.need_mono phase (phase.le_closure _ _)).trans
      (phase.closure_closed _ _ c listed x target)
  have fewer : lagging phase constraints after ⊆ lagging phase constraints before := by
    intro x lags
    obtain ⟨isKey, apart⟩ := mem_lagging.mp lags
    rw [pass.known] at isKey
    rw [pass.closure_eq] at apart
    refine mem_lagging.mpr ⟨isKey, fun final => apart ?_⟩
    apply le_antisymm
    · exact pass.below_closed (phase.closure_closed _ _) (phase.le_closure _ _) x
    · exact final ▸ pass.ranks_le x
  obtain ⟨x, lags, caught⟩ := catches_up pass valued forced pending
  refine Finset.ssubset_iff_subset_ne.mpr ⟨fewer, fun same => ?_⟩
  rw [← same] at lags
  have apart := (mem_lagging.mp lags).2
  rw [pass.closure_eq] at apart
  exact apart caught

end Progress

theorem ranks_eq_top_iff {phase : SolvePhase} {values : List (LevelVar × LevelValue)}
    {x : LevelVar} : phase.ranks values x = ⊤ ↔ values.lookup x = some .infinite := by
  unfold SolvePhase.ranks
  cases values.lookup x with
  | none => simp
  | some v =>
      cases v with
      | infinite => simp [SolvePhase.rank]
      | finite based free =>
          cases phase with
          | free => simpa [SolvePhase.rank] using (ofInt_lt_top free).ne
          | based =>
              cases based with
              | none => simp [SolvePhase.rank, ofOption]
              | some k => simpa [SolvePhase.rank, ofOption] using (ofInt_lt_top k).ne

namespace Pass

variable {phase : SolvePhase} {constraints all : List LevelConstraint}
  {before after : List (LevelVar × LevelValue)} {raised : List LevelVar}

theorem forced (pass : Pass phase constraints before after raised)
    (among : ∀ c ∈ constraints, c ∈ all)
    (start : ∀ x, phase.ranks before x = ⊤ → Forced all x) (x : LevelVar)
    (infinite : phase.ranks after x = ⊤) : Forced all x := by
  induction pass with
  | nil => exact start x infinite
  | keep _ _ ih => exact ih (fun c listed => among c (List.mem_cons_of_mem _ listed)) start infinite
  | @raise c rest before after raised y v raises _ ih =>
      apply ih (fun c listed => among c (List.mem_cons_of_mem _ listed)) _ infinite
      intro z top
      rw [raises.ranks] at top
      by_cases same : z = y
      · subst same
        rw [Function.update_self, LevelConstraint.need_eq_top_iff _ _ raises.target] at top
        rcases top with limit | ⟨w, source, _, wide⟩
        · exact .limit (among c List.mem_cons_self) limit raises.target
        · exact .step (among c List.mem_cons_self) source raises.target (start w wide)
      · rw [Function.update_of_ne same] at top
        exact start z top

/-- Once the offsets are closed, raising constants leaves them alone. -/
theorem keeps_offsets (pass : Pass .free constraints before after raised)
    (among : ∀ c ∈ constraints, c ∈ all)
    (closed : SolvePhase.based.Closed all (SolvePhase.based.ranks before)) :
    SolvePhase.based.ranks after = SolvePhase.based.ranks before := by
  induction pass with
  | nil => rfl
  | keep _ _ ih => exact ih (fun c listed => among c (List.mem_cons_of_mem _ listed)) closed
  | @raise c rest before after raised x v raises _ ih =>
      have same : SolvePhase.based.ranks (replaceValue x v before) =
          SolvePhase.based.ranks before := by
        obtain ⟨based, free, d, found, rfl, demanded⟩ := raises.finite
        have finite : SolvePhase.based.ranks before x ≠ ⊤ := by
          simp [ranks_eq_top_iff, found]
        cases d with
        | none =>
            have top := demanded.symm
            rw [SolvePhase.demandRank, LevelConstraint.need_eq_top_iff _ _ raises.target] at top
            have need : c.need .based (SolvePhase.based.ranks before) = ⊤ := by
              rw [LevelConstraint.need_eq_top_iff _ _ raises.target]
              simpa only [ranks_eq_top_iff] using top
            have bound := closed c (among c List.mem_cons_self) x raises.target
            rw [need, top_le_iff] at bound
            exact absurd bound finite
        | some needs =>
            funext y
            unfold SolvePhase.ranks
            rw [raises.lookup]
            by_cases hit : y = x
            · simp [hit, found, LevelValue.raised, SolvePhase.rank]
            · simp [hit]
      rw [ih (fun c listed => among c (List.mem_cons_of_mem _ listed)) (same ▸ closed), same]

/-- While offsets are raised, the constants stay as they are. -/
theorem keeps_constants (pass : Pass .based constraints before after raised) {x : LevelVar}
    {k : Option Int} {n : Int} (found : after.lookup x = some (.finite k n)) :
    ∃ k', before.lookup x = some (.finite k' n) := by
  induction pass with
  | nil => exact ⟨k, found⟩
  | keep _ _ ih => exact ih found
  | @raise c rest before after raised y v raises _ ih =>
      obtain ⟨k', between⟩ := ih found
      rw [raises.lookup] at between
      by_cases same : x = y
      · obtain ⟨based, free, d, start, rfl, _⟩ := raises.finite
        rw [if_pos same, Option.some.injEq] at between
        cases d with
        | none => cases between
        | some needs =>
            cases between
            exact ⟨based, same ▸ start⟩
      · rw [if_neg same] at between
        exact ⟨k', between⟩

end Pass

/-- Any number of rounds. -/
def Passes (phase : SolvePhase) (constraints : List LevelConstraint) :
    List (LevelVar × LevelValue) → List (LevelVar × LevelValue) → Prop :=
  Relation.ReflTransGen fun before after => ∃ raised, Pass phase constraints before after raised

namespace Passes

variable {phase : SolvePhase} {constraints : List LevelConstraint}
  {before after : List (LevelVar × LevelValue)}

theorem keys (passes : Passes phase constraints before after) :
    after.map Prod.fst = before.map Prod.fst := by
  induction passes with
  | refl => rfl
  | tail _ last ih =>
      obtain ⟨raised, pass⟩ := last
      exact pass.keys.trans ih

theorem ranks_le (passes : Passes phase constraints before after) :
    phase.ranks before ≤ phase.ranks after := by
  induction passes with
  | refl => exact le_rfl
  | tail _ last ih =>
      obtain ⟨raised, pass⟩ := last
      exact ih.trans pass.ranks_le

theorem below_closed (passes : Passes phase constraints before after) {υ : LevelVar → Rank}
    (closed : phase.Closed constraints υ) (above : phase.ranks before ≤ υ) :
    phase.ranks after ≤ υ := by
  induction passes with
  | refl => exact above
  | tail _ last ih =>
      obtain ⟨raised, pass⟩ := last
      exact pass.below_closed closed ih

theorem forced (passes : Passes phase constraints before after)
    (start : ∀ x, phase.ranks before x = ⊤ → Forced constraints x) (x : LevelVar)
    (infinite : phase.ranks after x = ⊤) : Forced constraints x := by
  induction passes generalizing x with
  | refl => exact start x infinite
  | tail _ last ih =>
      obtain ⟨raised, pass⟩ := last
      exact pass.forced (fun _ listed => listed) ih x infinite

theorem keeps_offsets (passes : Passes .free constraints before after)
    (closed : SolvePhase.based.Closed constraints (SolvePhase.based.ranks before)) :
    SolvePhase.based.ranks after = SolvePhase.based.ranks before := by
  induction passes with
  | refl => rfl
  | tail _ last ih =>
      obtain ⟨raised, pass⟩ := last
      exact (pass.keeps_offsets (fun _ listed => listed) (ih ▸ closed)).trans ih

theorem keeps_constants (passes : Passes .based constraints before after) {x : LevelVar}
    {k : Option Int} {n : Int} (found : after.lookup x = some (.finite k n)) :
    ∃ k', before.lookup x = some (.finite k' n) := by
  induction passes generalizing k with
  | refl => exact ⟨k, found⟩
  | tail _ last ih =>
      obtain ⟨raised, pass⟩ := last
      obtain ⟨k', between⟩ := pass.keeps_constants found
      exact ih between

theorem valued (passes : Passes phase constraints before after)
    (known : Valued constraints before) : Valued constraints after := by
  intro c listed x inferred
  rw [lookup_isSome_iff, passes.keys, ← lookup_isSome_iff]
  exact known c listed x inferred

end Passes

theorem settle_ok {phase : SolvePhase} {constraints : List LevelConstraint} {rounds : Nat}
    {progress after : LevelProgress} {left : Option LevelVar}
    (valued : Valued constraints progress.values)
    (done : settle phase constraints rounds progress = .ok (after, left)) :
    Passes phase constraints progress.values after.values ∧
      (left = none → 0 < rounds → phase.Closed constraints (phase.ranks after.values)) := by
  induction rounds generalizing progress with
  | zero =>
      cases done
      exact ⟨.refl, fun _ impossible => absurd impossible (Nat.lt_irrefl 0)⟩
  | succ rounds ih =>
      simp only [settle] at done
      obtain ⟨⟨middle, raised⟩, relaxed, next⟩ := bind_ok done
      have pass := relaxAll_ok relaxed
      have first : Passes phase constraints progress.values middle.values :=
        .single ⟨raised, pass⟩
      cases raised with
      | nil =>
          cases next
          refine ⟨first, fun _ _ c listed x target => ?_⟩
          have isKey := valued c listed x (LevelConstraint.target_inferred target)
          have met := pass.meets listed target isKey
          rwa [← pass.idle] at met
      | cons x others =>
          by_cases last : rounds = 0
          · simp only [last, if_true] at next
            cases next
            refine ⟨first, fun rest => ?_⟩
            cases rest
          · simp only [last, if_false] at next
            obtain ⟨passes, closed⟩ := ih (first.valued valued) next
            exact ⟨first.trans passes, fun rest _ => closed rest (Nat.pos_of_ne_zero last)⟩

/-- More rounds than lagging variables come to rest. -/
theorem settle_rests {phase : SolvePhase} {constraints : List LevelConstraint} {rounds : Nat}
    {progress after : LevelProgress} {left : Option LevelVar}
    (valued : Valued constraints progress.values)
    (forced : ∀ x, (progress.values.lookup x).isSome →
      phase.closure constraints (phase.ranks progress.values) x = ⊤ → Forced constraints x)
    (enough : (lagging phase constraints progress.values).card < rounds)
    (done : settle phase constraints rounds progress = .ok (after, left)) : left = none := by
  induction rounds generalizing progress with
  | zero => exact absurd enough (Nat.not_lt_zero _)
  | succ rounds ih =>
      simp only [settle] at done
      obtain ⟨⟨middle, raised⟩, relaxed, next⟩ := bind_ok done
      have pass := relaxAll_ok relaxed
      cases raised with
      | nil =>
          cases next
          rfl
      | cons x others =>
          have fewer := lagging_shrinks pass valued forced (List.cons_ne_nil x others)
          have more : rounds ≠ 0 := by omega
          simp only [more, if_false] at next
          have first : Passes phase constraints progress.values middle.values :=
            .single ⟨_, pass⟩
          refine ih (first.valued valued) ?_ (by omega) next
          intro y isKey
          rw [pass.known] at isKey
          rw [pass.closure_eq]
          exact forced y isKey

end PathTheory
