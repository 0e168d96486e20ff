import PathTheory.Proofs.Level.Parents
import PathTheory.Proofs.Level.Settling
/-!
Which constraint raised a variable last, and in which round. From the second round on a variable is
raised only because its source was raised in the round before or in the same one: all that constants
and level parameters ask for has been seen to in the first round. So the constraints noted as reasons
lead back one round at a time, and no cycle of them adds up to nothing.
-/
namespace PathTheory

open Rank

namespace SolvePhase

theorem excess_le (phase : SolvePhase) (cap : Option Int) (r : Rank) : phase.excess cap r ≤ r := by
  unfold excess
  split
  · exact bot_le
  · exact le_rfl

end SolvePhase

namespace LevelConstraint

/-- The inferred variable on the left. -/
def source? (c : LevelConstraint) : Option LevelVar := c.left.var?.filter LevelVar.isInference

/-- How much more the constraint asks of the variable on the right than the one on the left has. -/
def gain (c : LevelConstraint) : Int := c.left.constant?.getD 0 - c.right.constant?.getD 0

/-- What is needed whatever the inferred variable on the left is. -/
noncomputable def ground (c : LevelConstraint) (phase : SolvePhase) : Rank :=
  c.need phase fun _ => ⊥

variable {c : LevelConstraint} {phase : SolvePhase} {ρ σ : LevelVar → Rank} {x y : LevelVar}

theorem ground_le (c : LevelConstraint) (phase : SolvePhase) (ρ : LevelVar → Rank) :
    c.ground phase ≤ c.need phase ρ :=
  c.need_mono phase fun _ => bot_le

/-- Only the inferred variable on the left matters. -/
theorem need_congr (same : ∀ y, c.source? = some y → ρ y = σ y) :
    c.need phase ρ = c.need phase σ := by
  have reach : ∀ cap, phase.reach cap ρ c.left = phase.reach cap σ c.left := by
    intro cap
    cases left : c.left with
    | const n => rfl
    | infinity => rfl
    | shift y n m =>
        cases y with
        | param k => rfl
        | infer id k =>
            simp only [SolvePhase.reach]
            rw [same (.infer id k) (by simp [source?, left, Level.var?, LevelVar.isInference])]
  unfold need
  split
  · rw [reach]
  · rfl

/-- What is needed beyond that is needed for the variable on the left. -/
theorem need_source (target : c.target? = some x) (more : c.ground phase < c.need phase ρ) :
    ∃ y, c.source? = some y ∧ c.need phase ρ ≤ ρ y + ofInt c.gain := by
  cases source : c.source? with
  | none =>
      -- without a source nothing depends on the ranks
      have same : c.ground phase = c.need phase ρ :=
        need_congr fun y impossible => by rw [source] at impossible; cases impossible
      exact absurd same more.ne
  | some y =>
      refine ⟨y, rfl, ?_⟩
      obtain ⟨_, offset, cap, right⟩ := target_inference target
      obtain ⟨isVar, inferred⟩ := Option.filter_eq_some_iff.mp source
      have bound : c.need phase ρ ≤ max (ρ y + ofInt c.gain) (c.ground phase) := by
        rw [ground, need_of_right right, need_of_right right]
        cases left : c.left with
        | const n =>
            rw [left] at isVar
            cases isVar
        | infinity =>
            rw [left] at isVar
            cases isVar
        | shift z n m =>
            rw [left] at isVar
            cases isVar
            cases y with
            | param k => cases inferred
            | infer id k =>
                have gained : c.gain = n + -offset := by
                  simp [gain, left, right, Level.constant?, Int.sub_eq_add_neg]
                rw [gained, ofInt_add, ← add_assoc, ← max_add]
                gcongr
                refine max_le_max (phase.excess_le cap _) ?_
                exact le_max_right _ _
      exact (le_max_iff.mp bound).resolve_right more.not_ge

end LevelConstraint

/-- The constraint has nothing more to ask of its target than what its source may have got in round
    number r or later. -/
def Served (phase : SolvePhase) (values : List (LevelVar × LevelValue)) (round : LevelVar → Nat)
    (r : Nat) (c : LevelConstraint) : Prop :=
  ∀ x, c.target? = some x → (values.lookup x).isSome →
    c.ground phase ≤ phase.ranks values x ∧
      (c.need phase (phase.ranks values) ≤ phase.ranks values x ∨
        ∃ y, c.source? = some y ∧ r ≤ round y)

namespace LevelProgress

/-- Where the variables were raised from, leaving out those that have not been raised since the first
    round. -/
def parents (progress : LevelProgress) (round : LevelVar → Nat) : Parents := fun x =>
  if 2 ≤ round x then
    (progress.reasons.lookup x).bind fun c => c.source?.map fun y => (y, c.gain)
  else none

end LevelProgress

/-- A variable was raised by this constraint from that one. -/
structure RaisedBy (phase : SolvePhase) (progress : LevelProgress) (round : LevelVar → Nat)
    (x : LevelVar) (c : LevelConstraint) (y : LevelVar) : Prop where
  reason : progress.reasons.lookup x = some c
  target : c.target? = some x
  source : c.source? = some y
  -- it may have been raised again since
  soon : round x ≤ round y + 1
  bounded : phase.ranks progress.values x ≤ phase.ranks progress.values y + ofInt c.gain

/-- What is known of the reasons when the number of the round in which each variable was raised last
    is kept; zero if it has not been raised. -/
structure Dated (phase : SolvePhase) (all : List LevelConstraint) (r : Nat)
    (progress : LevelProgress) (round : LevelVar → Nat) : Prop where
  past : ∀ x, round x ≤ r
  known : ∀ x, 0 < round x → (progress.values.lookup x).isSome
  -- in the first round constants and level parameters raise variables, too
  reasons : ∀ x, 2 ≤ round x → ∃ c ∈ all, ∃ y, RaisedBy phase progress round x c y
  positive : (progress.parents round).Positive

section Round

variable {phase : SolvePhase} {all constraints : List LevelConstraint} {r k : Nat}
  {progress after : LevelProgress} {round : LevelVar → Nat} {c d : LevelConstraint}
  {x y : LevelVar} {v : LevelValue} {values : List (LevelVar × LevelValue)}

theorem Dated.bounded (dated : Dated phase all r progress round) :
    (progress.parents round).Bounded (phase.ranks progress.values) := by
  intro x y w next
  unfold LevelProgress.parents at next
  split at next
  · rename_i late
    obtain ⟨c, _, z, raised⟩ := dated.reasons x late
    rw [raised.reason, Option.bind_some, raised.source] at next
    cases next
    exact raised.bounded
  · cases next

theorem Dated.next (dated : Dated phase all r progress round) :
    Dated phase all (r + 1) progress round :=
  { dated with past := fun x => (dated.past x).trans (Nat.le_succ r) }

/-- At the start nothing has been raised. -/
theorem Dated.start (phase : SolvePhase) (all : List LevelConstraint) (progress : LevelProgress) :
    Dated phase all 0 progress fun _ => 0 where
  past := fun _ => Nat.le_refl 0
  known := fun _ impossible => absurd impossible (Nat.lt_irrefl 0)
  reasons := fun _ impossible => absurd impossible (by decide)
  positive := fun _ _ _ _ next => by cases next

theorem LevelConstraint.Raises.isSome (raises : c.Raises phase values x v) :
    (values.lookup x).isSome := by
  obtain ⟨based, free, d, found, _⟩ := raises.finite
  rw [found]
  rfl

theorem LevelConstraint.Raises.isSome_iff (raises : c.Raises phase values x v) (y : LevelVar) :
    ((replaceValue x v values).lookup y).isSome ↔ (values.lookup y).isSome := by
  rw [raises.lookup]
  by_cases same : y = x
  · simp [same, raises.isSome]
  · simp [same]

/-- A constraint needs what it needed, unless its source was raised. -/
theorem LevelConstraint.Raises.need_other (raises : c.Raises phase values x v)
    (other : d.source? ≠ some x) :
    d.need phase (phase.ranks (replaceValue x v values)) = d.need phase (phase.ranks values) := by
  apply LevelConstraint.need_congr
  intro y source
  have apart : y ≠ x := fun same => other (same ▸ source)
  rw [raises.ranks, Function.update_of_ne apart]

/-- Whatever another constraint raises, this one may have to catch up with its source only. -/
theorem Served.raise (served : Served phase values round k d) (raises : c.Raises phase values x v)
    (order : k ≤ r) :
    Served phase (replaceValue x v values) (Function.update round x r) k d := by
  intro z target isKey
  obtain ⟨ground, rest⟩ := served z target ((raises.isSome_iff z).mp isKey)
  have grown := raises.ranks_le z
  refine ⟨ground.trans grown, ?_⟩
  by_cases fromHere : d.source? = some x
  · exact .inr ⟨x, fromHere, by rwa [Function.update_self]⟩
  rcases rest with met | ⟨y, source, late⟩
  · exact .inl (raises.need_other fromHere ▸ met.trans grown)
  · have apart : y ≠ x := fun same => fromHere (same ▸ source)
    exact .inr ⟨y, source, by rwa [Function.update_of_ne apart]⟩

/-- A constraint that has just raised its target has nothing more to ask, unless that is its source,
    too. -/
theorem LevelConstraint.Raises.served (raises : c.Raises phase values x v) :
    Served phase (replaceValue x v values) (Function.update round x r) r c := by
  intro z target _
  obtain rfl : x = z := Option.some.inj (raises.target.symm.trans target)
  have rank : phase.ranks (replaceValue x v values) x = c.need phase (phase.ranks values) := by
    rw [raises.ranks, Function.update_self]
  refine ⟨rank ▸ c.ground_le phase _, ?_⟩
  by_cases fromHere : c.source? = some x
  · exact .inr ⟨x, fromHere, by rw [Function.update_self]⟩
  · left
    rw [raises.need_other fromHere, rank]

/-- In the second round and later a variable is raised from one that was raised a round ago at
    most. -/
theorem Served.source (served : Served phase values round k c)
    (raises : c.Raises phase values x v) : ∃ y, c.source? = some y ∧ k ≤ round y ∧
      c.need phase (phase.ranks values) ≤ phase.ranks values y + ofInt c.gain := by
  obtain ⟨ground, rest⟩ := served x raises.target raises.isSome
  have unmet := not_le.mp raises.unmet
  obtain ⟨y, source, bound⟩ := LevelConstraint.need_source raises.target (ground.trans_lt unmet)
  rcases rest with met | ⟨z, isSource, late⟩
  · exact absurd met raises.unmet
  · obtain rfl : z = y := Option.some.inj (isSource.symm.trans source)
    exact ⟨z, source, late, bound⟩

/-- The progress after a variable was raised. -/
def LevelProgress.raise (progress : LevelProgress) (c : LevelConstraint) (x : LevelVar)
    (v : LevelValue) : LevelProgress :=
  ⟨replaceValue x v progress.values, (x, c) :: progress.reasons⟩

/-- What raised other variables still did. -/
theorem RaisedBy.raise {z : LevelVar} (raised : RaisedBy phase progress round z d y)
    (raises : c.Raises phase progress.values x v) (past : ∀ x, round x ≤ r) (apart : z ≠ x) :
    RaisedBy phase (progress.raise c x v) (Function.update round x r) z d y where
  reason := by
    rw [LevelProgress.raise, lookup_cons_if, if_neg apart]
    exact raised.reason
  target := raised.target
  source := raised.source
  soon := by
    rw [Function.update_of_ne apart]
    by_cases same : y = x
    · rw [same, Function.update_self]
      exact (past z).trans (Nat.le_succ r)
    · rw [Function.update_of_ne same]
      exact raised.soon
  bounded := by
    have same : phase.ranks (progress.raise c x v).values z = phase.ranks progress.values z := by
      rw [LevelProgress.raise, raises.ranks, Function.update_of_ne apart]
    rw [same]
    refine raised.bounded.trans ?_
    gcongr
    exact raises.ranks_le y

/-- What has just raised a variable is its reason. -/
theorem Served.raisedBy (served : Served phase progress.values round r c)
    (raises : c.Raises phase progress.values x v) (past : ∀ x, round x ≤ r + 1) :
    ∃ y, RaisedBy phase (progress.raise c x v) (Function.update round x (r + 1)) x c y ∧
      phase.ranks progress.values x < phase.ranks progress.values y + ofInt c.gain := by
  obtain ⟨y, source, late, bound⟩ := served.source raises
  refine ⟨y, ⟨?_, raises.target, source, ?_, ?_⟩, (not_le.mp raises.unmet).trans_le bound⟩
  · rw [LevelProgress.raise, lookup_cons_if, if_pos rfl]
  · have kept : round y ≤ Function.update round x (r + 1) y := le_update_self_iff.mpr (past x) y
    rw [Function.update_self]
    omega
  · rw [LevelProgress.raise, raises.ranks, Function.update_self, ← raises.ranks]
    refine bound.trans ?_
    gcongr
    exact raises.ranks_le y

theorem LevelProgress.parents_raise (late : 0 < r) (source : c.source? = some y) :
    (progress.raise c x v).parents (Function.update round x (r + 1)) =
      Function.update (progress.parents round) x (some (y, c.gain)) := by
  funext z
  by_cases same : z = x
  · subst same
    have counts : 2 ≤ r + 1 := Nat.succ_le_succ late
    simp [parents, raise, source, counts]
  · simp [parents, raise, lookup_cons_if, same]

/-- **What is known of the reasons is kept when a constraint raises its target.** -/
theorem Dated.raise (dated : Dated phase all (r + 1) progress round) (listed : c ∈ all)
    (raises : c.Raises phase progress.values x v)
    (served : 0 < r → Served phase progress.values round r c) :
    Dated phase all (r + 1) (progress.raise c x v) (Function.update round x (r + 1)) := by
  have past : ∀ z, Function.update round x (r + 1) z ≤ r + 1 :=
    update_le_iff.mpr ⟨Nat.le_refl _, fun z _ => dated.past z⟩
  refine ⟨past, ?known, ?reasons, ?positive⟩
  case known =>
    intro z raised
    rw [LevelProgress.raise, raises.isSome_iff]
    by_cases same : z = x
    · rw [same]
      exact raises.isSome
    · rw [Function.update_of_ne same] at raised
      exact dated.known z raised
  case reasons =>
    intro z late
    by_cases same : z = x
    · subst same
      have bound := late.trans (past z)
      obtain ⟨y, raisedBy, _⟩ := (served (by omega)).raisedBy raises dated.past
      exact ⟨c, listed, y, raisedBy⟩
    · rw [Function.update_of_ne same] at late
      obtain ⟨d, among, y, raisedBy⟩ := dated.reasons z late
      exact ⟨d, among, y, raisedBy.raise raises dated.past same⟩
  case positive =>
    by_cases late : 0 < r
    · obtain ⟨y, raisedBy, gained⟩ := (served late).raisedBy raises dated.past
      rw [LevelProgress.parents_raise late raisedBy.source]
      exact dated.positive.replaced fun n back => back.gain dated.bounded gained
    · -- nothing has been raised since the first round
      intro z y w n next
      have bound := past z
      rw [LevelProgress.parents, if_neg (by omega)] at next
      cases next

/-- How a round goes on: what is known is kept, no variable was raised earlier than before, and no
    constraint has more to ask. -/
structure Continues (phase : SolvePhase) (all : List LevelConstraint) (r : Nat)
    (progress : LevelProgress) (round : LevelVar → Nat) (after : LevelProgress)
    (round' : LevelVar → Nat) : Prop where
  dated : Dated phase all r after round'
  later : round ≤ round'
  served : ∀ k ≤ r, ∀ c, Served phase progress.values round k c →
    Served phase after.values round' k c
  keys : after.values.map Prod.fst = progress.values.map Prod.fst

theorem Continues.refl (dated : Dated phase all r progress round) :
    Continues phase all r progress round progress round :=
  ⟨dated, le_rfl, fun _ _ _ served => served, rfl⟩

theorem Continues.trans {middle : LevelProgress} {round₁ round₂ : LevelVar → Nat}
    (first : Continues phase all r progress round middle round₁)
    (next : Continues phase all r middle round₁ after round₂) :
    Continues phase all r progress round after round₂ :=
  ⟨next.dated, first.later.trans next.later,
    fun k order c served => next.served k order c (first.served k order c served),
    next.keys.trans first.keys⟩

theorem Dated.continues (dated : Dated phase all (r + 1) progress round) (listed : c ∈ all)
    (raises : c.Raises phase progress.values x v)
    (served : 0 < r → Served phase progress.values round r c) :
    Continues phase all (r + 1) progress round (progress.raise c x v)
      (Function.update round x (r + 1)) :=
  ⟨dated.raise listed raises served, le_update_self_iff.mpr (dated.past x),
    fun _ order _ served => served.raise raises order, replaceValue_keys x v progress.values⟩

/-- **After a round every constraint has been served, and what was raised was raised in it.** -/
theorem relaxAll_dated {raised : List LevelVar}
    (done : relaxAll phase constraints progress = .ok (after, raised))
    (among : ∀ c ∈ constraints, c ∈ all) (dated : Dated phase all (r + 1) progress round)
    (served : 0 < r → ∀ c ∈ constraints, Served phase progress.values round r c) :
    ∃ round', Continues phase all (r + 1) progress round after round' ∧
      (∀ c ∈ constraints, Served phase after.values round' (r + 1) c) ∧
      ∀ x ∈ raised, round' x = r + 1 := by
  induction constraints generalizing progress after raised round with
  | nil =>
      cases done
      exact ⟨round, .refl dated, List.forall_mem_nil _, List.forall_mem_nil _⟩
  | cons c rest ih =>
      obtain ⟨listed, amongRest⟩ := List.forall_mem_cons.mp among
      simp only [relaxAll] at done
      obtain ⟨relaxed, relaxing, next⟩ := bind_ok done
      have spec := LevelConstraint.relax_ok relaxing
      cases relaxed with
      | none =>
          -- what is met is served whatever the rounds are
          have met : Served phase progress.values round (r + 1) c := fun x target isKey =>
            ⟨(c.ground_le phase _).trans (spec x target isKey), .inl (spec x target isKey)⟩
          obtain ⟨round', goes, others, late⟩ := ih next amongRest dated
            fun started => (List.forall_mem_cons.mp (served started)).2
          exact ⟨round', goes, List.forall_mem_cons.mpr ⟨goes.served _ le_rfl c met, others⟩, late⟩
      | some raise =>
          obtain ⟨x, v⟩ := raise
          obtain ⟨⟨last, others⟩, tail, final⟩ := bind_ok next
          cases final
          have first := dated.continues listed spec
            fun started => (List.forall_mem_cons.mp (served started)).1
          obtain ⟨round', goes, met, late⟩ := ih tail amongRest first.dated fun started d isRest =>
            first.served r (Nat.le_succ r) d (served started d (List.mem_cons_of_mem c isRest))
          -- the rest of the round may raise it again, but not in another round
          have justNow : round' x = r + 1 := by
            apply Nat.le_antisymm (goes.dated.past x)
            simpa using goes.later x
          exact ⟨round', first.trans goes,
            List.forall_mem_cons.mpr ⟨goes.served _ le_rfl c spec.served, met⟩,
            List.forall_mem_cons.mpr ⟨justNow, late⟩⟩

/-- **A variable that is still raised in the last round has that round's number.** -/
theorem settle_dated {rounds : Nat}
    (done : settle phase all rounds progress = .ok (after, some x))
    (dated : Dated phase all r progress round)
    (served : 0 < r → ∀ c ∈ all, Served phase progress.values round r c) :
    after.values.map Prod.fst = progress.values.map Prod.fst ∧
      ∃ round', Dated phase all (r + rounds) after round' ∧ round' x = r + rounds := by
  induction rounds generalizing progress round r with
  | zero => cases done
  | succ rounds ih =>
      simp only [settle] at done
      obtain ⟨⟨middle, raised⟩, relaxing, next⟩ := bind_ok done
      obtain ⟨round', goes, met, late⟩ :=
        relaxAll_dated relaxing (fun _ listed => listed) dated.next served
      cases raised with
      | nil => cases next
      | cons y others =>
          simp only at next
          split at next
          · rename_i last
            cases next
            subst last
            exact ⟨goes.keys, round', goes.dated, late x List.mem_cons_self⟩
          · obtain ⟨keys, final, datedAfter, lateAfter⟩ := ih next goes.dated fun _ => met
            rw [Nat.add_right_comm r 1 rounds] at datedAfter lateAfter
            exact ⟨keys.trans goes.keys, final, datedAfter, lateAfter⟩

end Round

end PathTheory
