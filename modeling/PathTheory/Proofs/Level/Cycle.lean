import PathTheory.Proofs.Level.Raising
import PathTheory.Proofs.Level.Solution
import Mathlib.Data.List.Chain
/-!
Cycles of level constraints. A variable that is still raised in the last of more rounds than there
are variables has been raised from one that was raised in the round before, and so on through all
the rounds; one of those variables comes twice. The main statement is that the constraints that are
reported lead around from it to itself, and that they ask for more of it than it has.
-/
namespace PathTheory

/-- The inferred variable on the right of the first constraint is the one on the left of the
    second. -/
def LevelConstraint.Feeds (c d : LevelConstraint) : Prop :=
  ∃ x, c.target? = some x ∧ d.source? = some x

/-- Constraints in the order in which they raise each other, the first ones in a circle: some
    constraint leads back to the variable that they start from, and up to there they ask for more of
    it than it has. -/
structure RaisingCycle (chain : List LevelConstraint) : Prop where
  feeds : chain.IsChain LevelConstraint.Feeds
  closed : ∃ front last rest x, chain = front ++ last :: rest ∧
    chain.head?.bind LevelConstraint.source? = some x ∧ last.target? = some x ∧
    0 < ((front ++ [last]).map LevelConstraint.gain).sum

/-- The constraints so far lead from a variable to all those that were visited before it. -/
structure LeadsBack (all : List LevelConstraint) (parent : Parents) (seen : List LevelVar)
    (x : LevelVar) (chain : List LevelConstraint) : Prop where
  listed : ∀ c ∈ chain, c ∈ all
  feeds : chain.IsChain LevelConstraint.Feeds
  start : ∀ c ∈ chain.head?, c.source? = some x
  visited : ∀ z ∈ seen, ∃ front last rest y w n, chain = front ++ last :: rest ∧
    last.target? = some z ∧ parent z = some (y, w) ∧ parent.Leads y x n ∧
    w + n = ((front ++ [last]).map LevelConstraint.gain).sum

section Chain

variable {phase : SolvePhase} {all chain : List LevelConstraint} {r : Nat}
  {progress : LevelProgress} {round : LevelVar → Nat} {parent : Parents} {seen : List LevelVar}
  {c : LevelConstraint} {x y : LevelVar}

theorem LeadsBack.nil (all : List LevelConstraint) (parent : Parents) (x : LevelVar) :
    LeadsBack all parent [] x [] where
  listed := List.forall_mem_nil _
  feeds := .nil
  start := nofun
  visited := List.forall_mem_nil _

/-- One constraint further back. -/
theorem LeadsBack.cons (back : LeadsBack all parent seen x chain) (listed : c ∈ all)
    (target : c.target? = some x) (source : c.source? = some y)
    (next : parent x = some (y, c.gain)) : LeadsBack all parent (x :: seen) y (c :: chain) where
  listed := List.forall_mem_cons.mpr ⟨listed, back.listed⟩
  feeds := List.isChain_cons.mpr ⟨fun d first => ⟨x, target, back.start d first⟩, back.feeds⟩
  start := by
    rintro _ ⟨⟩
    exact source
  visited := by
    refine List.forall_mem_cons.mpr ⟨?_, fun z isSeen => ?_⟩
    · exact ⟨[], c, chain, y, c.gain, 0, rfl, target, next, .here y, by simp⟩
    · obtain ⟨front, last, rest, t, w, n, rfl, isTarget, first, leads, sum⟩ := back.visited z isSeen
      refine ⟨c :: front, last, rest, t, w, n + (c.gain + 0), rfl, isTarget, first,
        leads.append (.step next (.here y)), ?_⟩
      rw [List.cons_append, List.map_cons, List.sum_cons, ← sum]
      omega

/-- A variable that comes again closes a cycle. -/
theorem LeadsBack.cycle (back : LeadsBack all parent seen x chain) (again : x ∈ seen)
    (positive : parent.Positive) : RaisingCycle chain := by
  obtain ⟨front, last, rest, y, w, n, split, target, first, leads, sum⟩ := back.visited x again
  refine ⟨back.feeds, front, last, rest, x, split, ?_, target, ?_⟩
  · obtain ⟨c, others, whole⟩ := List.exists_cons_of_ne_nil
      (show chain ≠ [] by rw [split]; exact List.append_ne_nil_of_right_ne_nil _ nofun)
    rw [whole, List.head?_cons, Option.bind_some]
    exact back.start c (by rw [whole]; rfl)
  · rw [← sum]
    exact positive x y w n first leads

/-- Every variable that was raised has a place among the values. -/
theorem Dated.few (dated : Dated phase all r progress round) (distinct : seen.Nodup)
    (raised : ∀ z ∈ seen, 0 < round z) : seen.length ≤ progress.values.length := by
  have keys : seen ⊆ progress.values.map Prod.fst := fun z isSeen =>
    lookup_isSome_iff.mp (dated.known z (raised z isSeen))
  simpa using (distinct.subperm keys).length_le

/-- **Following the reasons back ends where a variable comes again.** Each step goes back one round
    at most, and the variables do not last for as many steps as there are rounds. -/
theorem raisingChain_cycle (dated : Dated phase all r progress round) {fuel : Nat}
    (distinct : seen.Nodup) (raised : ∀ z ∈ seen, 0 < round z)
    (enough : fuel + seen.length = progress.values.length + 1)
    (late : progress.values.length + 2 ≤ round x + seen.length)
    (back : LeadsBack all (progress.parents round) seen x chain) :
    (∀ c ∈ raisingChain progress.reasons fuel seen x chain, c ∈ all) ∧
      RaisingCycle (raisingChain progress.reasons fuel seen x chain) := by
  have few := dated.few distinct raised
  induction fuel generalizing seen x chain with
  | zero =>
      -- one variable more than there are
      omega
  | succ fuel ih =>
      by_cases again : x ∈ seen
      · have stop : raisingChain progress.reasons (fuel + 1) seen x chain = chain := by
          simp [raisingChain, again]
        rw [stop]
        exact ⟨back.listed, back.cycle again dated.positive⟩
      · -- there are too few variables before this one to be back in the first round
        have counts : 2 ≤ round x := by omega
        obtain ⟨c, listed, y, raisedBy⟩ := dated.reasons x counts
        obtain ⟨isVar, inferred⟩ := Option.filter_eq_some_iff.mp raisedBy.source
        have next : progress.parents round x = some (y, c.gain) := by
          simp [LevelProgress.parents, counts, raisedBy.reason, raisedBy.source]
        have on : raisingChain progress.reasons (fuel + 1) seen x chain =
            raisingChain progress.reasons fuel (x :: seen) y (c :: chain) := by
          simp [raisingChain, again, raisedBy.reason, isVar, inferred]
        have distinct' : (x :: seen).Nodup := List.nodup_cons.mpr ⟨again, distinct⟩
        have raised' : ∀ z ∈ x :: seen, 0 < round z :=
          List.forall_mem_cons.mpr ⟨by omega, raised⟩
        have soon := raisedBy.soon
        rw [on]
        apply ih distinct' raised' _ _
          (back.cons listed raisedBy.target raisedBy.source next) (dated.few distinct' raised')
        · rw [List.length_cons]
          omega
        · rw [List.length_cons]
          omega

end Chain

namespace LevelEquations

theorem settlePhase_cycle {phase : SolvePhase} {constraints chain : List LevelConstraint}
    {progress : LevelProgress}
    (done : (settlePhase phase constraints progress).run = .ok (.error (.cycle chain))) :
    (∀ c ∈ chain, c ∈ constraints) ∧ RaisingCycle chain := by
  obtain ⟨after, left, settled, rest, stuck⟩ := settlePhase_run done
  cases left with
  | none => cases rest rfl
  | some x =>
      cases stuck x rfl
      obtain ⟨keys, round, dated, last⟩ := settle_dated settled
        (.start phase constraints progress) fun impossible => absurd impossible (Nat.lt_irrefl 0)
      have size : after.values.length = progress.values.length := by
        simpa using congrArg List.length keys
      rw [← size]
      apply raisingChain_cycle dated .nil (List.forall_mem_nil _) rfl _ (.nil _ _ _)
      simp only [List.length_nil]
      omega

theorem solveKind_cycle {e : LevelEquations} {kind : LevelKind} {chain : List LevelConstraint}
    (done : (e.solveKind kind).run = .ok (.error (.cycle chain))) :
    (∀ c ∈ chain, c ∈ e.ofKind kind) ∧ RaisingCycle chain := by
  obtain ⟨s, first, next⟩ := solveKind_run done
  cases s with
  | error failure =>
      cases next
      exact settlePhase_cycle first
  | ok based =>
      obtain ⟨t, second, next⟩ := next
      cases t with
      | error failure =>
          cases next
          exact settlePhase_cycle second
      | ok final =>
          rcases next with ⟨_, impossible⟩ | ⟨⟨_, impossible⟩, _⟩ <;> cases impossible

/-- **A cycle that is reported is one:** recorded constraints, each one feeding the next, that lead
    back to the variable that they start from and ask for more of it than it has. -/
theorem solve_cycle {e : LevelEquations} {chain : List LevelConstraint}
    (done : e.solve.run = .ok (.error (.cycle chain))) :
    (∀ c ∈ chain, c ∈ e.constraints.toList) ∧ RaisingCycle chain := by
  rcases solve_steps done with ⟨kind, failure, failed, same⟩ | ⟨_, _, _, _, final⟩
  · cases same
    obtain ⟨listed, cycle⟩ := solveKind_cycle failed
    exact ⟨fun c among => ofKind_among (listed c among), cycle⟩
  · rcases final with ⟨impossible, _⟩ | ⟨_, _, _, impossible⟩ <;> cases impossible

/-- Two variables that raise each other, one that starts them, and one that only follows. -/
def rivals : LevelEquations where
  constraints := #[
    ⟨.ofVar (.infer 1 .predicative), .ofVar (.infer 2 .predicative), .none⟩,
    ⟨.const 3, .ofVar (.infer 0 .predicative), .none⟩,
    ⟨.shift (.infer 0 .predicative) 2 none, .shift (.infer 1 .predicative) 1 (some 4), .none⟩,
    ⟨.ofVar (.infer 1 .predicative), .ofVar (.infer 0 .predicative), .none⟩]
  span := .none

theorem rivals_cycle : ∃ chain, rivals.solve.run = .ok (.error (.cycle chain)) ∧
    (∀ c ∈ chain, c ∈ rivals.constraints.toList) ∧ RaisingCycle chain :=
  have run : rivals.solve.run = .ok (.error (.cycle [
      ⟨.ofVar (.infer 1 .predicative), .ofVar (.infer 0 .predicative), .none⟩,
      ⟨.shift (.infer 0 .predicative) 2 none, .shift (.infer 1 .predicative) 1 (some 4), .none⟩,
      ⟨.ofVar (.infer 1 .predicative), .ofVar (.infer 2 .predicative), .none⟩])) := rfl
  ⟨_, run, solve_cycle run⟩

end LevelEquations

end PathTheory
