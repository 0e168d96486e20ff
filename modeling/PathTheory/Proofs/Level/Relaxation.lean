import PathTheory.Level.Solver
import PathTheory.Proofs.Run
import Mathlib.Algebra.Order.Monoid.Unbundled.WithTop
import Mathlib.Data.Int.ConditionallyCompleteOrder
import Mathlib.Data.List.Dedup
import Mathlib.Tactic.Linarith
/-!
Relaxation of level constraints. In each phase a value has a rank: its offset from the level
parameter or its constant, with infinity on top. A constraint needs a rank of its target that
grows with the ranks it reads, and a pass raises every target to what its constraints need. The
main statement is that as many passes as there are variables, and one more, come to rest below
every assignment of ranks that meets all needs.
-/
namespace PathTheory

abbrev Rank := WithBot (WithTop Int)

namespace Rank

def ofInt (n : Int) : Rank := ((n : WithTop Int) : Rank)

def ofOption : Option Int → Rank
  | none => ⊥
  | some n => ofInt n

theorem ofInt_add (a b : Int) : ofInt (a + b) = ofInt a + ofInt b := rfl

theorem ofInt_le {a b : Int} : ofInt a ≤ ofInt b ↔ a ≤ b := by
  simp [ofInt]

theorem ofInt_lt_top (a : Int) : ofInt a < ⊤ :=
  WithBot.coe_lt_coe.mpr (WithTop.coe_lt_top a)

theorem top_add_ofInt (a : Int) : (⊤ : Rank) + ofInt a = ⊤ := rfl

theorem ofOption_maxCap (a b : Option Int) :
    ofOption (Level.maxCap a b) = max (ofOption a) (ofOption b) := by
  cases a with
  | none => simp [Level.maxCap, ofOption]
  | some a =>
      cases b with
      | none => simp [Level.maxCap, ofOption]
      | some b => simp [Level.maxCap, ofOption, ofInt]

/-- Below a finite rank there is room for one less. -/
theorem le_pred_of_lt {r s : Rank} (below : r < s) (finite : s ≠ ⊤) : r ≤ s + ofInt (-1) := by
  induction r using WithBot.recBotCoe with
  | bot => exact bot_le
  | coe r =>
      induction s using WithBot.recBotCoe with
      | bot => exact absurd below not_lt_bot
      | coe s =>
          cases s with
          | top => exact absurd rfl finite
          | coe s =>
              cases r with
              | top => exact absurd below not_top_lt
              | coe r =>
                  have less : r < s := by
                    simpa using below
                  exact WithBot.coe_le_coe.mpr (WithTop.coe_le_coe.mpr (Int.le_sub_one_of_lt less))

theorem pred_lt {s : Rank} (finite : s ≠ ⊤) (some : s ≠ ⊥) : s + ofInt (-1) < s := by
  induction s using WithBot.recBotCoe with
  | bot => exact absurd rfl some
  | coe s =>
      cases s with
      | top => exact absurd rfl finite
      | coe s =>
          have less : s + -1 < s := by omega
          exact WithBot.coe_lt_coe.mpr (WithTop.coe_lt_coe.mpr less)

theorem pred_le (s : Rank) : s + ofInt (-1) ≤ s := by
  calc s + ofInt (-1) ≤ s + ofInt 0 := by
        gcongr
        exact ofInt_le.mpr (by omega)
    _ = s := add_zero s

theorem add_neg_le {r v : Rank} {offset : Int} (below : r ≤ v + ofInt offset) :
    r + ofInt (-offset) ≤ v := by
  calc r + ofInt (-offset) ≤ v + ofInt offset + ofInt (-offset) := by gcongr
    _ = v := by
        rw [add_assoc, ← ofInt_add, Int.add_right_neg]
        exact add_zero _

theorem le_add_of_add_neg_le {r v : Rank} {offset : Int}
    (below : r + ofInt (-offset) ≤ v) : r ≤ v + ofInt offset := by
  calc r = r + ofInt (-offset) + ofInt offset := by
        rw [add_assoc, ← ofInt_add, Int.add_left_neg]
        exact (add_zero _).symm
    _ ≤ v + ofInt offset := by gcongr

end Rank

open Rank

namespace SolvePhase

def rank : SolvePhase → LevelValue → Rank
  | _, .infinite => ⊤
  | .based, .finite k _ => ofOption k
  | .free, .finite _ n => ofInt n

/-- The ranks of all variables; a variable without a value has none. -/
def ranks (phase : SolvePhase) (values : List (LevelVar × LevelValue)) (x : LevelVar) : Rank :=
  match values.lookup x with
  | none => ⊥
  | some v => phase.rank v

/-- Constants up to the cap of the right side are met by the cap. -/
def Met (phase : SolvePhase) (cap : Option Int) (r : Rank) : Prop :=
  phase = .free ∧ ∃ m ∈ cap, r ≤ ofInt m

/-- What is left of a lower bound when the cap of the right side has met its part. -/
noncomputable def excess (phase : SolvePhase) (cap : Option Int) (r : Rank) : Rank :=
  open Classical in if phase.Met cap r then ⊥ else r

theorem excess_met {phase : SolvePhase} {cap : Option Int} {r : Rank} (met : phase.Met cap r) :
    phase.excess cap r = ⊥ := if_pos met

theorem excess_unmet {phase : SolvePhase} {cap : Option Int} {r : Rank}
    (unmet : ¬ phase.Met cap r) : phase.excess cap r = r := if_neg unmet

theorem Met.anti {phase : SolvePhase} {cap : Option Int} {r s : Rank} (below : r ≤ s)
    (met : phase.Met cap s) : phase.Met cap r := by
  obtain ⟨free, m, isCap, low⟩ := met
  exact ⟨free, m, isCap, below.trans low⟩

theorem excess_mono (phase : SolvePhase) (cap : Option Int) {r s : Rank} (below : r ≤ s) :
    phase.excess cap r ≤ phase.excess cap s := by
  by_cases met : phase.Met cap r
  · rw [excess_met met]
    exact bot_le
  · have unmet : ¬ phase.Met cap s := fun low => met (low.anti below)
    rw [excess_unmet met, excess_unmet unmet]
    exact below

/-- Lowering what is read by one lowers what is left by one. -/
theorem excess_pred (phase : SolvePhase) (cap : Option Int) (r : Rank) :
    phase.excess cap (r + ofInt (-1)) ≤ phase.excess cap r + ofInt (-1) := by
  by_cases met : phase.Met cap (r + ofInt (-1))
  · rw [excess_met met]
    exact bot_le
  · have unmet : ¬ phase.Met cap r := fun low => met (low.anti (pred_le r))
    rw [excess_unmet met, excess_unmet unmet]

theorem excess_top (phase : SolvePhase) (cap : Option Int) : phase.excess cap ⊤ = ⊤ := by
  apply excess_unmet
  rintro ⟨_, m, _, low⟩
  exact not_le.mpr (ofInt_lt_top m) low

theorem excess_bot (phase : SolvePhase) (cap : Option Int) : phase.excess cap ⊥ = ⊥ := by
  unfold excess
  split <;> rfl

theorem excess_based (cap : Option Int) (r : Rank) : SolvePhase.based.excess cap r = r := by
  apply excess_unmet
  rintro ⟨free, _⟩
  cases free

theorem excess_ofInt (cap : Option Int) (n : Int) :
    SolvePhase.free.excess cap (ofInt n) =
      if LevelConstraint.overCap cap n then ofInt n else ⊥ := by
  by_cases above : LevelConstraint.overCap cap n
  · rw [if_pos above]
    apply excess_unmet
    rintro ⟨_, m, isCap, low⟩
    have bound := ofInt_le.mp low
    cases isCap
    simp [LevelConstraint.overCap] at above
    omega
  · rw [if_neg above]
    cases cap with
    | none => simp [LevelConstraint.overCap] at above
    | some m =>
        apply excess_met
        refine ⟨rfl, m, rfl, ofInt_le.mpr ?_⟩
        simpa [LevelConstraint.overCap] using above

/-- What a constant on the left asks for: nothing while offsets are found. -/
noncomputable def constant (phase : SolvePhase) (cap : Option Int) (n : Int) : Rank :=
  match phase with
  | .based => ⊥
  | .free => SolvePhase.free.excess cap (ofInt n)

/-- What a level parameter on the left asks for: nothing while constants are found. -/
def parameter (phase : SolvePhase) (n : Int) : Rank :=
  match phase with
  | .based => ofInt n
  | .free => ⊥

/-- What a left side reaches above the cap of the right side. -/
noncomputable def reach (phase : SolvePhase) (cap : Option Int) (ρ : LevelVar → Rank) :
    Level → Rank
  | .infinity => ⊤
  | .const n => phase.constant cap n
  | .shift x n m => max
      (match x with
        | .param _ => phase.parameter n
        | .infer _ _ => phase.excess cap (ρ x + ofInt n))
      (m.elim ⊥ (phase.constant cap))

theorem reach_mono (phase : SolvePhase) (cap : Option Int) {ρ σ : LevelVar → Rank}
    (below : ∀ x, ρ x ≤ σ x) (a : Level) : phase.reach cap ρ a ≤ phase.reach cap σ a := by
  cases a with
  | infinity => exact le_rfl
  | const n => exact le_rfl
  | shift x n m =>
      cases x with
      | param kind => exact le_rfl
      | infer id kind =>
          refine max_le_max_right _ (phase.excess_mono cap ?_)
          gcongr
          exact below _

/-- If a variable stays below what it was, or below one less than it will be, so does the reach. -/
theorem reach_between (phase : SolvePhase) (cap : Option Int) {ρ υ σ : LevelVar → Rank}
    {a : Level} (between : ∀ x, a.var? = some x → x.isInference = true →
      υ x ≤ ρ x ∨ υ x ≤ σ x + ofInt (-1)) :
    phase.reach cap υ a ≤ max (phase.reach cap ρ a) (phase.reach cap σ a + ofInt (-1)) := by
  cases a with
  | infinity => exact le_max_left _ _
  | const n => exact le_max_left _ _
  | shift x n m =>
      cases x with
      | param kind => exact le_max_left _ _
      | infer id kind =>
          refine max_le ?_ ?_
          · rcases between (.infer id kind) rfl rfl with low | low
            · have step : phase.excess cap (υ (.infer id kind) + ofInt n) ≤
                  phase.excess cap (ρ (.infer id kind) + ofInt n) := by
                apply phase.excess_mono
                gcongr
              exact (step.trans (le_max_left _ _)).trans (le_max_left _ _)
            · have step : phase.excess cap (υ (.infer id kind) + ofInt n) ≤
                  phase.excess cap (σ (.infer id kind) + ofInt n) + ofInt (-1) := by
                refine le_trans ?_ (phase.excess_pred cap _)
                apply phase.excess_mono
                rw [add_right_comm]
                gcongr
              refine (step.trans ?_).trans (le_max_right _ _)
              gcongr
              exact le_max_left _ _
          · exact (le_max_right _ _).trans (le_max_left _ _)

theorem constant_lt_top (phase : SolvePhase) (cap : Option Int) (n : Int) :
    phase.constant cap n < ⊤ := by
  cases phase with
  | based => exact bot_lt_top
  | free =>
      rw [constant, excess_ofInt]
      split
      · exact ofInt_lt_top n
      · exact bot_lt_top

theorem excess_eq_top {phase : SolvePhase} {cap : Option Int} {r : Rank}
    (top : phase.excess cap r = ⊤) : r = ⊤ := by
  by_cases met : phase.Met cap r
  · rw [excess_met met] at top
    cases top
  · rwa [excess_unmet met] at top

/-- A finite offset keeps infinity apart from the rest. -/
theorem add_eq_top {r : Rank} {n : Int} (top : r + ofInt n = ⊤) : r = ⊤ := by
  induction r using WithBot.recBotCoe with
  | bot => cases top
  | coe r =>
      cases r with
      | top => rfl
      | coe k =>
          have finite : ((k : WithTop Int) : Rank) + ofInt n = ofInt (k + n) := rfl
          rw [finite] at top
          exact absurd top (ofInt_lt_top _).ne

/-- Infinity is reached from an infinite left side only. -/
theorem reach_eq_top_iff (phase : SolvePhase) (cap : Option Int) (ρ : LevelVar → Rank)
    (a : Level) : phase.reach cap ρ a = ⊤ ↔
      a = .infinity ∨ ∃ x, a.var? = some x ∧ x.isInference = true ∧ ρ x = ⊤ := by
  cases a with
  | infinity => simp [reach]
  | const n => simpa [reach, Level.var?] using (phase.constant_lt_top cap n).ne
  | shift x n m =>
      have capFinite : m.elim ⊥ (phase.constant cap) < ⊤ := by
        cases m with
        | none => exact bot_lt_top
        | some m => exact phase.constant_lt_top cap m
      cases x with
      | param kind =>
          have finite : phase.parameter n < ⊤ := by
            cases phase with
            | based => exact ofInt_lt_top n
            | free => exact bot_lt_top
          have both : phase.reach cap ρ (.shift (.param kind) n m) < ⊤ := max_lt finite capFinite
          simpa [Level.var?, LevelVar.isInference] using both.ne
      | infer id kind =>
          constructor
          · intro top
            rcases max_choice (phase.excess cap (ρ (.infer id kind) + ofInt n))
              (m.elim ⊥ (phase.constant cap)) with same | same
            · have infinite := excess_eq_top (same.symm.trans top)
              exact .inr ⟨_, rfl, rfl, add_eq_top infinite⟩
            · exact absurd (same.symm.trans top) capFinite.ne
          · rintro (impossible | ⟨y, isVar, _, top⟩)
            · cases impossible
            · cases isVar
              simp [reach, top, top_add_ofInt, excess_top]

def demandRank (phase : SolvePhase) : Option (Option Int × Option Int) → Rank
  | none => ⊤
  | some (k, n) => match phase with
    | .based => ofOption k
    | .free => ofOption n

end SolvePhase

namespace LevelConstraint

/-- The inferred variable that a constraint can raise. -/
def target? (c : LevelConstraint) : Option LevelVar :=
  match c.right with
  | .shift x _ _ => if x.isInference then some x else none
  | _ => none

/-- The rank that a constraint needs its target to have. -/
noncomputable def need (c : LevelConstraint) (phase : SolvePhase) (ρ : LevelVar → Rank) : Rank :=
  match c.right with
  | .shift _ offset cap => phase.reach cap ρ c.left + ofInt (-offset)
  | _ => ⊥

theorem sub_rank {a b c : Int} (done : Bounded.sub a b = .ok c) :
    ofInt c = ofInt a + ofInt (-b) := by
  rw [Bounded.sub_ok done, ← ofInt_add, Int.sub_eq_add_neg]

/-- The cap of a left side, as far as it asks for anything. -/
theorem capDemand_rank {m cap : Option Int} {offset : Int} {r : Option Int}
    (done : capDemand m cap offset = .ok r) :
    ofOption r = m.elim ⊥ (SolvePhase.free.constant cap) + ofInt (-offset) := by
  cases m with
  | none =>
      cases done
      simp [ofOption]
  | some m =>
      by_cases above : overCap cap m
      · simp only [capDemand, Option.filter, above, if_true, Functor.map, Except.map] at done
        cases moved : Bounded.sub m offset with
        | error fault => simp [moved] at done
        | ok k =>
            simp only [moved, Except.ok.injEq] at done
            subst done
            simp [ofOption, SolvePhase.constant, SolvePhase.excess_ofInt, above, sub_rank moved]
      · simp only [capDemand, Option.filter, above] at done
        cases done
        simp [ofOption, SolvePhase.constant, SolvePhase.excess_ofInt, above]

theorem basedDemand_rank {based : Option Int} {n offset : Int} {r : Option Int}
    (done : basedDemand based n offset = .ok r) :
    ofOption r = ofOption based + ofInt n + ofInt (-offset) := by
  cases based with
  | none =>
      cases done
      simp [ofOption]
  | some b =>
      simp only [basedDemand] at done
      obtain ⟨sum, added, rest⟩ := bind_ok done
      obtain ⟨k, moved, rest⟩ := bind_ok rest
      cases rest
      rw [ofOption, sub_rank moved, Bounded.add_ok added, ofInt_add]
      rfl

theorem demand_rank {left : Level} {offset : Int} {cap : Option Int}
    {values : List (LevelVar × LevelValue)} {d : Option (Option Int × Option Int)}
    (phase : SolvePhase) (done : demand left offset cap values = .ok d) :
    phase.demandRank d = phase.reach cap (phase.ranks values) left + ofInt (-offset) := by
  cases left with
  | infinity =>
      cases done
      rfl
  | const n =>
      simp only [demand] at done
      by_cases above : overCap cap n
      · rw [if_pos above] at done
        obtain ⟨k, moved, rest⟩ := bind_ok done
        cases rest
        cases phase <;> simp [SolvePhase.demandRank, SolvePhase.reach, SolvePhase.constant,
          SolvePhase.excess_ofInt, above, ofOption, sub_rank moved]
      · rw [if_neg above] at done
        cases done
        cases phase <;> simp [SolvePhase.demandRank, SolvePhase.reach, SolvePhase.constant,
          SolvePhase.excess_ofInt, above, ofOption]
  | shift x n m =>
      simp only [demand] at done
      obtain ⟨capped, filtered, rest⟩ := bind_ok done
      have capRank := capDemand_rank filtered
      have noOffset : m.elim ⊥ (SolvePhase.based.constant cap) = (⊥ : Rank) := by
        cases m <;> rfl
      cases x with
      | param kind =>
          obtain ⟨k, moved, rest⟩ := bind_ok rest
          cases rest
          cases phase with
          | based => simp [SolvePhase.demandRank, SolvePhase.reach, SolvePhase.parameter, ofOption,
              noOffset, sub_rank moved]
          | free => simp [SolvePhase.demandRank, SolvePhase.reach, SolvePhase.parameter, capRank]
      | infer id kind =>
          cases found : values.lookup (.infer id kind) with
          | none =>
              simp only [found] at rest
              cases rest
              cases phase with
              | based => simp [SolvePhase.demandRank, SolvePhase.reach, SolvePhase.ranks, found,
                  noOffset, ofOption, SolvePhase.excess_bot]
              | free => simp [SolvePhase.demandRank, SolvePhase.reach, SolvePhase.ranks, found,
                  capRank, SolvePhase.excess_bot]
          | some v =>
              cases v with
              | infinite =>
                  simp only [found] at rest
                  cases rest
                  simp [SolvePhase.demandRank, SolvePhase.reach, SolvePhase.ranks, found,
                    SolvePhase.rank, top_add_ofInt, SolvePhase.excess_top]
              | finite based free =>
                  simp only [found] at rest
                  obtain ⟨moved, basedDone, rest⟩ := bind_ok rest
                  obtain ⟨sum, added, rest⟩ := bind_ok rest
                  have basedRank := basedDemand_rank basedDone
                  cases phase with
                  | based =>
                      have offsetOnly : d = some (moved, capped) ∨
                          ∃ k, d = some (moved, k) := by
                        by_cases above : overCap cap sum
                        · rw [if_pos above] at rest
                          obtain ⟨k, _, rest⟩ := bind_ok rest
                          exact .inr ⟨_, (Except.ok.inj rest).symm⟩
                        · rw [if_neg above] at rest
                          exact .inl (Except.ok.inj rest).symm
                      have known : SolvePhase.based.demandRank d = ofOption moved := by
                        obtain rfl | ⟨k, rfl⟩ := offsetOnly <;> rfl
                      rw [known, basedRank]
                      simp [SolvePhase.reach, SolvePhase.ranks, found, SolvePhase.rank, noOffset,
                        SolvePhase.excess_based]
                  | free =>
                      have sumRank : ofInt free + ofInt n = ofInt sum := by
                        rw [Bounded.add_ok added, ofInt_add]
                      by_cases above : overCap cap sum
                      · rw [if_pos above] at rest
                        obtain ⟨k, lowered, rest⟩ := bind_ok rest
                        cases rest
                        simp only [SolvePhase.demandRank, SolvePhase.reach, SolvePhase.ranks,
                          found, SolvePhase.rank, ofOption_maxCap, capRank, sumRank,
                          SolvePhase.excess_ofInt, above, if_true, max_add]
                        rw [ofOption, sub_rank lowered, max_comm]
                      · rw [if_neg above] at rest
                        cases rest
                        simp [SolvePhase.demandRank, SolvePhase.reach, SolvePhase.ranks,
                          found, SolvePhase.rank, capRank, sumRank, SolvePhase.excess_ofInt, above]

theorem need_of_right {c : LevelConstraint} {x : LevelVar} {offset : Int} {cap : Option Int}
    (right : c.right = .shift x offset cap) (phase : SolvePhase) (ρ : LevelVar → Rank) :
    c.need phase ρ = phase.reach cap ρ c.left + ofInt (-offset) := by
  simp [need, right]

theorem target_of_right {c : LevelConstraint} {x : LevelVar} {offset : Int} {cap : Option Int}
    (right : c.right = .shift x offset cap) (inferred : x.isInference = true) :
    c.target? = some x := by
  simp [target?, right, inferred]

theorem target_inference {c : LevelConstraint} {x : LevelVar} (target : c.target? = some x) :
    x.isInference = true ∧ ∃ offset cap, c.right = .shift x offset cap := by
  unfold target? at target
  cases right : c.right with
  | const n => simp [right] at target
  | infinity => simp [right] at target
  | shift y offset cap =>
      cases inferred : y.isInference with
      | false => simp [right, inferred] at target
      | true =>
          simp only [right, inferred, if_true, Option.some.injEq] at target
          subst target
          exact ⟨inferred, offset, cap, rfl⟩

end LevelConstraint

namespace LevelValue

theorem raised_rank (phase : SolvePhase) (based : Option Int) (free : Int)
    (d : Option (Option Int × Option Int)) :
    phase.rank (raised phase based free d) =
      max (phase.rank (.finite based free)) (phase.demandRank d) := by
  cases d with
  | none => simp [raised, SolvePhase.rank, SolvePhase.demandRank]
  | some needs =>
      obtain ⟨k, n⟩ := needs
      cases phase with
      | based => simp [raised, SolvePhase.rank, SolvePhase.demandRank, ofOption_maxCap]
      | free =>
          cases n with
          | none => simp [raised, SolvePhase.rank, SolvePhase.demandRank, ofOption]
          | some n => simp [raised, SolvePhase.rank, SolvePhase.demandRank, ofOption, ofInt]

/-- A demand that is met raises nothing. -/
theorem raised_of_met {phase : SolvePhase} {based : Option Int} {free : Int}
    {d : Option (Option Int × Option Int)}
    (met : phase.demandRank d ≤ phase.rank (.finite based free)) :
    raised phase based free d = .finite based free := by
  cases d with
  | none =>
      have finite : phase.rank (.finite based free) < ⊤ := by
        cases phase with
        | based =>
            cases based with
            | none => exact bot_lt_top
            | some k => exact ofInt_lt_top k
        | free => exact ofInt_lt_top free
      exact absurd finite (not_lt.mpr met)
  | some needs =>
      obtain ⟨k, n⟩ := needs
      cases phase with
      | based =>
          cases k with
          | none => cases based <;> simp [raised, Level.maxCap]
          | some k =>
              cases based with
              | none => simp [SolvePhase.demandRank, SolvePhase.rank, ofOption, ofInt] at met
              | some b =>
                  have bound := ofInt_le.mp met
                  simp [raised, Level.maxCap, bound]
      | free =>
          cases n with
          | none => simp [raised]
          | some n =>
              have bound := ofInt_le.mp met
              simp [raised, bound]

end LevelValue

namespace LevelConstraint

/-- What one constraint does to the values: its target gets a value of the rank that is needed. -/
structure Raises (c : LevelConstraint) (phase : SolvePhase)
    (values : List (LevelVar × LevelValue)) (x : LevelVar) (v : LevelValue) : Prop where
  target : c.target? = some x
  finite : ∃ based free d, values.lookup x = some (.finite based free) ∧
    v = LevelValue.raised phase based free d ∧
    phase.demandRank d = c.need phase (phase.ranks values)
  unmet : ¬ c.need phase (phase.ranks values) ≤ phase.ranks values x

theorem Raises.rank {c : LevelConstraint} {phase : SolvePhase}
    {values : List (LevelVar × LevelValue)} {x : LevelVar} {v : LevelValue}
    (raises : c.Raises phase values x v) : phase.rank v = c.need phase (phase.ranks values) := by
  obtain ⟨based, free, d, found, rfl, demanded⟩ := raises.finite
  have before : phase.ranks values x = phase.rank (.finite based free) := by
    simp [SolvePhase.ranks, found]
  have unmet := raises.unmet
  rw [before] at unmet
  rw [LevelValue.raised_rank, demanded, max_eq_right (le_of_not_ge unmet)]

/-- A constraint raises its target exactly when the target has less than is needed. -/
theorem relax_ok {c : LevelConstraint} {phase : SolvePhase}
    {values : List (LevelVar × LevelValue)} {r : Option (LevelVar × LevelValue)}
    (done : c.relax phase values = .ok r) :
    match r with
    | some (x, v) => c.Raises phase values x v
    | none => ∀ x, c.target? = some x → (values.lookup x).isSome →
        c.need phase (phase.ranks values) ≤ phase.ranks values x := by
  cases right : c.right with
  | const n =>
      simp only [relax, right] at done
      cases done
      intro x target
      simp [target?, right] at target
  | infinity =>
      simp only [relax, right] at done
      cases done
      intro x target
      simp [target?, right] at target
  | shift y offset cap =>
      simp only [relax, right] at done
      cases inferred : y.isInference with
      | false =>
          simp only [inferred] at done
          cases done
          intro x target
          simp [target?, right, inferred] at target
      | true =>
          simp only [inferred, Bool.not_true, if_neg Bool.false_ne_true] at done
          have target := target_of_right right inferred
          cases found : values.lookup y with
          | none =>
              simp only [found] at done
              cases done
              intro x isTarget known
              rw [target, Option.some.injEq] at isTarget
              subst isTarget
              simp [found] at known
          | some v =>
              cases v with
              | infinite =>
                  simp only [found] at done
                  cases done
                  intro x isTarget _
                  rw [target, Option.some.injEq] at isTarget
                  subst isTarget
                  simp [SolvePhase.ranks, found, SolvePhase.rank]
              | finite based free =>
                  simp only [found] at done
                  obtain ⟨d, demanded, rest⟩ := bind_ok done
                  have rank := demand_rank phase demanded
                  rw [← need_of_right right] at rank
                  have before : phase.ranks values y = phase.rank (.finite based free) := by
                    simp [SolvePhase.ranks, found]
                  have after := LevelValue.raised_rank phase based free d
                  by_cases same : LevelValue.raised phase based free d = .finite based free
                  · simp only [same, if_true, pure, Except.pure] at rest
                    cases rest
                    intro x isTarget _
                    rw [target, Option.some.injEq] at isTarget
                    subst isTarget
                    rw [same, rank] at after
                    rw [before, after]
                    exact le_max_right _ _
                  · simp only [same, if_false, pure, Except.pure] at rest
                    cases rest
                    refine ⟨target, ⟨based, free, d, found, rfl, rank⟩, ?_⟩
                    rw [before, ← rank]
                    intro met
                    exact same (LevelValue.raised_of_met met)

theorem need_mono (c : LevelConstraint) (phase : SolvePhase) {ρ σ : LevelVar → Rank}
    (below : ∀ x, ρ x ≤ σ x) : c.need phase ρ ≤ c.need phase σ := by
  unfold need
  split
  · gcongr
    exact phase.reach_mono _ below _
  · exact le_rfl

theorem need_between (c : LevelConstraint) (phase : SolvePhase) {ρ υ σ : LevelVar → Rank}
    (between : ∀ x, c.left.var? = some x → x.isInference = true →
      υ x ≤ ρ x ∨ υ x ≤ σ x + ofInt (-1)) :
    c.need phase υ ≤ max (c.need phase ρ) (c.need phase σ + ofInt (-1)) := by
  unfold need
  split
  · rename_i offset cap _
    calc phase.reach cap υ c.left + ofInt (-offset)
        ≤ max (phase.reach cap ρ c.left) (phase.reach cap σ c.left + ofInt (-1)) +
            ofInt (-offset) := by
          gcongr
          exact phase.reach_between cap between
      _ = max (phase.reach cap ρ c.left + ofInt (-offset))
            (phase.reach cap σ c.left + ofInt (-offset) + ofInt (-1)) := by
          rw [max_add, add_right_comm]
  · exact le_max_left _ _

theorem need_eq_top_iff (phase : SolvePhase) (ρ : LevelVar → Rank) {c : LevelConstraint}
    {x : LevelVar} (target : c.target? = some x) : c.need phase ρ = ⊤ ↔
      c.left = .infinity ∨ ∃ y, c.left.var? = some y ∧ y.isInference = true ∧ ρ y = ⊤ := by
  obtain ⟨_, offset, cap, right⟩ := target_inference target
  rw [need_of_right right, ← SolvePhase.reach_eq_top_iff phase cap]
  constructor
  · exact SolvePhase.add_eq_top
  · intro top
    rw [top, top_add_ofInt]

end LevelConstraint

end PathTheory
