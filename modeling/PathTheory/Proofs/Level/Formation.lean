import PathTheory.Proofs.Level.Extent
import PathTheory.Level.Solver
/-!
Forming universes from universes. Maxima and successors grow with the universes they are made of, and
so does the universe of a function type as long as its domain is not a universe of propositions: the
predicative level of the domain counts there even when it says nothing.
-/
namespace PathTheory

namespace Universe

variable {c c' d d' s t t' : Universe}

theorem Proper.succ_mono (left : d.Proper) (right : d'.Proper) (below : d.extent ≤ d'.extent)
    (first : d.succ = .ok t) (second : d'.succ = .ok t') : t.extent ≤ t'.extent := by
  obtain ⟨_, value⟩ := left.succ_extent first
  obtain ⟨_, value'⟩ := right.succ_extent second
  intro q
  rw [value, value']
  by_cases small : d.isProp
  · rw [if_pos small]
    by_cases small' : d'.isProp
    · rw [if_pos small']
    · rw [if_neg small']
      refine ⟨add_nonneg (right.sized q) zero_le_one, ?_⟩
      calc (0 : WithTop Int) = ((-1 : Int) : WithTop Int) + 1 := rfl
        _ ≤ d'.h.under q + 1 := by
          gcongr
          exact right.dimensioned q
  · have small' := left.not_isProp_mono below small
    have here := below q
    rw [extent_of_not_isProp small, extent_of_not_isProp small'] at here
    rw [if_neg small, if_neg small']
    exact ⟨add_le_add here.1 le_rfl, add_le_add here.2 le_rfl⟩

theorem prop_proper : prop.Proper :=
  ⟨⟨nofun, nofun, nofun⟩, rfl, rfl, fun _ => le_rfl, fun _ => le_rfl⟩

/-- The universe of a function type has the dimension of the codomain and the greater of both
    predicative levels. -/
theorem Proper.ofPi_extent (left : d.Proper) (right : c.Proper) :
    ∃ s, d.ofPi? c = .ok (some s) ∧ s.Proper ∧ ∀ q, s.extent q =
      if c.isProp then (0, ((-1 : Int) : WithTop Int))
      else (max (d.p.under q) (c.p.under q), c.h.under q) := by
  by_cases least : c.isProp
  · refine ⟨prop, by simp [ofPi?, least]; rfl, prop_proper, fun q => ?_⟩
    rw [if_pos least]
    rfl
  obtain ⟨p, sizes, within, fits⟩ := Level.max_defined left.p right.p left.pFits right.pFits
  have value := Level.max_under sizes
  have finite := left.max_finite right sizes
  refine ⟨⟨p, c.h⟩, ?_, ?_, fun q => ?_⟩
  · simp only [ofPi?, least, Bool.false_eq_true, if_false, sizes, bind, Except.bind,
      make_finite finite]
    rfl
  · refine ⟨⟨within, right.h, finite⟩, fits, right.hFits, fun q => ?_, right.dimensioned⟩
    rw [value]
    exact (left.sized q).trans (le_max_left _ _)
  · have large : ¬ (⟨p, c.h⟩ : Universe).isProp := least
    rw [extent_of_not_isProp large, if_neg least, value]

/-- When the parts of a function type grow, so does its universe, unless the domain is a universe of
    propositions whose predicative level is over those of the larger parts. -/
theorem Proper.ofPi_mono_iff (hd : d.Proper) (hc : c.Proper) (hd' : d'.Proper) (hc' : c'.Proper)
    (domains : d.extent ≤ d'.extent) (codomains : c.extent ≤ c'.extent) :
    ∃ s s', d.ofPi? c = .ok (some s) ∧ d'.ofPi? c' = .ok (some s') ∧ s.Proper ∧ s'.Proper ∧
      (s.extent ≤ s'.extent ↔
        (d.isProp → c.isProp ∨ ∀ q, d.p.under q ≤ max (d'.p.under q) (c'.p.under q))) := by
  obtain ⟨s, formed, proper, value⟩ := hd.ofPi_extent hc
  obtain ⟨s', formed', proper', value'⟩ := hd'.ofPi_extent hc'
  refine ⟨s, s', formed, formed', proper, proper', ?_⟩
  by_cases least : c.isProp
  · simp only [least, true_or, implies_true, iff_true]
    intro q
    rw [value, if_pos least]
    exact proper'.prop_le_extent q
  have least' := hc.not_isProp_mono codomains least
  have parts : ∀ q, c.p.under q ≤ c'.p.under q ∧ c.h.under q ≤ c'.h.under q := by
    intro q
    have here := codomains q
    rwa [extent_of_not_isProp least, extent_of_not_isProp least'] at here
  have sizes : s.extent ≤ s'.extent ↔
      ∀ q, d.p.under q ≤ max (d'.p.under q) (c'.p.under q) := by
    refine forall_congr' fun q => ?_
    rw [value, value', if_neg least, if_neg least', Prod.mk_le_mk, max_le_iff]
    have codomain : c.p.under q ≤ max (d'.p.under q) (c'.p.under q) :=
      (parts q).1.trans (le_max_right _ _)
    simp only [codomain, and_true, (parts q).2]
  rw [sizes]
  by_cases small : d.isProp
  · simp only [small, least, Bool.false_eq_true, false_or, forall_const]
  · have small' := hd.not_isProp_mono domains small
    simp only [small, Bool.false_eq_true, false_implies, iff_true]
    intro q
    have here := domains q
    rw [extent_of_not_isProp small, extent_of_not_isProp small'] at here
    exact here.1.trans (le_max_left _ _)

/-- **Forming universes is monotone.** When two universes grow, so do their maximum and their
    successors. The universe of functions between them grows too, just if its domain is not a universe
    of propositions, or it is one of functions into propositions, or the predicative level of the
    domain is under those of the larger parts. -/
theorem Proper.formation_monotone_iff (hd : d.Proper) (hc : c.Proper) (hd' : d'.Proper)
    (hc' : c'.Proper) (domains : d.holds d' .le = .ok true)
    (codomains : c.holds c' .le = .ok true) :
    (∃ j j', d.max? c = .ok (some j) ∧ d'.max? c' = .ok (some j') ∧ j.holds j' .le = .ok true) ∧
    (∀ t t', d.succ = .ok t → d'.succ = .ok t' → t.holds t' .le = .ok true) ∧
    ∃ s s' r, d.ofPi? c = .ok (some s) ∧ d'.ofPi? c' = .ok (some s') ∧
      s.holds s' .le = .ok r ∧ (r = true ↔
        (d.isProp → c.isProp ∨ ∀ q, d.p.under q ≤ max (d'.p.under q) (c'.p.under q))) := by
  rw [hd.le_iff hd'] at domains
  rw [hc.le_iff hc'] at codomains
  refine ⟨?maximum, ?successor, ?functions⟩
  case maximum =>
    obtain ⟨j, done, proper, joined⟩ := hd.max_extent hc
    obtain ⟨j', done', proper', joined'⟩ := hd'.max_extent hc'
    refine ⟨j, j', done, done', ?_⟩
    rw [proper.le_iff proper', joined, joined']
    exact sup_le_sup domains codomains
  case successor =>
    intro t t' first second
    rw [(hd.succ_extent first).1.le_iff (hd'.succ_extent second).1]
    exact hd.succ_mono hd' domains first second
  case functions =>
    obtain ⟨s, s', formed, formed', proper, proper', grows⟩ :=
      hd.ofPi_mono_iff hc hd' hc' domains codomains
    obtain ⟨r, compared, iff⟩ := proper.holds_le proper'
    exact ⟨s, s', r, formed, formed', compared, iff.trans grows⟩

/-- Functions from the least sets to larger ones, against those between the larger ones. -/
theorem functions_into_raised : set0.Proper ∧ raised.Proper ∧ set0.holds raised .le = .ok true ∧
    raised.holds raised .le = .ok true ∧
    ∃ s s', set0.ofPi? raised = .ok (some s) ∧ raised.ofPi? raised = .ok (some s') ∧
      s.holds s' .le = .ok true := by
  have domains : set0.holds raised .le = .ok true := rfl
  have codomains : raised.holds raised .le = .ok true := rfl
  obtain ⟨_, _, s, s', r, formed, formed', compared, iff⟩ :=
    Proper.formation_monotone_iff set0_proper raised_proper raised_proper raised_proper domains
      codomains
  have grows : r = true := iff.mpr fun impossible => by cases impossible
  exact ⟨set0_proper, raised_proper, domains, codomains, s, s', formed, formed', grows ▸ compared⟩

/-- Constraints that keep a predicative level up where the homotopy level is that of propositions. -/
def inflating : LevelEquations where
  constraints := #[
    ⟨.const 5, .ofVar (.infer 0 .predicative), .none⟩,
    ⟨.ofVar (.infer 1 .homotopy), .prop, .none⟩]
  span := .none

/-- Inference finds propositions of the size five. They are equal to the propositions of no size, but
    functions from them to the least sets have the size five, and those from the others have none. -/
theorem inflatedProp_domain_grows :
    (∃ s, inflating.solve.run = .ok (.ok s) ∧
      (⟨.ofVar (.infer 0 .predicative), .ofVar (.infer 1 .homotopy)⟩ : Universe).subst s.get? =
        .ok inflatedProp) ∧
    inflatedProp.Proper ∧ prop.Proper ∧ set0.Proper ∧
    inflatedProp.holds prop .le = .ok true ∧ inflatedProp.holds prop .eq = .ok true ∧
    inflatedProp.ofPi? set0 = .ok (some (set 5)) ∧ prop.ofPi? set0 = .ok (some set0) ∧
    (set 5).holds set0 .le = .ok false :=
  ⟨⟨⟨[(.infer 0 .predicative, .const 5), (.infer 1 .homotopy, .prop)]⟩, rfl, rfl⟩,
    inflatedProp_proper, prop_proper, set0_proper, rfl, rfl, rfl, rfl, rfl⟩

end Universe

end PathTheory
