import PathTheory.Proofs.Equation.Accounts
import PathTheory.Proofs.Equation.Propagation
import PathTheory.Proofs.Equation.Silent
import PathTheory.Proofs.Level.Solution
/-!
Record types that bound metavariables. When a store is settled, a metavariable that is unsolved in
its turn is solved by the merge of its lower bounds, and afterwards the upper bounds are held
against the solutions. If nothing is noted on the way, then a merge is above all the bounds that
went into it, and every upper bound that is there after the turns has been compared with the
solution or has been the solution. A bound that is recorded later is not looked at.
-/
namespace PathTheory

/-- If every level is related to the other one, so are the universes; a proposition is below all. -/
def Universe.Below (atMost : Level → Level → Prop) (u v : Universe) : Prop :=
  u = v ∨ u.isProp = true ∨ atMost u.p v.p ∧ atMost u.h v.h

theorem Universe.Below.imp {atMost weaker : Level → Level → Prop} {u v : Universe}
    (implies : ∀ a b, atMost a b → weaker a b) (below : u.Below atMost v) : u.Below weaker v :=
  below.imp_right (Or.imp_right fun both => ⟨implies _ _ both.1, implies _ _ both.2⟩)

/-- The levels are the same, or the first one is demanded to be at most the second one. -/
def Store.AtMost (s : Store) (a b : Level) : Prop :=
  a = b ∨ ∃ span, ⟨a, b, span⟩ ∈ s.levels.constraints

/-- The levels are the same, or the first one is at most the second one at the solution. -/
def LevelSolution.AtMost (levels : LevelSolution) (a b : Level) : Prop :=
  a = b ∨ levels.satisfies ⟨a, b, .none⟩ = .ok true

/-- Whatever is compared with a level that is to be found is demanded, unless it is that level. -/
theorem Level.compare_inferred {a : Level} {x : LevelVar} (inferred : x.isInference = true) :
    ∃ verdict, a.compare (.ofVar x) .le = .ok verdict ∧
      (verdict = .decided true ∧ a = .ofVar x ∨ verdict = .demanded ⟨a, .ofVar x, .le⟩) := by
  by_cases same : a = .ofVar x
  · exact ⟨_, by simp only [Level.compare, Level.compareLe, if_pos same], .inl ⟨rfl, same⟩⟩
  · refine ⟨_, ?_, .inr rfl⟩
    cases a <;> simp_all [Level.compare, Level.compareLe, Level.ofVar, Level.hasInference]

/-- Both levels are to be found. -/
def Universe.Unknown (v : Universe) : Prop :=
  ∃ p h : LevelVar, v = ⟨.ofVar p, .ofVar h⟩ ∧ p.isInference = true ∧ h.isInference = true

theorem Universe.compare_unknown {u v : Universe} (unknown : v.Unknown) {c : Comparison}
    (compared : compare true u v .le = .ok c) :
    u.Below (fun a b => a = b ∨ ⟨a, b, .le⟩ ∈ c.demands) v := by
  obtain ⟨p, h, rfl, pInferred, hInferred⟩ := unknown
  by_cases isProp : u.isProp = true
  · exact .inr (.inl isProp)
  · obtain ⟨verdictP, saidP, atP⟩ := Level.compare_inferred (a := u.p) pInferred
    obtain ⟨verdictH, saidH, atH⟩ := Level.compare_inferred (a := u.h) hInferred
    have both : compare true u ⟨.ofVar p, .ofVar h⟩ .le =
        (Comparison.of true verdictP).andThen (.ok (.of true verdictH)) := by
      have proper : ¬Universe.isProp ⟨.ofVar p, .ofVar h⟩ = true := Bool.false_ne_true
      change compareUp true u _ .le = _
      unfold compareUp
      rw [if_neg isProp, if_neg proper, saidP, saidH]
      rfl
    rw [both] at compared
    refine .inr (.inr ?_)
    rcases atP with ⟨rfl, sameP⟩ | rfl <;> rcases atH with ⟨rfl, sameH⟩ | rfl <;> cases compared
    · exact ⟨.inl sameP, .inl sameH⟩
    · exact ⟨.inl sameP, .inr (List.mem_singleton_self _)⟩
    · exact ⟨.inr (List.mem_singleton_self _), .inl sameH⟩
    · exact ⟨.inr List.mem_cons_self, .inr (List.mem_cons_of_mem _ (List.mem_singleton_self _))⟩

namespace Unify

variable {s s₁ s₂ s' : Store} {env env₁ env₂ env' : Environment}

section Universes

/-- A universe that is to be found is above every other one, as far as constraints go. -/
theorem compareUniverses_inferred {u v : Universe} (unknown : v.Unknown) {span : Span} {n k : Nat}
    {answer : Bool}
    (done : compareUniverses u v .le span s env n = .ok (((answer, s'), env'), k)) :
    History s env s' env' ∧ u.Below s'.AtMost v := by
  have sound : Sound Orderly .free s env (compareUniverses u v .le span) Anything :=
    compareUniverses_sound u v .le span
  refine ⟨sound.history done, ?_⟩
  obtain ⟨c, _, _, _, lifted, rest⟩ := unify_bind done
  obtain ⟨rfl, rfl, rfl, compared⟩ := checked_run lifted
  cases rest
  refine (Universe.compare_unknown unknown compared).imp fun a b atMost => ?_
  exact atMost.imp_right LevelEquations.recordAll_demanded

theorem Grows.atMost (grows : Grows s env s' env') (a b : Level) (atMost : s.AtMost a b) :
    s'.AtMost a b :=
  atMost.imp_right fun ⟨span, listed⟩ => ⟨span, grows.constraints _ listed⟩

theorem universesBelow_run {us : List Universe} {v : Universe} (unknown : v.Unknown) {span : Span}
    {n k : Nat} {x : PUnit}
    (done : (forIn us ⟨⟩ fun u _ => do
      let _ ← compareUniverses u v .le span
      return .yield ⟨⟩ : Unify PUnit) s env n = .ok (((x, s'), env'), k)) :
    History s env s' env' ∧ ∀ u ∈ us, u.Below s'.AtMost v := by
  induction us generalizing s env n with
  | nil =>
      cases done
      exact ⟨.start, List.forall_mem_nil _⟩
  | cons u rest ih =>
      rw [List.forIn_cons] at done
      obtain ⟨step, s₁, env₁, _, first, others⟩ := unify_bind done
      obtain ⟨_, _, _, _, compared, final⟩ := unify_bind first
      cases final
      obtain ⟨here, below⟩ := compareUniverses_inferred unknown compared
      obtain ⟨after, fine⟩ := ih others
      exact ⟨here.trans after, List.forall_mem_cons.mpr ⟨below.imp after.grows.atMost, fine⟩⟩

end Universes

section Upper

/-- What becomes of an upper bound: the solution of the metavariable has been compared with it and is
    below it, or it has been put to the metavariable. -/
def UpperMet (b : RecordBound) : Way := fun s env s' env' =>
  ∃ u, env'.solution? b.hole = some u ∧ (Answered u b.record .le true s env s' env' ∨
    ∃ same, PutTo u b.record same s env s' env')

theorem UpperMet.within {b : RecordBound} (before : History s env s₁ env₁)
    (met : UpperMet b s₁ env₁ s₂ env₂) (after : History s₂ env₂ s' env') :
    UpperMet b s env s' env' := by
  obtain ⟨u, solved, outcome⟩ := met
  refine ⟨u, after.grows.solution _ u solved, outcome.imp ?_ ?_⟩
  · exact fun answered => answered.within before after
  · exact fun ⟨same, put⟩ => ⟨same, put.within before after⟩

theorem checkUpperBounds_history {bounds : List RecordBound} {n k : Nat} {x : Unit}
    (done : checkUpperBounds bounds s env n = .ok (((x, s'), env'), k)) :
    History s env s' env' := by
  have free := Ground.free_at s env
  exact (checkUpperBounds_sound fun b _ =>
    ⟨free.hole _, b.record.allowed_of_free free⟩).history done

theorem checkUpperBounds_run {bounds : List RecordBound}
    (records : ∀ b ∈ bounds, b.record.isRecord = true) {n k : Nat} {x : Unit}
    (done : checkUpperBounds bounds s env n = .ok (((x, s'), env'), k))
    (silent : s'.diagnostics = s.diagnostics) : History s env s' env' ∧
      ∀ b ∈ bounds, b.hole.index < env.metas.size → UpperMet b s env s' env' := by
  induction bounds generalizing s env n with
  | nil =>
      cases done
      exact ⟨.start, List.forall_mem_nil _⟩
  | cons b rest ih =>
      obtain ⟨isRecord, others⟩ := List.forall_mem_cons.mp records
      obtain ⟨_, _, _, _, look, done⟩ := unify_bind done
      cases look
      -- what is left over once this bound is met
      have goOn : ∀ (s₁ : Store) (env₁ : Environment) (i : Nat), History s env s₁ env₁ →
          (s₁.diagnostics = s.diagnostics → b.hole.index < env.metas.size →
            UpperMet b s env s₁ env₁) →
          checkUpperBounds rest s₁ env₁ i = .ok (((x, s'), env'), k) →
          History s env s' env' ∧
            ∀ b' ∈ b :: rest, b'.hole.index < env.metas.size → UpperMet b' s env s' env' := by
        intro s₁ env₁ i here met run
        have after := checkUpperBounds_history run
        obtain ⟨silentHere, silentAfter⟩ := here.extends.silent after.extends silent
        obtain ⟨_, metLater⟩ := ih others run silentAfter
        refine ⟨here.trans after,
          List.forall_mem_cons.mpr ⟨fun made => ?_, fun b' listed made => ?_⟩⟩
        · exact (met silentHere made).within .start after
        · exact (metLater b' listed (Nat.lt_of_lt_of_le made here.grows.size)).within here .start
      cases solved : env.solution? b.hole with
      | some u =>
          rw [solved] at done
          obtain ⟨fits, s₁, env₁, _, compared, done⟩ := unify_bind done
          obtain ⟨here, answered⟩ := answered_run compared
          cases fits with
          | true =>
              exact goOn _ _ _ here (fun _ _ =>
                ⟨u, here.grows.solution _ u solved, .inl answered⟩) done
          | false =>
              obtain ⟨_, _, _, _, told, done⟩ := unify_bind done
              exact (reportMismatch_noted here told (checkUpperBounds_history done) silent).elim
      | none =>
          rw [solved] at done
          obtain ⟨answer, s₁, env₁, _, put, done⟩ := unify_bind done
          refine goOn _ _ _ (solveMeta_history put) (fun silentHere made => ?_) done
          obtain ⟨u, solved', put⟩ := solveMeta_run isRecord made put silentHere
          exact ⟨u, solved', .inr put⟩

end Upper

section Lower

/-- The second record type is above the first one: it is one of the same class and in a universe
    above, and the first one fixes the fields that it fixes, to the same values or to values that
    they have been compared with. -/
def FitsBelow (atMost : Level → Level → Prop) (t merged : Term) : Way := fun s env s' env' =>
  ∃ c levels fields u common, t = .record c levels fields ∧ merged = .record c u common ∧
    levels.Below atMost u ∧ ∀ entry ∈ common, ∃ value, (entry.1, value) ∈ fields ∧
      (value = entry.2 ∨ Answered entry.2 value .eq true s env s' env')

theorem FitsBelow.within {atMost weaker : Level → Level → Prop} {t merged : Term}
    (before : History s env s₁ env₁) (fits : FitsBelow atMost t merged s₁ env₁ s₂ env₂)
    (after : History s₂ env₂ s' env') (implies : ∀ a b, atMost a b → weaker a b) :
    FitsBelow weaker t merged s env s' env' := by
  obtain ⟨c, levels, fields, u, common, isBound, isMerged, below, values⟩ := fits
  refine ⟨c, levels, fields, u, common, isBound, isMerged, below.imp implies, fun entry kept => ?_⟩
  obtain ⟨value, fixed, equal⟩ := values entry kept
  exact ⟨value, fixed, equal.imp_right fun answered => answered.within before after⟩

theorem commonFields_run {span : Span} {others fields : List (DefId × Term)} {n k : Nat}
    {r : Option (List (DefId × Term))}
    (done : commonFields span others fields s env n = .ok (((r, s'), env'), k)) :
    History s env s' env' ∧ ∀ common ∈ r, common ⊆ fields ∧ ∀ entry ∈ common,
      ∃ value, (entry.1, value) ∈ others ∧ Answered entry.2 value .eq true s env s' env' := by
  induction fields generalizing s env n r with
  | nil =>
      cases done
      exact ⟨.start, by simp⟩
  | cons entry rest ih =>
      obtain ⟨f, value⟩ := entry
      unfold commonFields at done
      cases found : others.lookup f with
      | none =>
          rw [found] at done
          obtain ⟨history, fine⟩ := ih done
          refine ⟨history, fun common isCommon => ?_⟩
          obtain ⟨among, answered⟩ := fine common isCommon
          exact ⟨fun _ member => List.mem_cons_of_mem _ (among member), answered⟩
      | some other =>
          rw [found] at done
          obtain ⟨same, s₁, env₁, _, compared, done⟩ := unify_bind done
          obtain ⟨here, answer⟩ := answered_run compared
          cases same with
          | false =>
              cases done
              exact ⟨here, fun common absent => by cases absent⟩
          | true =>
              obtain ⟨tail, s₂, env₂, _, continued, final⟩ := unify_bind done
              cases final
              obtain ⟨after, fine⟩ := ih continued
              refine ⟨here.trans after, fun common isCommon => ?_⟩
              obtain ⟨common, isTail, rfl⟩ := Option.map_eq_some_iff.mp isCommon
              obtain ⟨among, answered⟩ := fine common isTail
              refine ⟨List.cons_subset_cons _ among, List.forall_mem_cons.mpr ⟨?_, ?_⟩⟩
              · exact ⟨other, mem_of_lookup found, answer.within .start after⟩
              · intro entry member
                obtain ⟨value, listed, compared⟩ := answered entry member
                exact ⟨value, listed, compared.within here .start⟩

theorem reportConflict_noted {span : Span} {first second : Term} {n k : Nat} {x : Unit}
    (before : Extends s s₁)
    (done : reportConflict span first second s₁ env₁ n = .ok (((x, s'), env'), k))
    (silent : s'.diagnostics = s.diagnostics) : False := by
  obtain ⟨_, _, _, _, firstText, rest⟩ := unify_bind done
  obtain ⟨rfl, rfl, _⟩ := checked_run firstText
  obtain ⟨_, _, _, _, secondText, noted⟩ := unify_bind rest
  obtain ⟨rfl, rfl, _⟩ := checked_run secondText
  cases noted
  exact noted_between before (.refl _) silent

theorem mergeRest_history {first : Term} {ofClass : DefId} {span : Span}
    {bounds : List (Term × Span)} {fields : List (DefId × Term)} {us : List Universe} {n k : Nat}
    {r : Option (List (DefId × Term) × List Universe)}
    (done : mergeRest first ofClass span bounds fields us s env n = .ok (((r, s'), env'), k)) :
    History s env s' env' := by
  have free := Ground.free_at s env
  exact (mergeRest_sound first ofClass span (fun b _ => b.1.allowed_of_free free)
    (fun entry _ => entry.2.allowed_of_free free) us).history done

/-- Bounds that merge without a conflict are of the class, and the fields that are kept are fixed by
    all of them. -/
theorem mergeRest_run {first : Term} {ofClass : DefId} {span : Span} {bounds : List (Term × Span)}
    {fields : List (DefId × Term)} {us : List Universe} {n k : Nat}
    {r : Option (List (DefId × Term) × List Universe)}
    (done : mergeRest first ofClass span bounds fields us s env n = .ok (((r, s'), env'), k))
    (silent : s'.diagnostics = s.diagnostics) : History s env s' env' ∧
      ∃ common all, r = some (common, all) ∧ common ⊆ fields ∧ us ⊆ all ∧ ∀ b ∈ bounds,
        ∃ levels others, b.1 = .record ofClass levels others ∧ levels ∈ all ∧
          ∀ entry ∈ common, ∃ value, (entry.1, value) ∈ others ∧
            Answered entry.2 value .eq true s env s' env' := by
  induction bounds generalizing s env n fields us with
  | nil =>
      cases done
      exact ⟨.start, fields, us, rfl, .refl _, .refl _, List.forall_mem_nil _⟩
  | cons b rest ih =>
      obtain ⟨other, otherSpan⟩ := b
      have refused : ∀ (s₁ : Store) (env₁ : Environment) (i : Nat), Extends s s₁ → (do
          reportConflict span first other
          return none : Unify (Option (List (DefId × Term) × List Universe))) s₁ env₁ i =
            .ok (((r, s'), env'), k) → False := by
        intro s₁ env₁ i before run
        obtain ⟨_, _, _, _, told, final⟩ := unify_bind run
        cases final
        exact reportConflict_noted before told silent
      unfold mergeRest at done
      split at done
      · rename_i c levels others
        split at done
        · exact (refused _ _ _ (.refl _) done).elim
        · rename_i sameClass
          obtain rfl : c = ofClass := not_not.mp sameClass
          obtain ⟨kept, s₁, env₁, _, merged, done⟩ := unify_bind done
          obtain ⟨here, fine⟩ := commonFields_run merged
          cases kept with
          | none => exact (refused _ _ _ here.extends done).elim
          | some kept =>
              obtain ⟨among, answered⟩ := fine kept rfl
              have after := mergeRest_history done
              obtain ⟨_, common, all, rfl, kept', universes, fits⟩ :=
                ih done (here.extends.silent after.extends silent).2
              refine ⟨here.trans after, common, all, rfl, fun entry member => among (kept' member),
                fun u member => universes (List.mem_append_left _ member),
                List.forall_mem_cons.mpr ⟨⟨levels, others, rfl,
                  universes (List.mem_append_right _ (List.mem_singleton_self _)), ?_⟩, ?_⟩⟩
              · intro entry member
                obtain ⟨value, listed, compared⟩ := answered entry (kept' member)
                exact ⟨value, listed, compared.within .start after⟩
              · intro b listed
                obtain ⟨levels, others, isRecord, within, fits⟩ := fits b listed
                refine ⟨levels, others, isRecord, within, fun entry member => ?_⟩
                obtain ⟨value, listed, compared⟩ := fits entry member
                exact ⟨value, listed, compared.within here .start⟩
      · exact (refused _ _ _ (.refl _) done).elim

theorem mergeBounds_run {bounds : List (Term × Span)}
    (records : ∀ b ∈ bounds, b.1.isRecord = true) (bounded : bounds ≠ []) {n k : Nat}
    {r : Option Term} (done : mergeBounds bounds s env n = .ok (((r, s'), env'), k))
    (silent : s'.diagnostics = s.diagnostics) : History s env s' env' ∧
      ∃ merged, r = some merged ∧ merged.isRecord = true ∧
        ∀ b ∈ bounds, FitsBelow s'.AtMost b.1 merged s env s' env' := by
  obtain _ | ⟨⟨first, span⟩, rest⟩ := bounds
  · exact absurd rfl bounded
  · obtain ⟨isRecord, _⟩ := List.forall_mem_cons.mp records
    cases first <;> cases isRecord
    rename_i c levels fields
    obtain ⟨merged, s₁, env₁, _, merging, done⟩ := unify_bind done
    have before := mergeRest_history merging
    -- the bounds fit below the fields that are kept, in whatever universe is above all of theirs
    have fits : ∀ common all u, merged = some (common, all) → History s₁ env₁ s' env' →
        (∀ v ∈ all, v.Below s'.AtMost u) → ∀ b ∈ (Term.record c levels fields, span) :: rest,
          FitsBelow s'.AtMost b.1 (.record c u common) s env s' env' := by
      rintro common all u rfl after below
      obtain ⟨_, common', all', same, among, universes, fits⟩ :=
        mergeRest_run merging (before.extends.silent after.extends silent).1
      cases same
      refine List.forall_mem_cons.mpr ⟨?_, fun b listed => ?_⟩
      · exact ⟨c, levels, fields, u, common, rfl, rfl,
          below levels (universes (List.mem_singleton_self _)),
          fun entry member => ⟨entry.2, among member, .inl rfl⟩⟩
      · obtain ⟨levels', others, isRecord, within, values⟩ := fits b listed
        refine ⟨c, levels', others, u, common, isRecord, rfl, below levels' within, ?_⟩
        intro entry member
        obtain ⟨value, listed, compared⟩ := values entry member
        exact ⟨value, listed, .inr (compared.within .start after)⟩
    cases merged with
    | none =>
        cases done
        obtain ⟨_, _, _, impossible, _⟩ := mergeRest_run merging silent
        cases impossible
    | some result =>
        obtain ⟨common, all⟩ := result
        dsimp only at done
        split at done
        · rename_i same
          cases done
          refine ⟨before, _, rfl, rfl, fits common all levels rfl .start fun v member => ?_⟩
          exact .inl (beq_iff_eq.mp (List.all_eq_true.mp same v member))
        · obtain ⟨fresh, s₂, env₂, _, made, done⟩ := unify_bind done
          have unknown : fresh.Unknown := by
            cases made
            exact ⟨_, _, rfl, rfl, rfl⟩
          have making := Sound.history freshUniverse_sound made
          obtain ⟨_, s₃, env₃, _, compared, final⟩ := unify_bind done
          obtain ⟨comparing, below⟩ := universesBelow_run unknown compared
          cases final
          have after := making.trans comparing
          exact ⟨before.trans after, _, rfl, rfl, fits common all fresh rfl after below⟩

/-- What becomes of the lower bounds of a metavariable: they fit below a record type that is put to
    it. -/
def LowerMet (atMost : Level → Level → Prop) (bounds : List (Term × Span)) (m : MetaId) : Way :=
  fun s env s' env' => ∃ merged, (∀ b ∈ bounds, FitsBelow atMost b.1 merged s env s' env') ∧
    ∃ u, env'.solution? m = some u ∧ ∃ same, PutTo u merged same s env s' env'

theorem LowerMet.later {atMost weaker : Level → Level → Prop} {bounds : List (Term × Span)}
    {m : MetaId} (met : LowerMet atMost bounds m s env s₁ env₁) (after : History s₁ env₁ s' env')
    (implies : ∀ a b, atMost a b → weaker a b) : LowerMet weaker bounds m s env s' env' := by
  obtain ⟨merged, fits, u, solved, answer, put⟩ := met
  exact ⟨merged, fun b listed => (fits b listed).within .start after implies, u,
    after.grows.solution m u solved, answer, put.within .start after⟩

theorem solveLowerBounds_orderly {bounds : Bounds} {ms : List MetaId} {n k : Nat} {x : Unit}
    (done : solveLowerBounds bounds ms s env n = .ok (((x, s'), env'), k)) :
    Orderly s env s' env' := by
  have free := Ground.free_at s env
  exact (solveLowerBounds_sound (fun b _ => ⟨free.hole _, b.2.1.allowed_of_free free⟩) ms).goes done

theorem solveLowerBounds_append (bounds : Bounds) (before after : List MetaId) :
    solveLowerBounds bounds (before ++ after) =
      (solveLowerBounds bounds before >>= fun _ => solveLowerBounds bounds after) := by
  induction before with
  | nil => rfl
  | cons m rest ih =>
      simp only [List.cons_append, solveLowerBounds, ih, bind_assoc]
      refine bind_congr fun _ => ?_
      split
      · split
        · rfl
        · simp only [bind_assoc]
          refine bind_congr fun merged => ?_
          cases merged with
          | none => rfl
          | some merged => simp only [bind_assoc]
      · rfl

theorem mem_sortedMetas {m : MetaId} {ms : List MetaId} (listed : m ∈ ms) :
    m ∈ sortedMetas ms := by
  have inserted : ∀ (ms : List MetaId) (ids : List Nat), m.index ∈ ids ∨ m ∈ ms →
      m.index ∈ ms.foldl (fun ids m => Store.insertNumber m.index ids) ids := by
    intro ms
    induction ms with
    | nil => simp
    | cons k rest ih =>
        intro ids given
        refine ih _ ?_
        rw [Store.mem_insertNumber]
        rcases given with old | new
        · exact .inl (.inr old)
        · exact (List.mem_cons.mp new).imp (fun same => .inl (congrArg MetaId.index same)) id
  exact List.mem_map.mpr ⟨m.index, inserted ms [] (.inr listed), rfl⟩

/-- The lower bounds of a metavariable that is unsolved in its turn are merged, and it is to be
    solved by the merge. -/
theorem solveLowerBounds_run {bounds : Bounds} (records : ∀ b ∈ bounds, b.2.1.isRecord = true)
    {m : MetaId} (unsolved : env.solution? m = none) (made : m.index < env.metas.size)
    (bounded : bounds.of m ≠ []) {rest : List MetaId} {n k : Nat} {x : Unit}
    (done : solveLowerBounds bounds (m :: rest) s env n = .ok (((x, s'), env'), k))
    (silent : s'.diagnostics = s.diagnostics) :
    LowerMet s'.AtMost (bounds.of m) m s env s' env' := by
  unfold solveLowerBounds at done
  obtain ⟨_, _, _, _, look, done⟩ := unify_bind done
  cases look
  rw [if_pos (by rw [unsolved]; rfl)] at done
  cases listed : bounds.of m with
  | nil => exact absurd listed bounded
  | cons bound more =>
      obtain ⟨t, span⟩ := bound
      rw [listed] at done
      have ofRecords : ∀ b ∈ (t, span) :: more, b.1.isRecord = true := fun b member =>
        records _ (Bounds.mem_of (listed ▸ member))
      obtain ⟨r, s₁, env₁, _, merging, done⟩ := unify_bind done
      have free := Ground.free_at s env
      have before : History s env s₁ env₁ :=
        (mergeBounds_sound fun b _ => b.1.allowed_of_free free).history merging
      have merges (after : History s₁ env₁ s' env') := mergeBounds_run ofRecords
        (List.cons_ne_nil _ _) merging (before.extends.silent after.extends silent).1
      cases r with
      | none =>
          -- a conflict is noted where there is no merge
          obtain ⟨_, _, impossible, _⟩ := merges (Passage.history (solveLowerBounds_orderly done))
          cases impossible
      | some merged =>
          obtain ⟨answer, s₂, env₂, _, put, done⟩ := unify_bind done
          have putting := solveMeta_history put
          have after := Passage.history (solveLowerBounds_orderly done)
          obtain ⟨_, _, same, isRecord, fits⟩ := merges (putting.trans after)
          cases same
          have made₁ := Nat.lt_of_lt_of_le made before.grows.size
          have silentRest := (before.extends.silent (putting.trans after).extends silent).2
          obtain ⟨u, solved, answer, puts⟩ := solveMeta_run isRecord made₁ put
            (putting.extends.silent after.extends silentRest).1
          exact ⟨merged, fun b member =>
            (fits b member).within .start (putting.trans after) (putting.trans after).grows.atMost,
            u, after.grows.solution m u solved, answer, puts.within before after⟩

/-- The metavariables have had their turns, with fresh variables from a number on. -/
def Turns (bounds : Bounds) (ms : List MetaId) (n : Nat) : Way := fun s env s' env' =>
  ∃ k, solveLowerBounds bounds ms s env n = .ok ((((), s'), env'), k)

/-- It is the turn of this one of all the metavariables with bounds. -/
def Turn (bounds : Bounds) (m : MetaId) (n : Nat) : Way := fun s env s' env' =>
  ∃ before after, sortedMetas (bounds.map (·.1)) = before ++ m :: after ∧
    Turns bounds before n s env s' env'

theorem turn_run {bounds : Bounds} (records : ∀ b ∈ bounds, b.2.1.isRecord = true) {n : Nat}
    (turns : Turns bounds (sortedMetas (bounds.map (·.1))) n s env s' env')
    (silent : s'.diagnostics = s.diagnostics) {m : MetaId} (bounded : bounds.of m ≠ []) :
    ∃ s₁ env₁, Turn bounds m n s env s₁ env₁ ∧
      (env₁.solution? m = none → m.index < env₁.metas.size →
        LowerMet s'.AtMost (bounds.of m) m s₁ env₁ s' env') := by
  have listed : m ∈ sortedMetas (bounds.map (·.1)) := by
    obtain ⟨⟨t, span⟩, member⟩ := List.exists_mem_of_ne_nil _ bounded
    exact mem_sortedMetas (List.mem_map.mpr ⟨_, Bounds.mem_of member, rfl⟩)
  obtain ⟨before, after, order⟩ := List.append_of_mem listed
  obtain ⟨k, done⟩ := turns
  rw [order, solveLowerBounds_append] at done
  obtain ⟨_, s₁, env₁, i, first, rest⟩ := unify_bind done
  have history := Passage.history (solveLowerBounds_orderly first)
  have continued := Passage.history (solveLowerBounds_orderly rest)
  have silentAfter := (history.extends.silent continued.extends silent).2
  exact ⟨s₁, env₁, ⟨before, after, order, i, first⟩, fun unsolved made =>
    solveLowerBounds_run records unsolved made bounded rest silentAfter⟩

end Lower

section Pass

/-- What is known is put into the bounds one by one. -/
theorem zonkBounds_run {levels : List (LevelVar × Level)} {bs : List RecordBound}
    (records : ∀ b ∈ bs, b.record.isRecord = true) {n k : Nat} {lower : Bounds}
    (done : (bs.mapM fun b => do
      let record ← reading (b.record.zonk · levels)
      return (b.hole, record, b.span) : Unify Bounds) s env n = .ok (((lower, s'), env'), k)) :
    s' = s ∧ env' = env ∧ (∀ entry ∈ lower, entry.2.1.isRecord = true) ∧
      ∀ b ∈ bs, ∃ t i j, b.record.zonk env levels i = .ok (t, j) ∧ (b.hole, t, b.span) ∈ lower := by
  induction bs generalizing n lower with
  | nil =>
      rw [List.mapM_nil] at done
      cases done
      exact ⟨rfl, rfl, List.forall_mem_nil _, List.forall_mem_nil _⟩
  | cons b rest ih =>
      rw [List.mapM_cons] at done
      obtain ⟨isRecord, others⟩ := List.forall_mem_cons.mp records
      obtain ⟨entry, s₁, env₁, _, first, next⟩ := unify_bind done
      obtain ⟨t, _, _, _, zonk, final⟩ := unify_bind first
      obtain ⟨rfl, rfl, zonked⟩ := readEnv_run zonk
      cases final
      obtain ⟨tail, _, _, _, continued, final⟩ := unify_bind next
      cases final
      obtain ⟨rfl, rfl, isRecords, entries⟩ := ih others continued
      refine ⟨rfl, rfl, List.forall_mem_cons.mpr ⟨zonk_record isRecord zonked, isRecords⟩,
        List.forall_mem_cons.mpr ⟨⟨t, _, _, zonked, List.mem_cons_self⟩, fun b listed => ?_⟩⟩
      obtain ⟨t, i, j, zonked, member⟩ := entries b listed
      exact ⟨t, i, j, zonked, List.mem_cons_of_mem _ member⟩

/-- The lower bounds of a store, with the levels found so far and what is known put in, and handed on
    along the equations between metavariables that are pending. -/
def gather (levels : LevelSolution) : Unify Bounds := do
  let s ← get
  let edges := s.pending.filterMap Equation.edge?
  let lower ← s.lowerBounds.toList.mapM fun b => do
    let record ← reading (b.record.zonk · levels.values)
    return (b.hole, record, b.span)
  return Bounds.propagate edges (edges.length * lower.length + 1) lower

theorem solveRecords_eq (levels : LevelSolution) : solveRecords levels = (do
    let bounds ← gather levels
    solveLowerBounds bounds (sortedMetas (bounds.map (·.1)))
    checkUpperBounds (← get).upperBounds.toList) := by
  unfold solveRecords gather
  simp only [bind_assoc, pure_bind]

/-- Nothing is left out, and what is pending has been seen to. -/
structure Gathered (levels : LevelSolution) (bounds : Bounds) (s : Store) (env : Environment) :
    Prop where
  listed : ∀ b ∈ s.lowerBounds, ∃ t n k, b.record.zonk env levels.values n = .ok (t, k) ∧
    (b.hole, t, b.span) ∈ bounds
  records : ∀ b ∈ bounds, b.2.1.isRecord = true
  closed : bounds.Closed (s.pending.filterMap Equation.edge?)

theorem gather_run (records : s.Records) {levels : LevelSolution} {n k : Nat} {bounds : Bounds}
    (done : gather levels s env n = .ok (((bounds, s'), env'), k)) :
    s' = s ∧ env' = env ∧ Gathered levels bounds s env := by
  obtain ⟨_, _, _, _, look, rest⟩ := unify_bind done
  cases look
  obtain ⟨lower, s₀, env₀, i, zonked, final⟩ := unify_bind rest
  obtain ⟨rfl, rfl, isRecords, entries⟩ := zonkBounds_run
    (fun b listed => records b (.inl (Array.mem_toList_iff.mp listed))) zonked
  cases final
  obtain ⟨kept, closed⟩ := Bounds.propagate_closed _ lower
  refine ⟨rfl, rfl, fun b listed => ?_,
    Bounds.propagate_all (fun _ _ _ isRecord => isRecord) _ isRecords, closed⟩
  obtain ⟨t, i, j, zonked, member⟩ := entries b (Array.mem_toList_iff.mpr listed)
  exact ⟨t, i, j, zonked, kept member⟩

/-- What settling makes of the bounds that are there when it turns to them: those of a metavariable
    that is unsolved in its turn are merged, and every upper bound is met that is there after the
    turns. -/
def BoundsMet (atMost : Level → Level → Prop) (first : LevelSolution) (n : Nat) : Way :=
  fun s env s' env' => ∃ bounds i s₁ env₁,
    gather first s env n = .ok (((bounds, s), env), i) ∧ Gathered first bounds s env ∧
    Turns bounds (sortedMetas (bounds.map (·.1))) i s env s₁ env₁ ∧
    (∀ m, bounds.of m ≠ [] → ∃ s₂ env₂, Turn bounds m i s env s₂ env₂ ∧
      (env₂.solution? m = none → m.index < env₂.metas.size →
        LowerMet atMost (bounds.of m) m s₂ env₂ s' env')) ∧
    ∀ b ∈ s₁.upperBounds, b.hole.index < env₁.metas.size → UpperMet b s₁ env₁ s' env'

theorem BoundsMet.later {atMost weaker : Level → Level → Prop} {first : LevelSolution} {n : Nat}
    (met : BoundsMet atMost first n s env s₁ env₁) (after : History s₁ env₁ s' env')
    (implies : ∀ a b, atMost a b → weaker a b) : BoundsMet weaker first n s env s' env' := by
  obtain ⟨bounds, i, s₂, env₂, gathering, gathered, turns, lower, upper⟩ := met
  refine ⟨bounds, i, s₂, env₂, gathering, gathered, turns, fun m bounded => ?_,
    fun b listed made => ?_⟩
  · obtain ⟨s₃, env₃, turn, merges⟩ := lower m bounded
    exact ⟨s₃, env₃, turn, fun unsolved made => (merges unsolved made).later after implies⟩
  · exact (upper b listed made).within .start after

theorem solveRecords_run (records : s.Records) {first : LevelSolution} {n k : Nat} {x : Unit}
    (done : solveRecords first s env n = .ok (((x, s'), env'), k))
    (silent : s'.diagnostics = s.diagnostics) : BoundsMet s'.AtMost first n s env s' env' := by
  rw [solveRecords_eq] at done
  obtain ⟨bounds, s₀, env₀, i, gathering, rest₁⟩ := unify_bind done
  obtain ⟨rfl, rfl, gathered⟩ := gather_run records gathering
  obtain ⟨_, s₁, env₁, _, turns, rest₂⟩ := unify_bind rest₁
  obtain ⟨_, _, _, _, look, rest₃⟩ := unify_bind rest₂
  cases look
  have before := solveLowerBounds_orderly turns
  have after := checkUpperBounds_history rest₃
  obtain ⟨silentBefore, silentAfter⟩ :=
    (Passage.history before).extends.silent after.extends silent
  refine ⟨bounds, i, s₁, env₁, gathering, gathered, ⟨_, turns⟩, fun m bounded => ?_, ?_⟩
  · obtain ⟨s₂, env₂, turn, met⟩ := turn_run gathered.records ⟨_, turns⟩ silentBefore bounded
    exact ⟨s₂, env₂, turn, fun unsolved made => (met unsolved made).later after after.grows.atMost⟩
  · obtain ⟨_, course⟩ := before
    obtain ⟨_, met⟩ := checkUpperBounds_run (fun b listed =>
      course.records records b (.inr (Array.mem_toList_iff.mp listed))) rest₃ silentAfter
    exact fun b listed => met b (Array.mem_toList_iff.mpr listed)

/-- What settling makes of the bounds of a store, if it notes nothing. -/
theorem settle_bounds (records : s.Records) {n k : Nat} {levels : LevelSolution}
    (done : settle s env n = .ok (((levels, s'), env'), k))
    (silent : s'.diagnostics = s.diagnostics) : ∃ first s₁ env₁ i,
      opening s env n = .ok (((first, s₁), env₁), i) ∧ Extends s s₁ ∧
      BoundsMet levels.AtMost first i s₁ env₁ s' env' := by
  rw [settle_eq, prepare_eq] at done
  obtain ⟨_, s₂, env₂, _, prepared, finished⟩ := unify_bind done
  obtain ⟨first, s₁, env₁, i, opened, pass⟩ := unify_bind prepared
  obtain ⟨_, course⟩ := opening_sound.goes opened
  have passed := (solveRecords_sound first).history pass
  have after := finish_sound.history finished
  have before := course.history.extends
  obtain ⟨_, silentRest⟩ := before.silent (passed.trans after).extends silent
  obtain ⟨silentPass, silentAfter⟩ := passed.extends.silent after.extends silentRest
  -- constraints are never taken back, so those of the merges are solved with all the others
  obtain ⟨satisfied, _⟩ := LevelEquations.solve_satisfies (finish_silent finished silentAfter)
  refine ⟨first, s₁, env₁, i, opened, before,
    (solveRecords_run (course.records records) pass silentPass).later after fun a b atMost => ?_⟩
  exact atMost.imp_right fun ⟨span, listed⟩ =>
    satisfied ⟨a, b, span⟩ (Array.mem_toList_iff.mpr listed)

end Pass

section Requests

/-- Whatever is asked of an empty store before it is settled: if settling notes nothing, then the
    lower bounds of every metavariable that is unsolved in its turn, also those handed on to it along
    pending equations, are below a record type that is put to it, and all upper bounds that are
    there after the turns are met. -/
theorem requests_bounds_met {rs : List Request} (determined : env.Determined) {n k l : Nat}
    {x : PUnit} (run : rs.forM Request.run .empty env n = .ok (((x, s), env₁), k))
    {levels : LevelSolution} (settled : settle s env₁ k = .ok (((levels, s'), env'), l))
    (silent : s'.diagnostics = s.diagnostics) : ∃ first s₂ env₂ i,
      opening s env₁ k = .ok (((first, s₂), env₂), i) ∧ Extends s s₂ ∧
      BoundsMet levels.AtMost first i s₂ env₂ s' env' := by
  obtain ⟨⟨_, course⟩, _⟩ := requests_course determined (resting_empty env) run
  have records : s.Records := course.records fun b listed => by
    rcases listed with lower | upper
    · cases lower
      contradiction
    · cases upper
      contradiction
  exact settle_bounds records settled silent

section Carriers

def carrierClass : DefId := ⟨11, "C"⟩

def carrierField : DefId := ⟨12, "carrier"⟩

/-- The library with a class for sets that have an element. -/
def carriers : Environment :=
  let library := Library.environment 20
  let this : Var := ⟨29, "this"⟩
  { library with
    definitions := library.definitions ++ #[.cls ⟨[carrierField], none, .set 1⟩,
      .field ⟨carrierClass, this, .univ .set0⟩]
    names := library.names ++ #["C", "carrier"] }

theorem carriers_determined : carriers.Determined := by
  intro f fn found
  obtain ⟨definition, here, isFunction⟩ := Option.bind_eq_some_iff.mp found
  unfold Environment.definition? carriers at here
  rw [Array.getElem?_append] at here
  split at here
  · have isLibrary : (Library.environment 20).function? f = some fn :=
      Option.bind_eq_some_iff.mpr ⟨definition, here, isFunction⟩
    exact (Library.environment_holeless 20).determined f fn isLibrary
  · have listed := Array.mem_of_getElem? here
    simp only [List.mem_toArray, List.mem_cons, List.not_mem_nil, or_false] at listed
    rcases listed with rfl | rfl <;> cases isFunction

/-- The record type of the class that fixes the carrier. -/
def withCarrier (type : Term) : Term := .record carrierClass .set0 [(carrierField, type)]

/-- A metavariable with two lower bounds, and one with an upper bound. -/
def boundedTwice : List Request :=
  [.freshMeta "m" (.univ (.set 1)) [] .expression .none,
    .freshMeta "k" (.univ (.set 1)) [] .expression .none,
    .compare (withCarrier Library.natType) (.hole ⟨0⟩) .le .none,
    .compare (.record carrierClass .set0 []) (.hole ⟨0⟩) .le .none,
    .compare (.hole ⟨1⟩) (withCarrier Library.natType) .le .none]

theorem boundedTwice_met : ∃ s env n levels s' env' l,
    boundedTwice.forM Request.run .empty carriers 30 = .ok (((⟨⟩, s), env), n) ∧
      settle s env n = .ok (((levels, s'), env'), l) ∧ s'.diagnostics = s.diagnostics ∧
      ∃ first s₁ env₁ i, opening s env n = .ok (((first, s₁), env₁), i) ∧ Extends s s₁ ∧
        BoundsMet levels.AtMost first i s₁ env₁ s' env' := by
  have ends : endsIn (boundedTwice.forM Request.run) .empty carriers 30 (fun _ s env n =>
      endsIn settle s env n fun _ s' _ _ => s'.diagnostics.isEmpty && s.diagnostics.isEmpty) =
        true := by
    decide +kernel
  obtain ⟨_, s, env, n, run, ends⟩ := endsIn_run ends
  obtain ⟨levels, s', env', l, settled, ends⟩ := endsIn_run ends
  obtain ⟨noneLater, none⟩ := Bool.and_eq_true_iff.mp ends
  have silent : s'.diagnostics = s.diagnostics :=
    (Array.isEmpty_iff.mp noneLater).trans (Array.isEmpty_iff.mp none).symm
  exact ⟨s, env, n, levels, s', env', l, run, settled, silent,
    requests_bounds_met carriers_determined run settled silent⟩

/-- The upper one of two metavariables is bounded first. Once it is solved, its bound comes to be a
    bound of the lower one, which is solved by a bound of its own after that. -/
def boundedLate : List Request :=
  [.freshMeta "m" (.univ (.set 1)) [] .expression .none,
    .freshMeta "k" (.univ (.set 1)) [] .expression .none,
    .compare (.hole ⟨1⟩) (.hole ⟨0⟩) .le .none,
    .compare (.hole ⟨0⟩) (withCarrier Library.natType) .le .none,
    .compare (.hole ⟨1⟩) (.record carrierClass .set0 []) .le .none]

/-- Compares the solution with an upper bound, with everything put in that has been found. -/
def upperHolds (levels : LevelSolution) (b : RecordBound) : Unify Bool := do
  let solution ← reading ((Term.hole b.hole).zonk · levels.values)
  let record ← reading (b.record.zonk · levels.values)
  compare solution record .le b.span

/-- A bound that is recorded while the upper bounds have their turn is not looked at: nothing is
    noted, and it does not hold. -/
theorem boundedLate_violated : ∃ s env n levels s' env' l,
    boundedLate.forM Request.run .empty carriers 30 = .ok (((⟨⟩, s), env), n) ∧
      settle s env n = .ok (((levels, s'), env'), l) ∧ s'.diagnostics = s.diagnostics ∧
      ∃ b ∈ s'.upperBounds, ∃ r, upperHolds levels b s' env' l = .ok r ∧ r.1.1.1 = false := by
  have ends : endsIn (boundedLate.forM Request.run) .empty carriers 30 (fun _ s env n =>
      endsIn settle s env n fun levels s' env' l =>
        s'.diagnostics.isEmpty && s.diagnostics.isEmpty && s'.upperBounds.toList.any fun b =>
          endsIn (upperHolds levels b) s' env' l fun holds _ _ _ => !holds) = true := by
    decide +kernel
  obtain ⟨_, s, env, n, run, ends⟩ := endsIn_run ends
  obtain ⟨levels, s', env', l, settled, ends⟩ := endsIn_run ends
  simp only [Bool.and_eq_true, List.any_eq_true] at ends
  obtain ⟨⟨noneLater, none⟩, b, listed, violated⟩ := ends
  obtain ⟨holds, s'', env'', k, compared, violated⟩ := endsIn_run violated
  have silent : s'.diagnostics = s.diagnostics :=
    (Array.isEmpty_iff.mp noneLater).trans (Array.isEmpty_iff.mp none).symm
  exact ⟨s, env, n, levels, s', env', l, run, settled, silent, b, Array.mem_toList_iff.mp listed,
    _, compared, by simpa using violated⟩

end Carriers

end Requests

end Unify

end PathTheory
