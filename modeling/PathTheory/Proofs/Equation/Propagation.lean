import PathTheory.Proofs.Equation.Settled
/-!
Lower bounds handed on. A metavariable that is at most another one hands its bounds on to it, once
for each term. There are no more bounds to add than edges times bounds to start with, so the passes
over the edges are enough to reach bounds that are closed: whatever bounds the lower metavariable of
an edge bounds the upper one.
-/
namespace PathTheory.Unify.Bounds

/-- The term is one of the bounds of the metavariable. -/
def Has (bounds : Bounds) (m : MetaId) (t : Term) : Prop := ∃ span, (m, t, span) ∈ bounds

theorem of_mem {bounds : Bounds} {m : MetaId} {t : Term} {span : Span}
    (listed : (m, t, span) ∈ bounds) : (t, span) ∈ bounds.of m :=
  List.mem_filterMap.mpr ⟨_, listed, by simp⟩

theorem any_of {bounds : Bounds} {m : MetaId} {t : Term} :
    (bounds.of m).any (·.1 == t) = true ↔ bounds.Has m t := by
  rw [List.any_eq_true]
  constructor
  · rintro ⟨⟨t', span⟩, listed, same⟩
    obtain rfl : t' = t := beq_iff_eq.mp same
    exact ⟨span, Bounds.mem_of listed⟩
  · rintro ⟨span, listed⟩
    exact ⟨_, Bounds.of_mem listed, beq_self_eq_true t⟩

/-- The bounds that have been added are of these metavariables and terms, each pair once. -/
def Adds (pairs : List (MetaId × Term)) (start bounds : Bounds) : Prop :=
  ∃ added : Bounds, bounds = start ++ added ∧ (added.map fun b => (b.1, b.2.1)).Nodup ∧
    ∀ b ∈ added, (b.1, b.2.1) ∈ pairs

theorem Adds.length_le {pairs : List (MetaId × Term)} {start bounds : Bounds}
    (adds : Bounds.Adds pairs start bounds) : bounds.length ≤ start.length + pairs.length := by
  obtain ⟨added, rfl, once, among⟩ := adds
  have bound := (once.subperm (List.forall_mem_map.mpr among)).length_le
  rw [List.length_map] at bound
  rw [List.length_append]
  omega

theorem Adds.push {pairs : List (MetaId × Term)} {start bounds : Bounds}
    (adds : Bounds.Adds pairs start bounds) {m : MetaId} {t : Term} (new : ¬ bounds.Has m t)
    (among : (m, t) ∈ pairs) (span : Span) : Bounds.Adds pairs start (bounds ++ [(m, t, span)]) := by
  obtain ⟨added, rfl, once, all⟩ := adds
  refine ⟨added ++ [(m, t, span)], List.append_assoc .., ?_,
    List.forall_mem_append.mpr ⟨all, List.forall_mem_singleton.mpr among⟩⟩
  rw [List.map_append, List.nodup_append]
  refine ⟨once, List.nodup_singleton _, fun key listed key' last => ?_⟩
  obtain rfl := List.mem_singleton.mp last
  obtain ⟨⟨m', t', span'⟩, member, same⟩ := List.mem_map.mp listed
  rintro rfl
  cases same
  exact new ⟨span', List.mem_append_right _ member⟩

theorem Has.mono {bounds more : Bounds} {m : MetaId} {t : Term} (has : bounds.Has m t)
    (kept : bounds ⊆ more) : more.Has m t := has.imp fun _ listed => kept listed

theorem along_run {pairs : List (MetaId × Term)} {start bounds : Bounds}
    (adds : Bounds.Adds pairs start bounds) (lower : MetaId) {upper : MetaId}
    (among : ∀ b ∈ bounds.of lower, (upper, b.1) ∈ pairs) :
    Bounds.Adds pairs start (bounds.along lower upper) ∧ bounds <+: bounds.along lower upper ∧
      ∀ b ∈ bounds.of lower, (bounds.along lower upper).Has upper b.1 := by
  -- the list that is handed on was read off before, and does not grow with the bounds
  have handedOn : ∀ (fromLower : List (Term × Span)) (before : Bounds),
      (∀ b ∈ fromLower, (upper, b.1) ∈ pairs) → Bounds.Adds pairs start before →
        let next : Bounds := fromLower.foldl (fun bounds b =>
          if (bounds.of upper).any (·.1 == b.1) then bounds
          else bounds ++ [(upper, b.1, b.2)]) before
        Bounds.Adds pairs start next ∧ before <+: next ∧
          ∀ b ∈ fromLower, next.Has upper b.1 := by
    intro fromLower
    induction fromLower with
    | nil => exact fun _ _ adds => ⟨adds, List.prefix_rfl, List.forall_mem_nil _⟩
    | cons b rest ih =>
        intro before among adds
        obtain ⟨here, others⟩ := List.forall_mem_cons.mp among
        rw [List.foldl_cons]
        by_cases has : before.Has upper b.1
        · rw [if_pos (Bounds.any_of.mpr has)]
          obtain ⟨adds', kept, handed⟩ := ih before others adds
          exact ⟨adds', kept, List.forall_mem_cons.mpr ⟨has.mono kept.subset, handed⟩⟩
        · rw [if_neg (mt Bounds.any_of.mp has)]
          obtain ⟨adds', kept, handed⟩ := ih _ others (adds.push has here b.2)
          have put : (before ++ [(upper, b.1, b.2)]).Has upper b.1 := ⟨b.2, by simp⟩
          exact ⟨adds', (List.prefix_append _ _).trans kept,
            List.forall_mem_cons.mpr ⟨put.mono kept.subset, handed⟩⟩
  exact handedOn _ _ among adds

/-- Along every edge, the bounds of the lower metavariable are bounds of the upper one. -/
def Closed (edges : List (MetaId × MetaId)) (bounds : Bounds) : Prop :=
  ∀ e ∈ edges, ∀ b ∈ bounds.of e.1, bounds.Has e.2 b.1

def pairs (edges : List (MetaId × MetaId)) (start : Bounds) : List (MetaId × Term) :=
  edges.flatMap fun e => start.map fun b => (e.2, b.2.1)

theorem pass_run {edges : List (MetaId × MetaId)} {start : Bounds}
    {es : List (MetaId × MetaId)} (among : es ⊆ edges) {bounds : Bounds}
    (adds : Bounds.Adds (Bounds.pairs edges start) start bounds)
    (terms : ∀ b ∈ bounds, b.2.1 ∈ start.map (·.2.1)) :
    let next := es.foldl (fun bounds (e : MetaId × MetaId) => bounds.along e.1 e.2) bounds
    Bounds.Adds (Bounds.pairs edges start) start next ∧ bounds <+: next ∧
      (next.length = bounds.length → bounds.Closed es) := by
  induction es generalizing bounds with
  | nil => exact ⟨adds, List.prefix_rfl, fun _ => List.forall_mem_nil _⟩
  | cons e rest ih =>
      obtain ⟨isEdge, others⟩ := List.cons_subset.mp among
      have paired : ∀ b ∈ bounds.of e.1, (e.2, b.1) ∈ Bounds.pairs edges start := by
        intro b listed
        obtain ⟨b', isStart, same⟩ := List.mem_map.mp (terms _ (Bounds.mem_of listed))
        exact List.mem_flatMap.mpr ⟨e, isEdge, List.mem_map.mpr ⟨b', isStart, by rw [same]⟩⟩
      obtain ⟨adds₁, kept₁, handed⟩ := Bounds.along_run adds e.1 paired
      obtain ⟨adds', kept, closed⟩ :=
        ih others adds₁ (Bounds.along_all terms e.1 fun _ isTerm => isTerm)
      refine ⟨adds', kept₁.trans kept, fun length => ?_⟩
      -- bounds are only added, so if there are no more at the end then there were none on the way
      have unchanged := kept₁.eq_of_length_le (kept.length_le.trans_eq length)
      have closed := closed (length.trans (congrArg List.length unchanged))
      rw [← unchanged] at closed handed
      exact List.forall_mem_cons.mpr ⟨handed, closed⟩

/-- No bound is lost on the way, and the passes over the edges end with nothing more to add. -/
theorem propagate_run {edges : List (MetaId × MetaId)} {start : Bounds} {fuel : Nat}
    {bounds : Bounds} (adds : Bounds.Adds (Bounds.pairs edges start) start bounds)
    (terms : ∀ b ∈ bounds, b.2.1 ∈ start.map (·.2.1))
    (enough : start.length + (Bounds.pairs edges start).length < bounds.length + fuel) :
    bounds ⊆ Bounds.propagate edges fuel bounds ∧
      (Bounds.propagate edges fuel bounds).Closed edges := by
  -- the fuel is more than the pairs that are not bounds yet, and every pass but the last adds one
  induction fuel generalizing bounds with
  | zero => exact absurd adds.length_le (Nat.not_le.mpr enough)
  | succ fuel ih =>
      obtain ⟨adds', kept, closed⟩ := Bounds.pass_run (List.Subset.refl edges) adds terms
      unfold Bounds.propagate
      dsimp only at adds' kept closed ⊢
      split
      · rename_i same
        exact ⟨List.Subset.refl _, closed same⟩
      · rename_i more
        have longer := kept.length_le
        obtain ⟨kept', closed'⟩ :=
          ih adds' (Bounds.pass_all (fun _ _ _ isTerm => isTerm) terms) (by omega)
        exact ⟨List.Subset.trans kept.subset kept', closed'⟩

theorem propagate_closed (edges : List (MetaId × MetaId)) (start : Bounds) :
    let bounds := Bounds.propagate edges (edges.length * start.length + 1) start
    start ⊆ bounds ∧ bounds.Closed edges := by
  refine Bounds.propagate_run ⟨[], by simp, by simp, by simp⟩
    (fun b listed => List.mem_map_of_mem listed) ?_
  simp [Bounds.pairs]

end PathTheory.Unify.Bounds
