import PathTheory.Proofs.Syntax.Solving
/-!
The search for unsolved metavariables in a term and in the solutions that it leads to. It finds
exactly those that solutions lead to, and putting in the solutions brings them to the surface.
-/
namespace PathTheory

open Relation

namespace Environment

variable {env : Environment} {path seen unsolved : List MetaId} {m : MetaId} {t : Term}

theorem collectHoles_cons (fuel : Nat) (rest : List MetaId) :
    env.collectHoles (fuel + 1) (m :: rest) (seen, unsolved) = env.collectHoles (fuel + 1) rest
      (if seen.contains m then (seen, unsolved) else
        match env.solution? m with
        | some t => env.collectHoles fuel t.holes (m :: seen, unsolved)
        | none => (m :: seen, m :: unsolved)) :=
  rfl

/-- A search that has come along the path: what it has seen otherwise is finished, and everything
    unsolved among it is collected. -/
structure Explored (env : Environment) (path seen unsolved : List MetaId) : Prop where
  onPath : ∀ p ∈ path, p ∈ seen
  unsolved : ∀ k ∈ seen, env.solution? k = none → k ∈ unsolved
  finished : ∀ k ∈ seen, k ∉ path → ∀ j, env.Leads k j → j ∈ seen

theorem Explored.enter (explored : env.Explored path seen unsolved)
    (solved : env.solution? m = some t) : env.Explored (m :: path) (m :: seen) unsolved where
  onPath := List.forall_mem_cons.mpr
    ⟨List.mem_cons_self, fun p member => List.mem_cons_of_mem _ (explored.onPath p member)⟩
  unsolved := List.forall_mem_cons.mpr
    ⟨fun missing => (nomatch solved.symm.trans missing), explored.unsolved⟩
  finished := fun k found outside j leads => by
    have old := (List.mem_cons.mp found).resolve_left (List.ne_of_not_mem_cons outside)
    have outside := List.not_mem_of_not_mem_cons outside
    exact List.mem_cons_of_mem _ (explored.finished k old outside j leads)

theorem Explored.leave (explored : env.Explored (m :: path) seen unsolved)
    (solved : env.solution? m = some t) (below : ∀ j ∈ t.holes, j ∈ seen) :
    env.Explored path seen unsolved where
  onPath := (List.forall_mem_cons.mp explored.onPath).2
  unsolved := explored.unsolved
  finished := fun k found outside j leads => by
    by_cases same : k = m
    · obtain ⟨t', isSolution, member⟩ := leads
      rw [same, solved] at isSolution
      cases isSolution
      exact below j member
    · exact explored.finished k found (List.not_mem_cons_of_ne_of_not_mem same outside) j leads

theorem Explored.collect (explored : env.Explored path seen unsolved)
    (missing : env.solution? m = none) : env.Explored path (m :: seen) (m :: unsolved) where
  onPath := fun p member => List.mem_cons_of_mem _ (explored.onPath p member)
  unsolved := List.forall_mem_cons.mpr ⟨fun _ => List.mem_cons_self, fun k found isNone =>
    List.mem_cons_of_mem _ (explored.unsolved k found isNone)⟩
  finished := fun k found outside j leads => by
    rcases List.mem_cons.mp found with rfl | old
    · obtain ⟨_, isSolution, _⟩ := leads
      rw [missing] at isSolution
      cases isSolution
    · exact List.mem_cons_of_mem _ (explored.finished k old outside j leads)

/-- The metavariables of the path differ and are solved, so the fuel lasts. -/
theorem collectHoles_explored (fuel : Nat) (holes path seen unsolved : List MetaId)
    (nodup : path.Nodup) (known : ∀ p ∈ path, p.index < env.metas.size)
    (enough : env.metas.size < fuel + path.length) (explored : env.Explored path seen unsolved) :
    ∃ seen' unsolved', env.collectHoles fuel holes (seen, unsolved) = (seen', unsolved') ∧
      env.Explored path seen' unsolved' ∧ (∀ k ∈ seen, k ∈ seen') ∧ ∀ h ∈ holes, h ∈ seen' := by
  induction fuel generalizing holes path seen unsolved with
  | zero =>
      have short := length_le_metas nodup known
      omega
  | succ fuel ih =>
      induction holes generalizing seen unsolved with
      | nil => exact ⟨seen, unsolved, rfl, explored, fun _ => id, nofun⟩
      | cons m rest next =>
          -- whatever has been seen by then, the rest goes on from there
          have goOn : ∀ seen₁ unsolved₁, env.Explored path seen₁ unsolved₁ →
              (∀ k ∈ seen, k ∈ seen₁) → m ∈ seen₁ → ∃ seen' unsolved',
              env.collectHoles (fuel + 1) rest (seen₁, unsolved₁) = (seen', unsolved') ∧
              env.Explored path seen' unsolved' ∧ (∀ k ∈ seen, k ∈ seen') ∧
              ∀ h ∈ m :: rest, h ∈ seen' := by
            intro seen₁ unsolved₁ explored₁ more here
            obtain ⟨seen', unsolved', run, explored', more', found⟩ := next seen₁ unsolved₁ explored₁
            exact ⟨seen', unsolved', run, explored', fun k old => more' k (more k old),
              List.forall_mem_cons.mpr ⟨more' m here, found⟩⟩
          rw [collectHoles_cons]
          by_cases visited : m ∈ seen
          · rw [if_pos (List.contains_iff_mem.mpr visited)]
            exact goOn seen unsolved explored (fun _ => id) visited
          · rw [if_neg fun found => visited (List.contains_iff_mem.mp found)]
            cases solved : env.solution? m with
            | none =>
                exact goOn _ _ (explored.collect solved)
                  (fun k old => List.mem_cons_of_mem _ old) List.mem_cons_self
            | some t =>
                have nodup' : (m :: path).Nodup := List.nodup_cons.mpr
                  ⟨fun member => visited (explored.onPath m member), nodup⟩
                obtain ⟨seen₁, unsolved₁, run, explored₁, more, below⟩ := ih t.holes (m :: path)
                  (m :: seen) unsolved nodup' (List.forall_mem_cons.mpr ⟨index_lt solved, known⟩)
                  (by rw [List.length_cons]; omega) (explored.enter solved)
                obtain ⟨here, old⟩ := List.forall_mem_cons.mp more
                dsimp only
                rw [run]
                exact goOn _ _ (explored₁.leave solved below) old here

/-- Nothing is collected but what solutions lead to. -/
theorem collectHoles_reached {R : MetaId → Prop} (closed : ∀ k j, R k → env.Leads k j → R j)
    (fuel : Nat) (holes seen unsolved : List MetaId) (start : ∀ h ∈ holes, R h)
    (old : ∀ k ∈ unsolved, R k ∧ env.solution? k = none) :
    ∀ k ∈ (env.collectHoles fuel holes (seen, unsolved)).2, R k ∧ env.solution? k = none := by
  induction fuel generalizing holes seen unsolved with
  | zero => exact old
  | succ fuel ih =>
      induction holes generalizing seen unsolved with
      | nil => exact old
      | cons m rest next =>
          obtain ⟨here, others⟩ := List.forall_mem_cons.mp start
          rw [collectHoles_cons]
          split
          · exact next seen unsolved others old
          · cases solved : env.solution? m with
            | none => exact next _ _ others (List.forall_mem_cons.mpr ⟨⟨here, solved⟩, old⟩)
            | some t =>
                exact next _ _ others (ih t.holes (m :: seen) unsolved
                  (fun j member => closed m j here ⟨t, solved, member⟩) old)

/-- Solutions lead from the term to the metavariable. -/
def Reaches (env : Environment) (t : Term) (m : MetaId) : Prop :=
  ∃ k ∈ t.holes, ReflTransGen env.Leads k m

/-- The search finds a metavariable exactly if it is unsolved and solutions lead there. -/
theorem occurs_iff : env.occurs m t = true ↔
    env.solution? m = none ∧ ∃ k ∈ t.holes, ReflTransGen env.Leads k m := by
  unfold occurs unsolvedIn
  rw [List.contains_iff_mem, List.mem_reverse]
  constructor
  · intro found
    have reached := collectHoles_reached
      (R := fun k => ∃ j ∈ t.holes, ReflTransGen env.Leads j k)
      (fun k j ⟨h, member, way⟩ step => ⟨h, member, way.tail step⟩) (env.metas.size + 1) t.holes
      [] [] (fun h member => ⟨h, member, .refl⟩) nofun m found
    exact ⟨reached.2, reached.1⟩
  · rintro ⟨missing, k, member, way⟩
    have start : env.Explored [] [] [] := ⟨nofun, nofun, nofun⟩
    obtain ⟨seen, unsolved, run, explored, _, all⟩ := collectHoles_explored (env.metas.size + 1)
      t.holes [] [] [] .nil nofun (by simp) start
    -- with nothing on the path, everything that has been seen is finished
    have closed : ∀ k j, k ∈ seen → env.Leads k j → j ∈ seen := fun k j found =>
      explored.finished k found List.not_mem_nil j
    have reached : m ∈ seen := by
      clear missing
      induction way with
      | refl => exact all k member
      | tail _ step ih => exact closed _ _ ih step
    rw [run]
    exact explored.unsolved m reached missing

theorem mem_unsolvedIn (missing : env.solution? m = none) (reached : env.Reaches t m) :
    m ∈ env.unsolvedIn t := List.contains_iff_mem.mp (occurs_iff.mpr ⟨missing, reached⟩)

end Environment

section Zonking

variable {rule : HoleRule} {m : MetaId} {P : MetaId → Prop}

mutual

/-- What stands in the images of metavariables stands in the whole. -/
theorem Scoped.holes_of_images (image : ∀ k n u j, P k → rule .zonking k n = .ok (u, j) →
      m ∈ u.holes) : ∀ (t : Scoped) {n j : Nat} {r : Scoped}, (∃ k ∈ t.holes, P k) →
    t.subst rule .zonking n = .ok (r, j) → m ∈ r.holes
  | .var _, n, j, r, mentions, _ => nomatch mentions
  | .hole k, n, j, r, mentions, done => by
      obtain ⟨_, member, holds⟩ := mentions
      cases List.mem_singleton.mp member
      obtain ⟨u, i, run, same⟩ := fresh_map done
      cases same
      rw [Term.toScoped_holes]
      exact image k n u _ holds run
  | .node l parts, n, j, r, mentions, done => by
      unfold Scoped.subst at done
      obtain ⟨_, i, _, done⟩ := fresh_bind done
      obtain ⟨parts', k, run, done⟩ := fresh_bind done
      cases fresh_pure done
      exact parts.holes_of_images image mentions run

theorem Parts.holes_of_images (image : ∀ k n u j, P k → rule .zonking k n = .ok (u, j) →
      m ∈ u.holes) : ∀ (t : Parts) {n j : Nat} {r : Parts}, (∃ k ∈ t.holes, P k) →
    t.subst rule .zonking n = .ok (r, j) → m ∈ r.holes
  | .nil, n, j, r, mentions, _ => nomatch mentions
  | .part t rest, n, j, r, ⟨k, member, holds⟩, done => by
      obtain ⟨t', i, head, done⟩ := fresh_bind done
      obtain ⟨rest', l, tail, done⟩ := fresh_bind done
      cases fresh_pure done
      refine List.mem_append.mpr ((List.mem_append.mp member).imp ?_ ?_)
      · exact fun inside => t.holes_of_images image ⟨k, inside, holds⟩ head
      · exact fun inside => rest.holes_of_images image ⟨k, inside, holds⟩ tail
  | .binder mode y rest, n, j, r, mentions, done => by
      obtain ⟨inner, i, passed, done⟩ := fresh_bind done
      cases passed
      obtain ⟨rest', l, run, done⟩ := fresh_bind done
      cases fresh_pure done
      have inside := rest.holes_of_images image mentions run
      exact inside

end

variable {env : Environment}

theorem Term.holes_of_images (image : ∀ k n u j, P k → rule .zonking k n = .ok (u, j) →
    m ∈ u.holes) {t r : Term} {n j : Nat} (mentions : ∃ k ∈ t.holes, P k)
    (done : t.substWith rule .zonking n = .ok (r, j)) : m ∈ r.holes := by
  have tree := fresh_map_of_ok done Term.toScoped
  rw [← Term.toScoped_subst] at tree
  rw [← t.toScoped_holes] at mentions
  rw [← r.toScoped_holes]
  exact t.toScoped.holes_of_images image mentions tree

namespace Environment

theorem mem_holes_expanded (missing : env.solution? m = none) (fuel : Nat) {k : MetaId} {n j : Nat}
    {u : Term} (way : ReflTransGen env.Leads k m)
    (done : Subst.holeRule env fuel .zonking k n = .ok (u, j)) : m ∈ u.holes := by
  induction fuel generalizing k n j u with
  | zero =>
      cases solved : env.solution? k with
      | none =>
          rcases ReflTransGen.cases_head way with rfl | ⟨_, ⟨_, isSolution, _⟩, _⟩
          · rw [Subst.holeRule_unsolved solved] at done
            cases fresh_pure done
            exact List.mem_singleton_self _
          · cases solved.symm.trans isSolution
      | some t =>
          simp [Subst.holeRule, Subst.zonking, solved] at done
          cases done
  | succ fuel ih =>
      rcases ReflTransGen.cases_head way with rfl | ⟨i, ⟨t, solved, member⟩, rest⟩
      · rw [Subst.holeRule_unsolved missing] at done
        cases fresh_pure done
        exact List.mem_singleton_self _
      · rw [Subst.holeRule_solved solved] at done
        exact Term.holes_of_images (fun k n u j => ih (k := k)) ⟨i, member, rest⟩ done

/-- What solutions lead to and is unsolved stands in the term with the solutions put in. -/
theorem Reaches.zonk {t r : Term} {n j : Nat} (reached : env.Reaches t m)
    (missing : env.solution? m = none) (done : t.zonk env [] n = .ok (r, j)) : m ∈ r.holes :=
  Term.holes_of_images (fun _ _ _ _ way => mem_holes_expanded missing _ way) reached done

theorem Reaches.mem_unsolvedIn {t r : Term} {n j : Nat} (reached : env.Reaches t m)
    (missing : env.solution? m = none) (done : t.zonk env [] n = .ok (r, j)) :
    m ∈ env.unsolvedIn r :=
  Environment.mem_unsolvedIn missing ⟨m, reached.zonk missing done, .refl⟩

end Environment

end Zonking

end PathTheory
