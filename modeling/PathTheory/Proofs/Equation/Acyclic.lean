import PathTheory.Library
import PathTheory.Proofs.Equation.Settled
import Mathlib.Algebra.Order.BigOperators.Group.List
import Mathlib.Algebra.Order.Group.Nat
/-!
Solutions that lead back to where they started. The search for a metavariable in a term finds it
exactly if solutions lead there from the term, so a solution that passes it leaves no way back at
that time. But the type of a solution is compared after the search and before the solution is
recorded, and takes up equations that have been put off; a way back arises exactly if a solution is
overtaken by what is solved meanwhile.
-/
namespace PathTheory

open Relation

namespace Environment

variable {env env' : Environment}

section Solve

variable {m : MetaId} {value : Term}

theorem leads_of_solve (solved : env.solve m value = .ok env') {a b : MetaId} :
    env'.Leads a b ↔ if a = m then b ∈ value.holes else env.Leads a b := by
  unfold Leads
  rw [solve_solution? solved]
  split <;> simp

/-- Up to the first time that it comes by, a way to the solved metavariable is one of before. -/
theorem way_of_solve (solved : env.solve m value = .ok env') {a : MetaId}
    (way : ReflTransGen env'.Leads a m) : ReflTransGen env.Leads a m := by
  induction way using ReflTransGen.head_induction_on with
  | refl => exact .refl
  | head step _ ih =>
      rw [leads_of_solve solved] at step
      split at step
      · rename_i same
        rw [same]
      · exact .head step ih

/-- A new way back passes the solved metavariable. -/
theorem back_of_solve (solved : env.solve m value = .ok env') {a b : MetaId}
    (way : TransGen env'.Leads a b) :
    TransGen env.Leads a b ∨ ReflTransGen env'.Leads a m ∧ TransGen env'.Leads m b := by
  induction way with
  | single step =>
      by_cases same : a = m
      · subst same
        exact .inr ⟨.refl, .single step⟩
      · rw [leads_of_solve solved, if_neg same] at step
        exact .inl (.single step)
  | @tail b c before step ih =>
      rcases ih with old | ⟨toward, back⟩
      · by_cases same : b = m
        · subst same
          exact .inr ⟨before.to_reflTransGen, .single step⟩
        · rw [leads_of_solve solved, if_neg same] at step
          exact .inl (old.tail step)
      · exact .inr ⟨toward, back.tail step⟩

/-- A solution leaves no way back exactly if the search does not find the metavariable in it. -/
theorem acyclic_of_solve (solved : env.solve m value = .ok env') (acyclic : env.Acyclic) :
    env'.Acyclic ↔ env.occurs m value = false := by
  have missing := solve_unsolved solved
  rw [← Bool.not_eq_true, occurs_iff]
  constructor
  · rintro acyclic' ⟨_, k, member, way⟩
    have later : ∀ a b, env.Leads a b → env'.Leads a b := fun a b step => by
      have differs : a ≠ m := by
        rintro rfl
        obtain ⟨_, isSolution, _⟩ := step
        rw [missing] at isSolution
        cases isSolution
      rwa [leads_of_solve solved, if_neg differs]
    have first : env'.Leads m k := by rwa [leads_of_solve solved, if_pos rfl]
    exact acyclic' m (.head' first (ReflTransGen.mono later _ _ way))
  · intro absent k back
    refine (back_of_solve solved back).elim (acyclic k) fun ⟨toward, onward⟩ => absent ⟨missing, ?_⟩
    obtain ⟨j, first, rest⟩ := TransGen.head'_iff.mp (onward.trans_left toward)
    rw [leads_of_solve solved, if_pos rfl] at first
    exact ⟨j, first, way_of_solve solved rest⟩

theorem acyclic_of_solutions (same : ∀ k, env'.solution? k = env.solution? k)
    (acyclic : env.Acyclic) : env'.Acyclic := by
  have leads : env'.Leads = env.Leads := by
    funext a b
    simp only [Leads, same]
  unfold Acyclic
  rw [leads]
  exact acyclic

end Solve

section Expansion

theorem exists_below (env : Environment) :
    ∃ b, ∀ m t, env.solution? m = some t → t.Below b := by
  have bound : ∀ t : Term, ∃ b, t.Below b := fun t =>
    ⟨(t.toScoped.ids.map Var.id).sum + 1, fun x member => Nat.lt_succ_of_le
      (List.le_sum_of_mem (List.mem_map_of_mem member))⟩
  choose bound below using bound
  refine ⟨((env.metas.toList.filterMap MetaEntry.solution).map bound).sum, fun m t solved => ?_⟩
  obtain ⟨entry, found, solution⟩ := Option.bind_eq_some_iff.mp solved
  have listed : t ∈ env.metas.toList.filterMap MetaEntry.solution :=
    List.mem_filterMap.mpr ⟨entry, Array.mem_toList_iff.mpr (Array.mem_of_getElem? found), solution⟩
  exact (below t).mono (List.le_sum_of_mem (List.mem_map_of_mem listed))

/-- Fully expanded, a term mentions unsolved metavariables only. -/
theorem Acyclic.expanded (acyclic : env.Acyclic) (t : Term) (n : Nat) :
    ∃ r, t.zonk env [] n = .ok (r, n) ∧ ∀ m ∈ r.holes, env.solution? m = none := by
  obtain ⟨b, old⟩ := env.exists_below
  obtain ⟨r, done, _⟩ := acyclic.zonk old t n
  let every : Allowance := ⟨fun _ => True, True, fun _ => True, fun _ => True⟩
  let unsolved : Allowance := { every with hole := fun m => env.solution? m = none }
  have free : every.Free := ⟨fun _ => trivial, trivial, fun _ => trivial, fun _ => trivial⟩
  have carries : env.Carries every unsolved true := ⟨id, fun _ => id, fun _ => id,
    fun _ _ isNone => isNone rfl, fun _ _ t _ => t.allowed_of_free free⟩
  have allowed : r.Allowed unsolved := Term.substWith_allowed carries.rule rfl
    Subst.allowed_zonking (t.allowed_of_free free) n r n done
  exact ⟨r, done, fun m member => allowed.hole member⟩

end Expansion

end Environment

namespace Unify

open Environment

/-- A solution that has passed its checks is recorded after the comparison of its type has given the
    metavariable a place in it. -/
def Overtaken (s : Store) (env : Environment) (s' : Store) (env' : Environment) : Prop :=
  ∃ m value s₁ env₁ s₂ env₂ env₃, History s env s₁ env₁ ∧ Accepted m value s₁ env₁ s₂ env₂ ∧
    History s₁ env₁ s₂ env₂ ∧ env₂.occurs m value = true ∧ env₂.solve m value = .ok env₃ ∧
    Grows s₂ env₃ s' env'

variable {s s' s₁ : Store} {env env' env₁ : Environment}

theorem Overtaken.later (overtaken : Overtaken s env s₁ env₁) (rest : Grows s₁ env₁ s' env') :
    Overtaken s env s' env' := by
  obtain ⟨m, value, _, _, _, _, _, before, accepted, checking, found, solved, after⟩ := overtaken
  exact ⟨m, value, _, _, _, _, _, before, accepted, checking, found, solved, after.trans rest⟩

theorem Overtaken.earlier (first : History s env s₁ env₁) (overtaken : Overtaken s₁ env₁ s' env') :
    Overtaken s env s' env' := by
  obtain ⟨m, value, _, _, _, _, _, before, accepted, checking, found, solved, after⟩ := overtaken
  exact ⟨m, value, _, _, _, _, _, first.trans before, accepted, checking, found, solved, after⟩

/-- What is done without a check leaves no way back: an error mentions no metavariable. -/
theorem Change.acyclic (change : Change s env s' env') (acyclic : env.Acyclic) :
    env'.Acyclic := by
  cases change with
  | hole name type scope kind span =>
      exact acyclic_of_solutions (freshMeta_solution? env name type scope kind span) acyclic
  | fail solved =>
      refine (acyclic_of_solve solved acyclic).mpr (Bool.eq_false_iff.mpr fun found => ?_)
      obtain ⟨_, k, member, _⟩ := occurs_iff.mp found
      exact List.not_mem_nil member
  | levels => exact acyclic_of_solutions (fun _ => rfl) acyclic
  | _ => exact acyclic

theorem History.acyclic (history : History s env s' env') (acyclic : env.Acyclic)
    (inTime : ¬ Overtaken s env s' env') : env'.Acyclic := by
  induction history with
  | start => exact acyclic
  | change before change ih =>
      exact change.acyclic (ih acyclic fun overtaken => inTime (overtaken.later change.grows))
  | solve before checking accepted solved ih ihChecking =>
      have acyclic₁ := ih acyclic fun overtaken =>
        inTime (overtaken.later (checking.grows.trans (.of_solve solved)))
      have acyclic₂ := ihChecking acyclic₁ fun overtaken =>
        inTime ((overtaken.later (.of_solve solved)).earlier before)
      refine (acyclic_of_solve solved acyclic₂).mpr (Bool.eq_false_iff.mpr fun found => inTime ?_)
      exact ⟨_, _, _, _, _, _, _, before, accepted, checking, found, solved, .refl _ _⟩

/-- A way back arises exactly if a solution is overtaken. -/
theorem History.acyclic_iff (history : History s env s' env') (acyclic : env.Acyclic) :
    env'.Acyclic ↔ ¬ Overtaken s env s' env' := by
  refine ⟨?_, history.acyclic acyclic⟩
  rintro acyclic' ⟨m, value, _, _, _, env₂, env₃, _, _, _, found, solved, after⟩
  obtain ⟨_, k, member, way⟩ := occurs_iff.mp found
  -- all the ways of then are still there, and the solution closes one of them
  have later : ∀ a b, env₃.Leads a b → env'.Leads a b := fun a b ⟨t, isSolution, inside⟩ =>
    ⟨t, after.solution a t isSolution, inside⟩
  have kept : ∀ a b, env₂.Leads a b → env₃.Leads a b := fun a b ⟨t, isSolution, inside⟩ =>
    ⟨t, (Grows.of_solve (s := s) solved).solution a t isSolution, inside⟩
  have first : env₃.Leads m k := by rwa [leads_of_solve solved, if_pos rfl]
  exact acyclic' m (.head' (later _ _ first)
    (ReflTransGen.mono (fun a b step => later a b (kept a b step)) _ _ way))

/-- What can be asked of a store. -/
inductive Request where
  | freshMeta (name : String) (type : Term) (scope : List Var) (kind : MetaKind) (span : Span)
  | bind (x : Var) (type : Term)
  | compare (left right : Term) (cmp : Cmp) (span : Span)
  | addEquation (m : MetaId) (t : Term) (cmp : Cmp) (span : Span)
  | solveMeta (m : MetaId) (value : Term) (span : Span)
  | settle

def Request.run : Request → Unify Unit
  | .freshMeta name type scope kind span => do
      let _ ← Unify.freshMeta name type scope kind span
  | .bind x type => Unify.bind x type
  | .compare left right cmp span => do
      let _ ← Unify.compare left right cmp span
  | .addEquation m t cmp span => do
      let _ ← Unify.addHoleEquation m t cmp span
  | .solveMeta m value span => do
      let _ ← Unify.solveMeta m value span
  | .settle => do
      let _ ← Unify.settle

/-- Whatever is asked, the store is kept in order unless it is settled. -/
theorem Request.orderly (r : Request) (goesOn : r ≠ .settle) :
    Sound Orderly .free s env r.run Anything := by
  have free := Ground.free_at s env
  have fine := fun t => Term.allowed_of_free free t
  cases r with
  | freshMeta name type scope kind span =>
      exact (freshMeta_sound name (fine type) scope (fun _ _ => trivial) span).bind
        fun _ _ _ _ _ => .pure trivial
  | bind x type => exact bind_sound x (fine type)
  | compare left right cmp span =>
      exact (compare_sound _ _ _ _ _ _ (fine left) (fine right)).bind
        fun _ _ _ _ _ => .pure trivial
  | addEquation m t cmp span =>
      exact (Sound.look (addEquation_sound compare_sound compare_own _ (free.hole m) (fine t)
        _ _)).bind fun _ _ _ _ _ => .pure trivial
  | solveMeta m value span =>
      exact (solveMeta_sound (free.hole m) (fine value) _).bind fun _ _ _ _ _ => .pure trivial
  | settle => exact absurd rfl goesOn

theorem Request.sound (r : Request) : Sound History .free s env r.run Anything := by
  by_cases settles : r = .settle
  · subst settles
    exact settle_sound.bind fun _ _ _ _ _ => .pure trivial
  · exact (r.orderly settles).loosen

variable {rs : List Request} {n k : Nat} {x : PUnit}

/-- Whatever is asked of a store, solutions come back to where they started exactly if one of them
    has been overtaken; and if they do not, then every term can be expanded until it mentions
    unsolved metavariables only. -/
theorem requests_acyclic_iff (acyclic : env.Acyclic)
    (run : rs.forM Request.run s env n = .ok (((x, s'), env'), k)) :
    (env'.Acyclic ↔ ¬ Overtaken s env s' env') ∧ (env'.Acyclic →
      ∀ (t : Term) (l : Nat), ∃ r, t.zonk env' [] l = .ok (r, l) ∧
        ∀ m ∈ r.holes, env'.solution? m = none) := by
  have sound : Sound History .free s env (rs.forM Request.run) Anything :=
    .forM (R := fun _ _ => True) (fun _ _ => trivial) (fun _ _ => trivial) fun r _ _ _ => r.sound
  exact ⟨(sound.history run).acyclic_iff acyclic, fun acyclic' => acyclic'.expanded⟩

section Chains

/-- Chains of elements of a data type with a number for its index. -/
def chainData : DefId := ⟨11, "P"⟩

def chainCon : DefId := ⟨12, "c"⟩

def chains : Environment :=
  let library := Library.environment 20
  let index : Var := ⟨29, "n"⟩
  { library with
    definitions := library.definitions ++ #[
      .data ⟨[⟨.explicit, index, Library.natType⟩], .set0, [chainCon], false, false⟩,
      .constructor ⟨chainData, [⟨.explicit, ⟨30, "m"⟩, .data chainData .set0 [.ref index]⟩], 0⟩]
    names := library.names ++ #["P", "c"] }

def chainsOf (index : Term) : Term := .data chainData .set0 [index]

def link (index rest : Term) : Term := .con chainCon .set0 [index] [rest]

/-- The second chain, taken by cases from a number that is not known yet. -/
def byIndex : Term :=
  let k : Var := ⟨31, "k"⟩
  .caseOf [.hole ⟨0⟩] [⟨.explicit, k, Library.natType⟩] (chainsOf (.ref k))
    (.branch [] [(.con Library.zero, .leaf [] (.hole ⟨1⟩)),
      (.con Library.suc, .leaf [⟨.explicit, ⟨32, "j"⟩, Library.natType⟩] (.hole ⟨1⟩))])

/-- A number, two chains, and the equations between them: what is taken by cases is the first chain
    with a link before it, and the first chain is the second one with a link before it. -/
def linkedChains : List Request := [
  .freshMeta "n" Library.natType [] .expression .none,
  .freshMeta "b" (chainsOf Library.zeroTerm) [] .expression .none,
  .freshMeta "a" (chainsOf (.hole ⟨0⟩)) [] .expression .none,
  .compare byIndex (link (.hole ⟨0⟩) (.hole ⟨2⟩)) .eq .none,
  .compare (.hole ⟨2⟩) (link Library.zeroTerm (.hole ⟨1⟩)) .eq .none]

/-- Each chain is the other one with a link before it. -/
def Entangled (env : Environment) : Prop :=
  env.solution? ⟨1⟩ = some (link Library.zeroTerm (.hole ⟨2⟩)) ∧
    env.solution? ⟨2⟩ = some (link Library.zeroTerm (.hole ⟨1⟩))

instance (env : Environment) : Decidable (Entangled env) := inferInstanceAs (Decidable (_ ∧ _))

theorem Entangled.not_acyclic {env : Environment} (entangled : Entangled env) :
    ¬ env.Acyclic := by
  have first : env.Leads ⟨1⟩ ⟨2⟩ := ⟨_, entangled.1, by decide⟩
  have second : env.Leads ⟨2⟩ ⟨1⟩ := ⟨_, entangled.2, by decide⟩
  exact fun acyclic => acyclic ⟨1⟩ (.tail (.single first) second)

theorem chains_acyclic : chains.Acyclic := by
  intro m back
  obtain ⟨_, ⟨_, isSolution, _⟩, _⟩ := TransGen.head'_iff.mp back
  cases isSolution

theorem linkedChains_entangled : ∃ s env n,
    linkedChains.forM Request.run .empty chains 33 = .ok (((⟨⟩, s), env), n) ∧ Entangled env := by
  have ends : endsIn (linkedChains.forM Request.run) .empty chains 33
      (fun _ _ env _ => Entangled env) = true := by
    decide +kernel
  obtain ⟨_, s, env, n, run, entangled⟩ := endsIn_run ends
  exact ⟨s, env, n, run, of_decide_eq_true entangled⟩

/-- The second chain is solved while the type of the solution of the first one is compared, and by
    the first one. -/
theorem linkedChains_overtaken : ∃ s env n,
    linkedChains.forM Request.run .empty chains 33 = .ok (((⟨⟩, s), env), n) ∧
      Overtaken .empty chains s env := by
  obtain ⟨s, env, n, run, entangled⟩ := linkedChains_entangled
  obtain ⟨inTime, _⟩ := requests_acyclic_iff chains_acyclic run
  exact ⟨s, env, n, run, by_contra fun absent => entangled.not_acyclic (inTime.mpr absent)⟩

theorem linkedChains_cyclic : ∃ s env n,
    linkedChains.forM Request.run .empty chains 33 = .ok (((⟨⟩, s), env), n) ∧
      ¬ env.Acyclic := by
  obtain ⟨s, env, n, run, entangled⟩ := linkedChains_entangled
  exact ⟨s, env, n, run, entangled.not_acyclic⟩

end Chains

end Unify

end PathTheory
