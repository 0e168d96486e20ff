import PathTheory.Proofs.Reduction.Nameless
/-!
Reduction and fuel. A reduction that has come to an end does not change with more fuel: it calls
the reduction of subterms, and nothing else that takes fuel.
-/
namespace PathTheory

namespace Traced

variable {α β : Type}

/-- Where the first computation ends, so does the other one, in the same way. -/
def Le (a b : Traced α) : Prop := ∀ r, a = .ok r → b = .ok r

theorem Le.refl (a : Traced α) : a.Le a := fun _ done => done

theorem Le.fail {fault : Fault} {b : Traced α} : (fail fault).Le b := nofun

theorem Le.bind {a b : Traced α} {f g : α → Traced β} (first : a.Le b)
    (next : ∀ x, (f x).Le (g x)) : (a >>= f).Le (b >>= g) := by
  rintro ⟨y, l⟩ done
  obtain ⟨x, before, later, ran, rest, rfl⟩ := bind_ok done
  simp only [Bind.bind, first _ ran, next x _ rest]
  rfl

theorem Le.result? {a b : Traced α} (le : a.Le b) {x : α} (done : a.result? = some x) :
    b.result? = some x := by
  obtain ⟨l, ran⟩ := result?_ok.mp done
  exact result?_ok.mpr ⟨l, le _ ran⟩

end Traced

open Traced

section Walking

variable {env : Environment} {whnf more : Nameless → Traced Nameless}

theorem tryEnds_le (le : ∀ t, (whnf t).Le (more t)) : ∀ l : List (Ends Nameless × Nameless),
    (Nameless.tryEnds env whnf l).Le (Nameless.tryEnds env more l)
  | [] => .refl _
  | (ends, arg) :: others => by
      unfold Nameless.tryEnds
      split
      · exact tryEnds_le le others
      · refine (le arg).bind fun value => ?_
        split
        · split
          · exact .refl _
          · exact tryEnds_le le others
        · exact (Le.refl _).bind fun _ => tryEnds_le le others

theorem atEnds_le (le : ∀ t, (whnf t).Le (more t)) (inner : NamelessParts)
    (ρ args : List Nameless) {a b : Traced (Option Nameless)} (otherwise : a.Le b) :
    (Nameless.atEnds env whnf inner ρ args a).Le (Nameless.atEnds env more inner ρ args b) := by
  unfold Nameless.atEnds
  split
  · exact .refl _
  · refine (tryEnds_le le _).bind fun o => ?_
    split
    · exact .refl _
    · exact otherwise

theorem inspect_le (le : ∀ t, (whnf t).Le (more t)) (arg : Nameless)
    {f g : Shape → List Nameless → Traced (Option Nameless)}
    (next : ∀ shape components, (f shape components).Le (g shape components)) :
    (Nameless.inspect whnf arg f).Le (Nameless.inspect more arg g) := by
  refine (le arg).bind fun value => ?_
  split
  · exact .refl _
  · exact next _ _

theorem walk_le (le : ∀ t, (whnf t).Le (more t)) : ∀ (ρ : List Nameless) (t : Nameless)
    (args : List Nameless), (t.walk env whnf ρ args).Le (t.walk env more ρ args) := by
  refine (Nameless.walk.mutual_induct
    (fun ρ t args => (t.walk env whnf ρ args).Le (t.walk env more ρ args))
    (fun ρ t args => (t.walkGiven env whnf ρ args).Le (t.walkGiven env more ρ args))
    (fun ρ t args => (t.walkBranch env whnf ρ args).Le (t.walkBranch env more ρ args))
    (fun ρ shape t args => (t.walkChildren env whnf ρ shape args).Le
      (t.walkChildren env more ρ shape args))
    ?leaf ?leafShort ?branch ?interval ?otherTree ?given ?notGiven ?param ?inspects ?childless
    ?otherBranch ?hit ?miss ?noChild).1
  case leaf | leafShort =>
    intros
    simp only [Nameless.walk]
    exact .refl _
  case branch =>
    intro ρ parts args ih
    simpa only [Nameless.walk] using ih
  case interval =>
    intro ρ inner rest args ih
    simpa only [Nameless.walk] using atEnds_le le inner ρ args ih
  case otherTree =>
    intro t ρ args notLeaf notBranch notInterval
    simp only [Nameless.walk.eq_4 _ _ _ _ _ notLeaf notBranch notInterval]
    exact .refl _
  case given =>
    intro ρ tree args ih
    simpa only [Nameless.walkGiven] using ih
  case notGiven =>
    intro t ρ args notGiven
    simp only [Nameless.walkGiven.eq_2 _ _ _ _ _ notGiven]
    exact .refl _
  case param =>
    intro ρ t mode rest a args ih
    simpa only [NamelessParts.walkBranch] using ih
  case inspects =>
    intro ρ k child others arg args notParam ihHit ihMiss
    simp only [NamelessParts.walkBranch.eq_2 _ _ _ _ _ _ _ _ notParam]
    refine inspect_le le arg fun shape components => ?_
    split
    · exact ihHit components
    · exact ihMiss shape components
  case childless =>
    intro ρ arg args
    exact inspect_le le arg fun _ _ => .refl _
  case otherBranch =>
    intro t ρ args notParam notChild notNil
    simp only [NamelessParts.walkBranch.eq_4 _ _ _ _ _ notParam notChild notNil]
    exact .refl _
  case hit =>
    intro ρ shape k child others args hit ih
    simpa only [NamelessParts.walkChildren, hit, if_true] using ih
  case miss =>
    intro ρ shape k child others args miss ih
    simpa only [NamelessParts.walkChildren, miss, Bool.false_eq_true, if_false] using ih
  case noChild =>
    intro t ρ shape args notChild
    simp only [NamelessParts.walkChildren.eq_2 _ _ _ _ _ _ notChild]
    exact .refl _

theorem transport?_le (le : ∀ t, (whnf t).Le (more t)) (args : List Nameless) :
    (Nameless.transport? whnf args).Le (Nameless.transport? more args) := by
  cases args with
  | nil => exact .refl _
  | cons family others => exact (le family).bind fun value => .refl _

theorem bodyAt?_le (le : ∀ t, (whnf t).Le (more t)) (fn : FunctionDef) (levels : Universe)
    (args : List Nameless) :
    (Nameless.bodyAt? env whnf fn levels args).Le (Nameless.bodyAt? env more fn levels args) := by
  unfold Nameless.bodyAt?
  split
  · exact .refl _
  · exact .refl _
  · exact (Le.refl _).bind fun tree => walk_le le [] tree args

theorem unfolding?_le (le : ∀ t, (whnf t).Le (more t)) (f : DefId) (levels : Universe)
    (args : List Nameless) :
    (Nameless.unfolding? env whnf f levels args).Le
      (Nameless.unfolding? env more f levels args) := by
  unfold Nameless.unfolding?
  split
  · exact .refl _
  · split
    · exact .refl _
    · refine Le.bind ?_ fun o => ?_
      · split
        · exact transport?_le le args
        · exact .refl _
      · split
        · exact .refl _
        · exact bodyAt?_le le _ levels args

theorem headStep?_le (le : ∀ t, (whnf t).Le (more t)) (t : Nameless) :
    (t.headStep? env whnf).Le (t.headStep? env more) := by
  unfold Nameless.headStep?
  split
  · exact .refl _
  · exact (le _).bind fun _ => .refl _
  · exact (le _).bind fun _ => .refl _
  · exact (le _).bind fun _ => .refl _
  · exact unfolding?_le le _ _ _
  · split
    · exact walk_le le _ _ _
    · exact .refl _
  · exact .refl _

end Walking

theorem whnfWith_succ (env : Environment) (fuel : Nat) :
    ∀ t, (Nameless.whnfWith env fuel t).Le (Nameless.whnfWith env (fuel + 1) t) := by
  induction fuel with
  | zero => exact fun t => Le.fail
  | succ fuel ih =>
      intro t
      refine (headStep?_le ih t).bind fun o => ?_
      cases o with
      | none => exact .refl _
      | some next => exact ih next

/-- A reduction that has come to an end does not change with more fuel. -/
theorem whnfWith_le (env : Environment) {fuel larger : Nat} (order : fuel ≤ larger) (t : Nameless) :
    (Nameless.whnfWith env fuel t).Le (Nameless.whnfWith env larger t) := by
  induction order with
  | refl => exact .refl _
  | step _ ih => exact fun r done => whnfWith_succ env _ t r (ih r done)

end PathTheory
