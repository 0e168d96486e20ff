import PathTheory.Proofs.Run
import PathTheory.Proofs.Syntax.Nameless
import Mathlib.Order.Nat
/-!
Substitution and nameless reading. Under binders, a substitution is related to the scopes before and
after it: bound variables keep their places, and what is put for a free one mentions no binder. The
main statement is that the reading of a substituted term is the instance of its reading, and that
all its variables are numbered below the counter.
-/
namespace PathTheory

mutual

/-- All variables, binders included. -/
def Scoped.ids : Scoped → List Var
  | .var x => [x]
  | .hole _ => []
  | .node _ parts => parts.ids

def Parts.ids : Parts → List Var
  | .nil => []
  | .part t rest => t.ids ++ rest.ids
  | .binder _ x rest => x :: rest.ids

end

mutual

theorem Scoped.freeVars_subset : ∀ t : Scoped, ∀ x ∈ t.freeVars, x ∈ t.ids
  | .var _, _, member => member
  | .hole _, _, member => member
  | .node _ parts, x, member => parts.freeVars_subset x member

theorem Parts.freeVars_subset : ∀ t : Parts, ∀ x ∈ t.freeVars, x ∈ t.ids
  | .nil, _, member => member
  | .part t rest, x, member => by
      rcases List.mem_append.mp member with inHead | inRest
      · exact List.mem_append_left _ (t.freeVars_subset x inHead)
      · exact List.mem_append_right _ (rest.freeVars_subset x inRest)
  | .binder _ y rest, x, member =>
      List.mem_cons_of_mem _ (rest.freeVars_subset x (List.mem_filter.mp member).1)

end

def Scoped.Below (n : Nat) (t : Scoped) : Prop := ∀ x ∈ t.ids, x.id < n

def Parts.Below (n : Nat) (t : Parts) : Prop := ∀ x ∈ t.ids, x.id < n

/-- All variables of the term were made before the counter reached this number. -/
def Term.Below (n : Nat) (t : Term) : Prop := t.toScoped.Below n

def CaseTree.Below (n : Nat) (t : CaseTree) : Prop := t.toScoped.Below n

theorem Scoped.Below.mono {m n : Nat} {t : Scoped} (below : t.Below m) (order : m ≤ n) :
    t.Below n := fun x member => (below x member).trans_le order

theorem Parts.Below.mono {m n : Nat} {t : Parts} (below : t.Below m) (order : m ≤ n) :
    t.Below n := fun x member => (below x member).trans_le order

theorem Term.Below.mono {m n : Nat} {t : Term} (below : t.Below m) (order : m ≤ n) :
    t.Below n := Scoped.Below.mono below order

theorem Term.Below.freeVars {n : Nat} {t : Term} (below : t.Below n) {x : Var}
    (member : x ∈ t.freeVars) : x.id < n := by
  rw [← t.toScoped_freeVars] at member
  exact below x (t.toScoped.freeVars_subset x member)

theorem Parts.below_part {n : Nat} {t : Scoped} {rest : Parts} :
    (Parts.part t rest).Below n ↔ t.Below n ∧ rest.Below n := by
  simp only [Parts.Below, Scoped.Below, Parts.ids, List.mem_append, or_imp, forall_and]

theorem Parts.below_binder {n : Nat} {mode : Mode} {x : Var} {rest : Parts} :
    (Parts.binder mode x rest).Below n ↔ x.id < n ∧ rest.Below n := by
  simp only [Parts.Below, Parts.ids, List.mem_cons, or_imp, forall_and, forall_eq]

theorem Term.ref_reading (x : Var) : (Term.ref x).reading = .free x := rfl

theorem lookup_filter_ne (terms : List (Var × Term)) (x z : Var) :
    (terms.filter (·.1 != x)).lookup z = if z = x then none else terms.lookup z := by
  induction terms with
  | nil => simp
  | cons entry rest ih =>
      obtain ⟨y, t⟩ := entry
      by_cases removed : y = x
      · subst removed
        by_cases same : z = y
        · simpa [same] using ih
        · have apart : (z == y) = false := by
            simpa using same
          simp [List.lookup_cons, same, apart, ih]
      · by_cases same : z = y
        · subst same
          simp [removed]
        · have apart : (z == y) = false := by
            simpa using same
          simp [List.lookup_cons, removed, apart, ih]

namespace Subst

/-- What stands for a variable. -/
def image (s : Subst) (x : Var) : Term := (s.get? x).getD (.ref x)

theorem get?_add (s : Subst) (x : Var) (t : Term) (z : Var) :
    (s.add x t).get? z = if z = x then some t else s.get? z := by
  by_cases same : z = x
  · simp [get?, add, same]
  · have apart : (z == x) = false := by
      simpa using same
    simp [get?, add, List.lookup_cons, same, apart]

theorem get?_remove (s : Subst) (x z : Var) :
    (s.remove x).get? z = if z = x then none else s.get? z := lookup_filter_ne s.terms x z

/-- The range of a substitution covers its terms, and all of them are old. -/
structure Covered (s : Subst) (n : Nat) : Prop where
  range : ∀ x t, s.get? x = some t → ∀ w ∈ t.freeVars, w ∈ s.range
  below : ∀ x t, s.get? x = some t → t.Below n

/-- A substitution on the way through a term: variables bound on the way keep their places, and the
    others become terms that mention no binder passed. Only variables older than the first counter
    are spoken of. -/
structure Reads (s : Subst) (first n : Nat) (scope after : List Var)
    (f : Universe → Universe) (σ : Var → Nameless) : Prop extends s.Covered n where
  still : s.zonks = false
  levels : ∀ u v, s.sort u = .ok v → f u = v
  order : first ≤ n
  made : ∀ w ∈ after, w.id < n
  bound : ∀ z i, z.id < first → position z scope = some i →
    ∃ w, s.image z = .ref w ∧ position w after = some i
  free : ∀ z, z.id < first → z ∉ scope →
    (∀ w ∈ (s.image z).freeVars, w ∉ after) ∧ (s.image z).reading = σ z

variable {s : Subst} {first n : Nat} {scope after : List Var} {f : Universe → Universe}
  {σ : Var → Nameless}

theorem Reads.later (reads : s.Reads first n scope after f σ) {m : Nat} (later : n ≤ m) :
    s.Reads first m scope after f σ where
  range := reads.range
  below x t known := (reads.below x t known).mono later
  still := reads.still
  levels := reads.levels
  order := reads.order.trans later
  made w member := (reads.made w member).trans_le later
  bound := reads.bound
  free := reads.free

theorem Reads.image_below (reads : s.Reads first n scope after f σ) {z w : Var}
    (old : z.id < first) (member : w ∈ (s.image z).freeVars) : w.id < n := by
  unfold image at member
  cases known : s.get? z with
  | none =>
      simp only [known, Option.getD_none, Term.freeVars, List.mem_singleton] at member
      exact member ▸ old.trans_le reads.order
  | some t =>
      simp only [known, Option.getD_some] at member
      exact (reads.below z t known).freeVars member

/-- A variable that the substitution does not mention is not what another one becomes. -/
theorem Reads.image_avoids (reads : s.Reads first n scope after f σ) {x z w : Var}
    (unused : x ∉ s.range) (apart : z ≠ x) (member : w ∈ (s.image z).freeVars) : w ≠ x := by
  unfold image at member
  cases known : s.get? z with
  | none =>
      simp only [known, Option.getD_none, Term.freeVars, List.mem_singleton] at member
      exact member ▸ apart
  | some t =>
      simp only [known, Option.getD_some] at member
      exact fun same => unused (same ▸ reads.range z t known w member)

theorem position_cons_ne {x y : Var} (apart : x ≠ y) (scope : List Var) :
    position x (y :: scope) = (position x scope).map (· + 1) := by
  simp [position, apart]

/-- Passing a binder with a new name, or with its own if nothing mentions it. -/
theorem Reads.rename (reads : s.Reads first n scope after f σ) {x y : Var} {inner : Subst}
    {m : Nat} (later : n ≤ m) (isNew : y.id < m) (still : inner.zonks = false)
    (sameLevels : inner.levels = s.levels) (covered : inner.Covered m)
    (here : inner.image x = .ref y) (others : ∀ z, z ≠ x → inner.image z = s.image z)
    (avoids : ∀ z w, z.id < first → z ≠ x → w ∈ (s.image z).freeVars → w ≠ y) :
    inner.Reads first m (x :: scope) (y :: after) f σ where
  toCovered := covered
  still := still
  levels := by
    intro u v done
    apply reads.levels
    simpa [Subst.sort, sameLevels] using done
  order := reads.order.trans later
  made := by
    intro w member
    rcases List.mem_cons.mp member with rfl | member
    · exact isNew
    · exact (reads.made w member).trans_le later
  bound := by
    intro z i old found
    by_cases same : z = x
    · subst same
      refine ⟨y, here, ?_⟩
      simpa [position] using found
    · rw [position_cons_ne same, Option.map_eq_some_iff] at found
      obtain ⟨j, outer, rfl⟩ := found
      obtain ⟨w, image, place⟩ := reads.bound z j old outer
      have apart : w ≠ y := avoids z w old same (by simp [image, Term.freeVars])
      refine ⟨w, (others z same).trans image, ?_⟩
      simp [position_cons_ne apart, place]
  free := by
    intro z old outside
    obtain ⟨same, outer⟩ := not_or.mp (List.mem_cons.not.mp outside)
    obtain ⟨clear, reading⟩ := reads.free z old outer
    rw [others z same]
    refine ⟨fun w member inAfter => ?_, reading⟩
    rcases List.mem_cons.mp inAfter with rfl | inAfter
    · exact avoids z w old same member rfl
    · exact clear w member inAfter

theorem Reads.under (reads : s.Reads first n scope after f σ) {x y : Var} {inner : Subst}
    {m : Nat} (old : x.id < first) (done : s.under x n = .ok ((y, inner), m)) :
    n ≤ m ∧ y.id < m ∧ inner.Reads first m (x :: scope) (y :: after) f σ := by
  unfold Subst.under at done
  by_cases captured : s.captures x
  · rw [if_pos captured] at done
    obtain ⟨z, k, renamed, rest⟩ := fresh_bind done
    cases renamed
    cases rest
    refine ⟨Nat.le_succ n, Nat.lt_succ_self n, ?_⟩
    refine reads.rename (Nat.le_succ n) (Nat.lt_succ_self n) reads.still rfl ⟨?_, ?_⟩ ?_ ?_ ?_
    · intro z t known w member
      rw [get?_add] at known
      split at known
      · cases known
        exact List.mem_append_left _ member
      · exact List.mem_append_right _ (reads.range z t known w member)
    · intro z t known
      rw [get?_add] at known
      split at known
      · cases known
        intro w member
        have same : w = ⟨n, x.name⟩ := by
          simpa [Term.toScoped, Scoped.ids] using member
        exact same ▸ Nat.lt_succ_self n
      · exact (reads.below z t known).mono (Nat.le_succ n)
    · simp [image, get?_add]
    · intro z apart
      simp [image, get?_add, apart]
    · intro z w isOld _ member same
      have bound := reads.image_below isOld member
      rw [same] at bound
      exact absurd bound (Nat.lt_irrefl n)
  · rw [if_neg captured] at done
    cases done
    have unused : x ∉ s.range := by
      simpa [Subst.captures] using captured
    refine ⟨Nat.le_refl n, old.trans_le reads.order, ?_⟩
    refine reads.rename (Nat.le_refl n) (old.trans_le reads.order) ?_ ?_ ⟨?_, ?_⟩ ?_ ?_ ?_
    · split
      · exact reads.still
      · exact reads.still
    · split <;> rfl
    · intro z t known w member
      split at known
      · rename_i mapped
        rw [if_pos mapped]
        rw [get?_remove] at known
        split at known
        · cases known
        · exact reads.range z t known w member
      · rename_i unmapped
        rw [if_neg unmapped]
        exact reads.range z t known w member
    · intro z t known
      split at known
      · rw [get?_remove] at known
        split at known
        · cases known
        · exact reads.below z t known
      · exact reads.below z t known
    · split
      · simp [image, get?_remove]
      · rename_i unmapped
        have missing : s.get? x = none := by
          simpa using unmapped
        simp [image, missing]
    · intro z apart
      split
      · simp [image, get?_remove, apart]
      · rfl
    · intro z w _ apart member
      exact reads.image_avoids unused apart member

end Subst

/-- A rule that leaves metavariables alone where their solutions are not put in. -/
def HoleRule.Plain (rule : HoleRule) : Prop :=
  ∀ s m, s.zonks = false → rule s m = pure (.hole m)

theorem Subst.rule_plain (env : Environment) : HoleRule.Plain (Subst.rule env) := by
  intro s m still
  unfold rule holeRule
  simp [still]

theorem Label.mapM_ok {g : Universe → Checked Universe} {f : Universe → Universe}
    (same : ∀ u v, g u = .ok v → f u = v) {l r : Label} (done : l.mapM g = .ok r) :
    r = l.map f := by
  cases l with
  | univ u | call _ u | con _ u | data _ u | record _ u | field _ u =>
      obtain ⟨v, mapped, rest⟩ := bind_ok done
      cases rest
      simp [Label.map, same u v mapped]
  | _ =>
      cases done
      rfl

section Reading

variable {rule : HoleRule}

/-- A substitution without terms, levels and solutions leaves every reading as it is. -/
theorem Subst.Reads.idle {s : Subst} {first n : Nat} {scope after : List Var}
    {f : Universe → Universe} {σ : Var → Nameless} (reads : s.Reads first n scope after f σ)
    (empty : s.isEmpty = true) {t : Scoped} (old : t.Below first) :
    t.read after = (t.read scope).inst f σ := by
  have image : ∀ z, s.image z = .ref z := by
    intro z
    simp [Subst.image, Subst.get?_of_isEmpty empty]
  have noLevels : s.levels.isEmpty = true := by
    simp_all [Subst.isEmpty]
  have sameLevels : ∀ u, f u = u := by
    intro u
    apply reads.levels
    simp [Subst.sort, noLevels]
  have places : ∀ z ∈ t.freeVars, position z after = position z scope := by
    intro z member
    have isOld := old z (t.freeVars_subset z member)
    cases found : position z scope with
    | some i =>
        obtain ⟨w, becomes, place⟩ := reads.bound z i isOld found
        rw [image z, Term.ref.injEq] at becomes
        rw [becomes, place]
    | none =>
        obtain ⟨clear, _⟩ := reads.free z isOld (position_eq_none_iff.mp found)
        apply position_eq_none_iff.mpr
        exact clear z (by simp [image, Term.freeVars])
  rw [t.read_congr places]
  symm
  apply Nameless.inst_self sameLevels
  intro z member
  obtain ⟨isFree, outside⟩ := (t.mem_read_freeVars).mp member
  rw [← (reads.free z (old z (t.freeVars_subset z isFree)) outside).2, image]
  rfl

mutual

/-- The reading of a substituted tree is the instance of its reading. -/
theorem Scoped.subst_read (plain : rule.Plain) : ∀ (t : Scoped) {s : Subst} {first n : Nat}
    {scope after : List Var} {f : Universe → Universe} {σ : Var → Nameless} {r : Scoped × Nat},
    s.Reads first n scope after f σ → t.Below first → t.subst rule s n = .ok r →
      n ≤ r.2 ∧ r.1.Below r.2 ∧ r.1.read after = (t.read scope).inst f σ
  | .var z, s, first, n, scope, after, f, σ, r, reads, old, done => by
      cases fresh_pure done
      have isOld : z.id < first := old z (by simp [Scoped.ids])
      refine ⟨Nat.le_refl n, ?_, ?_⟩
      · cases known : s.get? z with
        | none =>
            intro w member
            have same : w = z := by
              simpa [known, Term.toScoped, Scoped.ids] using member
            exact same ▸ isOld.trans_le reads.order
        | some t =>
            simp only [Option.getD_some]
            exact reads.below z t known
      · change (s.image z).toScoped.read after = _
        unfold Scoped.read
        cases found : position z scope with
        | some i =>
            obtain ⟨w, becomes, place⟩ := reads.bound z i isOld found
            simp [becomes, Term.toScoped, place, Nameless.inst]
        | none =>
            obtain ⟨clear, reading⟩ := reads.free z isOld (position_eq_none_iff.mp found)
            have same : (s.image z).toScoped.read after = (s.image z).reading := by
              apply Scoped.read_congr
              intro w member
              rw [Term.toScoped_freeVars] at member
              rw [position_eq_none_iff.mpr (clear w member)]
              rfl
            rw [Scoped.read.eq_def] at same
            simpa [Nameless.inst, reading] using same
  | .hole m, s, first, n, scope, after, f, σ, r, reads, _, done => by
      have kept : r = (.hole m, n) := by
        unfold Scoped.subst at done
        split at done
        · exact fresh_pure done
        · rw [plain s m reads.still] at done
          obtain ⟨t, k, same, rest⟩ := fresh_bind done
          cases same
          exact fresh_pure rest
      subst kept
      refine ⟨Nat.le_refl n, ?_, rfl⟩
      intro w member
      cases member
  | .node l parts, s, first, n, scope, after, f, σ, r, reads, old, done => by
      unfold Scoped.subst at done
      split at done
      · rename_i stop
        cases fresh_pure done
        have empty : s.isEmpty = true := by
          simp_all
        exact ⟨Nat.le_refl n, Scoped.Below.mono old reads.order, reads.idle empty old⟩
      · obtain ⟨l', k, mapped, next⟩ := fresh_bind done
        obtain ⟨_, labels, same⟩ := fresh_lift mapped
        cases same
        obtain ⟨parts', m, replaced, rest⟩ := fresh_bind next
        cases fresh_pure rest
        obtain ⟨later, below, reading⟩ := parts.subst_read plain reads old replaced
        refine ⟨later, below, ?_⟩
        simp [Scoped.read, Nameless.inst, reading, Label.mapM_ok reads.levels labels]

theorem Parts.subst_read (plain : rule.Plain) : ∀ (t : Parts) {s : Subst} {first n : Nat}
    {scope after : List Var} {f : Universe → Universe} {σ : Var → Nameless} {r : Parts × Nat},
    s.Reads first n scope after f σ → t.Below first → t.subst rule s n = .ok r →
      n ≤ r.2 ∧ r.1.Below r.2 ∧ r.1.read after = (t.read scope).inst f σ
  | .nil, s, first, n, scope, after, f, σ, r, _, _, done => by
      cases fresh_pure done
      refine ⟨Nat.le_refl n, ?_, rfl⟩
      intro w member
      cases member
  | .part t rest, s, first, n, scope, after, f, σ, r, reads, old, done => by
      obtain ⟨oldHead, oldRest⟩ := Parts.below_part.mp old
      obtain ⟨t', k, head, next⟩ := fresh_bind done
      obtain ⟨rest', m, tail, final⟩ := fresh_bind next
      cases fresh_pure final
      obtain ⟨first', below, reading⟩ := t.subst_read plain reads oldHead head
      obtain ⟨later, belowRest, readingRest⟩ := rest.subst_read plain (reads.later first') oldRest
        tail
      refine ⟨first'.trans later, Parts.below_part.mpr ⟨below.mono later, belowRest⟩, ?_⟩
      simp only at reading readingRest
      simp [Parts.read, NamelessParts.inst, reading, readingRest]
  | .binder mode x rest, s, first, n, scope, after, f, σ, r, reads, old, done => by
      obtain ⟨oldVar, oldRest⟩ := Parts.below_binder.mp old
      obtain ⟨⟨y, inner⟩, k, passed, next⟩ := fresh_bind done
      obtain ⟨rest', m, tail, final⟩ := fresh_bind next
      cases fresh_pure final
      obtain ⟨first', isNew, innerReads⟩ := reads.under oldVar passed
      obtain ⟨later, below, reading⟩ := rest.subst_read plain innerReads oldRest tail
      refine ⟨first'.trans later, Parts.below_binder.mpr ⟨isNew.trans_le later, below⟩, ?_⟩
      simp only at reading
      simp [Parts.read, NamelessParts.inst, reading]

end

/-- A substitution of terms only: nothing that it does can fail. -/
structure Subst.Simple (s : Subst) : Prop where
  levels : s.levels = []
  still : s.zonks = false

theorem Subst.Simple.add {s : Subst} (simple : s.Simple) (x : Var) (t : Term) :
    (s.add x t).Simple := ⟨simple.levels, simple.still⟩

theorem Subst.Simple.label {s : Subst} (simple : s.Simple) (l : Label) : l.mapM s.sort = .ok l := by
  have sort : ∀ u, s.sort u = .ok u := by
    intro u
    simp [Subst.sort, simple.levels]
  cases l <;> simp [Label.mapM, sort] <;> rfl

theorem Subst.Simple.under {s : Subst} (simple : s.Simple) (x : Var) (n : Nat) :
    ∃ y inner m, s.under x n = .ok ((y, inner), m) ∧ inner.Simple := by
  unfold Subst.under
  split
  · exact ⟨_, _, _, rfl, simple.add _ _⟩
  · refine ⟨_, _, _, rfl, ?_⟩
    split
    · exact ⟨simple.levels, simple.still⟩
    · exact simple

mutual

/-- A substitution of terms only always gives a tree. -/
theorem Scoped.subst_total (plain : rule.Plain) : ∀ (t : Scoped) {s : Subst}, s.Simple → ∀ n : Nat,
    ∃ r, t.subst rule s n = .ok r
  | .var _, _, _, _ => ⟨_, rfl⟩
  | .hole m, s, simple, n => by
      unfold Scoped.subst
      split
      · exact ⟨_, rfl⟩
      · rw [plain s m simple.still]
        exact ⟨_, rfl⟩
  | .node l parts, s, simple, n => by
      unfold Scoped.subst
      split
      · exact ⟨_, rfl⟩
      · obtain ⟨⟨parts', m⟩, done⟩ := parts.subst_total plain simple n
        rw [simple.label l]
        exact ⟨_, fresh_map_of_ok done (Scoped.node l)⟩

theorem Parts.subst_total (plain : rule.Plain) : ∀ (t : Parts) {s : Subst}, s.Simple → ∀ n : Nat,
    ∃ r, t.subst rule s n = .ok r
  | .nil, _, _, _ => ⟨_, rfl⟩
  | .part t rest, s, simple, n => by
      obtain ⟨⟨t', k⟩, head⟩ := t.subst_total plain simple n
      obtain ⟨⟨rest', m⟩, tail⟩ := rest.subst_total plain simple k
      exact ⟨_, fresh_then head (fresh_map_of_ok tail (Parts.part t'))⟩
  | .binder mode x rest, s, simple, n => by
      obtain ⟨y, inner, k, passed, innerSimple⟩ := simple.under x n
      obtain ⟨⟨rest', m⟩, tail⟩ := rest.subst_total plain innerSimple k
      exact ⟨_, fresh_then passed (fresh_map_of_ok tail (Parts.binder mode y))⟩

end

theorem Subst.under_order {s inner : Subst} {x y : Var} {n m : Nat}
    (done : s.under x n = .ok ((y, inner), m)) : n ≤ m ∧ inner.zonks = s.zonks := by
  unfold Subst.under at done
  split at done
  · cases done
    exact ⟨Nat.le_succ n, rfl⟩
  · cases done
    refine ⟨Nat.le_refl n, ?_⟩
    split <;> rfl

mutual

/-- The counter never goes down, whatever the variables of the tree are. -/
theorem Scoped.subst_order (plain : rule.Plain) : ∀ (t : Scoped) {s : Subst} {n : Nat}
    {r : Scoped × Nat}, s.zonks = false → t.subst rule s n = .ok r → n ≤ r.2
  | .var _, s, n, r, _, done => by
      cases fresh_pure done
      exact Nat.le_refl n
  | .hole m, s, n, r, still, done => by
      unfold Scoped.subst at done
      split at done
      · cases fresh_pure done
        exact Nat.le_refl n
      · rw [plain s m still] at done
        cases done
        exact Nat.le_refl n
  | .node l parts, s, n, r, still, done => by
      unfold Scoped.subst at done
      split at done
      · cases fresh_pure done
        exact Nat.le_refl n
      · obtain ⟨l', k, mapped, next⟩ := fresh_bind done
        obtain ⟨_, _, same⟩ := fresh_lift mapped
        cases same
        obtain ⟨parts', m, replaced, rest⟩ := fresh_bind next
        cases fresh_pure rest
        exact parts.subst_order plain still replaced

theorem Parts.subst_order (plain : rule.Plain) : ∀ (t : Parts) {s : Subst} {n : Nat}
    {r : Parts × Nat}, s.zonks = false → t.subst rule s n = .ok r → n ≤ r.2
  | .nil, s, n, r, _, done => by
      cases fresh_pure done
      exact Nat.le_refl n
  | .part t rest, s, n, r, still, done => by
      obtain ⟨t', k, head, next⟩ := fresh_bind done
      obtain ⟨rest', m, tail, final⟩ := fresh_bind next
      cases fresh_pure final
      have later := rest.subst_order plain still tail
      exact (t.subst_order plain still head).trans later
  | .binder mode x rest, s, n, r, still, done => by
      obtain ⟨⟨y, inner⟩, k, passed, next⟩ := fresh_bind done
      obtain ⟨rest', m, tail, final⟩ := fresh_bind next
      cases fresh_pure final
      obtain ⟨order, same⟩ := Subst.under_order passed
      have later := rest.subst_order plain (same.trans still) tail
      exact order.trans later

end

end Reading

namespace Subst

variable {s : Subst} {n : Nat} {f : Universe → Universe}

theorem Simple.apply (simple : s.Simple) (env : Environment) (t : Term) :
    ∃ r, s.apply env t n = .ok r := by
  obtain ⟨r, done⟩ := t.toScoped.subst_total (rule_plain env) simple n
  rw [Term.toScoped_subst] at done
  obtain ⟨t', m, first, _⟩ := fresh_map done
  exact ⟨(t', m), first⟩

theorem apply_order (still : s.zonks = false) {env : Environment} {t t' : Term} {m : Nat}
    (done : s.apply env t n = .ok (t', m)) : n ≤ m := by
  have run : t.toScoped.subst (rule env) s n = .ok (t'.toScoped, m) := by
    rw [Term.toScoped_subst]
    exact fresh_map_of_ok done _
  exact t.toScoped.subst_order (rule_plain env) still run

/-- At the root, every variable becomes the reading of what stands for it. -/
theorem Covered.reads (covered : s.Covered n) (still : s.zonks = false)
    (levels : ∀ u v, s.sort u = .ok v → f u = v) :
    s.Reads n n [] [] f fun z => (s.image z).reading where
  toCovered := covered
  still := still
  levels := levels
  order := Nat.le_refl n
  made w member := by cases member
  bound z i _ found := by cases found
  free z _ _ := ⟨fun w _ member => (by cases member), rfl⟩

/-- Substitution in a term never captures a variable. -/
theorem Covered.apply_reading (covered : s.Covered n) (still : s.zonks = false)
    (levels : ∀ u v, s.sort u = .ok v → f u = v) {env : Environment} {t t' : Term} {m : Nat}
    (below : t.Below n) (done : s.apply env t n = .ok (t', m)) :
    n ≤ m ∧ t'.Below m ∧ t'.reading = t.reading.inst f fun z => (s.image z).reading := by
  have run : t.toScoped.subst (rule env) s n = .ok (t'.toScoped, m) := by
    rw [Term.toScoped_subst]
    exact fresh_map_of_ok done _
  exact t.toScoped.subst_read (rule_plain env) (covered.reads still levels) below run

/-- Substitution in a case tree never captures a variable. -/
theorem Covered.applyTree_reading (covered : s.Covered n) (still : s.zonks = false)
    (levels : ∀ u v, s.sort u = .ok v → f u = v) {env : Environment} {t t' : CaseTree} {m : Nat}
    (below : t.Below n) (done : s.applyTree env t n = .ok (t', m)) :
    n ≤ m ∧ t'.Below m ∧
      t'.reading = t.reading.inst f fun z => (s.image z).reading := by
  have run : t.toScoped.subst (rule env) s n = .ok (t'.toScoped, m) := by
    rw [CaseTree.toScoped_subst]
    exact fresh_map_of_ok done _
  exact t.toScoped.subst_read (rule_plain env) (covered.reads still levels) below run

end Subst

end PathTheory
