import PathTheory.Proofs.Reduction.Views
/-!
Substitution against its reference. In nameless terms nothing can be captured, so simultaneous
substitution there is a replacement of the free variables. On named terms, telescopes and case trees
the substitution does the same, and so does the one that a telescope returns on everything in its
scope, however deep telescopes stand in one another.
-/
namespace PathTheory

mutual

/-- Simultaneous substitution. Bound variables are not those that terms are put for, and the terms
    put in have no bound variables of their own; there is no result if a level grows too large. -/
def Nameless.subst? (s : Subst) : Nameless → Option Nameless
  | .bound i => some (.bound i)
  | .free x => some ((s.get? x).getD (.ref x)).reading
  | .hole m => some (.hole m)
  | .node label parts => do
      let label ← (label.mapM s.sort).toOption
      return .node label (← parts.subst? s)

def NamelessParts.subst? (s : Subst) : NamelessParts → Option NamelessParts
  | .nil => some .nil
  | .part t rest => do
      return .part (← t.subst? s) (← rest.subst? s)
  | .binder mode rest => do
      return .binder mode (← rest.subst? s)

end

section Reference

variable {s : Subst}

theorem Label.mapM_toOption {l : Label} (all : ∀ u ∈ l.sort?, ∃ v, s.sort u = .ok v) :
    (l.mapM s.sort).toOption = some (l.map s.onUniverse) := by
  obtain ⟨r, done⟩ := Label.mapM_ok_iff.mpr all
  rw [done, Label.mapM_ok (fun _ _ => Subst.onUniverse_eq) done]
  rfl

mutual

/-- Where all levels stay within bounds, the reference is the instance of the term. -/
theorem Nameless.subst?_inst : ∀ t : Nameless, (∀ u ∈ t.sorts, ∃ v, s.sort u = .ok v) →
    t.subst? s = some (t.inst s.onUniverse fun z => (s.image z).reading)
  | .bound _, _ | .hole _, _ | .free _, _ => rfl
  | .node l parts, all => by
      simp only [Nameless.sorts, List.mem_append, Option.mem_toList, or_imp, forall_and] at all
      simp [Nameless.subst?, Label.mapM_toOption all.1, parts.subst?_inst all.2, Nameless.inst]

theorem NamelessParts.subst?_inst : ∀ t : NamelessParts, (∀ u ∈ t.sorts, ∃ v, s.sort u = .ok v) →
    t.subst? s = some (t.inst s.onUniverse fun z => (s.image z).reading)
  | .nil, _ => rfl
  | .part t rest, all => by
      simp only [NamelessParts.sorts, List.mem_append, or_imp, forall_and] at all
      simp [NamelessParts.subst?, t.subst?_inst all.1, rest.subst?_inst all.2, NamelessParts.inst]
  | .binder mode rest, all => by
      simp [NamelessParts.subst?, rest.subst?_inst all, NamelessParts.inst]

end

mutual

theorem Nameless.sorts_of_subst? : ∀ {t r : Nameless}, t.subst? s = some r →
    ∀ u ∈ t.sorts, ∃ v, s.sort u = .ok v
  | .bound _, _, _, _, member | .hole _, _, _, _, member | .free _, _, _, _, member => by
      cases member
  | .node l parts, r, done, u, member => by
      simp only [Nameless.subst?, Option.bind_eq_bind, Option.bind_eq_some_iff] at done
      obtain ⟨l', labels, parts', replaced, _⟩ := done
      rcases List.mem_append.mp member with inLabel | inParts
      · have mapped : ∃ r, l.mapM s.sort = .ok r := by
          cases result : l.mapM s.sort with
          | error fault => simp [result, Except.toOption] at labels
          | ok r => exact ⟨r, rfl⟩
        exact Label.mapM_ok_iff.mp mapped u (Option.mem_toList.mp inLabel)
      · exact NamelessParts.sorts_of_subst? replaced u inParts

theorem NamelessParts.sorts_of_subst? : ∀ {t r : NamelessParts}, t.subst? s = some r →
    ∀ u ∈ t.sorts, ∃ v, s.sort u = .ok v
  | .nil, _, _, _, member => by cases member
  | .part t rest, r, done, u, member => by
      simp only [NamelessParts.subst?, Option.bind_eq_bind, Option.bind_eq_some_iff] at done
      obtain ⟨t', head, rest', tail, _⟩ := done
      rcases List.mem_append.mp member with inHead | inRest
      · exact Nameless.sorts_of_subst? head u inHead
      · exact NamelessParts.sorts_of_subst? tail u inRest
  | .binder mode rest, r, done, u, member => by
      simp only [NamelessParts.subst?, Option.bind_eq_bind, Option.bind_eq_some_iff] at done
      obtain ⟨rest', tail, _⟩ := done
      exact NamelessParts.sorts_of_subst? tail u member

end

end Reference

theorem toOption_map_eq {α β : Type} {run : Checked α} {f : α → β} {result : Option β}
    (ends : ∀ r, run = .ok r → result = some (f r))
    (known : ∀ b, result = some b → ∃ r, run = .ok r) : run.toOption.map f = result := by
  cases run with
  | ok r => exact (ends r rfl).symm
  | error fault =>
      cases result with
      | none => rfl
      | some b =>
          obtain ⟨_, impossible⟩ := known b rfl
          cases impossible

theorem fresh_map_toOption {α β : Type} (a : Fresh α) (f : α → β) (n : Nat) :
    ((f <$> a) n).toOption = (a n).toOption.map fun r => (f r.1, r.2) := by
  change (a n >>= fun r => pure (f r.1, r.2)).toOption = _
  cases a n <;> rfl

namespace Subst

/-- The substitutions that can be built of terms and levels. Their range is not only that of the
    terms that they still put in. -/
inductive Made : Subst → Prop
  | empty : Made empty
  | add {s : Subst} (x : Var) (t : Term) : s.Made → (s.add x t).Made
  | remove {s : Subst} (x : Var) : s.Made → (s.remove x).Made
  | addLevel {s : Subst} (x : LevelVar) (a : Level) : s.Made → (s.addLevel x a).Made
  | withLevels {s : Subst} (levels : List (LevelVar × Level)) : s.Made → (s.withLevels levels).Made

theorem Made.still {s : Subst} (made : s.Made) : s.zonks = false := by
  induction made with
  | empty => rfl
  | add _ _ _ ih | remove _ _ ih | addLevel _ _ _ ih | withLevels _ _ ih => exact ih

/-- Nothing is ever taken out of the range, so it covers the terms that are still put in. -/
theorem Made.range {s : Subst} (made : s.Made) :
    ∀ x t, s.get? x = some t → ∀ w ∈ t.freeVars, w ∈ s.range := by
  induction made with
  | empty =>
      intro x t known
      cases known
  | @add s y u _ ih =>
      intro x t known w member
      rw [get?_add] at known
      split at known
      · cases known
        exact List.mem_append_left _ member
      · exact List.mem_append_right _ (ih x t known w member)
  | @remove s y _ ih =>
      intro x t known
      rw [get?_remove] at known
      split at known
      · cases known
      · exact ih x t known
  | addLevel _ _ _ ih | withLevels _ _ ih => exact ih

/-- The substitution, in a scope that telescopes were passed to reach, still does what the
    reference does, and all of it: it also fails for the same levels. -/
structure Follows (s reference : Subst) (first n : Nat) (scope after : List Var) : Prop where
  reads : s.Reads first n scope after reference.onUniverse fun z => (reference.image z).reading
  levels : s.levels = reference.levels

namespace Follows

variable {s reference : Subst} {first n m : Nat} {scope after : List Var}

theorem sort (follows : s.Follows reference first n scope after) : s.sort = reference.sort := by
  funext u
  simp [Subst.sort, follows.levels]

theorem later (follows : s.Follows reference first n scope after) (order : n ≤ m) :
    s.Follows reference first m scope after := ⟨follows.reads.later order, follows.levels⟩

theorem under (follows : s.Follows reference first n scope after) {x y : Var} {inner : Subst}
    (old : x.id < first) (done : s.under x n = .ok ((y, inner), m)) :
    n ≤ m ∧ inner.Follows reference first m (x :: scope) (y :: after) := by
  obtain ⟨order, _, reads⟩ := follows.reads.under old done
  obtain ⟨_, _, _, passed, _, levels⟩ := s.under_ok x n
  rw [done] at passed
  cases passed
  exact ⟨order, reads, levels.trans follows.levels⟩

variable {rule : HoleRule}

theorem subst_scoped (follows : s.Follows reference first n scope after) (plain : rule.Plain)
    {t : Scoped} (old : t.Below first) :
    (t.subst rule s n).toOption.map (·.1.read after) = (t.read scope).subst? reference := by
  have total := t.subst_ok_iff plain scope n follows.reads.still
  rw [follows.sort] at total
  refine toOption_map_eq (fun r run => ?_) fun r done => ?_
  · rw [Nameless.subst?_inst _ (total.mp ⟨r, run⟩)]
    exact congrArg some (t.subst_read plain follows.reads old run).2.2.symm
  · exact total.mpr (Nameless.sorts_of_subst? done)

theorem subst_parts (follows : s.Follows reference first n scope after) (plain : rule.Plain)
    {t : Parts} (old : t.Below first) :
    (t.subst rule s n).toOption.map (·.1.read after) = (t.read scope).subst? reference := by
  have total := t.subst_ok_iff plain scope n follows.reads.still
  rw [follows.sort] at total
  refine toOption_map_eq (fun r run => ?_) fun r done => ?_
  · rw [NamelessParts.subst?_inst _ (total.mp ⟨r, run⟩)]
    exact congrArg some (t.subst_read plain follows.reads old run).2.2.symm
  · exact total.mpr (NamelessParts.sorts_of_subst? done)

/-- A telescope binder by binder: its last variable comes first in the scopes. -/
theorem telescope (follows : s.Follows reference first n scope after) (plain : rule.Plain)
    {params params' : Telescope} {inner : Subst} (old : Telescope.Below first params)
    (done : substTelescope rule s params n = .ok ((params', inner), m)) :
    n ≤ m ∧ inner.Follows reference first m (params.vars.reverse ++ scope)
      (params'.vars.reverse ++ after) := by
  induction params generalizing s n scope after params' with
  | nil =>
      cases done
      exact ⟨Nat.le_refl _, follows⟩
  | cons b others ih =>
      obtain ⟨mode, x, type⟩ := b
      obtain ⟨⟨oldVar, oldType⟩, oldOthers⟩ := List.forall_mem_cons.mp old
      obtain ⟨type', k, first', next⟩ := fresh_bind done
      obtain ⟨⟨y, here⟩, l, passed, next⟩ := fresh_bind next
      obtain ⟨⟨others', last⟩, m', tail, rest⟩ := fresh_bind next
      cases fresh_pure rest
      have run : type.toScoped.subst rule s n = .ok (type'.toScoped, k) := by
        rw [Term.toScoped_subst]
        exact fresh_map_of_ok first' _
      have order := type.toScoped.subst_order plain follows.reads.still run
      obtain ⟨order', entered⟩ := (follows.later order).under oldVar passed
      obtain ⟨order'', final⟩ := ih entered oldOthers tail
      refine ⟨(order.trans order').trans order'', ?_⟩
      simpa [Telescope.vars] using final

end Follows

/-- What the substitution does to terms, telescopes and case trees older than the first counter,
    read in the scope after it, is what the reference does to their readings in the scope before. -/
structure Performs (s reference : Subst) (env : Environment) (first n : Nat)
    (scope after : List Var) : Prop where
  term : ∀ t : Term, t.Below first →
    (s.apply env t n).toOption.map (fun r => r.1.toScoped.read after) =
      (t.toScoped.read scope).subst? reference
  telescope : ∀ params : Telescope, Telescope.Below first params →
    (s.applyTelescope env params n).toOption.map
        (fun r => (telescopeParts r.1.1 .nil).read after) =
      ((telescopeParts params .nil).read scope).subst? reference
  tree : ∀ t : CaseTree, t.Below first →
    (s.applyTree env t n).toOption.map (fun r => r.1.toScoped.read after) =
      (t.toScoped.read scope).subst? reference

theorem Follows.performs {s reference : Subst} {first n : Nat} {scope after : List Var}
    (follows : s.Follows reference first n scope after) (env : Environment) :
    s.Performs reference env first n scope after where
  term t old := by
    have same := follows.subst_scoped (rule_plain env) old
    rw [Term.toScoped_subst, fresh_map_toOption, Option.map_map] at same
    exact same
  telescope params old := by
    have same := follows.subst_parts (rule_plain env)
      (telescopeParts_below.mpr ⟨old, Parts.below_nil⟩)
    have onlyParams : (telescopeParts params .nil).subst (rule env) s =
        (fun r => telescopeParts r.1 .nil) <$> substTelescope (rule env) s params := by
      simp [telescopeParts_subst, Parts.subst]
    rw [onlyParams, fresh_map_toOption, Option.map_map] at same
    exact same
  tree t old := by
    have same := follows.subst_scoped (rule_plain env) old
    rw [CaseTree.toScoped_subst, fresh_map_toOption, Option.map_map] at same
    exact same

/-- The substitutions that hold in the scope of telescopes, one within the other, with a value that
    the counter can have there and the scopes before and after. -/
inductive Enters (s : Subst) (env : Environment) (first : Nat) :
    Subst → Nat → List Var → List Var → Prop
  | root : s.Enters env first s first [] []
  | later {inner : Subst} {n m : Nat} {scope after : List Var} :
      s.Enters env first inner n scope after → n ≤ m → s.Enters env first inner m scope after
  | telescope {outer inner : Subst} {n m : Nat} {scope after : List Var}
      {params params' : Telescope} :
      s.Enters env first outer n scope after → Telescope.Below first params →
      outer.applyTelescope env params n = .ok ((params', inner), m) →
      s.Enters env first inner m (params.vars.reverse ++ scope) (params'.vars.reverse ++ after)

theorem Enters.follows {s inner : Subst} {env : Environment} {first n : Nat}
    {scope after : List Var} (made : s.Made) (old : ∀ x t, s.get? x = some t → t.Below first)
    (enters : s.Enters env first inner n scope after) : inner.Follows s first n scope after := by
  induction enters with
  | root =>
      have covered : s.Covered first := ⟨made.range, old⟩
      exact ⟨covered.reads made.still fun _ _ => onUniverse_eq, rfl⟩
  | later _ order ih => exact ih.later order
  | telescope _ below done ih => exact (ih.telescope (rule_plain env) below done).2

/-- Substitution never captures a variable: with the counter above all variables, it is the
    reference substitution of the readings, and the substitution that a telescope returns is so on
    everything in its scope. -/
theorem capture_avoiding {s inner : Subst} {env : Environment} {first n : Nat}
    {scope after : List Var} (made : s.Made) (old : ∀ x t, s.get? x = some t → t.Below first)
    (enters : s.Enters env first inner n scope after) :
    inner.Performs s env first n scope after := (enters.follows made old).performs env

theorem get?_single (x : Var) (t : Term) (z : Var) :
    (single x t).get? z = if z = x then some t else none := get?_add empty x t z

theorem single_below {x : Var} {t : Term} {n : Nat} (below : t.Below n) :
    ∀ z u, (single x t).get? z = some u → u.Below n := by
  intro z u known
  rw [get?_single] at known
  split at known
  · cases known
    exact below
  · cases known

section Example

def replaced : Var := ⟨0, "x"⟩

def boundTwice : Var := ⟨1, "y"⟩

/-- Here both binders have the name of the variable that is put for the other one. -/
def capturing : Telescope :=
  [⟨.explicit, boundTwice, .ref replaced⟩, ⟨.explicit, boundTwice, .ref boundTwice⟩]

def apart : Telescope :=
  [⟨.explicit, ⟨2, "y"⟩, .ref boundTwice⟩, ⟨.explicit, ⟨3, "y"⟩, .ref ⟨2, "y"⟩⟩]

/-- Both binders are renamed, and in their scope the bound variable is the second one. -/
theorem capturing_avoided : ∃ inner,
    (single replaced (.ref boundTwice)).applyTelescope (.empty 0) capturing 2 =
      .ok ((apart, inner), 4) ∧
    inner.get? replaced = some (.ref boundTwice) ∧
    inner.get? boundTwice = some (.ref ⟨3, "y"⟩) ∧
    inner.Performs (single replaced (.ref boundTwice)) (.empty 0) 2 4
      (capturing.vars.reverse ++ []) (apart.vars.reverse ++ []) := by
  have made : (single replaced (.ref boundTwice)).Made := .add _ _ .empty
  have old : (Term.ref boundTwice).Below 2 := Term.below_ref.mpr (by decide)
  have below : Telescope.Below 2 capturing := by
    simp [Telescope.Below, Term.below_ref, capturing, replaced, boundTwice]
  exact ⟨_, rfl, rfl, rfl, capture_avoiding made (single_below old) (.telescope .root below rfl)⟩

end Example

end Subst

end PathTheory
