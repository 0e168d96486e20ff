import PathTheory.Proofs.Conversion.Looking
import PathTheory.Proofs.Conversion.Soundness
/-!
Conversion and the names of binders. Terms with the same reading are found equal, in every direction,
as long as no case tree on the way has binders: trees are compared as they are written, so a case
expression and its variant with another name for a component are found distinct.
-/
namespace PathTheory

open Unify

section Levels

theorem Level.compare_self (a : Level) (cmp : Cmp) : a.compare a cmp = .ok (.decided true) := by
  cases cmp <;> simp [compare, compareLe]

/-- A universe compares with itself, in every direction, and nothing is demanded. -/
theorem Universe.compare_self (u : Universe) (cmp : Cmp) :
    Universe.compare true u u cmp = .ok ⟨true, []⟩ := by
  have up : ∀ cmp, compareUp true u u cmp = .ok ⟨true, []⟩ := by
    intro cmp
    unfold compareUp
    split
    · rename_i isProp
      rw [isProp, Bool.or_true, if_pos rfl]
      rfl
    · rw [Level.compare_self, Level.compare_self]
      rfl
  cases cmp <;> exact up _

end Levels

/-- The variables met and their types are old, and the types are among these. -/
structure Store.Knows (K : Nameless → Prop) (s : Store) (n : Nat) : Prop where
  vars : ∀ e ∈ s.context, e.1.id < n
  types : ∀ e ∈ s.context, e.2.Within (fun _ => True) n
  known : ∀ e ∈ s.context, K e.2.reading

theorem Store.Knows.mono {K : Nameless → Prop} {s : Store} {n m : Nat} (knows : s.Knows K n)
    (order : n ≤ m) : s.Knows K m :=
  ⟨fun e member => (knows.vars e member).trans_le order,
    entries_later knows.types order, knows.known⟩

theorem Store.Knows.readings {K : Nameless → Prop} {s : Store} {n : Nat} (knows : s.Knows K n) :
    ∀ e ∈ s.context.reading, K e.2 := by
  intro e member
  obtain ⟨entry, inContext, rfl⟩ := List.mem_map.mp member
  exact knows.known entry inContext

namespace Unify

variable {α β : Type} {env : Environment} {K : Nameless → Prop} {s : Store} {n : Nat}

/-- The computation ends, with the same environment and types of this kind in the context, and with a
    result of which this holds. -/
def Succeeds (env : Environment) (K : Nameless → Prop) (c : Unify α) (s : Store) (n : Nat)
    (Q : α → Prop) : Prop :=
  ∃ x s' m, c s env n = .ok (((x, s'), env), m) ∧ n ≤ m ∧ s'.Knows K m ∧ Q x

/-- The comparison ends, and the answer is yes. -/
abbrev SaysYes (env : Environment) (K : Nameless → Prop) (c : Unify Bool) (s : Store) (n : Nat) :
    Prop := Succeeds env K c s n (· = true)

namespace Succeeds

variable {c : Unify α} {f : α → Unify β} {P : α → Prop} {Q : β → Prop}

theorem pure {x : β} (knows : s.Knows K n) (holds : Q x) : Succeeds env K (pure x) s n Q :=
  ⟨x, s, n, rfl, Nat.le_refl n, knows, holds⟩

/-- A first computation whose result is known. -/
theorem after {x : α} {s₁ : Store} {m : Nat} (done : c s env n = .ok (((x, s₁), env), m))
    (order : n ≤ m) (next : Succeeds env K (f x) s₁ m Q) : Succeeds env K (c >>= f) s n Q := by
  obtain ⟨y, s', k, rest, later, knows, holds⟩ := next
  exact ⟨y, s', k, (bind_done done).trans rest, order.trans later, knows, holds⟩

theorem bind (first : Succeeds env K c s n P) (next : ∀ x s₁ m, n ≤ m → s₁.Knows K m → P x →
    Succeeds env K (f x) s₁ m Q) : Succeeds env K (c >>= f) s n Q := by
  obtain ⟨x, s₁, m, done, order, knows, holds⟩ := first
  exact after done order (next x s₁ m order knows holds)

theorem reading {g : Environment → Fresh α} {x : α} {m : Nat} (done : g env n = .ok (x, m))
    (order : n ≤ m) (next : Succeeds env K (f x) s m Q) :
    Succeeds env K (Unify.reading g >>= f) s n Q := by
  refine after ?_ order next
  rw [reading_run, done]
  rfl

theorem when {a b : Unify α} {p : Prop} [Decidable p] (holds : p) (first : Succeeds env K a s n P) :
    Succeeds env K (if p then a else b) s n P := by
  rwa [if_pos holds]

theorem universes {u : Universe} {cmp : Cmp} {span : Span} (knows : s.Knows K n) :
    SaysYes env K (compareUniverses u u cmp span) s n := by
  refine ⟨true, { s with levels := ({ s.levels with span } : LevelEquations).recordAll [] }, n, ?_,
    Nat.le_refl n, ?_, rfl⟩
  · rw [compareUniverses_run, Universe.compare_self]
    rfl
  · exact ⟨knows.vars, knows.types, knows.known⟩

theorem binder {x : Var} {type : Term} {g : Unit → Unify β} (knows : s.Knows K n) (old : x.id < n)
    (below : type.Below n) (known : K type.reading)
    (next : ∀ s₁ : Store, s₁.Knows K n → Succeeds env K (g ()) s₁ n Q) :
    Succeeds env K (Unify.bind x type >>= g) s n Q := by
  refine after rfl (Nat.le_refl n) (next _ ⟨?_, ?_, ?_⟩)
  · exact List.forall_mem_cons.mpr ⟨old, knows.vars⟩
  · exact List.forall_mem_cons.mpr ⟨⟨below, fun _ _ => trivial⟩, knows.types⟩
  · exact List.forall_mem_cons.mpr ⟨known, knows.known⟩

end Succeeds

end Unify

section Comparing

variable {env : Environment} {K P : Nameless → Prop} {low n : Nat} {s : Store} {span : Span}
  {cmp : Cmp}

/-- The comparison agrees to terms of one reading that has the property. -/
def Affirms (env : Environment) (K : Nameless → Prop) (low : Nat) (P : Nameless → Prop)
    (compare : Compare) : Prop :=
  ∀ left right cmp span s n, low ≤ n → s.Knows K n → left.Below n → right.Below n →
    left.reading = right.reading → P left.reading → SaysYes env K (compare left right cmp span) s n

theorem Affirms.orSame {distinct : Compare} (affirms : Affirms env K low P distinct) :
    Affirms env K low P distinct.orSame := by
  intro left right cmp span s n order knows l r same settles
  unfold Compare.orSame
  split
  · exact Succeeds.pure knows rfl
  · exact affirms left right cmp span s n order knows l r same settles

section Binders

variable {compare : Compare} {x y : Var} {a b c d : Term}

/-- From here on the comparison agrees to the body of the one binder and to that of the other one,
    renamed after it. -/
def BodiesAgree (env : Environment) (K : Nameless → Prop) (compare : Compare) (cmp : Cmp)
    (span : Span) (n : Nat) (x : Var) (c : Term) (y : Var) (d : Term) : Prop :=
  ∀ d' s m, n ≤ m → s.Knows K m → d'.Below m → d'.reading = (d.toScoped.read [y]).named x →
    SaysYes env K (compare c d' cmp span) s m

theorem bodies_agree (knows : s.Knows K n) (old : x.id < n) (aBelow : a.Below n)
    (known : K a.reading) (dBelow : d.Below n)
    (agree : BodiesAgree env K compare cmp span n x c y d) : SaysYes env K (do
      let d ← rename y x d
      Unify.bind x a
      compare c d cmp span) s n := by
  obtain ⟨d', m, renamed, next, d'Below, reading⟩ := rename_ends env s y dBelow old
  exact Succeeds.after renamed next <| Succeeds.binder (knows.mono next) (old.trans_le next)
    (aBelow.mono next) known fun s₁ knows₁ => agree d' s₁ m next knows₁ d'Below reading

/-- The bodies have one reading. -/
theorem Affirms.bodies (affirms : Affirms env K low P compare) (order : low ≤ n)
    (cBelow : c.Below n) (same : c.toScoped.read [x] = d.toScoped.read [y])
    (settles : ∀ z, P ((c.toScoped.read [x]).named z)) :
    BodiesAgree env K compare cmp span n x c y d := by
  intro d' s m next knows d'Below reading
  have named : c.reading = (c.toScoped.read [x]).named x := (c.toScoped.read_named x).symm
  refine affirms c d' cmp span s m (order.trans next) knows (cBelow.mono next) d'Below ?_ ?_
  · rw [named, reading, same]
  · rw [named]
    exact settles x

theorem telescope_length : ∀ {p q : Telescope} {scope scope' : List Var},
    (telescopeParts p .nil).read scope = (telescopeParts q .nil).read scope' → p.length = q.length
  | [], [], _, _, _ => rfl
  | [], _ :: _, _, _, same | _ :: _, [], _, _, same => by cases same
  | a :: p, b :: q, scope, scope', same => by
      simp only [telescopeParts, Parts.read, NamelessParts.part.injEq,
        NamelessParts.binder.injEq] at same
      rw [List.length_cons, List.length_cons, telescope_length same.2.2]

theorem compareTelescopes_agrees (affirms : Affirms env K low P compare) : ∀ (ls rs : Telescope)
    (σ : Subst) (scope : List Var) (ρ : List Nameless) (s : Store) (n : Nat), low ≤ n →
    s.Knows K n → Telescope.Below n ls → Telescope.Below n rs → σ.Within (fun _ => True) n →
    σ.Simple → σ.Agrees scope ρ → (∀ r ∈ ρ, r.Closed 0) →
    (telescopeParts ls .nil).read [] = ((telescopeParts rs .nil).read scope).fill ρ 0 →
    ((telescopeParts rs .nil).read scope).EachType K P ρ →
    SaysYes env K (compareTelescopes compare span σ ls rs) s n := by
  intro ls
  induction ls with
  | nil =>
      intro rs σ scope ρ s n _ knows _ _ _ _ _ _ same _
      cases rs with
      | nil => exact Succeeds.pure knows rfl
      | cons r rs => cases same
  | cons l ls ih =>
      intro rs σ scope ρ s n order knows lBelow rBelow put simple agrees closed same each
      cases rs with
      | nil => cases same
      | cons r rs =>
          obtain ⟨⟨old, lTypeBelow⟩, lsBelow⟩ := List.forall_mem_cons.mp lBelow
          obtain ⟨⟨_, rTypeBelow⟩, rsBelow⟩ := List.forall_mem_cons.mp rBelow
          obtain ⟨typeKnown, typeSettles, restSettles⟩ := each
          obtain ⟨sameType, sameRest⟩ := NamelessParts.part.inj same
          obtain ⟨-, sameRest⟩ := NamelessParts.binder.inj sameRest
          obtain ⟨type, m, done, next, typeBelow, reading⟩ :=
            put.fills env simple agrees rTypeBelow
          have sameReading : l.type.reading = type.reading := sameType.trans reading.symm
          unfold compareTelescopes
          refine Succeeds.reading done next ?_
          refine (affirms l.type type .eq span s m (order.trans next) (knows.mono next)
            (lTypeBelow.mono next) typeBelow sameReading ?_).bind ?_
          · rw [sameReading, reading]
            exact typeSettles
          rintro _ s₂ k next₂ knows₂ rfl
          have later := next.trans next₂
          have lKnown : K l.type.reading := by
            rw [sameReading, reading]
            exact typeKnown
          refine Succeeds.binder knows₂ (old.trans_le later) (lTypeBelow.mono later) lKnown
            fun s₃ knows₃ => ?_
          -- the right telescope goes on with the variable that the left one binds
          have putNext := (put.mono later).add (x := r.var) (t := .ref l.var)
            ⟨Term.below_ref.mpr (old.trans_le later), fun _ _ => trivial⟩
          refine ih rs _ (r.var :: scope) (.free l.var :: ρ) s₃ k (order.trans later) knows₃
            (Telescope.Below.mono lsBelow later) (Telescope.Below.mono rsBelow later) putNext
            (simple.add _ _) (agrees.add r.var (.ref l.var))
            (List.forall_mem_cons.mpr ⟨trivial, closed⟩) ?_ (restSettles l.var)
          rw [← NamelessParts.fill_named closed 0, ← sameRest, Parts.read_named]

variable {mode mode' : Mode}

theorem pi_agrees (affirms : Affirms env K low P compare) (order : low ≤ n) (knows : s.Knows K n)
    (left : (Term.pi mode x a c).Below n) (right : (Term.pi mode y b d).Below n)
    (domains : a.reading = b.reading) (known : K a.reading) (settles : P a.reading)
    (codomains : BodiesAgree env K compare cmp span n x c y d) : SaysYes env K (do
      if mode ≠ mode then return false
      if !(← compare a b .eq span) then return false
      let d ← rename y x d
      Unify.bind x a
      compare c d cmp span) s n := by
  obtain ⟨aBelow, old, -⟩ := Term.below_pi.mp left
  obtain ⟨bBelow, -, dBelow⟩ := Term.below_pi.mp right
  rw [if_neg (not_not.mpr rfl)]
  refine (affirms a b .eq span s n order knows aBelow bBelow domains settles).bind ?_
  rintro _ s₁ m next knows₁ rfl
  exact bodies_agree knows₁ (old.trans_le next) (aBelow.mono next) known (dBelow.mono next)
    fun d' s₂ k later => codomains d' s₂ k (next.trans later)

theorem lam_agrees (affirms : Affirms env K low P compare) (order : low ≤ n) (knows : s.Knows K n)
    (left : (Term.lam mode x a c).Below n) (right : (Term.lam mode' y b d).Below n)
    (same : (Term.lam mode x a c).reading = (Term.lam mode' y b d).reading)
    (descends : (Term.lam mode x a c).reading.Descends K P) : SaysYes env K (do
      let d ← rename y x d
      Unify.bind x a
      compare c d cmp span) s n := by
  obtain ⟨aBelow, old, cBelow⟩ := Term.below_lam.mp left
  obtain ⟨-, -, dBelow⟩ := Term.below_lam.mp right
  obtain ⟨-, rest⟩ := NamelessParts.part.inj (Nameless.node.inj same).2
  obtain ⟨-, inner⟩ := NamelessParts.binder.inj rest
  obtain ⟨known, settle⟩ := descends
  exact bodies_agree knows old aBelow known dBelow
    (affirms.bodies order cBelow (NamelessParts.part.inj inner).1 settle)

theorem sigma_agrees (affirms : Affirms env K low P compare) (order : low ≤ n)
    (knows : s.Knows K n) {p q : Telescope} (left : (Term.sigma p).Below n)
    (right : (Term.sigma q).Below n) (same : (Term.sigma p).reading = (Term.sigma q).reading)
    (descends : (Term.sigma p).reading.Descends K P) : SaysYes env K
      (if p.length = q.length then compareTelescopes compare span .empty p q else return false)
      s n := by
  have parts := (Nameless.node.inj same).2
  have filled : ((telescopeParts q .nil).read []).fill [] 0 = (telescopeParts q .nil).read [] :=
    (Parts.read_closed [] _).fill
  refine Succeeds.when (telescope_length parts) ?_
  refine compareTelescopes_agrees affirms p q .empty [] [] s n order knows
    (Term.below_sigma.mp left) (Term.below_sigma.mp right) Subst.within_empty ⟨rfl, rfl⟩
    Subst.agrees_empty nofun (parts.trans filled.symm) ?_
  rw [← parts]
  exact descends

end Binders

section Lists

variable {distinct compare : Compare} {as bs : List Term}

theorem readings_of_parts (same : (termsParts as .nil).read [] = (termsParts bs .nil).read []) :
    as.map Term.reading = bs.map Term.reading := by
  rw [← terms_list, ← terms_list, same]

theorem compareAll_agrees (affirms : Affirms env K low P distinct) : ∀ (as bs : List Term)
    (differ : Bool) (s : Store) (n : Nat), low ≤ n → s.Knows K n → (∀ a ∈ as, a.Below n) →
    (∀ b ∈ bs, b.Below n) → as.map Term.reading = bs.map Term.reading →
    (∀ t ∈ as.map Term.reading, P t) → SaysYes env K (compareAll distinct span differ as bs) s n := by
  intro as
  induction as with
  | nil =>
      intro bs differ s n _ knows _ _ same _
      cases bs with
      | nil => exact Succeeds.pure knows rfl
      | cons b bs => cases same
  | cons a as ih =>
      intro bs differ s n order knows left right same settles
      cases bs with
      | nil => cases same
      | cons b bs =>
          obtain ⟨aBelow, asBelow⟩ := List.forall_mem_cons.mp left
          obtain ⟨bBelow, bsBelow⟩ := List.forall_mem_cons.mp right
          obtain ⟨aSettles, asSettle⟩ := List.forall_mem_cons.mp settles
          obtain ⟨head, tail⟩ := List.cons.inj same
          have here := affirms a b .eq span s n order knows aBelow bBelow head aSettles
          by_cases last : differ = true ∧ as = [] ∧ bs = []
          · obtain ⟨rfl, rfl, rfl⟩ := last
            exact here
          rw [compareAll_cons last]
          split
          · exact ih bs differ s n order knows asBelow bsBelow tail asSettle
          · refine here.bind ?_
            rintro _ s₁ m next knows₁ rfl
            exact ih bs false s₁ m (order.trans next) knows₁
              (below_later asBelow next) (below_later bsBelow next) tail asSettle

theorem compareSame_agrees (affirms : Affirms env K low P distinct) (order : low ≤ n)
    (knows : s.Knows K n) (differ : Bool) (left : ∀ a ∈ as, a.Below n) (right : ∀ b ∈ bs, b.Below n)
    (same : as.map Term.reading = bs.map Term.reading) (settles : ∀ t ∈ as.map Term.reading, P t) :
    SaysYes env K (compareSame distinct differ as bs span) s n := by
  have lengths : as.length = bs.length := by
    rw [← List.length_map Term.reading, same, List.length_map]
  refine Succeeds.when lengths ?_
  exact compareAll_agrees affirms as bs differ s n order knows left right same settles

theorem each_of_parts (settle : ∀ t ∈ ((termsParts as .nil).read []).list, P t) :
    ∀ t ∈ as.map Term.reading, P t := terms_list as ▸ settle

/-- Universes first, and then the arguments. -/
theorem levels_agree (affirms : Affirms env K low P distinct) (order : low ≤ n) {f : DefId}
    {u v : Universe} (levels : SaysYes env K (compareUniverses u v cmp span) s n)
    (left : ∀ a ∈ as, a.Below n) (right : ∀ b ∈ bs, b.Below n)
    (same : as.map Term.reading = bs.map Term.reading) (settles : ∀ t ∈ as.map Term.reading, P t) :
    SaysYes env K (do
      if f ≠ f then return false
      if ← compareUniverses u v cmp span then compareSame distinct (u = v) as bs span
      else return false) s n := by
  rw [if_neg (not_not.mpr rfl)]
  refine levels.bind ?_
  rintro _ s₁ m next knows₁ rfl
  exact compareSame_agrees affirms (order.trans next) knows₁ _
    (below_later left next) (below_later right next) same settles

theorem con_agrees (affirms : Affirms env K low P distinct) (order : low ≤ n) (knows : s.Knows K n)
    {c : DefId} {u : Universe} {p q : List Term} (differ : Bool)
    (left : (Term.con c u p as).Below n) (right : (Term.con c u q bs).Below n)
    (same : (Term.con c u p as).reading = (Term.con c u q bs).reading)
    (descends : (Term.con c u p as).reading.Descends K P) : SaysYes env K (do
      if c ≠ c then return false
      if ← compareSame distinct differ as bs span then compareSame distinct false p q span
      else return false) s n := by
  obtain ⟨first, args⟩ := NamelessParts.part.inj (Nameless.node.inj same).2
  have params := (Nameless.node.inj first).2
  obtain ⟨pBelow, asBelow⟩ := Term.below_con.mp left
  obtain ⟨qBelow, bsBelow⟩ := Term.below_con.mp right
  obtain ⟨paramsSettle, argsSettle⟩ := descends
  rw [if_neg (not_not.mpr rfl)]
  refine (compareSame_agrees affirms order knows _ asBelow bsBelow (readings_of_parts args)
    (each_of_parts argsSettle)).bind ?_
  rintro _ s₁ m next knows₁ rfl
  exact compareSame_agrees affirms (order.trans next) knows₁ _
    (below_later pBelow next) (below_later qBelow next)
    (readings_of_parts params) (each_of_parts paramsSettle)

/-- Each field of the one record is a field of the other, to a value with the same reading. -/
def Fixes (larger fields : List (DefId × Term)) : Prop :=
  ∀ e ∈ fields, ∃ other, larger.lookup e.1 = some other ∧ other.reading = e.2.reading

theorem fixes_of_parts {a b : List (DefId × Term)}
    (same : (fieldsParts a).read [] = (fieldsParts b).read [])
    (single : ∀ e ∈ ((fieldsParts b).read []).slots,
      ((fieldsParts b).read []).slot? e.1 = some e.2) : Fixes a b := by
  intro e member
  have slot := single (e.1, e.2.reading) (by
    rw [fieldsParts_slots]
    exact List.mem_map.mpr ⟨e, member, rfl⟩)
  rw [← same, fields_slot?] at slot
  exact Option.map_eq_some_iff.mp slot

theorem fixesAll_agrees (affirms : Affirms env K low P compare) {larger : List (DefId × Term)} :
    ∀ (fields : List (DefId × Term)) (s : Store) (n : Nat), low ≤ n → s.Knows K n →
    (∀ e ∈ larger, e.2.Below n) → (∀ e ∈ fields, e.2.Below n) → Fixes larger fields →
    (∀ e ∈ fields, P e.2.reading) → SaysYes env K (fixesAll compare larger span fields) s n := by
  intro fields
  induction fields with
  | nil => exact fun s n _ knows _ _ _ _ => Succeeds.pure knows rfl
  | cons e fields ih =>
      intro s n order knows largerBelow below fixes settles
      obtain ⟨valueBelow, restBelow⟩ := List.forall_mem_cons.mp below
      obtain ⟨⟨other, found, same⟩, restFixes⟩ := List.forall_mem_cons.mp fixes
      obtain ⟨valueSettles, restSettles⟩ := List.forall_mem_cons.mp settles
      have otherBelow := largerBelow _ (mem_of_lookup found)
      unfold fixesAll
      rw [found]
      refine (affirms other e.2 .eq span s n order knows otherBelow valueBelow same ?_).bind ?_
      · rwa [same]
      rintro _ s₁ m next knows₁ rfl
      exact ih s₁ m (order.trans next) knows₁ (entries_below_later largerBelow next)
        (entries_below_later restBelow next) restFixes restSettles

theorem record_agrees (affirms : Affirms env K low P compare) (order : low ≤ n) {c : DefId}
    {u v : Universe} (levels : SaysYes env K (compareUniverses u v cmp span) s n)
    {a b : List (DefId × Term)} (left : ∀ e ∈ a, e.2.Below n) (right : ∀ e ∈ b, e.2.Below n)
    (same : (fieldsParts a).read [] = (fieldsParts b).read [])
    (descends : (Term.record c u a).reading.Descends K P) : SaysYes env K (do
      if c ≠ c then return false
      if !(← compareUniverses u v cmp span) then return false
      match cmp with
      | .eq => if a.length = b.length then fixesAll compare a span b else return false
      | .le => fixesAll compare a span b
      | .ge => fixesAll compare b span a) s n := by
  have slots := congrArg NamelessParts.slots same
  rw [fieldsParts_slots, fieldsParts_slots] at slots
  have lengths : a.length = b.length := by
    simpa using congrArg List.length slots
  have settles : ∀ {fields : List (DefId × Term)}, (fieldsParts a).read [] =
      (fieldsParts fields).read [] → ∀ e ∈ fields, P e.2.reading := by
    intro fields also e member
    refine (descends (e.1, e.2.reading) ?_).2
    rw [also, fieldsParts_slots]
    exact List.mem_map.mpr ⟨e, member, rfl⟩
  have single := fun e member => (descends e member).1
  rw [if_neg (not_not.mpr rfl)]
  refine levels.bind ?_
  rintro _ s₁ m next knows₁ rfl
  have later := order.trans next
  have leftLater := entries_below_later left next
  have rightLater := entries_below_later right next
  have forward : SaysYes env K (fixesAll compare a span b) s₁ m :=
    fixesAll_agrees affirms b s₁ m later knows₁ leftLater rightLater
      (fixes_of_parts same (same ▸ single)) (settles same)
  cases cmp with
  | eq =>
      have asLong : SaysYes env K
        (if a.length = b.length then fixesAll compare a span b else return false) s₁ m :=
          Succeeds.when lengths forward
      exact asLong
  | le => exact forward
  | ge =>
      exact fixesAll_agrees affirms a s₁ m later knows₁ rightLater leftLater
        (fixes_of_parts same.symm single) (settles rfl)

theorem caseOf_readings {params params' : Telescope} {result result' : Term} {t u : CaseTree}
    (same : (Term.caseOf as params result t).reading = (Term.caseOf bs params' result' u).reading) :
    as.map Term.reading = bs.map Term.reading ∧ t.reading = u.reading := by
  have parts := caseOf_parts as params result t
  rw [(Nameless.node.inj same).2, caseOf_parts] at parts
  obtain ⟨args, trees⟩ := Prod.mk.inj (Option.some.inj parts)
  exact ⟨args.symm, trees.symm⟩

theorem caseOf_agrees (affirms : Affirms env K low P distinct) (order : low ≤ n)
    (knows : s.Knows K n) {params params' : Telescope} {result result' : Term} {t u : CaseTree}
    (left : ∀ a ∈ as, a.Below n) (right : ∀ b ∈ bs, b.Below n)
    (same : (Term.caseOf as params result t).reading = (Term.caseOf bs params' result' u).reading)
    (descends : (Term.caseOf as params result t).reading.Descends K P) :
    SaysYes env K (if t = u then compareSame distinct false as bs span else return false) s n := by
  obtain ⟨bare, settle⟩ := descends _ _ (caseOf_parts as params result t)
  obtain ⟨args, trees⟩ := caseOf_readings same
  refine Succeeds.when (CaseTree.eq_of_reading bare trees) ?_
  exact compareSame_agrees affirms order knows false left right args settle

end Lists

section Heads

variable {distinct : Compare}

/-- Two heads with the same reading: the binders are renamed, and the parts have the same reading. -/
theorem compareHeads_agrees (affirms : Affirms env K low P distinct) (order : low ≤ n)
    (knows : s.Knows K n) {v w : Term} (vBelow : v.Below n) (wBelow : w.Below n)
    (same : v.reading = w.reading) (descends : v.reading.Descends K P) (noHole : v.hole? = none)
    (noError : v.isError = false) : SaysYes env K (compareHeads distinct v w cmp span) s n := by
  have both := affirms.orSame
  cases v with
  | hole m => cases noHole
  | error message term => cases noError
  | ref x =>
      cases w with
      | ref y =>
          obtain rfl := Nameless.free.inj same
          exact Succeeds.pure knows (beq_self_eq_true x)
      | _ => cases same
  | univ u =>
      cases w with
      | univ v =>
          obtain rfl := Label.univ.inj (Nameless.node.inj same).1
          exact Succeeds.universes knows
      | _ => cases same
  | lam mode x a c =>
      cases w with
      | lam mode' y b d => exact lam_agrees both order knows vBelow wBelow same descends
      | _ => cases same
  | pi mode x a c =>
      cases w with
      | pi mode' y b d =>
          obtain ⟨domains, rest⟩ := NamelessParts.part.inj (Nameless.node.inj same).2
          obtain ⟨rfl, inner⟩ := NamelessParts.binder.inj rest
          obtain ⟨known, domainSettles, settle⟩ := descends
          exact pi_agrees both order knows vBelow wBelow domains known domainSettles
            (both.bodies order (Term.below_pi.mp vBelow).2.2 (NamelessParts.part.inj inner).1 settle)
      | _ => cases same
  | sigma p =>
      cases w with
      | sigma q => exact sigma_agrees both order knows vBelow wBelow same descends
      | _ => cases same
  | tuple c t =>
      cases w with
      | tuple d u =>
          have lists := congrArg (fun p => p.list.dropLast) (Nameless.node.inj same).2
          rw [tuple_list, tuple_list] at lists
          refine compareSame_agrees affirms order knows _ (Term.below_tuple.mp vBelow).1
            (Term.below_tuple.mp wBelow).1 lists ?_
          rw [← tuple_list c t]
          exact descends
      | _ => cases same
  | proj t i =>
      cases w with
      | proj u j =>
          obtain ⟨labels, parts⟩ := Nameless.node.inj same
          refine Succeeds.when (Label.proj.inj labels) ?_
          exact affirms t u .eq span s n order knows (Term.below_proj.mp vBelow)
            (Term.below_proj.mp wBelow) (NamelessParts.part.inj parts).1
            (descends _ List.mem_cons_self)
      | _ => cases same
  | app f a =>
      cases w with
      | app g b =>
          obtain ⟨fns, rest⟩ := NamelessParts.part.inj (Nameless.node.inj same).2
          have args := (NamelessParts.part.inj rest).1
          obtain ⟨fBelow, aBelow⟩ := Term.below_app.mp vBelow
          obtain ⟨gBelow, bBelow⟩ := Term.below_app.mp wBelow
          refine compareAll_agrees affirms [f, a] [g, b] true s n order knows ?_ ?_ ?_ descends
          · exact List.forall_mem_cons.mpr ⟨fBelow, List.forall_mem_singleton.mpr aBelow⟩
          · exact List.forall_mem_cons.mpr ⟨gBelow, List.forall_mem_singleton.mpr bBelow⟩
          · exact congrArg₂ (fun f a => [f, a]) fns args
      | _ => cases same
  | call f u as =>
      cases w with
      | call g v bs =>
          obtain ⟨labels, parts⟩ := Nameless.node.inj same
          obtain ⟨rfl, rfl⟩ := Label.call.inj labels
          exact levels_agree affirms order (.universes knows) (Term.below_call.mp vBelow)
            (Term.below_call.mp wBelow) (readings_of_parts parts) (each_of_parts descends)
      | _ => cases same
  | con c u p as =>
      cases w with
      | con d v q bs =>
          obtain ⟨rfl, rfl⟩ := Label.con.inj (Nameless.node.inj same).1
          exact con_agrees affirms order knows _ vBelow wBelow same descends
      | _ => cases same
  | data d u as =>
      cases w with
      | data e v bs =>
          obtain ⟨labels, parts⟩ := Nameless.node.inj same
          obtain ⟨rfl, rfl⟩ := Label.data.inj labels
          exact levels_agree affirms order (.universes knows) (Term.below_data.mp vBelow)
            (Term.below_data.mp wBelow) (readings_of_parts parts) (each_of_parts descends)
      | _ => cases same
  | record c u a =>
      cases w with
      | record d v b =>
          obtain ⟨labels, parts⟩ := Nameless.node.inj same
          obtain ⟨rfl, rfl⟩ := Label.record.inj labels
          exact record_agrees both order (.universes knows) (Term.below_record.mp vBelow)
            (Term.below_record.mp wBelow) parts descends
      | _ => cases same
  | field f u t =>
      cases w with
      | field g v r =>
          obtain ⟨labels, parts⟩ := Nameless.node.inj same
          refine Succeeds.when (Label.field.inj labels).1 ?_
          exact both t r .eq span s n order knows (Term.below_field.mp vBelow)
            (Term.below_field.mp wBelow) (NamelessParts.part.inj parts).1
            (descends _ List.mem_cons_self)
      | _ => cases same
  | new t =>
      cases w with
      | new r =>
          exact affirms t r .eq span s n order knows (Term.below_new.mp vBelow)
            (Term.below_new.mp wBelow) (NamelessParts.part.inj (Nameless.node.inj same).2).1
            (descends _ List.mem_cons_self)
      | _ => cases same
  | caseOf as params result t =>
      cases w with
      | caseOf bs params' result' u =>
          exact caseOf_agrees affirms order knows (Term.below_caseOf.mp vBelow).1
            (Term.below_caseOf.mp wBelow).1 same descends
      | _ => cases same

end Heads

theorem Term.eq_hole {t : Term} {m : MetaId} (same : t.reading = .hole m) : t = .hole m := by
  cases t <;> cases same
  rfl

theorem Term.hole?_of_reading {t : Term} (noHole : ∀ m, t.reading ≠ .hole m) : t.hole? = none := by
  cases t with
  | hole m => exact absurd rfl (noHole m)
  | _ => rfl

section Whole

variable {distinct : Compare} {y : Nameless} {v w : Term}

theorem defer_ends (known : env.Within (fun _ => True) low) (analysed : y.Analysed env low)
    (order : low ≤ n) (knows : s.Knows K n) (vWithin : v.Within (fun _ => True) n)
    (wWithin : w.Within (fun _ => True) n) (vReading : v.reading = y) (wReading : w.reading = y) :
    SaysYes env K (do
      defer v w cmp span
      return true) s n := by
  obtain ⟨_, m, first, next⟩ := analysed.answer known order vWithin vReading
  obtain ⟨_, k, second, next₂⟩ :=
    analysed.answer known (order.trans next) (wWithin.mono next) wReading
  have later := knows.mono (next.trans next₂)
  refine Succeeds.bind (P := fun _ => True) ?_ fun _ _ _ _ knows _ => Succeeds.pure knows rfl
  refine Succeeds.reading first next (Succeeds.reading second next₂ ?_)
  exact ⟨_, _, k, rfl, Nat.le_refl k, ⟨later.vars, later.types, later.known⟩, trivial⟩

/-- Terms of one reading, with parts that settle: both are looked at as the same value, and if it is
    not blocked its heads are compared. -/
theorem compareDistinct_agrees (known : env.Within (fun _ => True) low) {fuel : Nat}
    (affirms : Affirms env K low (Nameless.Settles env low K fuel) distinct) (more : Nat) :
    Affirms env K low (Nameless.Settles env low K (fuel + 1)) (compareDistinct distinct more) := by
  intro left right cmp span s n order knows l r same settles
  obtain ⟨y, shows, analysed, descends⟩ := settles s.context.reading knows.readings
  obtain ⟨v, m, vLooked, next, vWithin, vReading⟩ :=
    shows.looked known order knows.types ⟨l, fun _ _ => trivial⟩
  have also := shows
  rw [same] at also
  obtain ⟨w, k, wLooked, next₂, wWithin, wReading⟩ := also.looked known (order.trans next)
    (entries_later knows.types next) ⟨r.mono next, fun _ _ => trivial⟩
  have later := order.trans (next.trans next₂)
  have knowsLater := knows.mono (next.trans next₂)
  have vLater := vWithin.mono next₂
  unfold compareDistinct
  refine Succeeds.after rfl (Nat.le_refl n) ?_
  refine Succeeds.reading vLooked next (Succeeds.reading wLooked next₂ ?_)
  split
  · exact Succeeds.pure knowsLater rfl
  rename_i apart
  split
  · exact Succeeds.pure knowsLater rfl
  rename_i noError
  -- two terms that come to one hole are found equal before, as no value comes to a hole
  have noHole : ∀ h, y ≠ .hole h := by
    rintro h rfl
    obtain rfl := Term.eq_hole vReading
    obtain rfl := Term.eq_hole wReading
    have value : left.reading.isValue = true := by
      rw [Term.isValue_reading]
      by_contra reducible
      exact apart (by simp [reducible])
    rw [← shows.of_value value] at value
    cases value
  rw [Term.hole?_of_reading (vReading ▸ noHole), Term.hole?_of_reading (wReading ▸ noHole)]
  have deferred : ∀ i, k ≤ i → SaysYes env K (do
      defer v w cmp span
      return true) s i := fun i after =>
    defer_ends known analysed (later.trans after) (knowsLater.mono after) (vLater.mono after)
      (wWithin.mono after) vReading wReading
  obtain ⟨blocksLeft, i, leftAnswer, next₃⟩ := analysed.answer known later vLater vReading
  refine Succeeds.reading leftAnswer next₃ ?_
  cases blocksLeft with
  | some h => exact deferred i next₃
  | none =>
      obtain ⟨blocksRight, j, rightAnswer, next₄⟩ :=
        analysed.answer known (later.trans next₃) (wWithin.mono next₃) wReading
      have both := next₃.trans next₄
      refine Succeeds.reading rightAnswer next₄ ?_
      cases blocksRight with
      | some h => exact deferred j both
      | none =>
          have sound : v.isError = false := by
            by_contra isError
            exact noError (by simp [isError])
          exact compareHeads_agrees affirms (later.trans both) (knowsLater.mono both)
            (vLater.mono both).below (wWithin.mono both).below (vReading.trans wReading.symm)
            (vReading ▸ descends) (Term.hole?_of_reading (vReading ▸ noHole)) sound

theorem compareDistinctWith_agrees (known : env.Within (fun _ => True) low) (fuel : Nat) :
    Affirms env K low (Nameless.Settles env low K fuel) (compareDistinctWith fuel) := by
  induction fuel with
  | zero => exact fun _ _ _ _ _ _ _ _ _ _ _ settles => settles.elim
  | succ fuel ih => exact compareDistinct_agrees known ih fuel

/-- **Conversion does not depend on the names of binders.** Terms of one reading are found equal in
    every direction, if what the comparison looks at settles: evaluation and the question what blocks
    a term come to an end, no case tree that is met has binders, and no record that is met fixes a
    field to two values. -/
theorem compare_alphaEq {V : Var → Prop} {a b : Term} (known : env.Within V low) (order : low ≤ n)
    (knows : s.Knows K n) (left : a.Below n) (right : b.Below n) (same : a.AlphaEq b)
    (settles : a.reading.Settles env low K env.fuel) (cmp : Cmp) (span : Span) :
    ∃ s' m, Unify.compare a b cmp span s env n = .ok (((true, s'), env), m) := by
  have everywhere := known.widen (W := fun _ => True) fun _ _ => trivial
  obtain ⟨_, s', m, done, -, -, rfl⟩ :=
    (compareDistinctWith_agrees everywhere env.fuel).orSame a b cmp span s n order knows left right
      same settles
  exact ⟨s', m, done⟩

end Whole

end Comparing

section Examples

open Library

/-- Zero for zero, and nothing for successors. -/
def zeroTree : CaseTree := .branch [] [(.con zero, .leaf [] zeroTerm)]

/-- The case expression is stuck on the argument of the function. -/
def zeroAt (x k : Var) : Term :=
  .caseOf [.ref x] (Telescope.ofPairs [(k, natType)]) natType zeroTree

def zeroCase (x k : Var) : Term := .lam .explicit x natType (zeroAt x k)

theorem zeroTree_binderless : zeroTree.reading.Binderless :=
  ⟨⟨⟨⟨trivial, trivial⟩, trivial⟩, trivial⟩, trivial⟩

theorem ref_settles (x : Var) (k : Nat) :
    (Nameless.free x).Settles (environment 10) 34 (· = natType.reading) (k + 1) := by
  refine fun Γ _ => ⟨.free x, rfl, ?_, trivial⟩
  intro u n _ _ same
  cases u <;> cases same
  exact ⟨_, rfl⟩

theorem zeroAt_settles (x k : Var) :
    (zeroAt x k).reading.Settles (environment 10) 34 (· = natType.reading) 9 := by
  refine fun Γ _ => ⟨(zeroAt x k).reading, rfl, ?_, ?_⟩
  · intro u n _ _ same
    cases u with
    | caseOf args params result tree =>
        obtain ⟨sameArgs, trees⟩ := caseOf_readings same.symm
        obtain rfl := CaseTree.eq_of_reading zeroTree_binderless trees
        obtain ⟨arg, rfl, sameArg⟩ := List.map_eq_singleton_iff.mp sameArgs.symm
        cases arg <;> cases sameArg
        exact ⟨_, rfl⟩
    | _ => cases same
  · intro args tree parts
    cases parts
    exact ⟨zeroTree_binderless, List.forall_mem_singleton.mpr (ref_settles x 7)⟩

theorem zeroCase_alphaEq :
    (zeroCase ⟨30, "x"⟩ ⟨31, "k"⟩).AlphaEq (zeroCase ⟨32, "y"⟩ ⟨33, "l"⟩) ∧
    zeroCase ⟨30, "x"⟩ ⟨31, "k"⟩ ≠ zeroCase ⟨32, "y"⟩ ⟨33, "l"⟩ ∧
    ∃ s m, Unify.compare (zeroCase ⟨30, "x"⟩ ⟨31, "k"⟩) (zeroCase ⟨32, "y"⟩ ⟨33, "l"⟩) .le .none
      Store.empty (environment 10) 34 = .ok (((true, s), environment 10), m) := by
  have settles : (zeroCase ⟨30, "x"⟩ ⟨31, "k"⟩).reading.Settles (environment 10) 34
      (· = natType.reading) 10 :=
    Nameless.Settles.of_value rfl rfl ⟨rfl, fun x => zeroAt_settles x ⟨31, "k"⟩⟩
  have knows : Store.empty.Knows (· = natType.reading) 34 := ⟨nofun, nofun, nofun⟩
  have alpha : (zeroCase ⟨30, "x"⟩ ⟨31, "k"⟩).AlphaEq (zeroCase ⟨32, "y"⟩ ⟨33, "l"⟩) := rfl
  exact ⟨alpha, by decide, compare_alphaEq ((library_within 10).mono (by decide)) (Nat.le_refl 34)
    knows (by decide) (by decide) alpha settles .le .none⟩

/-- The number before a number, with a name for what it is the successor of. -/
def predecessorTree (j : Var) : CaseTree := .branch []
  [(.con zero, .leaf [] zeroTerm), (.con suc, .leaf (Telescope.ofPairs [(j, natType)]) (.ref j))]

def predecessorOf (x j : Var) : Term :=
  .caseOf [.ref x] (Telescope.ofPairs [(⟨30, "k"⟩, natType)]) natType (predecessorTree j)

/-- One number under two names: both are found to be of the type of numbers, they differ in the name
    of one binder only, and they are found distinct. -/
theorem predecessors_distinct :
    ((predecessorOf shared ⟨31, "i"⟩).typeOf? (environment 10) [(shared, natType)]).run 33 =
      .ok (some natType, 33) ∧
    ((predecessorOf shared ⟨32, "j"⟩).typeOf? (environment 10) [(shared, natType)]).run 33 =
      .ok (some natType, 33) ∧
    (predecessorOf shared ⟨31, "i"⟩).AlphaEq (predecessorOf shared ⟨32, "j"⟩) ∧
    Unify.compare (predecessorOf shared ⟨31, "i"⟩) (predecessorOf shared ⟨32, "j"⟩) .eq .none
      (knowing [(shared, natType)]) (environment 10) 33 =
        .ok (((false, knowing [(shared, natType)]), environment 10), 33) :=
  ⟨rfl, rfl, rfl, rfl⟩

end Examples

end PathTheory
