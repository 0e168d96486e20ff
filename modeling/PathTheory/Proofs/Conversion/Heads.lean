import PathTheory.Proofs.Conversion.Showing
/-!
The comparison of heads. What each pair of heads asks of the parts is what a rule of conversion asks;
under a binder the right side is renamed after the left one, which is a new name if all variables of
the context stay apart.
-/
namespace PathTheory

open Unify

section Comparing

variable {env : Environment} {low n : Nat} {s s' : Store} {span : Span}

/-- What the answer to a comparison claims, for all types that the store knows. -/
def Says (env : Environment) (s : Store) (left right : Term) (holds : Bool) (s' : Store) : Prop :=
  holds = true → s'.Apart → ∀ Γ : Types, Γ.Legible s → left.reading.Finished Γ.Scope →
    right.reading.Finished Γ.Scope → Convertible env Γ left.reading right.reading

/-- What the answer claims of all terms that show the ones compared. -/
def Tells (env : Environment) (s : Store) (left right : Term) (holds : Bool) (s' : Store) : Prop :=
  holds = true → s'.Apart → ∀ Γ : Types, Γ.Legible s → left.reading.Finished Γ.Scope →
    right.reading.Finished Γ.Scope → ∀ a b, Reveals env Γ a left.reading →
      Reveals env Γ b right.reading → Convertible env Γ a b

/-- The comparison of ready terms keeps the environment, and its answer is right. -/
def Sound (env : Environment) (low : Nat) (compare : Compare) : Prop :=
  ∀ left right span s n, low ≤ n → s.Ready n → left.Ready n → right.Ready n →
    Gives env (compare left right .eq span) s n fun holds s' _ => Says env s left right holds s'

theorem Sound.orSame {distinct : Compare} (sound : Sound env low distinct) :
    Sound env low distinct.orSame := by
  intro left right span s n order ready l r
  unfold Compare.orSame
  split
  · rename_i same
    subst same
    exact Gives.pure ready fun _ _ Γ _ _ _ => .refl
  · exact sound left right span s n order ready l r

theorem Tells.symm {left right : Term} {holds : Bool} (told : Tells env s left right holds s') :
    Tells env s right left holds s' :=
  fun yes apart Γ legible inLeft inRight a b first second =>
    (told yes apart Γ legible inRight inLeft b a second first).symm

variable {compare : Compare}

theorem refused {left right : Term} (ready : s.Ready n) :
    Gives env (pure false) s n fun holds s' _ => Tells env s left right holds s' :=
  Gives.pure ready nofun

theorem univ_tells {u v : Universe} (ready : s.Ready n) (l : (Term.univ u).Ready n)
    (r : (Term.univ v).Ready n) : Gives env (compareUniverses u v .eq span) s n
      fun holds s' _ => Tells env s (.univ u) (.univ v) holds s' := by
  refine (Gives.universes ready).weaken fun holds s' m _ _ seen => ?_
  obtain ⟨-, c, compared, rfl⟩ := seen
  intro holds _ Γ _ _ _ a b left right
  have same := Universe.same_of_compare (l.finished.1 u rfl) (r.finished.1 v rfl) compared holds
  exact .univ left right same

section Binders

variable {x y : Var}

/-- The scope of a binder, with the name of the variable. -/
theorem named_finished {Γ : Types} {t type : Nameless}
    (finished : t.Finished Γ.Scope) :
    (t.named x).Finished (Types.Scope ((x, type) :: Γ)) := by
  have wider : ∀ z, Γ.Scope z → Types.Scope ((x, type) :: Γ) z := fun _ =>
    List.mem_cons_of_mem _
  refine (finished.mono wider).fill ?_ 0
  intro r member
  rw [List.mem_singleton.mp member]
  exact List.mem_cons_self

theorem named_ready {t : Nameless} (finished : t.Finished fun _ => True) :
    (t.named x).Finished fun _ => True := by
  refine finished.fill ?_ 0
  intro r member
  rw [List.mem_singleton.mp member]
  trivial

variable (env) in
/-- Substitution for the variables of a scope has the filled reading. -/
theorem Subst.Within.fills {σ : Subst} {scope : List Var} {ρ : List Nameless}
    (put : σ.Within (fun _ => True) n) (simple : σ.Simple) (agrees : σ.Agrees scope ρ) {t : Term}
    (below : t.Below n) : ∃ t' m, σ.apply env t n = .ok (t', m) ∧ n ≤ m ∧ t'.Below m ∧
      t'.reading = (t.toScoped.read scope).fill ρ 0 := by
  obtain ⟨⟨t', m⟩, done⟩ := simple.apply (n := n) env t
  obtain ⟨order, isBelow, reading⟩ := put.simple_reading simple below done
  exact ⟨t', m, done, order, isBelow, reading.trans (agrees.reading_id t).symm⟩

variable (env s y) in
/-- A renamed binder takes the name of the other one. -/
theorem rename_ends {d : Term} (below : d.Below n) (old : x.id < n) : ∃ d' m,
    rename y x d s env n = .ok (((d', s), env), m) ∧ n ≤ m ∧ d'.Below m ∧
      d'.reading = (d.toScoped.read [y]).named x := by
  unfold rename
  split
  · rename_i same
    subst same
    exact ⟨d, n, rfl, Nat.le_refl n, below, (d.toScoped.read_named y).symm⟩
  · have put : (Subst.single y (.ref x)).Within (fun _ => True) n :=
      Subst.within_empty.add ⟨Term.below_ref.mpr old, fun _ _ => trivial⟩
    have agrees : (Subst.single y (.ref x)).Agrees [y] [.free x] :=
      Subst.agrees_empty.add y (.ref x)
    obtain ⟨d', m, done, order, isBelow, reading⟩ := put.fills env ⟨rfl, rfl⟩ agrees below
    refine ⟨d', m, ?_, order, isBelow, reading⟩
    rw [reading_run, done]
    rfl

theorem rename_gives (ready : s.Ready n) {d : Term} (below : d.Below n)
    (finished : (d.toScoped.read [y]).Finished fun _ => True) (old : x.id < n) :
    Gives env (rename y x d) s n fun d' s' m =>
      s' = s ∧ d'.Ready m ∧ d'.reading = (d.toScoped.read [y]).named x := by
  intro d' s' env' m done
  obtain ⟨_, _, ends, order, isBelow, reading⟩ := rename_ends env s y below old
  cases done.symm.trans ends
  refine ⟨rfl, order, ready.mono order, .refl s, rfl, ⟨isBelow, ?_⟩, reading⟩
  rw [reading]
  exact named_ready finished

theorem unused {Γ : Types} {t u : Nameless} (unmet : ¬ Γ.Scope x) (left : t.Finished Γ.Scope)
    (right : u.Finished Γ.Scope) : Unused x Γ t u :=
  ⟨unmet, fun member => unmet (left.free x member), fun member => unmet (right.free x member)⟩

/-- Comparing in the scope of a binder, which was not met before if all variables stay apart. -/
theorem under_gives (sound : Sound env low compare) (order : low ≤ n) (ready : s.Ready n)
    {type left right : Term} (old : x.id < n) (typeReady : type.Ready n) (l : left.Ready n)
    (r : right.Ready n) :
    Gives env (do Unify.bind x type; compare left right .eq span) s n fun holds s' _ =>
      holds = true → s'.Apart → ∀ Γ : Types, Γ.Legible s → type.reading.Finished Γ.Scope →
        left.reading.Finished (Types.Scope ((x, type.reading) :: Γ)) →
        right.reading.Finished (Types.Scope ((x, type.reading) :: Γ)) →
        ¬ Γ.Scope x ∧ Convertible env ((x, type.reading) :: Γ) left.reading right.reading := by
  refine (Gives.binder ready old typeReady).bind fun _ s₁ m next ready₁ _ bound => ?_
  refine (sound left right span s₁ m (order.trans next) ready₁ (l.mono next)
    (r.mono next)).weaken fun holds s' k _ _ told grows yes apart Γ legible closed inLeft inRight => ?_
  have apart₁ := apart.earlier grows
  exact ⟨legible.unmet bound apart₁,
    told yes apart _ (legible.bind bound closed) inLeft inRight⟩

theorem body_ready {t : Term} (below : t.Below n)
    (finished : (t.toScoped.read [x]).Finished fun _ => True) : t.Ready n := by
  refine ⟨below, ?_⟩
  rw [Term.reading, ← t.toScoped.read_named x]
  exact named_ready finished

variable {mode mode' : Mode} {a b c d : Term}

/-- The bodies of two binders, the right one renamed after the left one. -/
theorem bodies_gives (sound : Sound env low compare) (order : low ≤ n) (ready : s.Ready n)
    (old : x.id < n) (aReady : a.Ready n) (cBelow : c.Below n) (dBelow : d.Below n)
    (cFinished : (c.toScoped.read [x]).Finished fun _ => True)
    (dFinished : (d.toScoped.read [y]).Finished fun _ => True) :
    Gives env (do
      let d ← rename y x d
      Unify.bind x a
      compare c d .eq span) s n fun holds s' _ =>
        holds = true → s'.Apart → ∀ Γ : Types, Γ.Legible s → a.reading.Finished Γ.Scope →
          (c.toScoped.read [x]).Finished Γ.Scope → (d.toScoped.read [y]).Finished Γ.Scope →
          Unused x Γ (c.toScoped.read [x]) (d.toScoped.read [y]) ∧
            Convertible env ((x, a.reading) :: Γ) ((c.toScoped.read [x]).named x)
              ((d.toScoped.read [y]).named x) := by
  refine (rename_gives ready dBelow dFinished old).bind fun d' s₁ m next ready₁ _ renamed => ?_
  obtain ⟨rfl, dReady, reading⟩ := renamed
  have cReady := (body_ready cBelow cFinished).mono next
  refine (under_gives sound (order.trans next) ready₁ (old.trans_le next) (aReady.mono next) cReady
    dReady).weaken fun holds s' k _ _ told _ yes apart Γ legible closed inLeft inRight => ?_
  have named : c.reading = (c.toScoped.read [x]).named x := (c.toScoped.read_named x).symm
  rw [named, reading] at told
  obtain ⟨unmet, bodies⟩ :=
    told yes apart Γ legible closed (named_finished inLeft) (named_finished inRight)
  exact ⟨unused unmet inLeft inRight, bodies⟩

theorem lam_tells (sound : Sound env low compare) (order : low ≤ n) (ready : s.Ready n)
    (l : (Term.lam mode x a c).Ready n) (r : (Term.lam mode' y b d).Ready n) :
    Gives env (do
      let d ← rename y x d
      Unify.bind x a
      compare c d .eq span) s n fun holds s' _ =>
        Tells env s (.lam mode x a c) (.lam mode' y b d) holds s' := by
  obtain ⟨aBelow, old, cBelow⟩ := Term.below_lam.mp l.below
  obtain ⟨-, -, dBelow⟩ := Term.below_lam.mp r.below
  refine (bodies_gives sound order ready old ⟨aBelow, l.finished.2.1⟩ cBelow dBelow
    l.finished.2.2.1 r.finished.2.2.1).weaken ?_
  intro holds s' m _ _ told yes apart Γ legible inLeft inRight t u left right
  obtain ⟨isUnused, bodies⟩ := told yes apart Γ legible inLeft.2.1 inLeft.2.2.1 inRight.2.2.1
  exact .lam left right isUnused bodies

theorem pi_tells (sound : Sound env low compare) (order : low ≤ n) (ready : s.Ready n)
    (l : (Term.pi mode x a c).Ready n) (r : (Term.pi mode' y b d).Ready n) :
    Gives env (do
      if mode ≠ mode' then return false
      if !(← compare a b .eq span) then return false
      let d ← rename y x d
      Unify.bind x a
      compare c d .eq span) s n fun holds s' _ =>
        Tells env s (.pi mode x a c) (.pi mode' y b d) holds s' := by
  obtain ⟨aBelow, old, cBelow⟩ := Term.below_pi.mp l.below
  obtain ⟨bBelow, -, dBelow⟩ := Term.below_pi.mp r.below
  have aReady : a.Ready n := ⟨aBelow, l.finished.2.1⟩
  have bReady : b.Ready n := ⟨bBelow, r.finished.2.1⟩
  split
  · exact refused ready
  rename_i sameMode
  refine (sound a b span s n order ready aReady bReady).bind fun same s₁ m next ready₁ grows₁ domains =>
    ?_
  split
  · exact Gives.pure ready₁ fun _ => nofun
  rename_i found
  refine (bodies_gives sound (order.trans next) ready₁ (old.trans_le next) (aReady.mono next)
    (cBelow.mono next) (dBelow.mono next) l.finished.2.2.1 r.finished.2.2.1).weaken ?_
  intro holds s' k _ _ told grows yes apart Γ legible inLeft inRight t u left right
  have apart₁ := apart.earlier grows
  obtain ⟨isUnused, bodies⟩ :=
    told yes apart Γ (legible.later grows₁ apart₁) inLeft.2.1 inLeft.2.2.1 inRight.2.2.1
  have equal := domains (by simpa using found) apart₁ Γ legible inLeft.2.1 inRight.2.1
  obtain rfl : mode = mode' := not_ne_iff.mp sameMode
  exact .pi left right equal isUnused bodies

theorem applied_ready (ready : d.Ready n) (old : x.id < n) : (Term.app d (.ref x)).Ready n :=
  ⟨Term.below_app.mpr ⟨ready.below, Term.below_ref.mpr old⟩,
    by simp [Label.Finished, Label.sort?], ready.finished, trivial, trivial⟩

theorem applied_finished {Γ : Types} {type : Nameless} (inScope : d.reading.Finished Γ.Scope) :
    (Term.app d (.ref x)).reading.Finished (Types.Scope ((x, type) :: Γ)) :=
  ⟨by simp [Label.Finished, Label.sort?], inScope.mono fun _ => List.mem_cons_of_mem _,
    List.mem_cons_self, trivial⟩

theorem eta_tells (sound : Sound env low compare) (order : low ≤ n) (ready : s.Ready n)
    (l : (Term.lam mode x a c).Ready n) (r : d.Ready n) :
    Gives env (do
      Unify.bind x a
      compare c (.app d (.ref x)) .eq span) s n fun holds s' _ =>
        Tells env s (.lam mode x a c) d holds s' := by
  obtain ⟨aBelow, old, cBelow⟩ := Term.below_lam.mp l.below
  refine (under_gives sound order ready old ⟨aBelow, l.finished.2.1⟩
    (body_ready cBelow l.finished.2.2.1) (applied_ready r old)).weaken ?_
  intro holds s' m _ _ told yes apart Γ legible inLeft inRight t u left right
  have named : c.reading = (c.toScoped.read [x]).named x := (c.toScoped.read_named x).symm
  rw [named] at told
  obtain ⟨unmet, bodies⟩ := told yes apart Γ legible inLeft.2.1 (named_finished inLeft.2.2.1)
    (applied_finished inRight)
  exact .eta left right (unused unmet inLeft.2.2.1 inRight) bodies

theorem eta_right_tells (sound : Sound env low compare) (order : low ≤ n) (ready : s.Ready n)
    (l : d.Ready n) (r : (Term.lam mode x a c).Ready n) :
    Gives env (do
      Unify.bind x a
      compare (.app d (.ref x)) c .eq span) s n fun holds s' _ =>
        Tells env s d (.lam mode x a c) holds s' := by
  obtain ⟨aBelow, old, cBelow⟩ := Term.below_lam.mp r.below
  refine (under_gives sound order ready old ⟨aBelow, r.finished.2.1⟩ (applied_ready l old)
    (body_ready cBelow r.finished.2.2.1)).weaken ?_
  intro holds s' m _ _ told yes apart Γ legible inLeft inRight t u left right
  have named : c.reading = (c.toScoped.read [x]).named x := (c.toScoped.read_named x).symm
  rw [named] at told
  obtain ⟨unmet, bodies⟩ := told yes apart Γ legible inRight.2.1 (applied_finished inLeft)
    (named_finished inRight.2.2.1)
  exact (Convertible.eta right left (unused unmet inRight.2.2.1 inLeft) bodies.symm).symm

end Binders

section Lists

variable {distinct : Compare}

/-- What the answer claims of lists in step. -/
def SaysAll (env : Environment) (s : Store) (as bs : List Term) (holds : Bool) (s' : Store) : Prop :=
  holds = true → s'.Apart → as.length = bs.length ∧ ∀ Γ : Types, Γ.Legible s →
    (∀ a ∈ as, a.reading.Finished Γ.Scope) → (∀ b ∈ bs, b.reading.Finished Γ.Scope) →
    ∀ e ∈ (as.map Term.reading).zip (bs.map Term.reading), Convertible env Γ e.1 e.2

theorem SaysAll.cons {a b : Term} {as bs : List Term} {s₁ : Store} {holds : Bool}
    (grows : s.Grows s₁) (later : s₁.Grows s')
    (head : s₁.Apart → ∀ Γ : Types, Γ.Legible s → a.reading.Finished Γ.Scope →
      b.reading.Finished Γ.Scope → Convertible env Γ a.reading b.reading)
    (tail : SaysAll env s₁ as bs holds s') : SaysAll env s (a :: as) (b :: bs) holds s' := by
  intro yes apart
  have apart₁ := apart.earlier later
  obtain ⟨lengths, others⟩ := tail yes apart
  refine ⟨congrArg (· + 1) lengths, fun Γ legible inLeft inRight => ?_⟩
  obtain ⟨aInScope, asInScope⟩ := List.forall_mem_cons.mp inLeft
  obtain ⟨bInScope, bsInScope⟩ := List.forall_mem_cons.mp inRight
  exact List.forall_mem_cons.mpr ⟨head apart₁ Γ legible aInScope bInScope,
    others Γ (legible.later grows apart₁) asInScope bsInScope⟩

theorem compareAll_cons {differ : Bool} {a b : Term} {as bs : List Term}
    (last : ¬ (differ = true ∧ as = [] ∧ bs = [])) :
    compareAll distinct span differ (a :: as) (b :: bs) =
      if a = b then compareAll distinct span differ as bs else do
        if ← distinct a b .eq span then compareAll distinct span false as bs else return false := by
  cases differ <;> cases as <;> cases bs <;> first | rfl | exact absurd ⟨rfl, rfl, rfl⟩ last

theorem compareAll_sound (sound : Sound env low distinct) : ∀ (as bs : List Term) (differ : Bool)
    (s : Store) (n : Nat), low ≤ n → s.Ready n → (∀ a ∈ as, a.Ready n) → (∀ b ∈ bs, b.Ready n) →
    Gives env (compareAll distinct span differ as bs) s n fun holds s' _ =>
      SaysAll env s as bs holds s' := by
  intro as
  induction as with
  | nil =>
      intro bs differ s n order ready _ _
      cases bs with
      | nil => exact Gives.pure ready fun _ _ => ⟨rfl, nofun⟩
      | cons b bs => exact Gives.pure ready nofun
  | cons a as ih =>
      intro bs differ s n order ready left right
      cases bs with
      | nil =>
          have fails : compareAll distinct span differ (a :: as) [] = pure false := by
            cases differ <;> cases as <;> rfl
          rw [fails]
          exact Gives.pure ready nofun
      | cons b bs =>
          obtain ⟨aReady, asReady⟩ := List.forall_mem_cons.mp left
          obtain ⟨bReady, bsReady⟩ := List.forall_mem_cons.mp right
          by_cases last : differ = true ∧ as = [] ∧ bs = []
          · obtain ⟨rfl, rfl, rfl⟩ := last
            refine (sound a b span s n order ready aReady bReady).weaken ?_
            intro holds s' m _ grows told yes apart
            have nothing : SaysAll env s' [] [] holds s' := fun _ _ => ⟨rfl, nofun⟩
            exact nothing.cons grows (.refl s') (told yes) yes apart
          rw [compareAll_cons last]
          split
          · rename_i same
            subst same
            refine (ih bs differ s n order ready asReady bsReady).weaken ?_
            exact fun holds s' m _ grows told => told.cons (.refl s) grows fun _ _ _ _ _ => .refl
          · refine (sound a b span s n order ready aReady bReady).bind ?_
            intro same s₁ m next ready₁ grows₁ told
            split
            · rename_i yes
              refine (ih bs false s₁ m (order.trans next) ready₁ (ready_later asReady next)
                (ready_later bsReady next)).weaken ?_
              exact fun holds s' k _ grows others _ => others.cons grows₁ grows (told yes)
            · exact Gives.pure ready₁ fun _ => nofun

theorem compareSame_sound (sound : Sound env low distinct) (order : low ≤ n) (ready : s.Ready n)
    {as bs : List Term} (differ : Bool) (left : ∀ a ∈ as, a.Ready n) (right : ∀ b ∈ bs, b.Ready n) :
    Gives env (compareSame distinct differ as bs span) s n fun holds s' _ =>
      SaysAll env s as bs holds s' := by
  unfold compareSame
  split
  · exact compareAll_sound sound as bs differ s n order ready left right
  · exact Gives.pure ready nofun

theorem tuple_tells (sound : Sound env low distinct) (order : low ≤ n) (ready : s.Ready n)
    {c d : List Term} {t u : Term} (differ : Bool) (l : (Term.tuple c t).Ready n)
    (r : (Term.tuple d u).Ready n) : Gives env (compareSame distinct differ c d span) s n
      fun holds s' _ => Tells env s (.tuple c t) (.tuple d u) holds s' := by
  refine (compareSame_sound sound order ready differ l.components r.components).weaken ?_
  intro holds s' m _ _ told yes apart Γ legible inLeft inRight a b left right
  obtain ⟨lengths, all⟩ := told yes apart
  refine .tuple left right ?_ ?_
  · rw [tuple_list, tuple_list, List.length_map, List.length_map, lengths]
  · rw [tuple_list, tuple_list]
    exact all Γ legible (components_finished inLeft) (components_finished inRight)

/-- Universes first, and then the arguments. -/
theorem levels_sound (sound : Sound env low distinct) (order : low ≤ n) (ready : s.Ready n)
    {u v : Universe} {as bs : List Term} (uClosed : u.Closed) (vClosed : v.Closed)
    (left : ∀ a ∈ as, a.Ready n) (right : ∀ b ∈ bs, b.Ready n) : Gives env (do
      if ← compareUniverses u v .eq span then compareSame distinct (u = v) as bs span
      else return false) s n fun holds s' _ =>
        (holds = true → u.Same v) ∧ SaysAll env s as bs holds s' := by
  refine (Gives.universes ready).bind fun equal s₁ m next ready₁ grows₁ seen => ?_
  obtain ⟨-, c, compared, rfl⟩ := seen
  split
  · rename_i found
    refine (compareSame_sound sound (order.trans next) ready₁ _ (ready_later left next)
      (ready_later right next)).weaken fun holds s' k _ _ told grows => ?_
    refine ⟨fun _ => Universe.same_of_compare uClosed vClosed compared found, fun yes apart => ?_⟩
    obtain ⟨lengths, all⟩ := told yes apart
    exact ⟨lengths, fun Γ legible => all Γ (legible.later grows₁ (apart.earlier grows))⟩
  · exact Gives.pure ready₁ fun _ => ⟨nofun, nofun⟩

theorem call_tells (sound : Sound env low distinct) (order : low ≤ n) (ready : s.Ready n)
    {f g : DefId} {u v : Universe} {as bs : List Term} (l : (Term.call f u as).Ready n)
    (r : (Term.call g v bs).Ready n) : Gives env (do
      if f ≠ g then return false
      if ← compareUniverses u v .eq span then compareSame distinct (u = v) as bs span
      else return false) s n fun holds s' _ =>
        Tells env s (.call f u as) (.call g v bs) holds s' := by
  split
  · exact refused ready
  rename_i same
  obtain rfl : f = g := not_ne_iff.mp same
  refine (levels_sound sound order ready (l.finished.1 u rfl) (r.finished.1 v rfl) l.call_args
    r.call_args).weaken ?_
  rintro holds s' m _ _ ⟨levels, told⟩ yes apart Γ legible inLeft inRight a b left right
  obtain ⟨lengths, all⟩ := told yes apart
  refine .call left right (levels yes) ?_ ?_
  · rw [terms_list, terms_list, List.length_map, List.length_map, lengths]
  · rw [terms_list, terms_list]
    exact all Γ legible (termsParts_finished inLeft.2) (termsParts_finished inRight.2)

theorem data_tells (sound : Sound env low distinct) (order : low ≤ n) (ready : s.Ready n)
    {d e : DefId} {u v : Universe} {as bs : List Term} (l : (Term.data d u as).Ready n)
    (r : (Term.data e v bs).Ready n) : Gives env (do
      if d ≠ e then return false
      if ← compareUniverses u v .eq span then compareSame distinct (u = v) as bs span
      else return false) s n fun holds s' _ =>
        Tells env s (.data d u as) (.data e v bs) holds s' := by
  split
  · exact refused ready
  rename_i same
  obtain rfl : d = e := not_ne_iff.mp same
  refine (levels_sound sound order ready (l.finished.1 u rfl) (r.finished.1 v rfl) l.data_args
    r.data_args).weaken ?_
  rintro holds s' m _ _ ⟨levels, told⟩ yes apart Γ legible inLeft inRight a b left right
  obtain ⟨lengths, all⟩ := told yes apart
  refine .data left right (levels yes) ?_ ?_
  · rw [terms_list, terms_list, List.length_map, List.length_map, lengths]
  · rw [terms_list, terms_list]
    exact all Γ legible (termsParts_finished inLeft.2) (termsParts_finished inRight.2)

theorem con_tells (sound : Sound env low distinct) (order : low ≤ n) (ready : s.Ready n)
    {c d : DefId} {u v : Universe} {p q as bs : List Term} (differ : Bool)
    (l : (Term.con c u p as).Ready n) (r : (Term.con d v q bs).Ready n) : Gives env (do
      if c ≠ d then return false
      if ← compareSame distinct differ as bs span then compareSame distinct false p q span
      else return false) s n fun holds s' _ =>
        Tells env s (.con c u p as) (.con d v q bs) holds s' := by
  split
  · exact refused ready
  rename_i same
  refine (compareSame_sound sound order ready differ l.con_args r.con_args).bind ?_
  intro equal s₁ m next ready₁ grows₁ args
  split
  · rename_i found
    refine (compareSame_sound sound (order.trans next) ready₁ _ (ready_later l.con_params next)
      (ready_later r.con_params next)).weaken ?_
    intro holds s' k _ _ told grows yes apart Γ legible inLeft inRight a b left right
    have apart₁ := apart.earlier grows
    obtain ⟨lengths, all⟩ := told yes apart
    obtain ⟨argLengths, allArgs⟩ := args found apart₁
    obtain rfl : c = d := not_ne_iff.mp same
    refine .con left right ?_ ?_ ?_ ?_
    · rw [terms_list, terms_list, List.length_map, List.length_map, lengths]
    · rw [terms_list, terms_list, List.length_map, List.length_map, argLengths]
    · rw [terms_list, terms_list]
      exact all Γ (legible.later grows₁ apart₁) (termsParts_finished inLeft.2.1.2)
        (termsParts_finished inRight.2.1.2)
    · rw [terms_list, terms_list]
      exact allArgs Γ legible (termsParts_finished inLeft.2.2) (termsParts_finished inRight.2.2)
  · exact Gives.pure ready₁ fun _ => nofun

theorem app_tells (sound : Sound env low distinct) (order : low ≤ n) (ready : s.Ready n)
    {f g a b : Term} (l : (Term.app f a).Ready n) (r : (Term.app g b).Ready n) :
    Gives env (compareAll distinct span true [f, a] [g, b]) s n fun holds s' _ =>
      Tells env s (.app f a) (.app g b) holds s' := by
  refine (compareAll_sound sound [f, a] [g, b] true s n order ready ?_ ?_).weaken ?_
  · simp [l.app_fn, l.app_arg]
  · simp [r.app_fn, r.app_arg]
  intro holds s' m _ _ told yes apart Γ legible inLeft inRight t u left right
  have inList : ∀ {h c : Term}, (Term.app h c).reading.Finished Γ.Scope →
      ∀ t ∈ [h, c], t.reading.Finished Γ.Scope := fun finished =>
    List.forall_mem_cons.mpr ⟨finished.2.1, List.forall_mem_singleton.mpr finished.2.2.1⟩
  have all := (told yes apart).2 Γ legible (inList inLeft) (inList inRight)
  exact .app left right (all (f.reading, g.reading) (by simp))
    (all (a.reading, b.reading) (by simp))

theorem caseOf_tells (sound : Sound env low distinct) (order : low ≤ n) (ready : s.Ready n)
    {as bs : List Term} {params params' : Telescope} {result result' : Term} {t u : CaseTree}
    (l : (Term.caseOf as params result t).Ready n)
    (r : (Term.caseOf bs params' result' u).Ready n) :
    Gives env (if t = u then compareSame distinct false as bs span else return false) s n
      fun holds s' _ =>
        Tells env s (.caseOf as params result t) (.caseOf bs params' result' u) holds s' := by
  split
  · rename_i same
    subst same
    refine (compareSame_sound sound order ready false l.case_args r.case_args).weaken ?_
    intro holds s' m _ _ told yes apart Γ legible inLeft inRight a b left right
    obtain ⟨lengths, all⟩ := told yes apart
    refine .caseOf left right (caseOf_parts as params result t) (caseOf_parts bs params' result' t)
      ?_ ?_
    · rw [List.length_map, List.length_map, lengths]
    · exact all Γ legible (caseArgs_finished inLeft) (caseArgs_finished inRight)
  · exact refused ready

theorem proj_tells (sound : Sound env low distinct) (order : low ≤ n) (ready : s.Ready n)
    {t u : Term} {i j : Nat} (l : (Term.proj t i).Ready n) (r : (Term.proj u j).Ready n) :
    Gives env (if i = j then distinct t u .eq span else return false) s n fun holds s' _ =>
      Tells env s (.proj t i) (.proj u j) holds s' := by
  split
  · rename_i same
    subst same
    refine (sound t u span s n order ready l.proj_whole r.proj_whole).weaken ?_
    intro holds s' m _ _ told yes apart Γ legible inLeft inRight a b left right
    exact .proj left right (told yes apart Γ legible inLeft.2.1 inRight.2.1)
  · exact refused ready

theorem field_tells (sound : Sound env low compare) (order : low ≤ n) (ready : s.Ready n)
    {t u : Term} {f g : DefId} {v w : Universe} (l : (Term.field f v t).Ready n)
    (r : (Term.field g w u).Ready n) :
    Gives env (if f = g then compare t u .eq span else return false) s n fun holds s' _ =>
      Tells env s (.field f v t) (.field g w u) holds s' := by
  split
  · rename_i same
    subst same
    refine (sound t u span s n order ready l.field_arg r.field_arg).weaken ?_
    intro holds s' m _ _ told yes apart Γ legible inLeft inRight a b left right
    exact .field left right (told yes apart Γ legible inLeft.2.1 inRight.2.1)
  · exact refused ready

theorem new_tells (sound : Sound env low distinct) (order : low ≤ n) (ready : s.Ready n)
    {t u : Term} (l : (Term.new t).Ready n) (r : (Term.new u).Ready n) :
    Gives env (distinct t u .eq span) s n fun holds s' _ =>
      Tells env s (.new t) (.new u) holds s' := by
  refine (sound t u span s n order ready l.new_record r.new_record).weaken ?_
  intro holds s' m _ _ told yes apart Γ legible inLeft inRight a b left right
  exact .new left right (told yes apart Γ legible inLeft.2.1 inRight.2.1)

/-- What the answer claims of components and projections, the first one with this number. -/
def SaysProjections (env : Environment) (s : Store) (whole : Term) (i : Nat)
    (components : List Term) (holds : Bool) (s' : Store) : Prop :=
  holds = true → s'.Apart → ∀ Γ : Types, Γ.Legible s → whole.reading.Finished Γ.Scope →
    (∀ a ∈ components, a.reading.Finished Γ.Scope) →
    ∀ e ∈ (components.map Term.reading).zipIdx i,
      Convertible env Γ e.1 (whole.reading.mkProj e.2)

theorem compareProjections_sound (sound : Sound env low distinct) (flipped : Bool) {whole : Term} :
    ∀ (components : List Term) (i : Nat) (s : Store) (n : Nat), low ≤ n → s.Ready n →
    whole.Ready n → (∀ a ∈ components, a.Ready n) →
    Gives env (compareProjections distinct span flipped whole i components) s n
      fun holds s' _ => SaysProjections env s whole i components holds s' := by
  intro components
  induction components with
  | nil =>
      intro i s n _ ready _ _
      exact Gives.pure ready fun _ _ _ _ _ _ => List.forall_mem_nil _
  | cons a components ih =>
      intro i s n order ready wholeReady componentsReady
      obtain ⟨aReady, rest⟩ := List.forall_mem_cons.mp componentsReady
      have projReady : (Term.proj whole i).Ready n :=
        ⟨Term.below_proj.mpr wholeReady.below,
          by simp [Label.Finished, Label.sort?], wholeReady.finished, trivial⟩
      have others : ∀ (same : Bool) (s₁ : Store) (m : Nat), n ≤ m → s₁.Ready m → s.Grows s₁ →
          (same = true → s₁.Apart → ∀ Γ : Types, Γ.Legible s → whole.reading.Finished Γ.Scope →
            a.reading.Finished Γ.Scope →
              Convertible env Γ a.reading (whole.reading.mkProj i)) →
          Gives env (if same then compareProjections distinct span flipped whole (i + 1) components
            else return false) s₁ m fun holds s' _ => s₁.Grows s' →
              SaysProjections env s whole i (a :: components) holds s' := by
        intro same s₁ m next ready₁ grows₁ head
        split
        · rename_i yes
          refine (ih (i + 1) s₁ m (order.trans next) ready₁ (wholeReady.mono next)
            (ready_later rest next)).weaken ?_
          intro holds s' k _ grows told _ all apart Γ legible inWhole inScope
          have apart₁ := apart.earlier grows
          obtain ⟨aInScope, othersInScope⟩ := List.forall_mem_cons.mp inScope
          exact List.forall_mem_cons.mpr ⟨head yes apart₁ Γ legible inWhole aInScope,
            told all apart Γ (legible.later grows₁ apart₁) inWhole othersInScope⟩
        · exact Gives.pure ready₁ fun _ holds => Bool.noConfusion holds
      have projInScope : ∀ {V : Var → Prop}, whole.reading.Finished V →
          (Term.proj whole i).reading.Finished V := fun finished =>
        ⟨by simp [Label.Finished, Label.sort?], finished, trivial⟩
      unfold compareProjections
      split
      · refine (sound.orSame _ a span s n order ready projReady aReady).bind ?_
        intro same s₁ m next ready₁ grows₁ told
        exact others same s₁ m next ready₁ grows₁ fun yes apart Γ legible inWhole aInScope =>
          (told yes apart Γ legible (projInScope inWhole) aInScope).symm
      · refine (sound.orSame a _ span s n order ready aReady projReady).bind ?_
        intro same s₁ m next ready₁ grows₁ told
        exact others same s₁ m next ready₁ grows₁ fun yes apart Γ legible inWhole aInScope =>
          told yes apart Γ legible aInScope (projInScope inWhole)

theorem components_tells (sound : Sound env low distinct) (flipped : Bool) (order : low ≤ n)
    (ready : s.Ready n) {c : List Term} {t u : Term} (l : (Term.tuple c t).Ready n) (r : u.Ready n)
    (noTuple : ∀ d v, u ≠ .tuple d v) :
    Gives env (compareProjections distinct span flipped u 0 c) s n fun holds s' _ =>
      Tells env s (.tuple c t) u holds s' := by
  refine (compareProjections_sound sound flipped c 0 s n order ready r l.components).weaken ?_
  intro holds s' m _ _ told yes apart Γ legible inLeft inRight a b left right
  refine .components left right ?_ ?_
  · intro q same
    cases u with
    | tuple d v => exact noTuple d v rfl
    | _ => cases same
  · rw [tuple_list]
    exact told yes apart Γ legible inRight (components_finished inLeft)

theorem fieldsParts_slots (fields : List (DefId × Term)) :
    ((fieldsParts fields).read []).slots = fields.map fun e => (e.1, e.2.reading) := by
  induction fields with
  | nil => rfl
  | cons e fields ih => exact congrArg _ ih

theorem fieldsParts_finished {V : Var → Prop} : ∀ {fields : List (DefId × Term)},
    ((fieldsParts fields).read []).Finished V → ∀ e ∈ fields, e.2.reading.Finished V
  | [], _, _, member => by cases member
  | (f, t) :: fields, finished, e, member => by
      rcases List.mem_cons.mp member with rfl | later
      · exact finished.1.2.1
      · exact fieldsParts_finished finished.2 e later

theorem record_fields {c : DefId} {u : Universe} {fields : List (DefId × Term)}
    (ready : (Term.record c u fields).Ready n) : ∀ e ∈ fields, e.2.Ready n := fun e member =>
  ⟨Term.below_record.mp ready.below e member, fieldsParts_finished ready.finished.2 e member⟩

/-- What the answer claims of the fields of two records: each one on the right is one on the left. -/
def SaysFields (env : Environment) (s : Store) (larger fields : List (DefId × Term))
    (holds : Bool) (s' : Store) : Prop :=
  holds = true → s'.Apart → ∀ Γ : Types, Γ.Legible s →
    (∀ e ∈ larger, e.2.reading.Finished Γ.Scope) → (∀ e ∈ fields, e.2.reading.Finished Γ.Scope) →
    ∀ e ∈ fields, ∃ other, larger.lookup e.1 = some other ∧
      Convertible env Γ other.reading e.2.reading

theorem fixesAll_sound (sound : Sound env low compare) {larger : List (DefId × Term)} :
    ∀ (fields : List (DefId × Term)) (s : Store) (n : Nat), low ≤ n → s.Ready n →
    (∀ e ∈ larger, e.2.Ready n) → (∀ e ∈ fields, e.2.Ready n) →
    Gives env (fixesAll compare larger span fields) s n fun holds s' _ =>
      SaysFields env s larger fields holds s' := by
  intro fields
  induction fields with
  | nil =>
      intro s n _ ready _ _
      exact Gives.pure ready fun _ _ _ _ _ _ => nofun
  | cons e fields ih =>
      obtain ⟨f, value⟩ := e
      intro s n order ready largerReady fieldsReady
      obtain ⟨valueReady, rest⟩ := List.forall_mem_cons.mp fieldsReady
      unfold fixesAll
      cases found : larger.lookup f with
      | none => exact Gives.pure ready nofun
      | some other =>
          have otherReady : other.Ready n := largerReady (f, other) (mem_of_lookup found)
          refine (sound other value span s n order ready otherReady valueReady).bind ?_
          intro same s₁ m next ready₁ grows₁ head
          split
          · rename_i yes
            refine (ih s₁ m (order.trans next) ready₁
              (fun e member => (largerReady e member).mono next)
              (fun e member => (rest e member).mono next)).weaken ?_
            intro holds s' k _ grows told _ all apart Γ legible inLarger inFields
            have apart₁ := apart.earlier grows
            obtain ⟨valueInScope, othersInScope⟩ := List.forall_mem_cons.mp inFields
            have here := head yes apart₁ Γ legible (inLarger (f, other) (mem_of_lookup found))
              valueInScope
            exact List.forall_mem_cons.mpr ⟨⟨other, found, here⟩,
              told all apart Γ (legible.later grows₁ apart₁) inLarger othersInScope⟩
          · exact Gives.pure ready₁ fun _ => nofun

theorem record_tells (sound : Sound env low compare) (order : low ≤ n) (ready : s.Ready n)
    {c d : DefId} {u v : Universe} {a b : List (DefId × Term)} (l : (Term.record c u a).Ready n)
    (r : (Term.record d v b).Ready n) : Gives env (do
      if c ≠ d then return false
      if !(← compareUniverses u v .eq span) then return false
      if a.length = b.length then fixesAll compare a span b else return false) s n
      fun holds s' _ => Tells env s (.record c u a) (.record d v b) holds s' := by
  split
  · exact refused ready
  rename_i same
  obtain rfl : c = d := not_ne_iff.mp same
  refine (Gives.universes ready).bind fun equal s₁ m next ready₁ grows₁ seen => ?_
  obtain ⟨-, comparison, compared, rfl⟩ := seen
  split
  · exact Gives.pure ready₁ fun _ => nofun
  rename_i found
  split
  · rename_i lengths
    refine (fixesAll_sound sound b s₁ m (order.trans next) ready₁
      (fun e member => (record_fields l e member).mono next)
      (fun e member => (record_fields r e member).mono next)).weaken ?_
    intro holds s' k _ grows told _ yes apart Γ legible inLeft inRight t w left right
    have levels := Universe.same_of_compare (l.finished.1 u rfl) (r.finished.1 v rfl) compared
      (by simpa using found)
    have all := told yes apart Γ (legible.later grows₁ (apart.earlier grows))
      (fieldsParts_finished inLeft.2) (fieldsParts_finished inRight.2)
    refine .record (fun f => ((a.lookup f).map Term.reading).getD (.bound 0)) left right levels
      ?_ ?_ ?_
    · rw [fieldsParts_slots, fieldsParts_slots, List.length_map, List.length_map, lengths]
    · rw [fieldsParts_slots]
      intro e member
      obtain ⟨entry, inFields, rfl⟩ := List.mem_map.mp member
      obtain ⟨other, isField, _⟩ := all entry inFields
      rw [fields_slot?, isField]
      rfl
    · rw [fieldsParts_slots]
      intro e member
      obtain ⟨entry, inFields, rfl⟩ := List.mem_map.mp member
      obtain ⟨other, isField, equal⟩ := all entry inFields
      rw [isField]
      exact equal
  · exact Gives.pure ready₁ fun _ => nofun

/-- A tuple type over the rest of a telescope, whose own variables are free. -/
abbrev sigmaRest (params : Telescope) (scope : List Var) (ρ : List Nameless) : Nameless :=
  .node .sigma (((telescopeParts params .nil).read scope).fill ρ 0)

theorem sigmaRest_cons (b : Binding Term) (params : Telescope) (scope : List Var)
    (ρ : List Nameless) : sigmaRest (b :: params) scope ρ =
      .node .sigma (.part ((b.type.toScoped.read scope).fill ρ 0)
        (.binder b.mode (((telescopeParts params .nil).read (b.var :: scope)).fill ρ 1))) := rfl

theorem sigmaRest_named (x y : Var) (params : Telescope) (scope : List Var) {ρ : List Nameless}
    (closed : ∀ r ∈ ρ, r.Closed 0) :
    Nameless.named x (.node .sigma (((telescopeParts params .nil).read (y :: scope)).fill ρ 1)) =
      sigmaRest params (y :: scope) (.free x :: ρ) :=
  congrArg (Nameless.node .sigma) (NamelessParts.fill_named closed 0 _)

theorem sigma_rest {V : Var → Prop} {mode : Mode} {A : Nameless} {p : NamelessParts}
    (finished : (Nameless.node .sigma (.part A (.binder mode p))).Finished V) :
    (Nameless.node .sigma p).Finished V := ⟨finished.1, finished.2.2⟩

theorem sigma_named (x : Var) (params : Telescope) :
    Nameless.named x (.node .sigma ((telescopeParts params .nil).read [x])) =
      (Term.sigma params).reading := congrArg (Nameless.node .sigma) (Parts.read_named x _)

theorem compareTelescopes_sound (sound : Sound env low compare) : ∀ (ls rs : Telescope) (σ : Subst)
    (scope : List Var) (ρ : List Nameless) (s : Store) (n : Nat), low ≤ n → s.Ready n →
    Telescope.Below n ls → Telescope.Below n rs → σ.Within (fun _ => True) n → σ.Simple →
    σ.Agrees scope ρ → (∀ r ∈ ρ, r.Closed 0) → ((Term.sigma ls).reading.Finished fun _ => True) →
    ((sigmaRest rs scope ρ).Finished fun _ => True) →
    Gives env (compareTelescopes compare span σ ls rs) s n fun holds s' _ =>
      holds = true → s'.Apart → ∀ Γ : Types, Γ.Legible s →
        (Term.sigma ls).reading.Finished Γ.Scope → (sigmaRest rs scope ρ).Finished Γ.Scope →
        ∀ a b, Reveals env Γ a (Term.sigma ls).reading →
          Reveals env Γ b (sigmaRest rs scope ρ) → Convertible env Γ a b := by
  intro ls
  induction ls with
  | nil =>
      intro rs σ scope ρ s n order ready _ _ _ _ _ _ _ _
      cases rs with
      | nil => exact Gives.pure ready fun _ _ Γ _ _ _ a b left right => .sigmaNil left right
      | cons r rs => exact Gives.pure ready nofun
  | cons l ls ih =>
      intro rs σ scope ρ s n order ready lBelow rBelow put simple agrees closed lFinished rFinished
      cases rs with
      | nil => exact Gives.pure ready nofun
      | cons r rs =>
          obtain ⟨⟨old, lTypeBelow⟩, lsBelow⟩ := List.forall_mem_cons.mp lBelow
          obtain ⟨⟨_, rTypeBelow⟩, rsBelow⟩ := List.forall_mem_cons.mp rBelow
          rw [sigmaRest_cons] at rFinished
          unfold compareTelescopes
          have renamed : Yields (σ.apply env r.type) n fun type m => type.Below m ∧
              type.reading = (r.type.toScoped.read scope).fill ρ 0 := by
            intro type m done
            obtain ⟨order, below, reading⟩ := put.simple_reading simple rTypeBelow done
            exact ⟨order, below, reading.trans (agrees.reading_id r.type).symm⟩
          refine (Gives.reading ready renamed).bind fun type s₁ m next ready₁ _ seen => ?_
          obtain ⟨rfl, typeBelow, reading⟩ := seen
          have typeReady : type.Ready m := ⟨typeBelow, reading ▸ rFinished.2.1⟩
          have lTypeReady : l.type.Ready m := ⟨lTypeBelow.mono next, lFinished.2.1⟩
          refine (sound l.type type span s₁ m (order.trans next) ready₁ lTypeReady typeReady).bind ?_
          intro same s₂ k next₂ ready₂ grows₂ types
          split
          · exact Gives.pure ready₂ fun _ _ => nofun
          rename_i found
          have later := next.trans next₂
          refine (Gives.binder ready₂ (old.trans_le later) (lTypeReady.mono next₂)).bind ?_
          intro _ s₃ i next₃ ready₃ _ bound
          have latest := later.trans next₃
          have lRest := sigma_named l.var ls
          have rRest := sigmaRest_named l.var r.var rs scope closed
          have lsFinished := named_ready (x := l.var) (sigma_rest lFinished)
          have rsFinished := named_ready (x := l.var) (sigma_rest rFinished)
          rw [lRest] at lsFinished
          rw [rRest] at rsFinished
          have putNext := (put.mono latest).add (x := r.var) (t := .ref l.var)
            ⟨Term.below_ref.mpr (old.trans_le latest), fun _ _ => trivial⟩
          have agreesNext : (σ.add r.var (.ref l.var)).Agrees (r.var :: scope) (.free l.var :: ρ) :=
            agrees.add r.var (.ref l.var)
          refine (ih rs _ _ _ s₃ i (order.trans latest) ready₃
            (Telescope.Below.mono lsBelow latest) (Telescope.Below.mono rsBelow latest) putNext
            (simple.add _ _) agreesNext (List.forall_mem_cons.mpr ⟨trivial, closed⟩) lsFinished rsFinished).weaken ?_
          intro holds s' j _ grows told _ _ _ yes apart Γ legible inLeft inRight a b left right
          rw [sigmaRest_cons] at inRight right
          have apart₃ := apart.earlier grows
          have apart₂ := apart₃.earlier (bound ▸ List.suffix_cons _ _)
          have legible₂ := legible.later grows₂ apart₂
          have unmet := legible₂.unmet bound apart₃
          have equal := types (by simpa using found) apart₂ Γ legible inLeft.2.1
            (reading ▸ inRight.2.1)
          rw [← lRest, ← rRest] at told
          have rest := told yes apart _ (legible₂.bind bound inLeft.2.1)
            (named_finished (sigma_rest inLeft)) (named_finished (sigma_rest inRight)) _ _
            (.evaluated (evaluates_value rfl)) (.evaluated (evaluates_value rfl))
          rw [reading] at equal
          exact .sigma left right equal (unused unmet (sigma_rest inLeft) (sigma_rest inRight)) rest

theorem sigma_tells (sound : Sound env low compare) (order : low ≤ n) (ready : s.Ready n)
    {p q : Telescope} (l : (Term.sigma p).Ready n) (r : (Term.sigma q).Ready n) :
    Gives env (if p.length = q.length then compareTelescopes compare span .empty p q
      else return false) s n fun holds s' _ => Tells env s (.sigma p) (.sigma q) holds s' := by
  have itself : sigmaRest q [] [] = (Term.sigma q).reading :=
    congrArg (Nameless.node .sigma) (Parts.read_closed [] _).fill
  split
  · refine (compareTelescopes_sound sound p q .empty [] [] s n order ready
      (Term.below_sigma.mp l.below) (Term.below_sigma.mp r.below) Subst.within_empty ⟨rfl, rfl⟩
      Subst.agrees_empty nofun l.finished (itself ▸ r.finished)).weaken ?_
    intro holds s' m _ _ told
    rwa [itself] at told
  · exact refused ready

theorem compareHeads_tells (sound : Sound env low distinct) (order : low ≤ n) (ready : s.Ready n)
    {left right : Term} (l : left.Ready n) (r : right.Ready n) :
    Gives env (compareHeads distinct left right .eq span) s n fun holds s' _ =>
      Tells env s left right holds s' := by
  have both := sound.orSame
  unfold compareHeads
  split
  · exact univ_tells ready l r
  · exact pi_tells both order ready l r
  · exact lam_tells both order ready l r
  · exact eta_tells both order ready l r
  · exact eta_right_tells both order ready l r
  · exact sigma_tells both order ready l r
  · exact tuple_tells sound order ready _ l r
  · rename_i noTuple
    exact components_tells sound false order ready l r fun d v same => noTuple d v same
  · rename_i noTuple
    exact (components_tells sound true order ready r l fun d v same => noTuple d v same).weaken
      fun _ _ _ _ _ told => told.symm
  · exact proj_tells sound order ready l r
  · exact app_tells sound order ready l r
  · refine Gives.pure ready fun yes _ Γ _ _ _ a b first second => ?_
    rw [← beq_iff_eq.mp yes] at second
    exact .shown first second
  · exact call_tells sound order ready l r
  · exact con_tells sound order ready _ l r
  · exact data_tells sound order ready l r
  · exact record_tells both order ready l r
  · exact field_tells both order ready l r
  · exact new_tells sound order ready l r
  · exact caseOf_tells sound order ready l r
  · exact refused ready

end Lists

end Comparing

end PathTheory
