import PathTheory.Proofs.Reduction.Reading
import PathTheory.Proofs.Reduction.Stuck
/-!
Normal forms of normal forms. Normalization brings a term to weak head normal form and then goes into
its parts. The main statement is that a normal form is its own normal form unless one of its parts,
once normal, has awoken a rule that looks further than the head: transport along a family that has
lost its variable, or a field of an instance that has become a record.
-/
namespace PathTheory

namespace Term

/-- The parts that normalization goes into, from left to right. -/
def normalParts : Term → List Term
  | lam _ _ a b | pi _ _ a b | app a b => [a, b]
  | sigma params => params.map Binding.type
  | tuple components type => components ++ [type]
  | proj a _ | field _ _ a | new a => [a]
  | call _ _ args | data _ _ args | caseOf args _ _ _ => args
  | con _ _ params args => params ++ args
  | record _ _ fields => fields.map (·.2)
  | ref _ | univ _ | hole _ | error _ _ => []

/-- The same term with other parts in their places. -/
def withParts : Term → List Term → Term
  | lam mode x _ _, [a, b] => lam mode x a b
  | pi mode x _ _, [a, b] => pi mode x a b
  | app _ _, [a, b] => app a b
  | sigma params, l => sigma (params.zipWith (fun b a => { b with type := a }) l)
  | tuple components type, l =>
      tuple (l.take components.length) ((l.drop components.length).headD type)
  | proj _ i, [a] => proj a i
  | field f u _, [a] => field f u a
  | new _, [a] => new a
  | call f u _, l => call f u l
  | data d u _, l => data d u l
  | caseOf _ params result tree, l => caseOf l params result tree
  | con c u params _, l => con c u (l.take params.length) (l.drop params.length)
  | record c u fields, l => record c u (fields.zipWith (fun entry a => (entry.1, a)) l)
  | t, _ => t

theorem zipWith_map_self {α β : Type} {put : α → β → α} {get : α → β}
    (same : ∀ a, put a (get a) = a) (l : List α) : l.zipWith put (l.map get) = l := by
  induction l with
  | nil => rfl
  | cons a others ih => simp [same, ih]

theorem map_zipWith {α β : Type} {put : α → β → α} {get : α → β}
    (got : ∀ a b, get (put a b) = b) {l : List α} {r : List β} (lengths : r.length = l.length) :
    (l.zipWith put r).map get = r := by
  induction l generalizing r with
  | nil => exact (List.length_eq_zero_iff.mp lengths).symm
  | cons a others ih =>
      cases r with
      | nil => cases lengths
      | cons b r => simp [got, ih (Nat.succ.inj lengths)]

theorem forall_mem_zipWith {α β γ : Type} {put : α → β → γ} {P : γ → Prop} {l : List α}
    {r : List β} (holds : ∀ a ∈ l, ∀ b ∈ r, P (put a b)) : ∀ c ∈ l.zipWith put r, P c := by
  induction l generalizing r with
  | nil => simp
  | cons a others ih =>
      cases r with
      | nil => simp
      | cons b r =>
          refine List.forall_mem_cons.mpr
            ⟨holds a List.mem_cons_self b List.mem_cons_self, ih fun a inList b inRest => ?_⟩
          exact holds a (List.mem_cons_of_mem _ inList) b (List.mem_cons_of_mem _ inRest)

theorem withParts_normalParts (t : Term) : t.withParts t.normalParts = t := by
  cases t <;> simp [withParts, normalParts, zipWith_map_self]

theorem normalParts_withParts {t : Term} {l : List Term}
    (lengths : l.length = t.normalParts.length) : (t.withParts l).normalParts = l := by
  cases t with
  | lam _ _ a b | pi _ _ a b | app a b =>
      obtain ⟨a', b', rfl⟩ := List.length_eq_two.mp lengths
      rfl
  | proj a _ | field _ _ a | new a =>
      obtain ⟨a', rfl⟩ := List.length_eq_one_iff.mp lengths
      rfl
  | call | data | caseOf => rfl
  | ref | univ | hole | error => exact (List.length_eq_zero_iff.mp lengths).symm
  | sigma params =>
      exact map_zipWith (fun _ _ => rfl) (by simpa [normalParts] using lengths)
  | record c u fields =>
      exact map_zipWith (fun _ _ => rfl) (by simpa [normalParts] using lengths)
  | tuple components type =>
      have one : (l.drop components.length).length = 1 := by
        simp [lengths, normalParts]
      obtain ⟨type', last⟩ := List.length_eq_one_iff.mp one
      rw [withParts, last, normalParts, List.headD_cons, ← last, List.take_append_drop]
  | con c u params args =>
      simp [withParts, normalParts]

end Term

section Sequences

variable {α β γ : Type}

theorem mapM_zipWith (f : α → Fresh β) (get : γ → α) (put : γ → β → γ) (l : List γ) :
    (l.mapM fun c => do return put c (← f (get c))) = do
      return l.zipWith put (← (l.map get).mapM f) := by
  induction l with
  | nil => simp
  | cons c others ih =>
      simp only [List.mapM_cons, List.map_cons, ih, bind_assoc, pure_bind, List.zipWith_cons_cons]

theorem mapM_split (f : α → Fresh β) (l others : List α) (g : List β → List β → γ) :
    (do return g (← l.mapM f) (← others.mapM f)) = do
      let all ← (l ++ others).mapM f
      return g (all.take l.length) (all.drop l.length) := by
  induction l generalizing g with
  | nil => simp
  | cons a l ih =>
      simp only [List.mapM_cons, List.cons_append, bind_assoc, pure_bind, List.length_cons,
        List.take_succ_cons, List.drop_succ_cons]
      exact bind_congr fun x => ih fun xs ys => g (x :: xs) ys

theorem forall_mem_of_forall₂ {R : α → β → Prop} {P : β → Prop} {l : List α} {r : List β}
    (related : List.Forall₂ R l r) (holds : ∀ a b, R a b → P b) : ∀ b ∈ r, P b := by
  induction related with
  | nil => exact nofun
  | cons head _ ih => exact List.forall_mem_cons.mpr ⟨holds _ _ head, ih⟩

theorem forall₂_and_right {R : α → β → Prop} {P : β → Prop} {l : List α} {r : List β}
    (related : List.Forall₂ R l r) (holds : ∀ b ∈ r, P b) :
    List.Forall₂ (fun a b => R a b ∧ P b) l r := by
  induction related with
  | nil => exact .nil
  | cons head _ ih =>
      obtain ⟨first, others⟩ := List.forall_mem_cons.mp holds
      exact .cons ⟨head, first⟩ (ih others)

end Sequences

/-- Normalization of the head, and then of the parts. -/
theorem nfWith_succ (env : Environment) (fuel : Nat) (t : Term) : nfWith env (fuel + 1) t = do
    let w ← t.whnf env
    return w.withParts (← w.normalParts.mapM (nfWith env fuel)) := by
  unfold nfWith
  refine bind_congr fun w => ?_
  cases w with
  | sigma params =>
      have parts := mapM_zipWith (nfWith env fuel) Binding.type
        (fun b a => { b with type := a }) params
      simp only [parts, Term.withParts, Term.normalParts]
      simp
  | record c u fields =>
      have parts := mapM_zipWith (nfWith env fuel) Prod.snd (fun entry a => (entry.1, a)) fields
      simp only [parts, Term.withParts, Term.normalParts]
      simp
  | tuple components type =>
      have parts := mapM_split (nfWith env fuel) components [type] fun l r =>
        Term.tuple l (r.headD type)
      simp only [Term.withParts, Term.normalParts, ← parts]
      simp
  | con c u params args =>
      exact mapM_split (nfWith env fuel) params args (Term.con c u)
  | _ => simp [Term.withParts, Term.normalParts]

namespace Term

/-- A rule that looks below the head applies to the term as it stands: transport along a family
    without its variable, or a field of an instance that fixes it. -/
def Awake (env : Environment) : Term → Prop
  | call f _ (lam _ x _ body :: others) => x ∉ body.freeVars ∧ others ≠ [] ∧
      ∃ fn, env.function? f = some fn ∧ fn.transports = true ∧
        fn.params.length = others.length + 1
  | field f _ (new r) => (r.fixed? f).isSome
  | _ => False

/-- No part that normalization comes to is awake. -/
def Quiet (env : Environment) (t : Term) : Prop :=
  ∀ u, Relation.ReflTransGen (fun a b => b ∈ a.normalParts) t u → ¬ u.Awake env

variable {env : Environment} {n : Nat}

theorem Quiet.here {t : Term} (quiet : t.Quiet env) : ¬ t.Awake env := quiet t .refl

theorem Quiet.part {t p : Term} (quiet : t.Quiet env) (member : p ∈ t.normalParts) :
    p.Quiet env := fun u reached => quiet u (.head member reached)

theorem quiet_of_parts {t : Term} (here : ¬ t.Awake env)
    (parts : ∀ p ∈ t.normalParts, p.Quiet env) : t.Quiet env := by
  intro u reached
  rcases reached.cases_head with rfl | ⟨p, member, rest⟩
  · exact here
  · exact parts p member u rest

theorem Below.normalParts {t : Term} (below : t.Below n) : ∀ p ∈ t.normalParts, p.Below n := by
  intro p member
  cases t with
  | lam mode x a b =>
      obtain ⟨first, _, second⟩ := below_lam.mp below
      rcases List.mem_pair.mp member with rfl | rfl <;> assumption
  | pi mode x a b =>
      obtain ⟨first, _, second⟩ := below_pi.mp below
      rcases List.mem_pair.mp member with rfl | rfl <;> assumption
  | app a b =>
      obtain ⟨first, second⟩ := below_app.mp below
      rcases List.mem_pair.mp member with rfl | rfl <;> assumption
  | sigma params =>
      obtain ⟨b, inList, rfl⟩ := List.mem_map.mp member
      exact (below_sigma.mp below b inList).2
  | tuple components type =>
      obtain ⟨parts, last⟩ := below_tuple.mp below
      rcases List.mem_append.mp member with inParts | isType
      · exact parts p inParts
      · exact List.mem_singleton.mp isType ▸ last
  | proj a i => exact List.mem_singleton.mp member ▸ below_proj.mp below
  | field f u a => exact List.mem_singleton.mp member ▸ below_field.mp below
  | new a => exact List.mem_singleton.mp member ▸ below_new.mp below
  | call f u args => exact below_call.mp below p member
  | data d u args => exact below_data.mp below p member
  | caseOf args params result tree => exact (below_caseOf.mp below).1 p member
  | con c u params args =>
      obtain ⟨first, second⟩ := below_con.mp below
      exact (List.mem_append.mp member).elim (first p) (second p)
  | record c u fields =>
      obtain ⟨entry, inList, rfl⟩ := List.mem_map.mp member
      exact below_record.mp below entry inList
  | ref | univ | hole | error => cases member

theorem Below.withParts {t : Term} {l : List Term} (below : t.Below n)
    (lengths : l.length = t.normalParts.length) (parts : ∀ p ∈ l, p.Below n) :
    (t.withParts l).Below n := by
  cases t with
  | lam mode x a b =>
      obtain ⟨a', b', rfl⟩ := List.length_eq_two.mp lengths
      exact below_lam.mpr ⟨parts a' (by simp), (below_lam.mp below).2.1, parts b' (by simp)⟩
  | pi mode x a b =>
      obtain ⟨a', b', rfl⟩ := List.length_eq_two.mp lengths
      exact below_pi.mpr ⟨parts a' (by simp), (below_pi.mp below).2.1, parts b' (by simp)⟩
  | app a b =>
      obtain ⟨a', b', rfl⟩ := List.length_eq_two.mp lengths
      exact below_app.mpr ⟨parts a' (by simp), parts b' (by simp)⟩
  | sigma params =>
      refine below_sigma.mpr (forall_mem_zipWith fun b inParams a inList => ?_)
      exact ⟨(below_sigma.mp below b inParams).1, parts a inList⟩
  | record c u fields =>
      exact below_record.mpr (forall_mem_zipWith fun _ _ a inList => parts a inList)
  | tuple components type =>
      have one : (l.drop components.length).length = 1 := by
        simp [lengths, Term.normalParts]
      obtain ⟨type', last⟩ := List.length_eq_one_iff.mp one
      rw [Term.withParts, last]
      refine below_tuple.mpr ⟨fun p member => parts p (List.mem_of_mem_take member), ?_⟩
      exact parts type' (List.mem_of_mem_drop (by rw [last]; simp))
  | proj a i =>
      obtain ⟨a', rfl⟩ := List.length_eq_one_iff.mp lengths
      exact below_proj.mpr (parts a' (by simp))
  | field f u a =>
      obtain ⟨a', rfl⟩ := List.length_eq_one_iff.mp lengths
      exact below_field.mpr (parts a' (by simp))
  | new a =>
      obtain ⟨a', rfl⟩ := List.length_eq_one_iff.mp lengths
      exact below_new.mpr (parts a' (by simp))
  | call f u args => exact below_call.mpr parts
  | data d u args => exact below_data.mpr parts
  | caseOf args params result tree => exact below_caseOf.mpr ⟨parts, (below_caseOf.mp below).2⟩
  | con c u params args =>
      exact below_con.mpr ⟨fun p member => parts p (List.mem_of_mem_take member),
        fun p member => parts p (List.mem_of_mem_drop member)⟩
  | ref | univ | hole | error => exact below

end Term

section Below

variable {env : Environment} {low n : Nat}

/-- Every term is within the scope that allows all variables. -/
theorem Term.Below.everywhere {t : Term} (below : t.Below n) : t.Within (fun _ => True) n :=
  ⟨below, fun _ _ => trivial⟩

/-- A list of computations, one after the other: where each of them started and ended. -/
theorem mapM_runs {α β : Type} {f : α → Fresh β} {P : α → Nat → Prop}
    (order : ∀ a n b m, P a n → f a n = .ok (b, m) → n ≤ m)
    (keeps : ∀ a n m, n ≤ m → P a n → P a m) : ∀ (l : List α) (n : Nat), (∀ a ∈ l, P a n) →
    Yields (l.mapM f) n fun r m => List.Forall₂
      (fun a b => ∃ i j, n ≤ i ∧ j ≤ m ∧ P a i ∧ f a i = .ok (b, j)) l r
  | [], n, _ => by
      rw [List.mapM_nil]
      exact Yields.pure .nil
  | a :: l, n, all => by
      obtain ⟨head, tail⟩ := List.forall_mem_cons.mp all
      rw [List.mapM_cons]
      intro r k done
      obtain ⟨b, m, first, next⟩ := fresh_bind done
      obtain ⟨bs, k, others, final⟩ := fresh_bind next
      cases fresh_pure final
      have here := order a n b m head first
      obtain ⟨later, related⟩ := mapM_runs order keeps l m
        (fun a member => keeps a n m here (tail a member)) bs k others
      refine ⟨here.trans later, .cons ⟨n, m, Nat.le_refl n, later, head, first⟩ ?_⟩
      refine related.imp fun a b ⟨i, j, after, before, rest⟩ => ?_
      exact ⟨i, j, here.trans after, before, rest⟩

/-- A part and its normal form, found between these two values of the counter. -/
def Parted (env : Environment) (low fuel n m : Nat) (p p' : Term) : Prop :=
  ∃ i j, n ≤ i ∧ j ≤ m ∧ (low ≤ i ∧ p.Below i) ∧ nfWith env fuel p i = .ok (p', j)

/-- What a run of normalization is made of. -/
structure Normalized (env : Environment) (low fuel : Nat) (t : Term) (n : Nat) (t' : Term)
    (m : Nat) : Prop where
  run : ∃ w i l, t.whnf env n = .ok (w, i) ∧ n ≤ i ∧ w.Below i ∧ i ≤ m ∧
    List.Forall₂ (Parted env low fuel i m) w.normalParts l ∧ t' = w.withParts l

theorem normalized_of_yields (known : env.Within (fun _ => True) low) {fuel : Nat}
    (yields : ∀ p n, low ≤ n → p.Below n → Yields (nfWith env fuel p) n fun p' m => p'.Below m)
    {t : Term} (order : low ≤ n) (below : t.Below n) :
    Yields (nfWith env (fuel + 1) t) n fun t' m => Normalized env low fuel t n t' m := by
  intro t' m done
  rw [nfWith_succ] at done
  obtain ⟨w, i, head, next⟩ := fresh_bind done
  obtain ⟨l, k, parts, final⟩ := fresh_bind next
  cases fresh_pure final
  obtain ⟨later, within⟩ := Term.whnf_within known t n order below.everywhere w i head
  obtain ⟨last, runs⟩ := mapM_runs (P := fun p i => low ≤ i ∧ Term.Below i p)
    (fun p n p' m here done => (yields p n here.1 here.2 p' m done).1)
    (fun p n m later here => ⟨here.1.trans later, here.2.mono later⟩) w.normalParts i
    (fun p member => ⟨order.trans later, within.below.normalParts p member⟩) l m parts
  exact ⟨later.trans last, w, i, l, head, later, within.below, last, runs, rfl⟩

/-- Normalization makes no variable that is not new. -/
theorem nfWith_yields (known : env.Within (fun _ => True) low) (fuel : Nat) :
    ∀ (t : Term) (n : Nat), low ≤ n → t.Below n →
      Yields (nfWith env fuel t) n fun t' m => t'.Below m := by
  induction fuel with
  | zero =>
      intro t n _ _
      exact Yields.throw
  | succ fuel ih =>
      intro t n order below t' m done
      obtain ⟨later, w, i, l, _, _, old, last, runs, rfl⟩ :=
        normalized_of_yields known ih order below t' m done
      refine ⟨later, (old.mono last).withParts runs.length_eq.symm ?_⟩
      refine forall_mem_of_forall₂ runs fun p p' ⟨_, j, _, before, here, done⟩ => ?_
      exact (ih p _ here.1 here.2 p' j done).2.mono before

theorem nfWith_normalized (known : env.Within (fun _ => True) low) {fuel : Nat} {t t' : Term}
    {m : Nat} (order : low ≤ n) (below : t.Below n)
    (done : nfWith env (fuel + 1) t n = .ok (t', m)) : Normalized env low fuel t n t' m :=
  (normalized_of_yields known (nfWith_yields known fuel) order below t' m done).2

end Below

section Steadiness

variable {env : Environment} {low : Nat}

/-- A reading and that of a normal form that is quiet, found with less than so much fuel. -/
def Normal (env : Environment) (low fuel : Nat) (a b : Nameless) : Prop :=
  ∃ k < fuel, ∃ t t' n m, low ≤ n ∧ t.Below n ∧ nfWith env k t n = .ok (t', m) ∧ t'.Quiet env ∧
    a = t.reading ∧ b = t'.reading

theorem Normal.mono {fuel larger : Nat} {a b : Nameless} (normal : Normal env low fuel a b)
    (order : fuel ≤ larger) : Normal env low larger a b := by
  obtain ⟨k, less, rest⟩ := normal
  exact ⟨k, less.trans_le order, rest⟩

theorem Alike.mono {R S : Nameless → Nameless → Prop} (wider : ∀ a b, R a b → S a b)
    {v w : Nameless} (look : Alike env R v w) : Alike env S v w where
  shape := by
    have shapes := look.shape
    cases first : v.shape? <;> cases second : w.shape? <;> rw [first, second] at shapes <;>
      cases shapes
    · exact .none
    · rename_i related
      exact .some ⟨related.1, related.2.imp wider⟩
  ends := look.ends
  lam := look.lam

section Parts

variable {R : Nameless → Nameless → Prop} {w : Term} {l : List Term}

theorem parts_length
    (parts : List.Forall₂ R (w.normalParts.map Term.reading) (l.map Term.reading)) :
    l.length = w.normalParts.length := by
  simpa using parts.length_eq.symm

/-- Normal parts in the places of the others look the same from outside. -/
theorem alike_withParts
    (parts : List.Forall₂ R (w.normalParts.map Term.reading) (l.map Term.reading)) :
    Alike env R w.reading (w.withParts l).reading := by
  have lengths := parts_length parts
  refine ⟨?_, ?_, ?_⟩
  · rw [Term.shape?_reading, Term.shape?_reading]
    cases w with
    | lam | pi | app =>
        obtain ⟨a', b', rfl⟩ := List.length_eq_two.mp lengths
        exact .none
    | proj | field | new =>
        obtain ⟨a', rfl⟩ := List.length_eq_one_iff.mp lengths
        exact .none
    | con c u params args =>
        have later := List.forall₂_drop params.length parts
        simp only [Term.normalParts, List.map_append, ← List.map_drop] at later
        rw [List.drop_left' (by simp)] at later
        exact .some ⟨rfl, later⟩
    | tuple components type =>
        have first := List.forall₂_take components.length parts
        simp only [Term.normalParts, List.map_append, ← List.map_take] at first
        rw [List.take_left' (by simp)] at first
        have count : (l.take components.length).length = components.length := by
          simpa using first.length_eq.symm
        exact .some ⟨by simp only [count], first⟩
    | _ => exact .none
  · rw [Term.endpoint?_reading, Term.endpoint?_reading]
    cases w with
    | lam | pi | app =>
        obtain ⟨a', b', rfl⟩ := List.length_eq_two.mp lengths
        rfl
    | proj | field | new =>
        obtain ⟨a', rfl⟩ := List.length_eq_one_iff.mp lengths
        rfl
    | _ => rfl
  · rw [Term.lamBody?_reading, Term.lamBody?_reading]
    cases w with
    | lam => nofun
    | pi | app =>
        obtain ⟨a', b', rfl⟩ := List.length_eq_two.mp lengths
        exact id
    | proj | field | new =>
        obtain ⟨a', rfl⟩ := List.length_eq_one_iff.mp lengths
        exact id
    | _ => exact id

theorem depends_of_asleep {f : DefId} {u : Universe} {args : List Term}
    (asleep : ¬ (Term.call f u args).Awake env) {fn : FunctionDef}
    (known : env.function? f = some fn) (transports : fn.transports = true)
    (saturated : fn.params.length = args.length) : Depends (args.map Term.reading) := by
  intro family others body isArgs nonempty isLam
  cases args with
  | nil => cases isArgs
  | cons a rest =>
      cases isArgs
      rw [Term.lamBody?_reading] at isLam
      cases a with
      | lam mode x domain b =>
          cases isLam
          rw [mentions_iff]
          by_contra unused
          refine asleep ⟨unused, ?_, fn, known, transports, saturated⟩
          rintro rfl
          exact nonempty rfl
      | _ => cases isLam

theorem unfixed_of_asleep {f : DefId} {u : Universe} {a : Term}
    (asleep : ¬ (Term.field f u a).Awake env) : a.reading.fixed? f = none := by
  rw [Term.fixed?_reading]
  cases a with
  | new r =>
      have none : r.fixed? f = Option.none := by
        simpa [Term.Awake] using asleep
      simp [none]
  | _ => rfl

/-- A step that does not happen does not happen with normal parts either. -/
theorem headStep?_withParts {whnf : Nameless → Traced Nameless} (steady : Steady env whnf R)
    (parts : List.Forall₂ R (w.normalParts.map Term.reading) (l.map Term.reading))
    (asleep : ¬ (w.withParts l).Awake env) :
    Stays (w.reading.headStep? env whnf) ((w.withParts l).reading.headStep? env whnf) := by
  have lengths := parts_length parts
  cases w with
  | ref | hole | univ | error => exact id
  | sigma | tuple | con | data | record => exact fun _ => rfl
  | lam | pi =>
      obtain ⟨a', b', rfl⟩ := List.length_eq_two.mp lengths
      exact fun _ => rfl
  | new =>
      obtain ⟨a', rfl⟩ := List.length_eq_one_iff.mp lengths
      exact fun _ => rfl
  | app fn arg =>
      obtain ⟨fn', arg', rfl⟩ := List.length_eq_two.mp lengths
      cases parts with
      | cons head _ => exact app_stays steady head arg.reading arg'.reading
  | proj whole i =>
      obtain ⟨whole', rfl⟩ := List.length_eq_one_iff.mp lengths
      cases parts with
      | cons head _ => exact proj_stays steady head i
  | field f u arg =>
      obtain ⟨arg', rfl⟩ := List.length_eq_one_iff.mp lengths
      cases parts with
      | cons head _ => exact field_stays steady head f u (unfixed_of_asleep asleep)
  | call f u args =>
      rw [call_headStep?, Term.withParts, call_headStep?]
      refine unfolding?_stays steady f u parts fun fn known transports saturated => ?_
      exact depends_of_asleep asleep known transports (by simpa using saturated)
  | caseOf args params result tree =>
      rw [caseOf_headStep?, Term.withParts, caseOf_headStep?]
      exact walk_stays steady [] tree.reading _ [] _ parts

end Parts

/-- Normal forms are their own values, and look like the values that they come from. -/
theorem steady_normal (known : env.Within (fun _ => True) low) (k : Nat) : ∀ fuel : Nat,
    Steady env (Nameless.whnfWith env fuel) (Normal env low k) := by
  induction k with
  | zero =>
      rintro fuel a b ⟨_, impossible, _⟩
      exact absurd impossible (Nat.not_lt_zero _)
  | succ k ih =>
      rintro fuel a b ⟨j, less, t, t', n, m, order, below, done, quiet, rfl, rfl⟩ v value
      have smaller : ∀ a b, Normal env low k a b → Normal env low (k + 1) a b :=
        fun _ _ normal => normal.mono (Nat.le_succ k)
      rcases Nat.lt_succ_iff_lt_or_eq.mp less with less | rfl
      · obtain ⟨same, look⟩ := ih fuel t.reading t'.reading
          ⟨j, less, t, t', n, m, order, below, done, quiet, rfl, rfl⟩ v value
        exact ⟨same, look.mono smaller⟩
      · cases j with
        | zero => cases done
        | succ j =>
            obtain ⟨w, i, l, head, later, old, last, runs, rfl⟩ :=
              (nfWith_normalized known order below done).run
            have parts : List.Forall₂ (Normal env low (j + 1)) (w.normalParts.map Term.reading)
                (l.map Term.reading) := by
              have inside : ∀ p' ∈ l, p'.Quiet env := fun p' member => quiet.part <| by
                rwa [Term.normalParts_withParts runs.length_eq.symm]
              rw [List.forall₂_map_left_iff, List.forall₂_map_right_iff]
              refine (forall₂_and_right runs inside).imp fun p p' ⟨related, quiet⟩ => ?_
              obtain ⟨i, m, _, _, ⟨order, below⟩, done⟩ := related
              exact ⟨j, Nat.lt_succ_self j, p, p', i, m, order, below, done, quiet, rfl, rfl⟩
            have ended : v = w.reading := by
              obtain ⟨y, result, rfl⟩ :=
                (whnfWith_mirrors known env.fuel t n order below.everywhere).ok head
              have first := (whnfWith_le env (Nat.le_max_left fuel env.fuel) _).result? value
              have second := (whnfWith_le env (Nat.le_max_right fuel env.fuel) _).result? result
              exact Option.some.inj (first.symm.trans second)
            subst ended
            obtain ⟨g, rfl, stops⟩ := whnfWith_last env value
            have stays := headStep?_withParts (ih g) parts quiet.here stops
            refine ⟨?_, (alike_withParts parts).mono smaller⟩
            rw [Nameless.whnfWith, Traced.result?_bind, stays]
            rfl

/-- A term whose reading does not reduce stays as it is, name by name. -/
theorem whnf_of_reading (known : env.Within (fun _ => True) low) {t : Term} {i : Nat}
    (order : low ≤ i) (below : t.Below i)
    (stays : (Nameless.whnfWith env env.fuel t.reading).result? = some t.reading) :
    ∃ j, i ≤ j ∧ t.whnf env i = .ok (t, j) := by
  obtain ⟨g, enough, stops⟩ := whnfWith_last env stays
  have fair := whnfWith_within known g
  obtain ⟨o, j, done, nothing⟩ := (headStep?_mirrors fair (whnfWith_mirrors known g) known order
    below.everywhere).result stops
  obtain rfl : o = none := Option.map_eq_none_iff.mp nothing.symm
  refine ⟨j, (headStep?_within fair known order below.everywhere none j done).1, ?_⟩
  rw [Term.whnf, enough]
  exact fresh_then done rfl

/-- A quiet normal form does not reduce at its head. -/
theorem whnf_normal (known : env.Within (fun _ => True) low) {fuel n m i : Nat} {t t' : Term}
    (order : low ≤ n) (below : t.Below n) (done : nfWith env (fuel + 1) t n = .ok (t', m))
    (quiet : t'.Quiet env) (later : m ≤ i) : ∃ j, i ≤ j ∧ t'.whnf env i = .ok (t', j) := by
  obtain ⟨after, old⟩ := nfWith_yields known (fuel + 1) t n order below t' m done
  obtain ⟨w, k, l, head, _⟩ := (nfWith_normalized known order below done).run
  obtain ⟨_, value, _⟩ :=
    (whnfWith_mirrors known env.fuel t n order below.everywhere).ok head
  have normal : Normal env low (fuel + 2) t.reading t'.reading :=
    ⟨fuel + 1, Nat.lt_succ_self _, t, t', n, m, order, below, done, quiet, rfl, rfl⟩
  have stays := (steady_normal known (fuel + 2) env.fuel _ _ normal _ value).1
  exact whnf_of_reading known ((order.trans after).trans later) (old.mono later) stays

theorem mapM_fixed {α : Type} {f : α → Fresh α} {m : Nat} : ∀ (l : List α) (i : Nat), m ≤ i →
    (∀ a ∈ l, ∀ i, m ≤ i → ∃ j, i ≤ j ∧ f a i = .ok (a, j)) →
      ∃ j, i ≤ j ∧ l.mapM f i = .ok (l, j)
  | [], i, _, _ => ⟨i, Nat.le_refl i, rfl⟩
  | a :: l, i, order, fixed => by
      obtain ⟨head, tail⟩ := List.forall_mem_cons.mp fixed
      obtain ⟨j, later, first⟩ := head i order
      obtain ⟨k, last, others⟩ := mapM_fixed l j (order.trans later) tail
      refine ⟨k, later.trans last, ?_⟩
      rw [List.mapM_cons]
      exact fresh_then first (fresh_then others rfl)

/-- A quiet normal form is its own normal form, whatever the counter has come to. -/
theorem nfWith_fixed (known : env.Within (fun _ => True) low) (fuel : Nat) : ∀ (t t' : Term)
    (n m : Nat), low ≤ n → t.Below n → nfWith env fuel t n = .ok (t', m) → t'.Quiet env →
      ∀ i, m ≤ i → ∃ j, i ≤ j ∧ nfWith env fuel t' i = .ok (t', j) := by
  induction fuel with
  | zero =>
      intro t t' n m _ _ done
      cases done
  | succ fuel ih =>
      intro t t' n m order below done quiet i later
      obtain ⟨j, after, head⟩ := whnf_normal known order below done quiet later
      obtain ⟨w, k, l, _, _, _, _, runs, rfl⟩ := (nfWith_normalized known order below done).run
      have parts : (w.withParts l).normalParts = l :=
        Term.normalParts_withParts runs.length_eq.symm
      have fixed : ∀ p' ∈ l, ∀ i, m ≤ i → ∃ j, i ≤ j ∧ nfWith env fuel p' i = .ok (p', j) := by
        have inside : ∀ p' ∈ l, p'.Quiet env := fun p' member => quiet.part (by rwa [parts])
        refine forall_mem_of_forall₂ (forall₂_and_right runs inside) ?_
        intro p p' ⟨⟨n, k, _, before, ⟨order, below⟩, done⟩, quiet⟩ i later
        exact ih p p' n k order below done quiet i (before.trans later)
      obtain ⟨e, last, all⟩ := mapM_fixed l j (later.trans after) fixed
      refine ⟨e, after.trans last, ?_⟩
      rw [nfWith_succ]
      refine fresh_then head (fresh_then (x := l) (m := e) ?_ ?_)
      · rw [parts]
        exact all
      · have same := Term.withParts_normalParts (w.withParts l)
        rw [parts] at same
        rw [same]
        rfl

end Steadiness

/-- Normalization is idempotent where it ends in a quiet term: the second normal form is the first
    one, name by name. -/
theorem nf_idempotent {env : Environment} {t t' : Term} {n m i : Nat}
    (known : env.Within (fun _ => True) n) (below : t.Below n)
    (done : t.nf env n = .ok (t', m)) (quiet : t'.Quiet env) (later : m ≤ i) :
    ∃ j, t'.nf env i = .ok (t', j) := by
  obtain ⟨j, _, again⟩ :=
    nfWith_fixed known env.fuel t t' n m (Nat.le_refl n) below done quiet i later
  exact ⟨j, again⟩

section Example

open Library

def bend : Var := ⟨32, "i"⟩

def bent : Var := ⟨33, "P"⟩

def start : Var := ⟨34, "a"⟩

def place : Var := ⟨35, "j"⟩

/-- Transport along the family that applies the function at the point. -/
def along (fn : Term) : Term :=
  coeOf (.lam .explicit bend intervalType (.app fn (.ref bend))) (.ref start) (.ref place)

/-- A function that is given as one of another variable. -/
def expanded (body : Term → Term) : Term :=
  .lam .explicit ⟨36, "k"⟩ intervalType (body (.ref ⟨36, "k"⟩))

theorem along_quiet : (along (.ref bent)).Quiet (environment 10) := by
  have ref : ∀ x, (Term.ref x).Quiet (environment 10) := fun x => Term.quiet_of_parts id nofun
  have app : (Term.app (.ref bent) (.ref bend)).Quiet (environment 10) :=
    Term.quiet_of_parts id (by simp [Term.normalParts, ref])
  have line : intervalType.Quiet (environment 10) := Term.quiet_of_parts id nofun
  have family : (Term.lam .explicit bend intervalType (.app (.ref bent) (.ref bend))).Quiet
      (environment 10) := Term.quiet_of_parts id (by simp [Term.normalParts, line, app])
  refine Term.quiet_of_parts (fun awake => awake.1 (by decide)) ?_
  simp [along, coeOf, Term.normalParts, family, ref]

/-- Where the family still depends on the point, the normal form stays. -/
theorem along_idempotent :
    (along (expanded (.app (.ref bent)))).nf (environment 10) 37 =
      .ok (along (.ref bent), 37) ∧
    ∃ j, (along (.ref bent)).nf (environment 10) 37 = .ok (along (.ref bent), j) := by
  have known : (environment 10).Within (fun _ => True) 37 :=
    ((library_within 10).widen fun _ _ => trivial).mono (by decide)
  have below : (along (expanded (.app (.ref bent)))).Below 37 := by
    unfold Term.Below Scoped.Below
    decide
  exact ⟨rfl, nf_idempotent known below rfl along_quiet (Nat.le_refl 37)⟩

/-- The family is a function of the point that turns out not to depend on it only once the body is
    normal; the transport, passed over before, is dropped the next time. -/
theorem along_constant_awakes :
    (along (expanded fun _ => natType)).nf (environment 10) 37 =
      .ok (coeOf (.lam .explicit bend intervalType natType) (.ref start) (.ref place), 37) ∧
    (coeOf (.lam .explicit bend intervalType natType) (.ref start) (.ref place)).nf
        (environment 10) 37 = .ok (.ref start, 37) ∧
    coeOf (.lam .explicit bend intervalType natType) (.ref start) (.ref place) ≠ .ref start :=
  ⟨rfl, rfl, nofun⟩

end Example

end PathTheory
