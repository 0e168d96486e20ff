import PathTheory.Proofs.Reduction.Views
import PathTheory.Proofs.Syntax.Freshness
/-!
Reduction of a term and of its reading. The main statement is that weak head reduction of a term
ends if and only if reduction of its reading does, and that it ends in a term of the reading that
the other one ends in: the names of binders and the counter make no difference.
-/
namespace PathTheory

/-- Both computations fail, or both end, in results that are related. -/
def Mirrors {α β : Type} (a : Fresh α) (n : Nat) (b : Traced β) (R : α → β → Prop) : Prop :=
  match a n, b.result? with
  | .ok (x, _), some y => R x y
  | .error _, none => True
  | _, _ => False

namespace Mirrors

variable {α β γ δ : Type} {a : Fresh α} {b : Traced β} {n : Nat} {R : α → β → Prop}
  {S : γ → δ → Prop}

theorem pure {x : α} {y : β} (related : R x y) : Mirrors (pure x) n (pure y) R := related

theorem fail {fault other : Fault} : Mirrors (throw fault) n (.fail other) R := trivial

theorem ok {x : α} {m : Nat} (mirrors : Mirrors a n b R) (done : a n = .ok (x, m)) :
    ∃ y, b.result? = some y ∧ R x y := by
  unfold Mirrors at mirrors
  rw [done] at mirrors
  cases second : b.result? with
  | none =>
      rw [second] at mirrors
      cases mirrors
  | some y =>
      rw [second] at mirrors
      exact ⟨y, rfl, mirrors⟩

theorem result {y : β} (mirrors : Mirrors a n b R) (done : b.result? = some y) :
    ∃ x m, a n = .ok (x, m) ∧ R x y := by
  unfold Mirrors at mirrors
  rw [done] at mirrors
  cases first : a n with
  | error fault =>
      rw [first] at mirrors
      cases mirrors
  | ok r =>
      rw [first] at mirrors
      exact ⟨r.1, r.2, rfl, mirrors⟩

theorem of_ok {x : α} {m : Nat} {y : β} (done : a n = .ok (x, m)) (ends : b.result? = some y)
    (related : R x y) : Mirrors a n b R := by
  unfold Mirrors
  rw [done, ends]
  exact related

theorem of_error {fault : Fault} (failed : a n = .error fault) (stops : b.result? = none) :
    Mirrors a n b R := by
  unfold Mirrors
  rw [failed, stops]
  trivial

theorem bind {P : α → Nat → Prop} {f : α → Fresh γ} {g : β → Traced δ}
    (mirrors : Mirrors a n b R) (yields : Yields a n P)
    (next : ∀ x m y, n ≤ m → P x m → R x y → Mirrors (f x) m (g y) S) :
    Mirrors (a >>= f) n (b >>= g) S := by
  have whole : (a >>= f) n = a n >>= fun r => f r.1 r.2 := rfl
  cases first : a n with
  | error fault =>
      have stops : b.result? = none := by
        unfold Mirrors at mirrors
        rw [first] at mirrors
        cases second : b.result? with
        | none => rfl
        | some y =>
            rw [second] at mirrors
            cases mirrors
      exact of_error (by rw [whole, first]; rfl) (by rw [Traced.result?_bind, stops]; rfl)
  | ok r =>
      obtain ⟨x, m⟩ := r
      obtain ⟨order, holds⟩ := yields x m first
      obtain ⟨y, second, related⟩ := mirrors.ok first
      have rest := next x m y order holds related
      unfold Mirrors at rest ⊢
      rw [whole, first, Traced.result?_bind, second]
      exact rest

/-- The first computation makes a step of its own. -/
theorem after {x : α} {m : Nat} {f : α → Fresh γ} {d : Traced δ} (done : a n = .ok (x, m))
    (rest : Mirrors (f x) m d S) : Mirrors (a >>= f) n d S := by
  have whole : (a >>= f) n = f x m := by
    change (a n >>= fun r => f r.1 r.2) = _
    rw [done]
    rfl
  unfold Mirrors at rest ⊢
  rwa [whole]

/-- The first computation ends with a look at its result. -/
theorem finish {T : γ → β → Prop} {f : α → Fresh γ} {g : α → γ} (mirrors : Mirrors a n b R)
    (ends : ∀ x, f x = Pure.pure (g x)) (related : ∀ x y, R x y → T (g x) y) :
    Mirrors (a >>= f) n b T := by
  have whole : (a >>= f) n = a n >>= fun r => .ok (g r.1, r.2) := by
    change (a n >>= fun r => f r.1 r.2) = _
    simp only [ends]
    rfl
  unfold Mirrors at mirrors ⊢
  rw [whole]
  cases first : a n <;> cases second : b.result? <;> simp only [first, second] at mirrors ⊢
  · trivial
  · exact related _ _ mirrors

end Mirrors

theorem Mirrors.pass {α β : Type} {a : Fresh α} {n : Nat} {b : Traced β} {R : α → β → Prop}
    (mirrors : Mirrors a n b R) (p : Passed) : Mirrors a n (do Traced.pass p; b) R := by
  unfold Mirrors at mirrors ⊢
  rw [Traced.result?_bind]
  exact mirrors

/-- The bodies of an interval node, or what a walk ends with. -/
def EndsOutcome.body? : EndsOutcome → Option Term
  | .body t => some t
  | .none _ => Option.none

def Walk.result? : Walk → Option Term
  | .reduced t => some t
  | .stuck _ | .missing => none

section Walking

variable {env : Environment} {whnf : Term → Fresh Term} {reduce : Nameless → Traced Nameless}
  {V : Var → Prop} {low : Nat}

/-- Reduction of subterms and reduction of their readings. -/
def Mirroring (whnf : Term → Fresh Term) (reduce : Nameless → Traced Nameless) (V : Var → Prop)
    (low : Nat) : Prop :=
  ∀ t n, low ≤ n → t.Within V n → Mirrors (whnf t) n (reduce t.reading) fun v y => y = v.reading

theorem tryEnds_mirrors (fair : Fair whnf V low) (mirror : Mirroring whnf reduce V low)
    {W : Var → Prop} (scope : List Var) : ∀ (l : List (Ends Term × Term)) (blocked : Option Term)
    (n : Nat), low ≤ n → (∀ e ∈ l, PairWithin V W n e) →
    Mirrors (tryEnds env whnf l blocked) n
      (Nameless.tryEnds env reduce
        (l.map fun e => (e.1.map fun t => t.toScoped.read scope, e.2.reading)))
      fun o y => y = o.body?.map fun t => t.toScoped.read scope := by
  intro l
  induction l with
  | nil =>
      intro blocked n _ _
      exact Mirrors.pure rfl
  | cons e others ih =>
      intro blocked n order within
      obtain ⟨here, rest⟩ := List.forall_mem_cons.mp within
      have later : ∀ m, n ≤ m → ∀ e ∈ others, PairWithin V W m e :=
        fun m next e member => (rest e member).mono next
      unfold tryEnds
      simp only [List.map_cons, Nameless.tryEnds, Ends.map_isEmpty]
      split
      · exact ih blocked n order rest
      · refine (mirror e.2 n order here.2).bind (fair e.2 n order here.2) ?_
        rintro arg m _ next _ rfl
        rw [Term.endpoint?_reading]
        cases arg.endpoint? env with
        | none =>
            exact (ih (blocked <|> some arg) m (order.trans next) (later m next)).pass _
        | some side =>
            simp only [Ends.map_at?]
            cases e.1.at? side with
            | none => exact ih blocked m (order.trans next) (later m next)
            | some body => exact Mirrors.pure rfl

theorem walkBranch_telescope {params : Telescope} {rest : Parts} (scope : List Var)
    (ρ args : List Nameless) : ((telescopeParts params rest).read scope).walkBranch env reduce ρ args =
      if args.length < params.length then pure none
      else (rest.read (params.vars.reverse ++ scope)).walkBranch env reduce
        ((args.take params.length).reverse ++ ρ) (args.drop params.length) := by
  induction params generalizing scope ρ args with
  | nil => simp [telescopeParts, Telescope.vars]
  | cons b params ih =>
      cases args with
      | nil => rfl
      | cons a args =>
          have later := ih (b.var :: scope) (a :: ρ) args
          simp only [telescopeParts, Parts.read, NamelessParts.walkBranch, later]
          simp [Telescope.vars]

theorem walkBranch_children (children : List (Shape × CaseTree)) (scope : List Var)
    (ρ : List Nameless) (arg : Nameless) (args : List Nameless) :
    ((childrenParts children).read scope).walkBranch env reduce ρ (arg :: args) =
      Nameless.inspect reduce arg fun shape components =>
        ((childrenParts children).read scope).walkChildren env reduce ρ shape
          (components ++ args) := by
  cases children with
  | nil => rfl
  | cons entry others =>
      obtain ⟨k, child⟩ := entry
      cases others <;> rfl

theorem walkBranch_nil (children : List (Shape × CaseTree)) (scope : List Var)
    (ρ : List Nameless) :
    ((childrenParts children).read scope).walkBranch env reduce ρ [] = pure none := by
  cases children with
  | nil => rfl
  | cons entry others =>
      obtain ⟨k, child⟩ := entry
      cases others <;> rfl

section Nodes

variable (params : Telescope) (scope : List Var) (ρ args : List Nameless)

/-- The values of the parameters, in the order of their scope. -/
abbrev taken (params : Telescope) (ρ args : List Nameless) : List Nameless :=
  (args.take params.length).reverse ++ ρ

theorem walk_leaf_reading (body : Term) :
    ((CaseTree.leaf params body).toScoped.read scope).walk env reduce ρ args =
      if args.length < params.length then pure none
      else pure (some (((body.toScoped.read (params.vars.reverse ++ scope)).fill
        (taken params ρ args) 0).applyAll (args.drop params.length))) := by
  simp only [CaseTree.toScoped, Scoped.read, Nameless.walk,
    telescopeParts_enter (Parts.one_stops _)]
  by_cases short : args.length < params.length
  · rw [if_pos short, if_pos short]
  · rw [if_neg short, if_neg short]
    rfl

theorem walk_branch_reading (children : List (Shape × CaseTree)) :
    ((CaseTree.branch params children).toScoped.read scope).walk env reduce ρ args =
      if args.length < params.length then pure none
      else ((childrenParts children).read (params.vars.reverse ++ scope)).walkBranch env reduce
        (taken params ρ args) (args.drop params.length) := by
  simp only [CaseTree.toScoped, Scoped.read, Nameless.walk, walkBranch_telescope]

/-- The ends of an interval node belong to the last of its parameters. -/
def endsAt (params : Telescope) (scope : List Var) (ends : List (Ends Term))
    (args : List Nameless) : List (Ends Nameless × Nameless) :=
  (ends.map (Ends.map fun t => t.toScoped.read (params.vars.reverse ++ scope))).zip
    ((args.take params.length).drop (params.length - ends.length))

theorem walk_interval_reading (ends : List (Ends Term)) (rest : Option CaseTree) :
    ((CaseTree.interval params ends rest).toScoped.read scope).walk env reduce ρ args =
      if args.length < params.length then pure none
      else (do
        match ← Nameless.tryEnds env reduce (endsAt params scope ends args) with
        | some body =>
            return some ((body.fill (taken params ρ args) 0).applyAll (args.drop params.length))
        | none => ((restScoped rest).read scope).walkGiven env reduce ρ args) := by
  simp only [CaseTree.toScoped, Scoped.read, Parts.read, Parts.one, Nameless.walk,
    Nameless.atEnds, telescopeParts_enter (endsParts_stops _)]
  by_cases short : args.length < params.length
  · rw [if_pos short, if_pos short]
  · have count : args.length - (args.length - params.length) = params.length := by omega
    have length : min params.length args.length = params.length := by omega
    rw [if_neg short, if_neg short]
    simp only [endsParts_ends, List.length_map, List.length_drop, List.length_take, count, length]
    rfl

end Nodes

theorem endsAt_readings (params : Telescope) (scope : List Var) (ends : List (Ends Term))
    (args : List Term) : endsAt params scope ends (args.map Term.reading) =
      (ends.zip ((args.take params.length).drop (params.length - ends.length))).map fun e =>
        (e.1.map fun t => t.toScoped.read (params.vars.reverse ++ scope), e.2.reading) := by
  rw [endsAt, ← List.map_take, ← List.map_drop, List.zip_map]
  rfl

/-- What a walk of a tree and a walk of its reading end with. -/
abbrev Walks (w : Walk) (y : Option Nameless) : Prop := y = w.result?.map Term.reading

mutual

theorem walk_mirrors (fair : Fair whnf V low) (mirror : Mirroring whnf reduce V low) :
    ∀ (tree : CaseTree) {s : Subst} {scope : List Var} {ρ : List Nameless} {args : List Term}
      {n : Nat}, low ≤ n → tree.Within (s.Reach V) n → s.Within V n → s.Simple →
      (∀ a ∈ args, a.Within V n) → s.Agrees scope ρ →
      Mirrors (tree.walk env whnf s args) n
        ((tree.toScoped.read scope).walk env reduce ρ (args.map Term.reading)) Walks
  | .leaf params body, s, scope, ρ, args, n, order, tree, put, simple, within, agrees => by
      rw [walk_leaf_reading params, List.length_map]
      unfold CaseTree.walk
      split
      · exact Mirrors.pure rfl
      · rename_i enough
        have inReach := tree.leaf_body.widen (bind_scope enough)
        obtain ⟨⟨t, m⟩, done⟩ := (simple.bind params args).apply (n := n) env body
        obtain ⟨_, _, reading⟩ := (put.bind params within).simple_reading (simple.bind params args)
          inReach.below done
        refine Mirrors.after done (Mirrors.pure ?_)
        rw [(agrees.bind (Nat.le_of_not_lt enough)).reading_id, ← reading, ← List.map_drop]
        simp [Walks, Walk.result?, Term.applyAll_reading]
  | .branch params children, s, scope, ρ, args, n, order, tree, put, simple, within, agrees => by
      rw [walk_branch_reading params, List.length_map]
      unfold CaseTree.walk
      split
      · exact Mirrors.pure rfl
      · rename_i enough
        have rest : ∀ a ∈ args.drop params.length, a.Within V n := within_drop within
        rw [← List.map_drop]
        cases left : args.drop params.length with
        | nil =>
            rw [List.map_nil, walkBranch_nil]
            exact Mirrors.pure rfl
        | cons arg others =>
            rw [left] at rest
            obtain ⟨head, tail⟩ := List.forall_mem_cons.mp rest
            rw [List.map_cons, walkBranch_children]
            refine (mirror arg n order head).bind (fair arg n order head) ?_
            rintro scrutinee m _ next seen rfl
            rw [Term.shape?_reading]
            cases shown : scrutinee.shape? with
            | none => exact Mirrors.pure rfl
            | some found =>
                obtain ⟨shape, components⟩ := found
                have parts := seen.shown shown
                simp only [Option.map_some, ← List.map_append]
                refine walkChildren_mirrors fair mirror children (order.trans next) ?_
                  ((put.mono next).bind params (within_later within next))
                  (simple.bind params args) ?_ (agrees.bind (Nat.le_of_not_lt enough))
                · intro entry member
                  exact ((tree.children entry member).widen (bind_scope enough)).mono next
                · intro a member
                  rcases List.mem_append.mp member with part | other
                  · exact parts a part
                  · exact (tail a other).mono next
  | .interval params ends rest, s, scope, ρ, args, n, order, tree, put, simple, within, agrees => by
      rw [walk_interval_reading params, List.length_map, endsAt_readings]
      unfold CaseTree.walk
      split
      · exact Mirrors.pure rfl
      · rename_i enough
        have pairs : ∀ e ∈ ends.zip ((args.take params.length).drop
            (params.length - ends.length)), PairWithin V (Telescope.Scope params (s.Reach V)) n e := by
          intro e member
          obtain ⟨isEnd, isArg⟩ := List.of_mem_zip member
          exact ⟨tree.ends e.1 isEnd,
            within e.2 (List.mem_of_mem_take (List.mem_of_mem_drop isArg))⟩
        refine (tryEnds_mirrors fair mirror _ _ none n order pairs).bind
          (tryEnds_within fair _ none n order pairs (by simp)) ?_
        rintro o m _ next done rfl
        have laterArgs := within_later within next
        cases o with
        | body t =>
            have inReach := Term.Within.widen done (bind_scope enough)
            obtain ⟨⟨r, k⟩, ran⟩ := (simple.bind params args).apply (n := m) env t
            obtain ⟨_, _, reading⟩ := ((put.mono next).bind params laterArgs).simple_reading
              (simple.bind params args) inReach.below ran
            refine Mirrors.after ran (Mirrors.pure ?_)
            rw [(agrees.bind (Nat.le_of_not_lt enough)).reading_id, ← reading, ← List.map_drop]
            simp [Walks, Walk.result?, Term.applyAll_reading]
        | none blocked =>
            cases rest with
            | none => cases blocked <;> exact Mirrors.pure rfl
            | some rest =>
                exact walk_mirrors fair mirror rest (order.trans next)
                  ((tree.rest rest rfl).mono next) (put.mono next) simple laterArgs agrees

theorem walkChildren_mirrors (fair : Fair whnf V low) (mirror : Mirroring whnf reduce V low) :
    ∀ (children : List (Shape × CaseTree)) {s : Subst} {scope : List Var} {ρ : List Nameless}
      {shape : Shape} {args : List Term} {n : Nat}, low ≤ n →
      (∀ entry ∈ children, entry.2.Within (s.Reach V) n) → s.Within V n → s.Simple →
      (∀ a ∈ args, a.Within V n) → s.Agrees scope ρ →
      Mirrors (walkChildren env whnf s shape children args) n
        (((childrenParts children).read scope).walkChildren env reduce ρ shape
          (args.map Term.reading)) Walks
  | [], s, scope, ρ, shape, args, n, _, _, _, _, _, _ => by
      unfold walkChildren
      exact Mirrors.pure rfl
  | (k, child) :: others, s, scope, ρ, shape, args, n, order, trees, put, simple, within, agrees => by
      obtain ⟨head, tail⟩ := List.forall_mem_cons.mp trees
      have here : ((childrenParts ((k, child) :: others)).read scope).walkChildren env reduce ρ shape
          (args.map Term.reading) = if k.matches shape then
            (child.toScoped.read scope).walk env reduce ρ (args.map Term.reading)
          else ((childrenParts others).read scope).walkChildren env reduce ρ shape
            (args.map Term.reading) := rfl
      rw [here]
      unfold walkChildren
      split
      · exact walk_mirrors fair mirror child order head put simple within agrees
      · exact walkChildren_mirrors fair mirror others order tail put simple within agrees

end

theorem run_mirrors (env : Environment) (fair : Fair whnf V low) (mirror : Mirroring whnf reduce V low)
    {tree : CaseTree} {args : List Term} {n : Nat} (order : low ≤ n) (inScope : tree.Within V n)
    (within : ∀ a ∈ args, a.Within V n) :
    Mirrors (tree.run env whnf args) n
      (tree.reading.walk env reduce [] (args.map Term.reading)) Walks :=
  walk_mirrors fair mirror tree order (inScope.widen fun _ => Or.inl) Subst.within_empty
    ⟨rfl, rfl⟩ within Subst.agrees_empty

/-- What a step of a term and a step of its reading end with. -/
abbrev Steps (o : Option Term) (y : Option Nameless) : Prop := y = o.map Term.reading

theorem Term.lamBody?_reading (t : Term) : t.reading.lamBody? =
    match t with
    | .lam _ x _ body => some (body.toScoped.read [x])
    | _ => none := by
  cases t <;> rfl

/-- The body of a function mentions its argument just if the variable is free in it. -/
theorem mentions_iff (x : Var) (body : Term) :
    (body.toScoped.read [x]).mentions 0 = true ↔ x ∈ body.freeVars := by
  have used := body.toScoped.read_mentions x [] []
  simpa only [List.nil_append, List.length_nil, List.not_mem_nil, not_false_eq_true, and_true,
    Term.toScoped_freeVars] using used

theorem transport?_mirrors (fair : Fair whnf V low) (mirror : Mirroring whnf reduce V low)
    {args : List Term} {n : Nat} (order : low ≤ n) (within : ∀ a ∈ args, a.Within V n) :
    Mirrors (transport? whnf args) n (Nameless.transport? reduce (args.map Term.reading)) Steps := by
  cases args with
  | nil => exact Mirrors.pure rfl
  | cons family others =>
      have here := within family List.mem_cons_self
      refine (mirror family n order here).bind (fair family n order here) ?_
      rintro v m _ _ _ rfl
      rw [Term.lamBody?_reading]
      cases v with
      | lam mode x domain body =>
          have used := mentions_iff x body
          refine Mirrors.pure ?_
          by_cases member : x ∈ body.freeVars
          · simp [Steps, member, used.mpr member]
          · have unused : (body.toScoped.read [x]).mentions 0 = false := by
              simpa using used.not.mpr member
            simp [Steps, member, unused]
      | _ => exact Mirrors.pass (n := m) (Mirrors.pure rfl) (.family family.reading)

theorem Universe.hasCall_iff {levels u : Universe} :
    levels.hasCall u = true ↔ ∃ v, (Subst.std levels).sort u = .ok v := by
  unfold Universe.hasCall
  cases (Subst.std levels).sort u with
  | ok v => exact ⟨fun _ => ⟨v, rfl⟩, fun _ => rfl⟩
  | error fault => exact ⟨nofun, nofun⟩

theorem atCall_result? (levels : Universe) (t : Nameless) : (t.atCall levels).result? =
    if t.sorts.all levels.hasCall then some (t.inst (Subst.std levels).onUniverse .free)
    else none := by
  unfold Nameless.atCall
  split <;> rfl

/-- A term of a definition at the levels and arguments of a call. -/
theorem apply_mirrors (env : Environment) (levels : Universe) {s : Subst} {n : Nat}
    (within : s.Within V n) (atLevels : s.sort = (Subst.std levels).sort) {scope : List Var} {ρ : List Nameless}
    (agrees : s.Agrees scope ρ) {t : Term} (inReach : t.Within (s.Reach V) n) :
    Mirrors (s.apply env t) n ((t.toScoped.read scope).atCall levels)
      fun t' y => t'.reading = y.fill ρ 0 := by
  have succeeds := Subst.apply_ok_iff (n := n) within.still env t scope
  by_cases all : (t.toScoped.read scope).sorts.all levels.hasCall
  · have known : ∀ u ∈ (t.toScoped.read scope).sorts, ∃ v, s.sort u = .ok v := by
      simpa [atLevels, Universe.hasCall_iff] using all
    obtain ⟨⟨t', m⟩, done⟩ := succeeds.mpr known
    obtain ⟨_, _, reading⟩ := within.yields inReach t' m done
    refine Mirrors.of_ok done (by rw [atCall_result?, if_pos all]) ?_
    have same : s.onUniverse = (Subst.std levels).onUniverse := by
      funext u
      simp [Subst.onUniverse, atLevels]
    rw [reading, agrees.reading, same]
  · have fails : ¬ ∃ r, s.apply env t n = .ok r := by
      intro done
      apply all
      simpa [atLevels, Universe.hasCall_iff] using succeeds.mp done
    cases failed : s.apply env t n with
    | ok r => exact absurd ⟨r, failed⟩ fails
    | error fault => exact Mirrors.of_error failed (by rw [atCall_result?, if_neg all])

theorem applyTree_mirrors (levels : Universe) {n : Nat} {t : CaseTree} (within : t.Within V n) :
    Mirrors ((Subst.std levels).applyTree env t) n (t.reading.atCall levels)
      fun t' y => y = t'.reading := by
  have put := (Subst.within_empty (V := V) (n := n)).addStd levels
  have inReach := within.widen fun x inScope => (Or.inl inScope : (Subst.std levels).Reach V x)
  have succeeds := Subst.applyTree_ok_iff (n := n) put.still env t []
  by_cases all : t.reading.sorts.all levels.hasCall
  · have known : ∀ u ∈ t.reading.sorts, ∃ v, (Subst.std levels).sort u = .ok v := by
      simpa [Universe.hasCall_iff] using all
    obtain ⟨⟨t', m⟩, done⟩ := succeeds.mpr known
    obtain ⟨_, _, reading⟩ := put.yields_tree inReach t' m done
    have ends : (t.reading.atCall levels).result? =
        some (t.reading.inst (Subst.std levels).onUniverse .free) := by
      rw [atCall_result?, if_pos all]
    exact Mirrors.of_ok done ends reading.symm
  · have fails : ¬ ∃ r, (Subst.std levels).applyTree env t n = .ok r := by
      intro done
      have known : ∀ u ∈ t.reading.sorts, ∃ v, (Subst.std levels).sort u = .ok v :=
        succeeds.mp done
      apply all
      simpa [Universe.hasCall_iff] using known
    cases failed : (Subst.std levels).applyTree env t n with
    | ok r => exact absurd ⟨r, failed⟩ fails
    | error fault => exact Mirrors.of_error failed (by rw [atCall_result?, if_neg all])

theorem bodyAt?_mirrors (fair : Fair whnf V low) (mirror : Mirroring whnf reduce V low) {n : Nat}
    (order : low ≤ n) {fn : FunctionDef}
    (bodies : ∀ t, fn.body = some (.term t) → t.Within (fn.params.Scope V) n)
    (trees : ∀ t, fn.body = some (.tree t) → t.Within V n) (levels : Universe) {args : List Term}
    (saturated : fn.params.length = args.length) (within : ∀ a ∈ args, a.Within V n) :
    Mirrors (bodyAt? env whnf fn levels args) n
      (Nameless.bodyAt? env reduce fn levels (args.map Term.reading)) Steps := by
  unfold bodyAt? Nameless.bodyAt?
  cases isBody : fn.body with
  | none => exact Mirrors.pure rfl
  | some b =>
      cases b with
      | term t =>
          have put := (Subst.within_empty.bind fn.params within).addStd levels
          have inReach := (bodies t isBody).widen fun x inScope =>
            bind_scope (s := .empty) (Nat.not_lt.mpr saturated.le) x (inScope.imp Or.inl id)
          have agrees := Subst.agrees_empty.bind saturated.le
          rw [List.append_nil, List.append_nil, List.take_of_length_le
            (by rw [List.length_map, saturated])] at agrees
          have mirrored := apply_mirrors env levels put
            (by funext u; simp [Subst.sort, Subst.addStd, Subst.addLevel, Subst.bind_levels,
              Subst.std]) ⟨agrees.lengths, agrees.image⟩ inReach
          refine mirrored.bind (put.yields inReach) ?_
          rintro r m y _ _ same
          exact Mirrors.pure (by simp [Steps, same])
      | tree tree =>
          have put := (Subst.within_empty (V := V) (n := n)).addStd levels
          have inReach := (trees tree isBody).widen fun x inScope =>
            (Or.inl inScope : (Subst.std levels).Reach V x)
          refine (applyTree_mirrors levels (trees tree isBody)).bind (put.yields_tree inReach) ?_
          rintro tree' m _ next treeWithin rfl
          exact (run_mirrors env fair mirror (order.trans next) treeWithin.1
            (within_later within next)).finish (g := Walk.result?) (fun w => by cases w <;> rfl)
              fun _ _ same => same

theorem unfolding?_mirrors (fair : Fair whnf V low) (mirror : Mirroring whnf reduce V low)
    (known : env.Within V low) {n : Nat} (order : low ≤ n) (f : DefId) (levels : Universe)
    {args : List Term} (within : ∀ a ∈ args, a.Within V n) :
    Mirrors (unfolding? env whnf f levels args) n
      (Nameless.unfolding? env reduce f levels (args.map Term.reading)) Steps := by
  unfold unfolding? Nameless.unfolding?
  cases found : env.function? f with
  | none => exact Mirrors.pure rfl
  | some fn =>
      simp only [List.length_map]
      split
      · exact Mirrors.pure rfl
      · rename_i saturated
        have transported : Mirrors (if fn.transports then transport? whnf args else pure none) n
            (if fn.transports then Nameless.transport? reduce (args.map Term.reading)
              else pure none) Steps := by
          split
          · exact transport?_mirrors fair mirror order within
          · exact Mirrors.pure rfl
        have yields : Yields (if fn.transports then transport? whnf args else pure none) n
            fun o m => ∀ t ∈ o, t.Within V m := by
          split
          · exact transport?_within fair order within
          · exact Yields.pure (by simp)
        refine transported.bind yields ?_
        rintro o m _ next _ rfl
        cases o with
        | some t => exact Mirrors.pure rfl
        | none =>
            exact bodyAt?_mirrors fair mirror (order.trans next)
              (fun t isBody => (known.bodies f fn t found isBody).mono (order.trans next))
              (fun t isBody => (known.trees f fn t found isBody).mono (order.trans next))
              levels (not_ne_iff.mp saturated) (within_later within next)

theorem caseOf_parts (args : List Term) (params : Telescope) (result : Term) (tree : CaseTree) :
    Nameless.caseParts? ((termsParts args (.part (.node .motive (telescopeParts params
      (.one result.toScoped))) (.one tree.toScoped))).read []) =
        some (args.map Term.reading, tree.reading) := by
  rw [Nameless.caseParts?, termsParts_list]
  simp only [Parts.read, Parts.one, NamelessParts.list, List.reverse_append, List.reverse_cons,
    List.reverse_nil, List.nil_append, List.cons_append, List.reverse_reverse]
  rfl

theorem caseOf_headStep? (args : List Term) (params : Telescope) (result : Term)
    (tree : CaseTree) : (Term.caseOf args params result tree).reading.headStep? env reduce =
      tree.reading.walk env reduce [] (args.map Term.reading) := by
  change (Nameless.node .caseOf _).headStep? env reduce = _
  rw [Nameless.headStep?, caseOf_parts]

theorem call_headStep? (f : DefId) (levels : Universe) (args : List Term) :
    (Term.call f levels args).reading.headStep? env reduce =
      Nameless.unfolding? env reduce f levels (args.map Term.reading) := by
  rw [← terms_list]
  rfl

theorem headStep?_mirrors (fair : Fair whnf V low) (mirror : Mirroring whnf reduce V low)
    (known : env.Within V low) {n : Nat} (order : low ≤ n) {t : Term} (within : t.Within V n) :
    Mirrors (headStep? env whnf t) n (t.reading.headStep? env reduce) Steps := by
  cases t with
  | hole h =>
      change Mirrors (pure (env.solution? h)) n ((Nameless.hole h).headStep? env reduce) Steps
      rw [Nameless.headStep?]
      cases env.solution? h with
      | none => exact Mirrors.pure rfl
      | some t => exact Mirrors.pass (n := n) (Mirrors.pure rfl) (.solution t.reading)
  | app fn arg =>
      obtain ⟨fnWithin, argWithin⟩ := Term.within_app.mp within
      refine (mirror fn n order fnWithin).bind (fair fn n order fnWithin) ?_
      rintro v m _ next seen rfl
      rw [Term.lamBody?_reading]
      cases v with
      | lam mode x domain body =>
          have put := (Subst.within_empty (n := m)).add (x := x) (argWithin.mono next)
          have inReach := seen.lam_body.widen (W := (Subst.single x arg).Reach V) fun z inScope =>
            inScope.imp id fun same => by simp [Subst.single, Subst.get?_add, same]
          have simple : (Subst.single x arg).Simple := ⟨rfl, rfl⟩
          obtain ⟨⟨r, k⟩, done⟩ := simple.apply (n := m) env body
          obtain ⟨_, _, reading⟩ := put.simple_reading simple inReach.below done
          have agrees : (Subst.single x arg).Agrees [x] [arg.reading] :=
            Subst.agrees_empty.add x arg
          refine Mirrors.after done (Mirrors.pure ?_)
          simp only [Steps, Option.map_some, Option.some.injEq]
          rw [reading]
          exact agrees.reading_id body
      | _ => exact Mirrors.pure rfl
  | proj whole index =>
      have here := Term.within_proj.mp within
      refine (mirror whole n order here).bind (fair whole n order here) ?_
      rintro v m _ _ _ rfl
      rw [Term.component?_reading]
      cases v <;> exact Mirrors.pure rfl
  | field f levels arg =>
      have here := Term.within_field.mp within
      refine (mirror arg n order here).bind (fair arg n order here) ?_
      rintro v m _ _ _ rfl
      rw [Term.fixed?_reading]
      cases v <;> exact Mirrors.pure rfl
  | call f levels args =>
      rw [call_headStep?]
      exact unfolding?_mirrors fair mirror known order f levels (Term.within_call.mp within)
  | caseOf args params result tree =>
      have mirrored := run_mirrors env fair mirror order within.caseTree within.caseArgs
      rw [caseOf_headStep?]
      exact mirrored.finish (g := Walk.result?) (fun w => by cases w <;> rfl) fun _ _ same => same
  | _ => exact Mirrors.pure rfl

end Walking

/-- Weak head reduction of a term is that of its reading. -/
theorem whnfWith_mirrors {env : Environment} {V : Var → Prop} {low : Nat}
    (known : env.Within V low) (fuel : Nat) :
    Mirroring (whnfWith env fuel) (Nameless.whnfWith env fuel) V low := by
  induction fuel with
  | zero =>
      intro t n _ _
      exact Mirrors.fail
  | succ fuel ih =>
      intro t n order within
      have fair := whnfWith_within known fuel
      refine (headStep?_mirrors fair ih known order within).bind
        (headStep?_within fair known order within) ?_
      rintro o m _ next result rfl
      cases o with
      | none => exact Mirrors.pure rfl
      | some u => exact ih u m (order.trans next) (result u rfl)

end PathTheory
