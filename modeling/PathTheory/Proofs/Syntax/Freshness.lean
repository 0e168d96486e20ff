import PathTheory.Proofs.Syntax.Within
import PathTheory.Library
/-!
Reduction and the counter. Substituting, walking a case tree and reducing never lower the counter,
and what they give has no variable that was not made before it reached its new value. They also
stay in scope: what they give has no free variable that is neither one of the term nor one of the
definitions.
-/
namespace PathTheory

/-- What the definitions and solutions mention was made before the counter reached this number, and
    what they leave free is in the scope. -/
structure Environment.Within (env : Environment) (V : Var → Prop) (n : Nat) : Prop where
  params : ∀ f fn, env.function? f = some fn → Telescope.Below n fn.params ∧ fn.result.Below n
  bodies : ∀ f fn t, env.function? f = some fn → fn.body = some (.term t) →
    t.Within (fn.params.Scope V) n
  trees : ∀ f fn t, env.function? f = some fn → fn.body = some (.tree t) → t.Within V n
  data : ∀ d D, env.data? d = some D → Telescope.Below n D.params
  constructors : ∀ c K, env.constructor? c = some K → Telescope.Below n K.params
  shapes : ∀ c K, env.constructor? c = some K → ∀ x ∈ telescopeFree K.params [], V x
  fields : ∀ f F, env.field? f = some F → F.type.Below n
  solutions : ∀ m t, env.solution? m = some t → t.Within V n

theorem Environment.Within.mono {env : Environment} {V : Var → Prop} {n m : Nat}
    (within : env.Within V n) (order : n ≤ m) : env.Within V m where
  params f fn known := ⟨(within.params f fn known).1.mono order,
    (within.params f fn known).2.mono order⟩
  bodies f fn t known isBody := (within.bodies f fn t known isBody).mono order
  trees f fn t known isBody := (within.trees f fn t known isBody).mono order
  data d D known := (within.data d D known).mono order
  constructors c K known := (within.constructors c K known).mono order
  shapes := within.shapes
  fields f F known := (within.fields f F known).mono order
  solutions h t known := (within.solutions h t known).mono order

theorem Environment.Within.widen {env : Environment} {V W : Var → Prop} {n : Nat}
    (within : env.Within V n) (wider : ∀ x, V x → W x) : env.Within W n where
  params := within.params
  bodies f fn t known isBody := (within.bodies f fn t known isBody).widen fun x => .imp_left (wider x)
  trees f fn t known isBody := (within.trees f fn t known isBody).widen wider
  data := within.data
  constructors := within.constructors
  shapes c K known x member := wider x (within.shapes c K known x member)
  fields := within.fields
  solutions h t known := (within.solutions h t known).widen wider

def Body.Below (n : Nat) : Body → Prop
  | .term t => t.Below n
  | .tree t => t.Below n

/-- A definition with old variables only. -/
def Definition.Below (n : Nat) : Definition → Prop
  | .function fn => (Telescope.Below n fn.params ∧ fn.result.Below n) ∧ ∀ b ∈ fn.body, b.Below n
  | .data d => Telescope.Below n d.params
  | .constructor c => Telescope.Below n c.params
  | .cls _ => True
  | .field f => f.type.Below n

instance (n : Nat) (t : Term) : Decidable (t.Below n) :=
  inferInstanceAs (Decidable (∀ x ∈ t.toScoped.ids, x.id < n))

instance (n : Nat) (t : CaseTree) : Decidable (t.Below n) :=
  inferInstanceAs (Decidable (∀ x ∈ t.toScoped.ids, x.id < n))

instance (n : Nat) (params : Telescope) : Decidable (Telescope.Below n params) :=
  inferInstanceAs (Decidable (∀ b ∈ params, b.var.id < n ∧ b.type.Below n))

instance (n : Nat) : (b : Body) → Decidable (b.Below n)
  | .term t => inferInstanceAs (Decidable (t.Below n))
  | .tree t => inferInstanceAs (Decidable (t.Below n))

instance (n : Nat) : (d : Definition) → Decidable (d.Below n)
  | .function fn => inferInstanceAs (Decidable
      ((Telescope.Below n fn.params ∧ fn.result.Below n) ∧ ∀ b ∈ fn.body, b.Below n))
  | .data d => inferInstanceAs (Decidable (Telescope.Below n d.params))
  | .constructor c => inferInstanceAs (Decidable (Telescope.Below n c.params))
  | .cls _ => inferInstanceAs (Decidable True)
  | .field f => inferInstanceAs (Decidable (f.type.Below n))

theorem Term.Below.within {n : Nat} {t : Term} (below : t.Below n) :
    t.Within (fun x => x.id < n) n := ⟨below, fun _ => below.freeVars⟩

theorem CaseTree.Below.within {n : Nat} {t : CaseTree} (below : t.Below n) :
    t.Within (fun x => x.id < n) n := by
  refine ⟨below, fun x member => ?_⟩
  rw [← t.toScoped_freeVars] at member
  exact below x (t.toScoped.freeVars_subset x member)

theorem telescopeFree_below {n : Nat} {params : Telescope} (below : Telescope.Below n params) :
    ∀ x ∈ telescopeFree params [], x.id < n := by
  induction params with
  | nil => simp [telescopeFree]
  | cons b params ih =>
      obtain ⟨here, rest⟩ := List.forall_mem_cons.mp below
      intro x member
      rcases List.mem_append.mp member with inType | later
      · exact here.2.freeVars inType
      · exact ih rest x (List.mem_filter.mp later).1

/-- Definitions with old variables only, and no solutions yet. -/
theorem Environment.within_of_below {env : Environment} {n : Nat}
    (all : ∀ d ∈ env.definitions.toList, d.Below n) (unsolved : ∀ m, env.solution? m = none) :
    env.Within (fun x => x.id < n) n := by
  have defined : ∀ id d, env.definition? id = some d → d.Below n := by
    intro id d known
    exact all d (Array.mem_toList_iff.mpr (Array.mem_of_getElem? known))
  constructor
  · intro f fn known
    obtain ⟨d, known, isFn⟩ := Option.bind_eq_some_iff.mp known
    cases d <;> cases isFn
    exact (defined f _ known).1
  · intro f fn t known isBody
    obtain ⟨d, known, isFn⟩ := Option.bind_eq_some_iff.mp known
    cases d <;> cases isFn
    have below : t.Below n := (defined f _ known).2 _ isBody
    exact below.within.widen fun _ => Or.inl
  · intro f fn t known isBody
    obtain ⟨d, known, isFn⟩ := Option.bind_eq_some_iff.mp known
    cases d <;> cases isFn
    have below : t.Below n := (defined f _ known).2 _ isBody
    exact below.within
  · intro f D known
    obtain ⟨d, known, isData⟩ := Option.bind_eq_some_iff.mp known
    cases d <;> cases isData
    exact defined f _ known
  · intro f K known
    obtain ⟨d, known, isCon⟩ := Option.bind_eq_some_iff.mp known
    cases d <;> cases isCon
    exact defined f _ known
  · intro f K known
    obtain ⟨d, known, isCon⟩ := Option.bind_eq_some_iff.mp known
    cases d <;> cases isCon
    exact telescopeFree_below (defined f _ known)
  · intro f F known
    obtain ⟨d, known, isField⟩ := Option.bind_eq_some_iff.mp known
    cases d <;> cases isField
    exact defined f _ known
  · intro m t known
    rw [unsolved m] at known
    cases known

/-- All variables of the library are older than the first fresh one. -/
theorem library_within (fuel : Nat) :
    (Library.environment fuel).Within (fun x => x.id < Library.firstFresh) Library.firstFresh := by
  refine Environment.within_of_below ?_ fun m => ?_
  · change ∀ d ∈ (Library.environment 0).definitions.toList, d.Below Library.firstFresh
    decide
  · simp [Environment.solution?, Environment.meta?, Library.environment, Environment.empty]

open Library in
/-- The functions of the library are equality, application of paths and transport. -/
theorem library_function {fuel : Nat} {f : DefId} {fn : FunctionDef}
    (known : (environment fuel).function? f = some fn) : Definition.function fn = eqFunction ∨
      Definition.function fn = atFunction ∨ Definition.function fn = coeFunction := by
  obtain ⟨d, known, isFn⟩ := Option.bind_eq_some_iff.mp known
  have member := Array.mem_toList_iff.mpr (Array.mem_of_getElem? known)
  have all : ∀ d ∈ (environment 0).definitions.toList, ∀ fn, d.function? = some fn →
      Definition.function fn = eqFunction ∨ Definition.function fn = atFunction ∨
        Definition.function fn = coeFunction := by
    simp [environment, natData, zeroCon, sucCon, intervalData, endCon, pathData, pathConstructor,
      eqFunction, atFunction, coeFunction, Definition.function?]
  exact all d member fn isFn

/-- What a walk ends with is in scope. -/
def Walk.Within (V : Var → Prop) (n : Nat) : Walk → Prop
  | .reduced t => t.Within V n
  | .stuck t => t.Within V n
  | .missing => True

section Walking

variable {env : Environment} {whnf : Term → Fresh Term} {V : Var → Prop}

/-- Reduction of subterms, as the walk uses it. -/
def Fair (whnf : Term → Fresh Term) (V : Var → Prop) (low : Nat) : Prop :=
  ∀ t n, low ≤ n → t.Within V n → Yields (whnf t) n fun t' m => t'.Within V m

/-- A body at an end, or an argument in the way. -/
def EndsOutcome.Within (V W : Var → Prop) (n : Nat) : EndsOutcome → Prop
  | .body t => t.Within W n
  | .none blocked => ∀ t ∈ blocked, t.Within V n

/-- The bodies at the ends may mention what the parameters bind, and the arguments may not. -/
def PairWithin (V W : Var → Prop) (n : Nat) (e : Ends Term × Term) : Prop :=
  ((∀ t ∈ e.1.left, t.Within W n) ∧ ∀ t ∈ e.1.right, t.Within W n) ∧ e.2.Within V n

theorem PairWithin.mono {W : Var → Prop} {n m : Nat} {e : Ends Term × Term}
    (within : PairWithin V W n e) (order : n ≤ m) : PairWithin V W m e :=
  ⟨⟨fun t is => (within.1.1 t is).mono order, fun t is => (within.1.2 t is).mono order⟩,
    within.2.mono order⟩

theorem tryEnds_within {low : Nat} (fair : Fair whnf V low) {W : Var → Prop} :
    ∀ (l : List (Ends Term × Term)) (blocked : Option Term) (n : Nat), low ≤ n →
    (∀ e ∈ l, PairWithin V W n e) → (∀ t ∈ blocked, t.Within V n) →
    Yields (tryEnds env whnf l blocked) n fun o m => o.Within V W m := by
  intro l
  induction l with
  | nil =>
      intro blocked n _ _ old
      exact Yields.pure old
  | cons e others ih =>
      intro blocked n order within old
      obtain ⟨here, rest⟩ := List.forall_mem_cons.mp within
      have later : ∀ m, n ≤ m → ∀ e ∈ others, PairWithin V W m e :=
        fun m next e member => (rest e member).mono next
      unfold tryEnds
      split
      · exact ih blocked n order rest old
      · refine (fair e.2 n order here.2).bind fun arg m next argWithin => ?_
        have oldStill : ∀ t ∈ blocked, t.Within V m := fun t is => (old t is).mono next
        cases arg.endpoint? env with
        | none =>
            refine ih _ m (order.trans next) (later m next) ?_
            intro t is
            cases blocked with
            | none =>
                cases is
                exact argWithin
            | some b => exact oldStill t is
        | some side =>
            cases found : e.1.at? side with
            | none =>
                simp only [found]
                exact ih blocked m (order.trans next) (later m next) oldStill
            | some body =>
                simp only [found]
                apply Yields.pure
                cases side with
                | left => exact (here.1.1 body found).mono next
                | right => exact (here.1.2 body found).mono next

theorem bind_scope {s : Subst} {params : Telescope} {args : List Term}
    (enough : ¬ args.length < params.length) (x : Var) (inScope : params.Scope (s.Reach V) x) :
    (s.bind params args).Reach V x :=
  Subst.Reach.bind (Nat.le_of_not_lt enough) inScope

mutual

theorem walk_within {low : Nat} (fair : Fair whnf V low) : ∀ (tree : CaseTree) {s : Subst}
    {args : List Term} {n : Nat}, low ≤ n → tree.Within (s.Reach V) n → s.Within V n →
    (∀ a ∈ args, a.Within V n) → Yields (tree.walk env whnf s args) n fun w m => w.Within V m
  | .leaf params body, s, args, n, order, tree, put, within => by
      unfold CaseTree.walk
      split
      · exact Yields.pure trivial
      · rename_i enough
        have inReach := tree.leaf_body.widen (bind_scope enough)
        refine ((put.bind params within).yields inReach).bind fun t m next done => Yields.pure ?_
        exact done.1.applyAll (within_later (within_drop within) next)
  | .branch params children, s, args, n, order, tree, put, within => by
      unfold CaseTree.walk
      split
      · exact Yields.pure trivial
      · rename_i enough
        have rest : ∀ a ∈ args.drop params.length, a.Within V n := within_drop within
        cases left : args.drop params.length with
        | nil => exact Yields.pure trivial
        | cons arg others =>
            rw [left] at rest
            obtain ⟨head, tail⟩ := List.forall_mem_cons.mp rest
            refine (fair arg n order head).bind fun scrutinee m next seen => ?_
            cases shown : scrutinee.shape? with
            | none => exact Yields.pure seen
            | some found =>
                obtain ⟨shape, components⟩ := found
                have parts := seen.shown shown
                refine walkChildren_within fair children (order.trans next) ?_
                  ((put.mono next).bind params (within_later within next)) ?_
                · intro entry member
                  exact ((tree.children entry member).widen (bind_scope enough)).mono next
                · intro a member
                  rcases List.mem_append.mp member with part | other
                  · exact parts a part
                  · exact (tail a other).mono next
  | .interval params ends rest, s, args, n, order, tree, put, within => by
      unfold CaseTree.walk
      split
      · exact Yields.pure trivial
      · rename_i enough
        have pairs : ∀ e ∈ ends.zip ((args.take params.length).drop
            (params.length - ends.length)), PairWithin V (Telescope.Scope params (s.Reach V)) n e := by
          intro e member
          obtain ⟨isEnd, isArg⟩ := List.of_mem_zip member
          exact ⟨tree.ends e.1 isEnd,
            within e.2 (List.mem_of_mem_take (List.mem_of_mem_drop isArg))⟩
        refine (tryEnds_within fair _ none n order pairs (by simp)).bind fun o m next done => ?_
        cases o with
        | body t =>
            have bound := (put.mono next).bind params (within_later within next)
            have inReach := Term.Within.widen done (bind_scope enough)
            refine (bound.yields inReach).bind fun t k later result => Yields.pure ?_
            exact result.1.applyAll (within_later (within_drop within) (next.trans later))
        | none blocked =>
            refine walkRest_within fair blocked rest (order.trans next) ?_ done (put.mono next)
              (within_later within next)
            exact fun t member => (tree.rest t member).mono next

theorem walkChildren_within {low : Nat} (fair : Fair whnf V low) :
    ∀ (children : List (Shape × CaseTree)) {s : Subst} {shape : Shape} {args : List Term} {n : Nat},
    low ≤ n → (∀ entry ∈ children, entry.2.Within (s.Reach V) n) → s.Within V n →
    (∀ a ∈ args, a.Within V n) →
    Yields (walkChildren env whnf s shape children args) n fun w m => w.Within V m
  | [], s, shape, args, n, _, _, _, _ => by
      unfold walkChildren
      exact Yields.pure trivial
  | (k, child) :: others, s, shape, args, n, order, trees, put, within => by
      obtain ⟨head, tail⟩ := List.forall_mem_cons.mp trees
      unfold walkChildren
      split
      · exact walk_within fair child order head put within
      · exact walkChildren_within fair others order tail put within

theorem walkRest_within {low : Nat} (fair : Fair whnf V low) (blocked : Option Term) :
    ∀ (rest : Option CaseTree) {s : Subst} {args : List Term} {n : Nat}, low ≤ n →
    (∀ t ∈ rest, t.Within (s.Reach V) n) → (∀ t ∈ blocked, t.Within V n) → s.Within V n →
    (∀ a ∈ args, a.Within V n) →
    Yields (walkRest env whnf s blocked rest args) n fun w m => w.Within V m
  | none, s, args, n, _, _, old, _, _ => by
      unfold walkRest
      apply Yields.pure
      cases blocked with
      | none => trivial
      | some t => exact old t rfl
  | some tree, s, args, n, order, trees, _, put, within => by
      unfold walkRest
      exact walk_within fair tree order (trees tree rfl) put within

end

theorem run_within {low n : Nat} (fair : Fair whnf V low) (order : low ≤ n) {tree : CaseTree}
    {args : List Term} (inScope : tree.Within V n) (within : ∀ a ∈ args, a.Within V n) :
    Yields (tree.run env whnf args) n fun w m => w.Within V m :=
  walk_within fair tree order (inScope.widen fun _ => Or.inl) Subst.within_empty within

theorem transport?_within {low n : Nat} (fair : Fair whnf V low) (order : low ≤ n)
    {args : List Term} (within : ∀ a ∈ args, a.Within V n) :
    Yields (transport? whnf args) n fun o m => ∀ t ∈ o, t.Within V m := by
  cases args with
  | nil => exact Yields.pure (by simp)
  | cons family others =>
      obtain ⟨head, tail⟩ := List.forall_mem_cons.mp within
      refine (fair family n order head).bind fun t m next _ => ?_
      cases t with
      | lam mode x domain body =>
          apply Yields.pure
          intro t found
          split at found
          · cases found
          · exact (tail t (List.mem_of_mem_head? found)).mono next
      | _ => exact Yields.pure (by simp)

theorem bodyAt?_within {low n : Nat} (fair : Fair whnf V low) (order : low ≤ n) {fn : FunctionDef}
    (bodies : ∀ t, fn.body = some (.term t) → t.Within (fn.params.Scope V) n)
    (trees : ∀ t, fn.body = some (.tree t) → t.Within V n) (levels : Universe) {args : List Term}
    (saturated : fn.params.length = args.length) (within : ∀ a ∈ args, a.Within V n) :
    Yields (bodyAt? env whnf fn levels args) n fun o m => ∀ t ∈ o, t.Within V m := by
  unfold bodyAt?
  cases isBody : fn.body with
  | none => exact Yields.pure (by simp)
  | some b =>
      cases b with
      | term t =>
          have put := (Subst.within_empty.bind fn.params within).addStd levels
          have inReach := (bodies t isBody).widen fun x inScope =>
            bind_scope (s := .empty) (Nat.not_lt.mpr saturated.le) x (inScope.imp Or.inl id)
          refine (put.yields inReach).bind fun r k later result => Yields.pure ?_
          simpa using result.1
      | tree tree =>
          have put := (Subst.within_empty (V := V) (n := n)).addStd levels
          have inReach := (trees tree isBody).widen fun x inScope =>
            (Or.inl inScope : (Subst.std levels).Reach V x)
          refine (put.yields_tree inReach).bind fun tree m next treeWithin => ?_
          refine (run_within fair (order.trans next) treeWithin.1 (within_later within next)).bind
            fun w k later result => ?_
          cases w with
          | reduced t =>
              apply Yields.pure
              intro u same
              cases same
              exact result
          | stuck t => exact Yields.pure (by simp)
          | missing => exact Yields.pure (by simp)

theorem unfolding?_within {low n : Nat} (fair : Fair whnf V low) (known : env.Within V low)
    (order : low ≤ n) (f : DefId) (levels : Universe) {args : List Term}
    (within : ∀ a ∈ args, a.Within V n) :
    Yields (unfolding? env whnf f levels args) n fun o m => ∀ t ∈ o, t.Within V m := by
  unfold unfolding?
  cases found : env.function? f with
  | none => exact Yields.pure (by simp)
  | some fn =>
      simp only
      split
      · exact Yields.pure (by simp)
      · rename_i saturated
        have transported : Yields (if fn.transports then transport? whnf args else pure none) n
            fun o m => ∀ t ∈ o, t.Within V m := by
          split
          · exact transport?_within fair order within
          · exact Yields.pure (by simp)
        refine transported.bind fun o m next result => ?_
        cases o with
        | some t => exact Yields.pure result
        | none =>
            exact bodyAt?_within fair (order.trans next)
              (fun t isBody => (known.bodies f fn t found isBody).mono (order.trans next))
              (fun t isBody => (known.trees f fn t found isBody).mono (order.trans next))
              levels (not_ne_iff.mp saturated) (within_later within next)

theorem headStep?_within {low n : Nat} (fair : Fair whnf V low) (known : env.Within V low)
    (order : low ≤ n) {t : Term} (within : t.Within V n) :
    Yields (headStep? env whnf t) n fun o m => ∀ t ∈ o, t.Within V m := by
  cases t with
  | hole h =>
      apply Yields.pure
      intro t found
      exact (known.solutions h t found).mono order
  | app fn arg =>
      obtain ⟨fnWithin, argWithin⟩ := Term.within_app.mp within
      refine (fair fn n order fnWithin).bind fun t m next seen => ?_
      cases t with
      | lam mode x domain body =>
          have put := (Subst.within_empty (n := m)).add (x := x) (argWithin.mono next)
          have inReach := seen.lam_body.widen (W := (Subst.single x arg).Reach V) fun z inScope =>
            inScope.imp id fun same => by simp [Subst.single, Subst.get?_add, same]
          refine (put.yields inReach).bind fun r k later result => Yields.pure ?_
          simpa using result.1
      | _ => exact Yields.pure (by simp)
  | proj whole index =>
      refine (fair whole n order (Term.within_proj.mp within)).bind fun t m next seen => ?_
      cases t with
      | tuple components type =>
          apply Yields.pure
          intro t found
          exact seen.components t (List.mem_of_getElem? found)
      | _ => exact Yields.pure (by simp)
  | field f levels arg =>
      refine (fair arg n order (Term.within_field.mp within)).bind fun t m next seen => ?_
      cases t with
      | new r =>
          apply Yields.pure
          intro t found
          cases r with
          | record c u fields => exact seen.fixed found
          | _ => cases found
      | _ => exact Yields.pure (by simp)
  | call f levels args =>
      exact unfolding?_within fair known order f levels (Term.within_call.mp within)
  | caseOf args params result tree =>
      refine (run_within fair order within.caseTree within.caseArgs).bind fun w m next done => ?_
      cases w with
      | reduced t =>
          apply Yields.pure
          intro u same
          cases same
          exact done
      | stuck t => exact Yields.pure (by simp)
      | missing => exact Yields.pure (by simp)
  | _ => exact Yields.pure (by simp)

end Walking

/-- Weak head reduction stays in scope, and mentions no variable that was not made before the
    counter reached its new value. -/
theorem whnfWith_within {env : Environment} {V : Var → Prop} {low : Nat}
    (known : env.Within V low) (fuel : Nat) : Fair (whnfWith env fuel) V low := by
  induction fuel with
  | zero =>
      intro t n _ _
      exact Yields.throw
  | succ fuel ih =>
      intro t n order within
      refine (headStep?_within ih known order within).bind fun o m next result => ?_
      cases o with
      | none => exact Yields.pure (within.mono next)
      | some u => exact ih u m (order.trans next) (result u rfl)

theorem Term.whnf_within {env : Environment} {V : Var → Prop} {low : Nat}
    (known : env.Within V low) : Fair (Term.whnf env) V low := whnfWith_within known env.fuel

end PathTheory
