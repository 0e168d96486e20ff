import PathTheory.Proofs.Reduction.Fuel
import Mathlib.Data.List.Forall2
/-!
Reduction steps that do not happen. Whether an argument lets a rule apply depends on the outermost
form of its value alone, so a step that does not happen does not happen either with arguments whose
values look the same. The exceptions are the two rules that look further: transport looks for a
variable in its family, and a field looks for its value in an instance.
-/
namespace PathTheory

/-- Where the first computation ends with nothing, so does the second. -/
def Stays {α β : Type} (a : Traced (Option α)) (b : Traced (Option β)) : Prop :=
  a.result? = some none → b.result? = some none

/-- Two values that look the same to a tree, with components in step. -/
structure Alike (env : Environment) (R : Nameless → Nameless → Prop) (v w : Nameless) : Prop where
  shape : Option.Rel (fun a b => a.1 = b.1 ∧ List.Forall₂ R a.2 b.2) v.shape? w.shape?
  ends : w.endpoint? env = v.endpoint? env
  lam : v.lamBody? = none → w.lamBody? = none

/-- The second argument of a pair is its own value, and it looks like that of the first. -/
def Steady (env : Environment) (whnf : Nameless → Traced Nameless)
    (R : Nameless → Nameless → Prop) : Prop :=
  ∀ a b, R a b → ∀ v, (whnf a).result? = some v → (whnf b).result? = some b ∧ Alike env R v b

section Walking

variable {env : Environment} {whnf : Nameless → Traced Nameless} {R : Nameless → Nameless → Prop}

theorem stays_none {α β : Type} {a : Traced (Option α)} : Stays a (pure none : Traced (Option β)) :=
  fun _ => rfl

theorem stays_some {α β : Type} {x : α} {b : Traced (Option β)} : Stays (pure (some x)) b := nofun

theorem tryEnds_stays (steady : Steady env whnf R) (rules : List (Ends Nameless))
    {args args' : List Nameless} (alike : List.Forall₂ R args args') :
    Stays (Nameless.tryEnds env whnf (rules.zip args))
      (Nameless.tryEnds env whnf (rules.zip args')) := by
  induction alike generalizing rules with
  | nil => simp [Stays]
  | @cons a b args args' related _ ih =>
      cases rules with
      | nil => exact id
      | cons e others =>
          intro done
          simp only [List.zip_cons_cons, Nameless.tryEnds] at done ⊢
          by_cases empty : e.isEmpty = true
          · rw [if_pos empty] at done ⊢
            exact ih others done
          · rw [if_neg empty, Traced.result?_bind, Option.bind_eq_some_iff] at done
            obtain ⟨v, value, rest⟩ := done
            obtain ⟨same, look⟩ := steady a b related v value
            rw [if_neg empty, Traced.result?_bind, same, Option.bind_some, look.ends]
            cases isEnd : v.endpoint? env with
            | none =>
                rw [isEnd, Traced.result?_bind] at rest
                rw [Traced.result?_bind]
                exact ih others rest
            | some side =>
                simp only [isEnd] at rest ⊢
                cases rule : e.at? side with
                | none =>
                    simp only [rule] at rest ⊢
                    exact ih others rest
                | some body =>
                    simp only [rule] at rest
                    cases rest

theorem enter_alike {args args' : List Nameless} (alike : List.Forall₂ R args args')
    (inner : NamelessParts) (ρ ρ' : List Nameless) :
    Option.Rel (fun a b => a.1 = b.1 ∧ List.Forall₂ R a.2.2 b.2.2) (inner.enter ρ args)
      (inner.enter ρ' args') := by
  induction inner, ρ, args using NamelessParts.enter.induct generalizing ρ' args' with
  | case1 t mode rest ρ a args ih =>
      cases alike with
      | cons _ others => exact ih others _
  | case2 t mode rest ρ =>
      cases alike
      exact .none
  | case3 inner ρ args notParam notShort =>
      have noParam : ∀ t mode rest, inner = .part t (.binder mode rest) → False := by
        intro t mode rest same
        cases args with
        | nil => exact notShort t mode rest same rfl
        | cons a others => exact notParam t mode rest a others same rfl
      rw [NamelessParts.enter.eq_3 _ _ _ notParam notShort,
        NamelessParts.enter.eq_3 _ _ _ (fun t mode rest _ _ same _ => noParam t mode rest same)
          fun t mode rest same _ => noParam t mode rest same]
      exact .some ⟨rfl, alike⟩

theorem atEnds_stays (steady : Steady env whnf R) (inner : NamelessParts)
    {ρ ρ' args args' : List Nameless} (alike : List.Forall₂ R args args')
    {a b : Traced (Option Nameless)} (otherwise : Stays a b) :
    Stays (Nameless.atEnds env whnf inner ρ args a)
      (Nameless.atEnds env whnf inner ρ' args' b) := by
  have entered := enter_alike alike inner ρ ρ'
  unfold Nameless.atEnds
  cases first : inner.enter ρ args with
  | none =>
      rw [first] at entered
      cases second : inner.enter ρ' args' with
      | none => exact stays_none
      | some found =>
          rw [second] at entered
          cases entered
  | some found =>
      rw [first] at entered
      cases second : inner.enter ρ' args' with
      | none =>
          rw [second] at entered
          cases entered
      | some found' =>
          rw [second] at entered
          obtain ⟨ends, values, left⟩ := found
          obtain ⟨ends', values', left'⟩ := found'
          cases entered with
          | some related =>
              obtain ⟨rfl, others⟩ := related
              have taken := List.forall₂_take (args.length - left.length) alike
              have tested := List.forall₂_drop
                ((args.take (args.length - left.length)).length - ends.ends.length) taken
              intro done
              simp only at done ⊢
              rw [Traced.result?_bind, Option.bind_eq_some_iff] at done
              obtain ⟨o, tried, rest⟩ := done
              rw [← alike.length_eq, ← others.length_eq, ← taken.length_eq, Traced.result?_bind]
              cases o with
              | some body => cases rest
              | none =>
                  rw [tryEnds_stays steady ends.ends tested tried]
                  exact otherwise rest

theorem inspect_stays (steady : Steady env whnf R) {arg arg' : Nameless} (related : R arg arg')
    {f g : Shape → List Nameless → Traced (Option Nameless)}
    (next : ∀ shape components components', List.Forall₂ R components components' →
      Stays (f shape components) (g shape components')) :
    Stays (Nameless.inspect whnf arg f) (Nameless.inspect whnf arg' g) := by
  intro done
  unfold Nameless.inspect at done ⊢
  rw [Traced.result?_bind, Option.bind_eq_some_iff] at done
  obtain ⟨v, value, rest⟩ := done
  obtain ⟨same, look⟩ := steady arg arg' related v value
  rw [Traced.result?_bind, same, Option.bind_some]
  have shapes := look.shape
  cases shown : v.shape? with
  | none =>
      rw [shown] at shapes
      cases shown' : arg'.shape? with
      | none => rfl
      | some found =>
          rw [shown'] at shapes
          cases shapes
  | some found =>
      rw [shown] at shapes rest
      cases shown' : arg'.shape? with
      | none => rfl
      | some found' =>
          rw [shown'] at shapes
          cases shapes with
          | some related =>
              obtain ⟨shape, parts⟩ := found
              obtain ⟨_, parts'⟩ := found'
              obtain ⟨rfl, components⟩ := related
              exact next shape parts parts' components rest

theorem walk_stays (steady : Steady env whnf R) : ∀ (ρ : List Nameless) (t : Nameless)
    (args ρ' args' : List Nameless), List.Forall₂ R args args' →
      Stays (t.walk env whnf ρ args) (t.walk env whnf ρ' args') := by
  refine (Nameless.walk.mutual_induct
    (fun ρ t args => ∀ ρ' args', List.Forall₂ R args args' →
      Stays (t.walk env whnf ρ args) (t.walk env whnf ρ' args'))
    (fun ρ t args => ∀ ρ' args', List.Forall₂ R args args' →
      Stays (t.walkGiven env whnf ρ args) (t.walkGiven env whnf ρ' args'))
    (fun ρ t args => ∀ ρ' args', List.Forall₂ R args args' →
      Stays (t.walkBranch env whnf ρ args) (t.walkBranch env whnf ρ' args'))
    (fun ρ shape t args => ∀ ρ' args', List.Forall₂ R args args' →
      Stays (t.walkChildren env whnf ρ shape args) (t.walkChildren env whnf ρ' shape args'))
    ?leaf ?leafShort ?branch ?interval ?otherTree ?given ?notGiven ?param ?inspects ?childless
    ?otherBranch ?hit ?miss ?noChild).1
  case leaf =>
    intro ρ parts args body values left entered ρ' args' alike
    simp only [Nameless.walk, entered]
    exact stays_some
  case leafShort =>
    intro ρ parts args short ρ' args' alike _
    have entered := enter_alike alike parts ρ ρ'
    simp only [Nameless.walk]
    split
    · rename_i body values' left' found
      rw [found] at entered
      cases source : parts.enter ρ args with
      | none =>
          rw [source] at entered
          cases entered
      | some found =>
          rw [source] at entered
          cases entered with
          | some related =>
              obtain ⟨rest, values, left⟩ := found
              obtain ⟨rfl, _⟩ := related
              exact (short body values left source).elim
    · rfl
  case branch =>
    intro ρ parts args ih ρ' args' alike
    exact ih ρ' args' alike
  case interval =>
    intro ρ inner rest args ih ρ' args' alike
    exact atEnds_stays steady inner alike (ih ρ' args' alike)
  case otherTree =>
    intro t ρ args notLeaf notBranch notInterval ρ' args' alike
    simp only [Nameless.walk.eq_4 _ _ _ _ _ notLeaf notBranch notInterval]
    exact stays_none
  case given =>
    intro ρ tree args ih ρ' args' alike
    exact ih ρ' args' alike
  case notGiven =>
    intro t ρ args notGiven ρ' args' alike
    simp only [Nameless.walkGiven.eq_2 _ _ _ _ _ notGiven]
    exact stays_none
  case param =>
    intro ρ t mode rest a args ih ρ' args' alike
    cases alike with
    | cons _ others => exact ih _ _ others
  case inspects =>
    intro ρ k child others arg args notParam ihHit ihMiss ρ' args' alike
    cases alike with
    | @cons _ b _ args' related others' =>
        simp only [NamelessParts.walkBranch.eq_2 _ _ _ _ _ _ _ _ notParam]
        refine inspect_stays steady related fun shape components components' parts => ?_
        have all := List.rel_append parts others'
        split
        · exact ihHit components ρ' _ all
        · exact ihMiss shape components ρ' _ all
  case childless =>
    intro ρ arg args ρ' args' alike
    cases alike with
    | cons related _ => exact inspect_stays steady related fun _ _ _ _ => stays_none
  case otherBranch =>
    intro t ρ args notParam notChild notNil ρ' args' alike
    have nonempty : ∀ b others, args' = b :: others → ∃ a rest, args = a :: rest := by
      rintro b others rfl
      cases alike
      exact ⟨_, _, rfl⟩
    rw [NamelessParts.walkBranch.eq_4 _ _ ρ' t args']
    · exact stays_none
    · intro x mode rest b others isParam isArgs
      obtain ⟨a, left, isCons⟩ := nonempty b others isArgs
      exact notParam x mode rest a left isParam isCons
    · intro k child others b left isChild isArgs
      obtain ⟨a, left, isCons⟩ := nonempty b left isArgs
      exact notChild k child others a left isChild isCons
    · intro b others isNil isArgs
      obtain ⟨a, left, isCons⟩ := nonempty b others isArgs
      exact notNil a left isNil isCons
  case hit =>
    intro ρ shape k child others args hit ih ρ' args' alike
    simpa only [NamelessParts.walkChildren, hit, if_true] using ih ρ' args' alike
  case miss =>
    intro ρ shape k child others args miss ih ρ' args' alike
    simpa only [NamelessParts.walkChildren, miss, Bool.false_eq_true, if_false] using
      ih ρ' args' alike
  case noChild =>
    intro t ρ shape args notChild ρ' args' alike
    simp only [NamelessParts.walkChildren.eq_2 _ _ _ _ _ _ notChild]
    exact stays_none

theorem bodyAt?_stays (steady : Steady env whnf R) (fn : FunctionDef) (levels : Universe)
    {args args' : List Nameless} (alike : List.Forall₂ R args args') :
    Stays (Nameless.bodyAt? env whnf fn levels args)
      (Nameless.bodyAt? env whnf fn levels args') := by
  intro done
  unfold Nameless.bodyAt? at done ⊢
  cases body : fn.body with
  | none => rfl
  | some b =>
      rw [body] at done
      cases b with
      | term t =>
          simp only [Traced.result?_bind, Option.bind_eq_some_iff] at done
          obtain ⟨_, _, impossible⟩ := done
          cases impossible
      | tree tree =>
          simp only [Traced.result?_bind, Option.bind_eq_some_iff] at done ⊢
          obtain ⟨tree', put, walked⟩ := done
          exact ⟨tree', put, walk_stays steady [] tree' args [] args' alike walked⟩

/-- Whether the family at hand, a value, is one that depends on the interval. -/
def Depends (args : List Nameless) : Prop :=
  ∀ family others body, args = family :: others → others ≠ [] → family.lamBody? = some body →
    body.mentions 0 = true

theorem transport?_stays (steady : Steady env whnf R) {args args' : List Nameless}
    (alike : List.Forall₂ R args args') (depends : Depends args') :
    Stays (Nameless.transport? whnf args) (Nameless.transport? whnf args') := by
  intro done
  cases alike with
  | nil => rfl
  | @cons family family' others others' related _ =>
      unfold Nameless.transport? at done ⊢
      rw [Traced.result?_bind, Option.bind_eq_some_iff] at done
      obtain ⟨v, value, _⟩ := done
      obtain ⟨same, _⟩ := steady family family' related v value
      rw [Traced.result?_bind, same, Option.bind_some]
      cases isLam : family'.lamBody? with
      | none => rfl
      | some body =>
          cases others' with
          | nil => simp [Traced.result?_pure]
          | cons a rest =>
              have used := depends family' (a :: rest) body rfl nofun isLam
              simp [used, Traced.result?_pure]

theorem unfolding?_stays (steady : Steady env whnf R) (f : DefId) (levels : Universe)
    {args args' : List Nameless} (alike : List.Forall₂ R args args')
    (depends : ∀ fn, env.function? f = some fn → fn.transports = true →
      fn.params.length = args'.length → Depends args') :
    Stays (Nameless.unfolding? env whnf f levels args)
      (Nameless.unfolding? env whnf f levels args') := by
  intro done
  unfold Nameless.unfolding? at done ⊢
  cases known : env.function? f with
  | none => rfl
  | some fn =>
      simp only [known] at done ⊢
      by_cases saturated : fn.params.length = args.length
      · have saturated' := saturated.trans alike.length_eq
        rw [if_neg (not_not.mpr saturated), Traced.result?_bind, Option.bind_eq_some_iff] at done
        rw [if_neg (not_not.mpr saturated'), Traced.result?_bind]
        obtain ⟨o, transported, rest⟩ := done
        cases o with
        | some t => cases rest
        | none =>
            have transported' : (if fn.transports = true then Nameless.transport? whnf args'
                else pure none).result? = some none := by
              by_cases transports : fn.transports = true
              · rw [if_pos transports] at transported ⊢
                exact transport?_stays steady alike (depends fn known transports saturated')
                  transported
              · rw [if_neg transports]
                rfl
            rw [transported', Option.bind_some]
            exact bodyAt?_stays steady fn levels alike rest
      · rw [if_pos (alike.length_eq ▸ saturated)]
        rfl

theorem app_stays (steady : Steady env whnf R) {fn fn' : Nameless} (related : R fn fn')
    (arg arg' : Nameless) :
    Stays (Nameless.headStep? env whnf (.node .app (.part fn (.part arg .nil))))
      (Nameless.headStep? env whnf (.node .app (.part fn' (.part arg' .nil)))) := by
  intro done
  simp only [Nameless.headStep?, Traced.result?_bind, Option.bind_eq_some_iff] at done ⊢
  obtain ⟨v, value, rest⟩ := done
  obtain ⟨same, look⟩ := steady fn fn' related v value
  refine ⟨fn', same, ?_⟩
  simp only [Traced.result?_pure, Option.some.injEq, Option.map_eq_none_iff] at rest ⊢
  exact look.lam rest

theorem component?_of_shape (t : Nameless) (i : Nat) : t.component? i =
    match t.shape? with
    | some (.tuple _, components) => components[i]?
    | _ => none := by
  cases t with
  | node l parts =>
      cases l with
      | con c u => cases parts <;> rfl
      | _ => rfl
  | _ => rfl

theorem Alike.component {v w : Nameless} (look : Alike env R v w) {i : Nat}
    (outside : v.component? i = none) : w.component? i = none := by
  have shapes := look.shape
  rw [component?_of_shape] at outside ⊢
  cases shown' : w.shape? with
  | none => rfl
  | some found' =>
      obtain ⟨shape', components'⟩ := found'
      cases shown : v.shape? with
      | none =>
          rw [shown, shown'] at shapes
          cases shapes
      | some found =>
          obtain ⟨shape, components⟩ := found
          rw [shown] at outside
          rw [shown, shown'] at shapes
          cases shapes with
          | some related =>
              obtain ⟨rfl, alike⟩ := related
              cases shape with
              | con c => rfl
              | tuple n =>
                  simp only [List.getElem?_eq_none_iff] at outside ⊢
                  exact alike.length_eq ▸ outside

theorem proj_stays (steady : Steady env whnf R) {whole whole' : Nameless}
    (related : R whole whole') (i : Nat) :
    Stays (Nameless.headStep? env whnf (.node (.proj i) (.part whole .nil)))
      (Nameless.headStep? env whnf (.node (.proj i) (.part whole' .nil))) := by
  intro done
  simp only [Nameless.headStep?, Traced.result?_bind, Option.bind_eq_some_iff] at done ⊢
  obtain ⟨v, value, rest⟩ := done
  obtain ⟨same, look⟩ := steady whole whole' related v value
  refine ⟨whole', same, ?_⟩
  simp only [Traced.result?_pure, Option.some.injEq] at rest ⊢
  exact look.component rest

theorem field_stays (steady : Steady env whnf R) {arg arg' : Nameless} (related : R arg arg')
    (f : DefId) (u : Universe) (unfixed : arg'.fixed? f = none) :
    Stays (Nameless.headStep? env whnf (.node (.field f u) (.part arg .nil)))
      (Nameless.headStep? env whnf (.node (.field f u) (.part arg' .nil))) := by
  intro done
  simp only [Nameless.headStep?, Traced.result?_bind, Option.bind_eq_some_iff] at done ⊢
  obtain ⟨v, value, _⟩ := done
  obtain ⟨same, _⟩ := steady arg arg' related v value
  exact ⟨arg', same, by rw [unfixed]; rfl⟩

end Walking

/-- A reduction that has come to an end ended where no step happens. -/
theorem whnfWith_last (env : Environment) {fuel : Nat} {t v : Nameless}
    (done : (Nameless.whnfWith env fuel t).result? = some v) :
    ∃ k, fuel = k + 1 ∧ (v.headStep? env (Nameless.whnfWith env k)).result? = some none := by
  induction fuel generalizing t with
  | zero => cases done
  | succ fuel ih =>
      simp only [Nameless.whnfWith, Traced.result?_bind, Option.bind_eq_some_iff] at done
      obtain ⟨o, stepped, rest⟩ := done
      refine ⟨fuel, rfl, ?_⟩
      cases o with
      | none =>
          cases rest
          exact stepped
      | some next =>
          obtain ⟨k, rfl, last⟩ := ih rest
          exact (headStep?_le (whnfWith_succ env k) v).result? last

end PathTheory
