import PathTheory.Proofs.Syntax.Later
import PathTheory.Proofs.Syntax.Freshness
/-!
Reduction with the counter ahead. A run through a case tree and weak head reduction look at the
variables only to tell them apart, and the variables of the environment are old, so the run with
the counter ahead takes the same way and its result has the variables made in between renamed.
-/
namespace PathTheory

section Views

variable {ρ : Var → Var}

theorem Term.shape?_mapVars (t : Term) :
    (t.mapVars ρ).shape? = t.shape?.map fun r => (r.1, r.2.map (Term.mapVars ρ)) := by
  cases t <;> simp [Term.mapVars, Term.shape?, mapTerms_eq]

theorem Term.endpoint?_mapVars (env : Environment) (t : Term) :
    (t.mapVars ρ).endpoint? env = t.endpoint? env := by
  cases t <;> rfl

theorem Term.fixed?_mapVars (t : Term) (f : DefId) :
    (t.mapVars ρ).fixed? f = (t.fixed? f).map (Term.mapVars ρ) := by
  cases t with
  | record c levels fields =>
      rw [Term.mapVars, Term.fixed?, Term.fixed?]
      induction fields with
      | nil => rfl
      | cons entry rest ih =>
          rw [mapFields, List.lookup_cons, List.lookup_cons, ih]
          cases f == entry.1 <;> rfl
  | _ => rfl

theorem Term.applyAll_mapVars (fn : Term) (args : List Term) :
    (fn.applyAll args).mapVars ρ = (fn.mapVars ρ).applyAll (args.map (Term.mapVars ρ)) := by
  induction args generalizing fn with
  | nil => rfl
  | cons a args ih => exact ih (fn.app a)

theorem Ends.isEmpty_mapVars (e : Ends Term) : (e.mapVars ρ).isEmpty = e.isEmpty := by
  simp [Ends.mapVars, Ends.isEmpty]

theorem Ends.at?_mapVars (e : Ends Term) (side : Endpoint) :
    (e.mapVars ρ).at? side = (e.at? side).map (Term.mapVars ρ) := by
  cases side <;> rfl

theorem length_mapTelescope (params : Telescope) :
    (mapTelescope ρ params).length = params.length := by
  rw [mapTelescope_eq, List.length_map]

def Walk.mapVars (ρ : Var → Var) : Walk → Walk
  | .reduced t => .reduced (t.mapVars ρ)
  | .stuck arg => .stuck (arg.mapVars ρ)
  | .missing => .missing

def EndsOutcome.mapVars (ρ : Var → Var) : EndsOutcome → EndsOutcome
  | .body t => .body (t.mapVars ρ)
  | .none blocked => .none (blocked.map (Term.mapVars ρ))

end Views

/-- Reduction that does not depend on the counter. -/
def ReducesAhead (low d : Nat) (whnf : Term → Fresh Term) : Prop :=
  ∀ t, Ahead low d (Term.mapVars (Var.later low d)) (whnf t) (whnf (t.mapVars (Var.later low d)))

section Walking

variable {low d : Nat} {env : Environment} {whnf : Term → Fresh Term}

theorem tryEnds_ahead (ahead : ReducesAhead low d whnf) (l : List (Ends Term × Term))
    (blocked : Option Term) :
    Ahead low d (EndsOutcome.mapVars (Var.later low d)) (tryEnds env whnf l blocked)
      (tryEnds env whnf
        (l.map fun e => (e.1.mapVars (Var.later low d), e.2.mapVars (Var.later low d)))
        (blocked.map (Term.mapVars (Var.later low d)))) := by
  induction l generalizing blocked with
  | nil => exact .pure (EndsOutcome.none blocked)
  | cons e others ih =>
      simp only [List.map_cons, tryEnds, Ends.isEmpty_mapVars]
      split
      · exact ih blocked
      · refine .bind (ahead e.2) fun arg => ?_
        simp only [Term.endpoint?_mapVars, Ends.at?_mapVars]
        cases arg.endpoint? env with
        | none =>
            have met := ih (blocked <|> some arg)
            cases blocked <;> exact met
        | some side =>
            cases given : e.1.at? side with
            | none => simpa only [given, Option.map_none] using ih blocked
            | some body =>
                simp only [given, Option.map_some]
                exact .pure (EndsOutcome.body body)

mutual

theorem CaseTree.walk_ahead (old : ∀ m t, env.solution? m = some t → t.Below low)
    (ahead : ReducesAhead low d whnf) : ∀ (tree : CaseTree) (s : Subst) (args : List Term),
    Ahead low d (Walk.mapVars (Var.later low d)) (tree.walk env whnf s args)
      ((tree.mapVars (Var.later low d)).walk env whnf (s.mapVars (Var.later low d))
        (args.map (Term.mapVars (Var.later low d))))
  | .leaf params body, s, args => by
      simp only [CaseTree.mapVars, CaseTree.walk, length_mapTelescope, List.length_map]
      split
      · exact .pure Walk.missing
      · rw [← Subst.bind_mapVars (Var.later_injective low d), ← List.map_drop]
        refine .bind (Subst.apply_ahead old _ body) fun result => ?_
        rw [← Term.applyAll_mapVars]
        exact .pure (Walk.reduced (result.applyAll (args.drop params.length)))
  | .branch params children, s, args => by
      simp only [CaseTree.mapVars, CaseTree.walk, length_mapTelescope, List.length_map]
      split
      · exact .pure Walk.missing
      · rw [← Subst.bind_mapVars (Var.later_injective low d), ← List.map_drop]
        cases args.drop params.length with
        | nil => exact .pure Walk.missing
        | cons arg others =>
            refine .bind (ahead arg) fun scrutinee => ?_
            rw [Term.shape?_mapVars]
            cases scrutinee.shape? with
            | none => exact .pure (Walk.stuck scrutinee)
            | some found =>
                have met := walkChildren_ahead old ahead children (s.bind params args) found.1
                  (found.2 ++ others)
                rw [List.map_append] at met
                exact met
  | .interval params ends rest, s, args => by
      simp only [CaseTree.mapVars, CaseTree.walk, length_mapTelescope, List.length_map]
      split
      · exact .pure Walk.missing
      · have paired : (mapEnds (Var.later low d) ends).zip
            (((args.map (Term.mapVars (Var.later low d))).take params.length).drop
              (params.length - (mapEnds (Var.later low d) ends).length)) =
            (ends.zip ((args.take params.length).drop (params.length - ends.length))).map
              fun e => (e.1.mapVars (Var.later low d), e.2.mapVars (Var.later low d)) := by
          rw [mapEnds_eq, List.length_map, ← List.map_take, ← List.map_drop, List.zip_map]
          rfl
        rw [paired]
        refine .bind (tryEnds_ahead ahead _ none) fun o => ?_
        cases o with
        | body body =>
            simp only [EndsOutcome.mapVars]
            rw [← Subst.bind_mapVars (Var.later_injective low d), ← List.map_drop]
            refine .bind (Subst.apply_ahead old _ body) fun result => ?_
            rw [← Term.applyAll_mapVars]
            exact .pure (Walk.reduced (result.applyAll (args.drop params.length)))
        | none blocked => exact walkRest_ahead old ahead rest s blocked args

theorem walkChildren_ahead (old : ∀ m t, env.solution? m = some t → t.Below low)
    (ahead : ReducesAhead low d whnf) :
    ∀ (children : List (Shape × CaseTree)) (s : Subst) (shape : Shape) (args : List Term),
    Ahead low d (Walk.mapVars (Var.later low d)) (walkChildren env whnf s shape children args)
      (walkChildren env whnf (s.mapVars (Var.later low d)) shape
        (mapChildren (Var.later low d) children) (args.map (Term.mapVars (Var.later low d))))
  | [], _, _, _ => .pure Walk.missing
  | (k, child) :: others, s, shape, args => by
      simp only [mapChildren, walkChildren]
      split
      · exact child.walk_ahead old ahead s args
      · exact walkChildren_ahead old ahead others s shape args

theorem walkRest_ahead (old : ∀ m t, env.solution? m = some t → t.Below low)
    (ahead : ReducesAhead low d whnf) :
    ∀ (rest : Option CaseTree) (s : Subst) (blocked : Option Term) (args : List Term),
    Ahead low d (Walk.mapVars (Var.later low d)) (walkRest env whnf s blocked rest args)
      (walkRest env whnf (s.mapVars (Var.later low d))
        (blocked.map (Term.mapVars (Var.later low d))) (mapRest (Var.later low d) rest)
        (args.map (Term.mapVars (Var.later low d))))
  | none, s, blocked, args => by
      simp only [mapRest, walkRest]
      cases blocked with
      | none => exact .pure Walk.missing
      | some arg => exact .pure (Walk.stuck arg)
  | some tree, s, blocked, args => by
      simp only [mapRest, walkRest]
      exact tree.walk_ahead old ahead s args

end

theorem CaseTree.run_ahead (old : ∀ m t, env.solution? m = some t → t.Below low)
    (ahead : ReducesAhead low d whnf) (tree : CaseTree) (args : List Term) :
    Ahead low d (Walk.mapVars (Var.later low d)) (tree.run env whnf args)
      ((tree.mapVars (Var.later low d)).run env whnf
        (args.map (Term.mapVars (Var.later low d)))) :=
  tree.walk_ahead old ahead .empty args

theorem transport?_ahead (ahead : ReducesAhead low d whnf) (args : List Term) :
    Ahead low d (Option.map (Term.mapVars (Var.later low d))) (transport? whnf args)
      (transport? whnf (args.map (Term.mapVars (Var.later low d)))) := by
  have apart := Var.later_injective low d
  cases args with
  | nil => exact .pure none
  | cons family others =>
      refine .bind (ahead family) fun t => ?_
      cases t with
      | lam mode x domain body =>
          have same : (body.mapVars (Var.later low d)).freeVars.contains (x.later low d) =
              body.freeVars.contains x := by
            rw [Term.freeVars_mapVars apart, Bool.eq_iff_iff, List.contains_iff_mem,
              List.contains_iff_mem]
            exact List.mem_map_of_injective apart
          simp only [Term.mapVars, same, List.head?_map]
          split
          · exact .pure none
          · exact .pure others.head?
      | _ => exact .pure none

theorem bodyAt?_ahead (known : env.Within (fun _ => True) low) (ahead : ReducesAhead low d whnf)
    {f : DefId} {fn : FunctionDef} (found : env.function? f = some fn) (levels : Universe)
    (args : List Term) :
    Ahead low d (Option.map (Term.mapVars (Var.later low d))) (bodyAt? env whnf fn levels args)
      (bodyAt? env whnf fn levels (args.map (Term.mapVars (Var.later low d)))) := by
  have keeps := Var.later_keeps low d
  have old := fun m t solved => (known.solutions m t solved).below
  unfold bodyAt?
  cases isBody : fn.body with
  | none => exact .pure none
  | some b =>
      cases b with
      | term body =>
          have put : ((Subst.instantiate fn.params args).addStd levels).mapVars (Var.later low d) =
              (Subst.instantiate fn.params (args.map (Term.mapVars (Var.later low d)))).addStd
                levels := by
            rw [Subst.addStd_mapVars, Subst.instantiate_mapVars (Var.later_injective low d),
              mapTelescope_below keeps fn.params (known.params f fn found).1]
          have met := Subst.apply_ahead (d := d) old
            ((Subst.instantiate fn.params args).addStd levels) body
          rw [body.mapVars_below keeps (known.bodies f fn body found isBody).below, put] at met
          exact .bind met fun result => .pure (some result)
      | tree tree =>
          have met := Subst.applyTree_ahead (d := d) old (Subst.std levels) tree
          rw [tree.mapVars_below keeps (known.trees f fn tree found isBody).below] at met
          refine .bind met fun tree => ?_
          refine .bind (tree.run_ahead old ahead args) fun w => ?_
          cases w with
          | reduced result => exact .pure (some result)
          | stuck _ => exact .pure none
          | missing => exact .pure none

theorem unfolding?_ahead (known : env.Within (fun _ => True) low)
    (ahead : ReducesAhead low d whnf) (f : DefId) (levels : Universe) (args : List Term) :
    Ahead low d (Option.map (Term.mapVars (Var.later low d))) (unfolding? env whnf f levels args)
      (unfolding? env whnf f levels (args.map (Term.mapVars (Var.later low d)))) := by
  unfold unfolding?
  cases found : env.function? f with
  | none => exact .pure none
  | some fn =>
      simp only [List.length_map]
      split
      · exact .pure none
      · have transported : Ahead low d (Option.map (Term.mapVars (Var.later low d)))
            (if fn.transports then transport? whnf args else pure none)
            (if fn.transports then transport? whnf (args.map (Term.mapVars (Var.later low d)))
              else pure none) := by
          split
          · exact transport?_ahead ahead args
          · exact .pure none
        refine .bind transported fun o => ?_
        cases o with
        | none => exact bodyAt?_ahead known ahead found levels args
        | some result => exact .pure (some result)

theorem headStep?_ahead (known : env.Within (fun _ => True) low)
    (ahead : ReducesAhead low d whnf) (t : Term) :
    Ahead low d (Option.map (Term.mapVars (Var.later low d))) (headStep? env whnf t)
      (headStep? env whnf (t.mapVars (Var.later low d))) := by
  have old := fun m t solved => (known.solutions m t solved).below
  cases t with
  | hole m =>
      have kept : (env.solution? m).map (Term.mapVars (Var.later low d)) = env.solution? m := by
        cases solved : env.solution? m with
        | none => rfl
        | some t =>
            exact congrArg some (t.mapVars_below (Var.later_keeps low d) (old m t solved))
      have met : Ahead low d (Option.map (Term.mapVars (Var.later low d)))
          (pure (env.solution? m)) _ := .pure (env.solution? m)
      rw [kept] at met
      exact met
  | app fn arg =>
      refine .bind (ahead fn) fun t => ?_
      cases t with
      | lam mode x domain body =>
          have met := Subst.apply_ahead (d := d) old (Subst.single x arg) body
          rw [Subst.single_mapVars (Var.later_injective low d)] at met
          exact .bind met fun result => .pure (some result)
      | _ => exact .pure none
  | proj whole index =>
      refine .bind (ahead whole) fun t => ?_
      cases t with
      | tuple components type =>
          simp only [Term.mapVars, mapTerms_eq, List.getElem?_map]
          exact .pure components[index]?
      | _ => exact .pure none
  | field f levels arg =>
      refine .bind (ahead arg) fun t => ?_
      cases t with
      | new record =>
          simp only [Term.mapVars, Term.fixed?_mapVars]
          exact .pure (record.fixed? f)
      | _ => exact .pure none
  | call f levels args =>
      simp only [Term.mapVars, mapTerms_eq]
      exact unfolding?_ahead known ahead f levels args
  | caseOf args params result tree =>
      simp only [Term.mapVars, mapTerms_eq]
      refine .bind (tree.run_ahead old ahead args) fun w => ?_
      cases w with
      | reduced result => exact .pure (some result)
      | stuck _ => exact .pure none
      | missing => exact .pure none
  | _ => exact .pure none

end Walking

theorem whnfWith_ahead {env : Environment} {low d : Nat} (known : env.Within (fun _ => True) low)
    (fuel : Nat) : ReducesAhead low d (whnfWith env fuel) := by
  induction fuel with
  | zero => exact fun _ => .throw
  | succ fuel ih =>
      intro t
      refine .bind (headStep?_ahead known ih t) fun o => ?_
      cases o with
      | none => exact .pure t
      | some next => exact ih next

/-- Weak head reduction does not depend on the counter. -/
theorem Term.whnf_ahead {env : Environment} {low d : Nat} (known : env.Within (fun _ => True) low) :
    ReducesAhead low d (Term.whnf env) := whnfWith_ahead known env.fuel

end PathTheory
