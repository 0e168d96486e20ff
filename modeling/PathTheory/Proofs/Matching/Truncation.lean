import PathTheory.Proofs.Matching.Built
import PathTheory.Proofs.Level.Solution
/-!
Truncated data taken apart. A value of a truncated data type may be matched only on the way to a
result whose homotopy level is at most that of the data. Where the universe of the result is known,
the compiler asks for this at every node, at once or by a demand on inferred levels, and drops none
of its demands; so the trees it gives take no truncated data apart for which nothing has been asked.
-/
namespace PathTheory

/-- Some node of the tree has a child for values of the constructor. -/
inductive CaseTree.Splits (c : DefId) : CaseTree → Prop
  | here {params : Telescope} {children : List (Shape × CaseTree)} {child : CaseTree} :
      (.con c, child) ∈ children → Splits c (.branch params children)
  | deeper {params : Telescope} {children : List (Shape × CaseTree)} {shape : Shape}
      {child : CaseTree} : (shape, child) ∈ children → Splits c child →
      Splits c (.branch params children)
  | rest {params : Telescope} {ends : List (Ends Term)} {child : CaseTree} : Splits c child →
      Splits c (.interval params ends (some child))

/-- The first level is at most the second one, as they are or by one of the demands. -/
def Level.AtMost (demands : List Demand) (a b : Level) : Prop :=
  a.holds b .le = .ok true ∨ ⟨a, b, .le⟩ ∈ demands

theorem Level.AtMost.mono {demands more : List Demand} {a b : Level} (atMost : a.AtMost demands b)
    (kept : demands ⊆ more) : a.AtMost more b :=
  atMost.imp_right fun demanded => kept demanded

theorem Level.compare_le_demanded {a b : Level} {d : Demand}
    (compared : a.compare b .le = .ok (.demanded d)) : d = ⟨a, b, .le⟩ := by
  change a.compareLe b = _ at compared
  unfold Level.compareLe at compared
  split at compared
  · cases compared
  · split at compared
    · cases compared
    · split at compared
      · cases compared
        rfl
      · cases compared
    · split at compared
      · cases compared
        rfl
      · obtain ⟨_, _, impossible⟩ := map_ok compared
        cases impossible

theorem Level.const_holds {c d : Int} (below : c ≤ d) :
    (Level.const c).holds (.const d) .le = .ok true := by
  by_cases same : c = d
  · simp only [same, Level.holds, Level.compare, Level.compareLe, if_true]
    rfl
  · rw [Level.holds_finite rfl rfl (by simpa using same) (by simp) (by simp)]
    change Except.ok (true && decide (c ≤ d)) = _
    simp [below]

/-- A solution that says nothing of level parameters leaves levels without inferred variables
    alone. -/
theorem LevelSolution.level_closed {s : LevelSolution} (params : ∀ k, s.get? (.param k) = none)
    {a : Level} (closed : a.hasInference = false) : s.level a = .ok a := by
  cases a with
  | const c => rfl
  | infinity => rfl
  | shift x c m =>
      cases x with
      | infer id k => cases closed
      | param k => simp only [LevelSolution.level, Level.subst, params]

/-- A comparison with a level without inferred variables that holds without a demand is of such a
    level too, but for the trivial ones. -/
theorem Level.holds_without_demand {a b : Level} (closed : b.hasInference = false)
    (holds : a.holds b .le = .ok true) : a = b ∨ b = .infinity ∨ a.hasInference = false := by
  by_contra apart
  simp only [not_or, Bool.not_eq_false] at apart
  obtain ⟨differ, bounded, inferred⟩ := apart
  have compared : a.compare b .le = .ok (.demanded ⟨a, b, .le⟩) := by
    cases a <;> cases b <;> simp_all [Level.compare, Level.compareLe, Level.hasInference]
  rw [Level.holds, compared] at holds
  cases holds

/-- What was at most a level without inferred variables is so at every solution of the demands. -/
theorem Level.AtMost.solved {demands : List Demand} {a b l : Level} (atMost : a.AtMost demands b)
    (closed : b.hasInference = false) {e : LevelEquations} {s : LevelSolution}
    (recorded : ⟨a, b, .le⟩ ∈ demands → ∃ span, ⟨a, b, span⟩ ∈ e.constraints)
    (solved : e.solve.run = .ok (.ok s)) (level : s.level a = .ok l) :
    l.holds b .le = .ok true := by
  obtain ⟨satisfied, params⟩ := LevelEquations.solve_satisfies solved
  have same := LevelSolution.level_closed params closed
  rcases atMost with holds | demanded
  · rcases Level.holds_without_demand closed holds with rfl | rfl | left
    · cases same.symm.trans level
      exact holds
    · cases l <;> rfl
    · cases (LevelSolution.level_closed params left).symm.trans level
      exact holds
  · obtain ⟨span, listed⟩ := recorded demanded
    have met := satisfied _ (Array.mem_toList_iff.mpr listed)
    rw [LevelSolution.satisfies] at met
    dsimp only at met
    rw [level, same] at met
    exact met

namespace Matching

variable {setting : Setting} {p : Progress}

/-- If the computation ends, none of the demands is lost, and this holds of the result. -/
def Collects {α : Type} (setting : Setting) (a : Compile α) (p : Progress)
    (Q : α → Progress → Prop) : Prop :=
  ∀ n x q m, a setting p n = .ok ((x, q), m) → p.demands ⊆ q.demands ∧ Q x q

namespace Collects

variable {α β : Type} {a : Compile α} {f : α → Compile β} {P : α → Progress → Prop}
  {Q : β → Progress → Prop}

theorem pure {x : β} (holds : Q x p) : Collects setting (pure x) p Q := by
  intro n y q m done
  cases compile_pure done
  exact ⟨List.Subset.refl _, holds⟩

theorem throw {fault : Fault} : Collects setting (throw fault) p Q := by
  intro n y q m impossible
  cases impossible

theorem bind (first : Collects setting a p P)
    (next : ∀ x q, p.demands ⊆ q.demands → P x q → Collects setting (f x) q Q) :
    Collects setting (a >>= f) p Q := by
  intro n y s k done
  obtain ⟨x, q, m, start, rest⟩ := compile_bind done
  obtain ⟨kept, holds⟩ := first n x q m start
  obtain ⟨later, final⟩ := next x q kept holds m y s k rest
  exact ⟨List.Subset.trans kept later, final⟩

theorem weaken {R : α → Progress → Prop} (first : Collects setting a p P)
    (holds : ∀ x q, P x q → R x q) : Collects setting a p R :=
  fun n x q m done => (first n x q m done).imp_right (holds x q)

theorem read {f : Setting → Compile β} (next : Collects setting (f setting) p Q) :
    Collects setting (read >>= f) p Q := next

theorem get {f : Progress → Compile β} (next : Collects setting (f p) p Q) :
    Collects setting (get >>= f) p Q := next

theorem modify (f : Progress → Progress) (kept : p.demands ⊆ (f p).demands) :
    Collects setting (modify f) p fun _ q => q = f p := by
  intro n x q m done
  cases done
  exact ⟨kept, rfl⟩

theorem lift (a : Checked α) :
    Collects setting (liftM a) p fun x q => a = .ok x ∧ q = p := by
  intro n x q m done
  cases a with
  | error fault => cases done
  | ok y =>
      cases done
      exact ⟨List.Subset.refl _, rfl, rfl⟩

theorem reading (f : Environment → Fresh α) :
    Collects setting (reading f) p fun _ q => q = p := by
  intro n x q m done
  obtain ⟨_, _, _, same⟩ := compile_reading done
  cases same
  exact ⟨List.Subset.refl _, rfl⟩

theorem forM {γ : Type} {f : γ → Compile Unit} (l : List γ)
    (each : ∀ x ∈ l, ∀ q, Collects setting (f x) q fun _ _ => True) (p : Progress) :
    Collects setting (l.forM f) p fun _ _ => True := by
  induction l generalizing p with
  | nil => exact pure trivial
  | cons x l ih =>
      refine (each x List.mem_cons_self p).bind fun _ q _ _ => ?_
      exact ih (fun y member => each y (List.mem_cons_of_mem x member)) q

theorem forIn {γ δ : Type} {f : γ → δ → Compile (ForInStep δ)} (l : List γ)
    (each : ∀ x ∈ l, ∀ d q, Collects setting (f x d) q fun _ _ => True) (d : δ) (p : Progress) :
    Collects setting (forIn l d f) p fun _ _ => True := by
  induction l generalizing d p with
  | nil => exact pure trivial
  | cons x l ih =>
      rw [List.forIn_cons]
      refine (each x List.mem_cons_self d p).bind fun step q _ _ => ?_
      cases step with
      | done d => exact pure trivial
      | yield d => exact ih (fun y member => each y (List.mem_cons_of_mem x member)) d q

theorem mapM {γ : Type} {f : γ → Compile α} (l : List γ)
    (each : ∀ x ∈ l, ∀ q, Collects setting (f x) q fun _ _ => True) (p : Progress) :
    Collects setting (l.mapM f) p fun _ _ => True := by
  induction l generalizing p with
  | nil =>
      rw [List.mapM_nil]
      exact pure trivial
  | cons x l ih =>
      rw [List.mapM_cons]
      refine (each x List.mem_cons_self p).bind fun _ q _ _ => ?_
      refine (ih (fun y member => each y (List.mem_cons_of_mem x member)) q).bind fun _ _ _ _ => ?_
      exact pure trivial

end Collects

section Reports

theorem fail_collects (span : Span) (problem : Problem) :
    Collects setting (fail span problem) p fun _ _ => True :=
  (Collects.modify _ (List.Subset.refl _)).weaken fun _ _ _ => trivial

theorem failed_collects : Collects setting failed p fun _ _ => True := .get (.pure trivial)

theorem markUsed_collects (row : Row) : Collects setting (markUsed row) p fun _ _ => True :=
  (Collects.modify _ (List.Subset.refl _)).weaken fun _ _ _ => trivial

theorem recordMissing_collects (row : List Pattern) :
    Collects setting (recordMissing row) p fun _ _ => True := by
  refine .read ((Collects.modify _ ?_).weaken fun _ _ _ => trivial)
  split
  · exact List.Subset.refl _
  · exact List.Subset.refl _

theorem refuse_collects (rows : List Row) (bad : Pattern → Bool)
    (problem : Pattern → Checked Problem) :
    Collects setting (refuse rows bad problem) p fun _ _ => True := by
  unfold refuse
  split
  · exact .pure trivial
  · exact (Collects.lift _).bind fun _ _ _ _ => (fail_collects _ _).bind fun _ _ _ _ =>
      .pure trivial

end Reports

/-- The known universe of the result is at most as high as the data, if these are truncated. -/
def Setting.Suits (setting : Setting) (demands : List Demand) (data : DataDef) : Prop :=
  data.truncated = true → ∀ result, setting.resultSort = some result →
    result.h.AtMost demands data.sort.h

/-- Values of the constructor may be told from others of their data type. -/
def Setting.Allows (setting : Setting) (demands : List Demand) (c : DefId) : Prop :=
  ∃ d data, setting.env.data? d = some data ∧ c ∈ data.constructors ∧ setting.Suits demands data

/-- The tree takes only such constructors apart. -/
def Setting.Guards (setting : Setting) (demands : List Demand) (tree : CaseTree) : Prop :=
  ∀ c, tree.Splits c → setting.Allows demands c

theorem Setting.Suits.mono {demands more : List Demand} {data : DataDef}
    (suits : setting.Suits demands data) (kept : demands ⊆ more) : setting.Suits more data :=
  fun truncated result known => (suits truncated result known).mono kept

theorem Setting.Guards.mono {demands more : List Demand} {tree : CaseTree}
    (guards : setting.Guards demands tree) (kept : demands ⊆ more) : setting.Guards more tree := by
  intro c splits
  obtain ⟨d, data, known, listed, suits⟩ := guards c splits
  exact ⟨d, data, known, listed, suits.mono kept⟩

/-- What has been collected guards the tree that is found, if there is one. -/
def Guarding (setting : Setting) (found : Option CaseTree) (p : Progress) : Prop :=
  ∀ tree ∈ found, setting.Guards p.demands tree

theorem Guarding.none : Guarding setting none p := by
  intro tree isTree
  cases isTree

theorem Guarding.some {tree : CaseTree} (guards : setting.Guards p.demands tree) :
    Guarding setting (some tree) p := by
  intro other isTree
  cases isTree
  exact guards

theorem Guarding.mono {found : Option CaseTree} {q : Progress} (guarding : Guarding setting found p)
    (kept : p.demands ⊆ q.demands) : Guarding setting found q :=
  fun tree isTree => (guarding tree isTree).mono kept

theorem Setting.Guards.leaf {demands : List Demand} {params : Telescope} {body : Term} :
    setting.Guards demands (.leaf params body) := by
  intro c splits
  cases splits

theorem Setting.Guards.branch {demands : List Demand} {params : Telescope}
    {children : List (Shape × CaseTree)}
    (here : ∀ c child, (.con c, child) ∈ children → setting.Allows demands c)
    (below : ∀ entry ∈ children, setting.Guards demands entry.2) :
    setting.Guards demands (.branch params children) := by
  intro c splits
  cases splits with
  | here member => exact here c _ member
  | deeper member splits => exact below _ member c splits

theorem Setting.Guards.interval {demands : List Demand} {params : Telescope}
    {ends : List (Ends Term)} {rest : Option CaseTree}
    (guards : ∀ tree ∈ rest, setting.Guards demands tree) :
    setting.Guards demands (.interval params ends rest) := by
  intro c splits
  cases splits with
  | rest splits => exact guards _ rfl c splits

section Levels

theorem compareLevels_collects (a b : Level) : Collects setting (compareLevels a b) p
    fun fits q => fits = true → a.AtMost q.demands b := by
  refine .read ((Collects.lift _).bind fun verdict _ _ compared => ?_)
  obtain ⟨compared, rfl⟩ := compared
  refine (Collects.modify _ (List.subset_append_left _ _)).bind fun _ q _ same => ?_
  subst same
  refine .pure fun fits => ?_
  cases verdict with
  | decided answer =>
      left
      rw [Level.holds, compared, show answer = true from fits]
      rfl
  | demanded d =>
      cases Level.compare_le_demanded compared
      unfold Universe.Comparison.of at fits ⊢
      dsimp only at fits ⊢
      split at fits
      · rename_i accepts
        right
        simp [accepts]
      · cases fits

theorem dimensions_some {h : Level} {n : Int} (counted : dimensions h = .ok (some n)) :
    h = .const (n - 1) := by
  unfold dimensions at counted
  split at counted
  · rename_i c
    obtain ⟨k, sum, same⟩ := bind_ok counted
    cases same
    rw [Bounded.add_ok sum, add_sub_cancel_right]
  · cases counted

theorem levelFits_collects (result data : Level) : Collects setting (levelFits result data) p
    fun fits q => fits = true → result.AtMost q.demands data := by
  refine (Collects.lift _).bind fun l _ _ counted => (Collects.lift _).bind fun d _ _ known => ?_
  split
  · split
    · rename_i below
      refine .pure fun _ => .inl ?_
      rw [dimensions_some counted.1, dimensions_some known.1]
      exact Level.const_holds (by omega)
    · exact compareLevels_collects result data
  · exact compareLevels_collects result data

/-- Where the check is passed, the result is at most as high as the data. -/
theorem truncationLevel_collects (rows : List Row) (data : DataDef) (type : Term) :
    Collects setting (truncationLevel rows data type) p
      fun level q => level.isSome → setting.Suits q.demands data := by
  unfold truncationLevel
  split
  · rename_i untruncated
    refine .pure fun _ truncated => ?_
    rw [truncated] at untruncated
    cases untruncated
  · refine .read ?_
    cases known : setting.resultSort with
    | none =>
        refine .pure fun _ _ result isKnown => ?_
        cases known.symm.trans isKnown
    | some result =>
        refine (levelFits_collects result.h data.sort.h).bind fun fits q _ passed => ?_
        split
        · rename_i fit
          refine (Collects.lift _).bind fun _ _ _ same => .pure fun _ _ other isKnown => ?_
          cases known.symm.trans isKnown
          rw [same.2]
          exact passed fit
        · refine (Collects.lift _).bind fun _ _ _ _ => (Collects.lift _).bind fun _ _ _ _ => ?_
          refine (fail_collects _ _).bind fun _ _ _ _ => .pure fun impossible => ?_
          cases impossible

end Levels

section Splitting

variable {build : Build}

/-- What is asked of the function that builds the children. -/
def Guarded (build : Build) (setting : Setting) : Prop :=
  ∀ columns rows path p, Collects setting (build columns rows path) p (Guarding setting)

theorem split_collects (guarded : Guarded build setting) (column : Column) (rest : List Column)
    (rows : List Row) (path : List Frame) (before : List Var) (shape : Shape) (value : Term)
    (fields : List Column) :
    Collects setting (split build column rest rows path before shape value fields) p
      (Guarding setting) := by
  refine (Collects.reading _).bind fun rest q _ _ => ?_
  dsimp only
  split
  · exact (fail_collects _ _).bind fun _ _ _ _ => .pure .none
  · exact guarded _ _ _ _

theorem splitAll_collects {splitOne : DefId → Compile (Option (Option (Shape × CaseTree)))}
    (one : ∀ c p, Collects setting (splitOne c) p fun found q => ∀ shape child,
      found = some (some (shape, child)) → shape = .con c ∧ setting.Guards q.demands child)
    (cs : List DefId) (p : Progress) :
    Collects setting (splitAll splitOne cs) p fun found q => ∀ children ∈ found,
      ∀ entry ∈ children, (∃ c ∈ cs, entry.1 = .con c) ∧ setting.Guards q.demands entry.2 := by
  induction cs generalizing p with
  | nil =>
      refine .pure ?_
      simp
  | cons c rest ih =>
      refine (one c p).bind fun first q _ here => ?_
      refine (ih q).bind fun others s kept later => ?_
      have outer : ∀ children ∈ others, ∀ entry ∈ children,
          (∃ c' ∈ c :: rest, entry.1 = .con c') ∧ setting.Guards s.demands entry.2 := by
        intro children isOthers entry member
        obtain ⟨⟨c', listed, same⟩, guards⟩ := later children isOthers entry member
        exact ⟨⟨c', List.mem_cons_of_mem c listed, same⟩, guards⟩
      cases first with
      | none => exact .pure outer
      | some child =>
          refine .pure ?_
          cases child with
          | none => simp
          | some child =>
              cases others with
              | none => simp
              | some others =>
                  rintro children isChildren entry member
                  cases isChildren
                  rcases List.mem_cons.mp member with rfl | member
                  · obtain ⟨same, guards⟩ := here _ _ rfl
                    exact ⟨⟨c, List.mem_cons_self, same⟩, guards.mono kept⟩
                  · exact outer others rfl entry member

theorem branchConstructor_collects (guarded : Guarded build setting) (column : Column)
    (rest : List Column) (rows : List Row) (path : List Frame) (before : List Var)
    (data : DataDef) (levels : Universe) (args : List Term) (c : DefId) (p : Progress) :
    Collects setting (branchConstructor build column rest rows path before data levels args c) p
      fun found q => ∀ shape child, found = some (some (shape, child)) →
        shape = .con c ∧ setting.Guards q.demands child := by
  refine .read ?_
  dsimp only
  cases setting.env.constructor? c with
  | none =>
      refine .pure ?_
      simp
  | some con =>
      refine (Collects.reading _).bind fun fields _ _ _ => ?_
      refine (split_collects guarded _ _ _ _ _ _ _ _).bind fun child q _ guards => .pure ?_
      intro shape tree isChild
      cases child with
      | none => cases isChild
      | some child =>
          cases isChild
          exact ⟨rfl, guards _ rfl⟩

theorem live_subset (env : Environment) (data : DataDef) (level : Option Int) :
    live env data level ⊆ data.constructors := List.filter_subset_self _

theorem branchLive_collects (guarded : Guarded build setting) (column : Column)
    (rest : List Column) (rows : List Row) (path : List Frame) (before : List Column)
    (type : Term) {d : DefId} {data : DataDef} (levels : Universe) (args : List Term)
    (level : Option Int) (known : setting.env.data? d = some data)
    (suits : setting.Suits p.demands data) :
    Collects setting (branchLive build column rest rows path before type data levels args level) p
      (Guarding setting) := by
  refine .read ?_
  dsimp only
  split
  · split
    · exact (markUsed_collects _).bind fun _ _ _ _ => .pure (.some (.branch (by simp) (by simp)))
    · exact (Collects.lift _).bind fun _ _ _ _ => (fail_collects _ _).bind fun _ _ _ _ =>
        .pure .none
  · refine (refuse_collects _ _ _).bind fun refused q kept _ => ?_
    split
    · exact .pure .none
    · refine (splitAll_collects (fun c p => branchConstructor_collects guarded column rest rows path
        _ data levels args c p) _ q).bind fun children s later each => .pure ?_
      rintro tree isTree
      obtain ⟨all, isAll, rfl⟩ := Option.map_eq_some_iff.mp isTree
      refine .branch (fun c child member => ?_) fun entry member => (each all isAll entry member).2
      obtain ⟨⟨c', listed, same⟩, _⟩ := each all isAll _ member
      cases same
      exact ⟨d, data, known, live_subset _ _ _ listed,
        suits.mono (List.Subset.trans kept later)⟩

theorem branchData_collects (guarded : Guarded build setting) (column : Column)
    (rest : List Column) (rows : List Row) (path : List Frame) (before : List Column)
    (type : Term) (d : DefId) (levels : Universe) (args : List Term) :
    Collects setting (branchData build column rest rows path before type d levels args) p
      (Guarding setting) := by
  refine .read ?_
  cases known : setting.env.data? d with
  | none => exact .pure .none
  | some data =>
      have leveled : ∀ {atLevel : Option (Option Int) → Compile (Option CaseTree)},
          atLevel none = pure none → (∀ level, atLevel (some level) =
            branchLive build column rest rows path before type data levels args level) → ∀ p,
          Collects setting (truncationLevel rows data type >>= atLevel) p (Guarding setting) := by
        intro atLevel noLevel isLevel p
        refine (truncationLevel_collects rows data type).bind fun level q _ suits => ?_
        cases level with
        | none =>
            rw [noLevel]
            exact .pure .none
        | some level =>
            rw [isLevel]
            exact branchLive_collects guarded _ _ _ _ _ _ _ _ _ known (suits rfl)
      dsimp only
      split
      · refine (refuse_collects _ _ _).bind fun refused q _ _ => ?_
        split
        · exact .pure .none
        · exact leveled rfl (fun _ => rfl) q
      · exact leveled rfl (fun _ => rfl) p

theorem branchTuple_collects (guarded : Guarded build setting) (column : Column)
    (rest : List Column) (rows : List Row) (path : List Frame) (before : List Column)
    (type : Term) (params : Telescope) :
    Collects setting (branchTuple build column rest rows path before type params) p
      (Guarding setting) := by
  refine (refuse_collects _ _ _).bind fun refused _ _ _ => ?_
  split
  · exact .pure .none
  · refine (Collects.reading _).bind fun fields _ _ _ => ?_
    refine (split_collects guarded _ _ _ _ _ _ _ _).bind fun child q _ guards => .pure ?_
    rintro tree isTree
    obtain ⟨child, isChild, rfl⟩ := Option.map_eq_some_iff.mp isTree
    exact .branch (by simp) (by simpa using guards child isChild)

theorem branch_collects (guarded : Guarded build setting) (before : List Column) (column : Column)
    (rest : List Column) (rows : List Row) (path : List Frame) :
    Collects setting (branch build before column rest rows path) p (Guarding setting) := by
  refine (Collects.reading _).bind fun type _ _ _ => ?_
  split
  · exact branchData_collects guarded _ _ _ _ _ _ _ _ _
  · exact branchTuple_collects guarded _ _ _ _ _ _ _
  · exact (refuse_collects _ _ _).bind fun _ _ _ _ => .pure .none

theorem build_guarded : ∀ fuel : Nat, Guarded (Matching.build fuel) setting := by
  intro fuel
  induction fuel with
  | zero =>
      intro columns rows path p
      exact .throw
  | succ fuel ih =>
      intro columns rows path p
      unfold Matching.build
      cases rows with
      | nil =>
          refine (Collects.reading _).bind fun found _ _ _ => ?_
          cases found with
          | some before =>
              exact .pure (.some (.branch (by simp) (by simp)))
          | none =>
              exact (recordMissing_collects _).bind fun _ _ _ _ => .pure .none
      | cons first others =>
          dsimp only
          split
          · refine (markUsed_collects _).bind fun _ _ _ _ => ?_
            split
            · exact (fail_collects _ _).bind fun _ _ _ _ => .pure .none
            · exact (Collects.reading _).bind fun _ _ _ _ => .pure (.some .leaf)
          · split
            · exact .pure .none
            · exact branch_collects ih _ _ _ _ _

theorem buildRows_collects (columns : List Column) (rows : List Row) :
    Collects setting (buildRows columns rows) p (Guarding setting) :=
  build_guarded _ _ _ _ _

end Splitting

section Interval

theorem partRows_collects (intervals : List Bool) (rows : List Row) (p : Progress) :
    Collects setting (partRows intervals rows) p fun _ _ => True := by
  induction rows generalizing p with
  | nil => exact .pure trivial
  | cons row rest ih =>
      unfold partRows
      dsimp only
      split
      · exact (ih p).bind fun _ _ _ _ => .pure trivial
      · split
        · exact (fail_collects _ _).bind fun _ q _ _ => ih q
        · exact (ih p).bind fun _ _ _ _ => .pure trivial

theorem refuseAfter_collects (first : Nat) (rows : List Row) :
    Collects setting (refuseAfter first rows) p fun _ _ => True := by
  refine .forM rows (fun row _ q => ?_) p
  split
  · exact fail_collects _ _
  · exact .pure trivial

theorem fillEnds_collects (columns : List Column) (first : Nat) (endRows : List EndRow)
    (ends : List (Ends Term)) (p : Progress) :
    Collects setting (fillEnds columns first endRows ends) p fun _ _ => True := by
  induction endRows generalizing ends p with
  | nil => exact .pure trivial
  | cons endRow rest ih =>
      obtain ⟨row, j⟩ := endRow
      refine .read ?_
      dsimp only
      split
      · split
        · exact ih _ _
        · split
          · exact (fail_collects _ _).bind fun _ _ _ _ => ih _ _
          · refine (Collects.reading _).bind fun _ _ _ _ => ?_
            exact (markUsed_collects _).bind fun _ _ _ _ => ih _ _
      · exact ih _ _

theorem missingEnds_collects (columns : List Column) (j : Nat) (ends : List (Ends Term))
    (p : Progress) : Collects setting (missingEnds columns j ends) p fun _ _ => True := by
  induction ends generalizing j p with
  | nil => exact .pure trivial
  | cons here rest ih =>
      unfold missingEnds
      dsimp only
      split
      · refine .read ?_
        split
        · refine (Collects.reading _).bind fun _ _ _ _ => ?_
          split
          · refine (Collects.forIn _ (fun _ _ _ q => ?_) _ _).bind fun _ _ _ _ => ih _ _
            split
            · exact (recordMissing_collects _).bind fun _ _ _ _ => .pure trivial
            · exact .pure trivial
          · exact ih _ _
        · exact ih _ _
      · exact ih _ _

theorem buildInterval_collects (columns : List Column) (intervals : List Bool) (rows : List Row) :
    Collects setting (buildInterval columns intervals rows) p (Guarding setting) := by
  refine (partRows_collects _ _ _).bind fun parted _ _ _ => ?_
  obtain ⟨endRows, others⟩ := parted
  dsimp only
  split
  · refine (refuseAfter_collects _ _).bind fun _ _ _ _ => ?_
    refine failed_collects.bind fun isFailed _ _ _ => ?_
    split
    · exact .pure .none
    · refine (fillEnds_collects _ _ _ _ _).bind fun ends _ _ _ => ?_
      have finished : ∀ (rest : Option CaseTree) (q : Progress),
          Guarding setting rest q → Collects setting (do
            if (← failed) || !(← get).missing.isEmpty then return none
            return some (.interval (Telescope.ofPairs columns) (ends.dropWhile Ends.isEmpty) rest))
            q (Guarding setting) := by
        intro rest q guarding
        refine failed_collects.bind fun _ s kept _ => .get ?_
        split
        · exact .pure .none
        · exact .pure (.some (.interval (guarding.mono kept)))
      split
      · split
        · exact (missingEnds_collects _ _ _ _).bind fun _ q _ _ => finished none q .none
        · exact finished none _ .none
      · refine (Collects.reading _).bind fun _ _ _ _ => ?_
        exact (buildRows_collects _ _).bind fun rest q _ guarding => finished rest q guarding
  · exact .pure .none

end Interval

section Clauses

theorem checkArity_collects (arity : Nat) (clauses : List Clause) :
    Collects setting (checkArity arity clauses) p fun _ _ => True := by
  refine .forM clauses (fun c _ q => ?_) p
  split
  · exact fail_collects _ _
  · split
    · exact fail_collects _ _
    · exact .pure trivial

theorem reportRedundant_collects (clauses : List Clause) :
    Collects setting (reportRedundant clauses) p fun _ _ => True := by
  refine .get (.forM _ (fun entry _ q => ?_) p)
  obtain ⟨c, number⟩ := entry
  dsimp only
  split
  · exact fail_collects _ _
  · exact .pure trivial

theorem isInterval_collects (type : Term) :
    Collects setting (isInterval type) p fun _ _ => True := by
  refine .read ((Collects.reading _).bind fun t _ _ _ => ?_)
  split
  · exact .pure trivial
  · exact .pure trivial

theorem clausesTree_collects (params : Telescope) (clauses : List Clause) :
    Collects setting (clausesTree params clauses) p (Guarding setting) := by
  refine .read ?_
  refine (Collects.mapM _ (fun c _ _ => isInterval_collects c.2) _).bind fun _ _ _ _ => ?_
  split
  · split
    · exact (fail_collects _ _).bind fun _ _ _ _ => .pure .none
    · exact buildInterval_collects _ _ _
  · exact buildRows_collects _ _

theorem unlessFailed_collects (clauses : List Clause) {found : Option CaseTree}
    (guarding : Guarding setting found p) :
    Collects setting (unlessFailed clauses found) p (Guarding setting) := by
  refine failed_collects.bind fun isFailed q kept _ => ?_
  split
  · exact .pure .none
  · cases found with
    | none => exact .pure .none
    | some tree =>
        refine .read ?_
        dsimp only
        split
        · refine (reportRedundant_collects _).bind fun _ s later _ => .pure ?_
          exact guarding.mono (List.Subset.trans kept later)
        · exact .pure (guarding.mono kept)

theorem compileClauses_collects (span : Span) (params : Telescope) (clauses : List Clause) :
    Collects setting (compileClauses span params clauses) p (Guarding setting) := by
  refine (checkArity_collects _ _).bind fun _ _ _ _ => ?_
  refine failed_collects.bind fun isFailed _ _ _ => ?_
  split
  · exact .pure .none
  · refine (clausesTree_collects _ _).bind fun tree q _ guarding => .get ?_
    dsimp only
    split
    · exact (fail_collects _ _).bind fun _ s kept _ =>
        unlessFailed_collects clauses (guarding.mono kept)
    · exact unlessFailed_collects clauses guarding

/-- Whatever clauses are compiled, each data type that the tree takes apart is one that the result,
    if its universe is known, has been found or demanded to be no higher than. -/
theorem compile_guards {span : Span} {params : Telescope} {clauses : List Clause}
    {n m : Nat} {outcome : Outcome} {tree : CaseTree}
    (done : compile setting span params clauses n = .ok (outcome, m))
    (given : outcome.tree = some tree) : setting.Guards outcome.demands tree := by
  obtain ⟨⟨found, p⟩, k, ran, final⟩ := fresh_bind done
  cases fresh_pure final
  exact (compileClauses_collects span params clauses _ _ _ _ ran).2 tree given

end Clauses

end Matching

end PathTheory
