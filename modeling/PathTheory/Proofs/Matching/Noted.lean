import PathTheory.Proofs.Matching.Built
/-!
What the compiler notes. Diagnostics are added in order and stay, and while the tree is built none of
them is about coverage. So where nothing is noted in the end nothing has been turned down on the
way.
-/
namespace PathTheory

/-- The problems that are said of the clauses as a whole, once the tree is there. -/
def Problem.ofCoverage : Problem → Bool
  | .missingClauses _ _ | .redundantClause _ => true
  | _ => false

namespace Matching

variable {setting : Setting} {p q r : Progress} {n m : Nat}

section Noting

variable {kind : Problem → Bool}

/-- Diagnostics are added, none of them of the given kind. -/
def Progress.Onward (kind : Problem → Bool) (p q : Progress) : Prop :=
  ∃ noted, q.diagnostics = p.diagnostics ++ noted ∧ ∀ d ∈ noted, kind d.problem = false

theorem Progress.Onward.same (same : q.diagnostics = p.diagnostics) : p.Onward kind q :=
  ⟨[], by rw [same, List.append_nil], List.forall_mem_nil _⟩

theorem Progress.Onward.trans (first : p.Onward kind q) (next : q.Onward kind r) :
    p.Onward kind r := by
  obtain ⟨noted, same, fine⟩ := first
  obtain ⟨more, same', fine'⟩ := next
  exact ⟨noted ++ more, by rw [same', same, List.append_assoc],
    List.forall_mem_append.mpr ⟨fine, fine'⟩⟩

/-- If nothing is noted in all, nothing is noted in between. -/
theorem Progress.Onward.silent (first : p.Onward kind q) (next : q.Onward kind r)
    (silent : r.diagnostics = p.diagnostics) :
    q.diagnostics = p.diagnostics ∧ r.diagnostics = q.diagnostics := by
  obtain ⟨noted, same, _⟩ := first
  obtain ⟨more, same', _⟩ := next
  rw [same', same, List.append_assoc, List.append_right_eq_self, List.append_eq_nil_iff] at silent
  obtain ⟨rfl, rfl⟩ := silent
  rw [List.append_nil] at same same'
  exact ⟨same, same'⟩

/-- Computations that note nothing of the given kind. -/
def Noting {α : Type} (kind : Problem → Bool) (a : Compile α) : Prop :=
  ∀ setting p n x q m, a setting p n = .ok ((x, q), m) → p.Onward kind q

namespace Noting

variable {α β : Type}

theorem pure (x : α) : Noting kind (pure x) := by
  intro setting p n y q m done
  cases compile_pure done
  exact .same rfl

theorem bind {a : Compile α} {f : α → Compile β} (first : Noting kind a)
    (next : ∀ x, Noting kind (f x)) : Noting kind (a >>= f) := by
  intro setting p n y r k done
  obtain ⟨x, q, m, start, rest⟩ := compile_bind done
  exact (first _ _ _ _ _ _ start).trans (next x _ _ _ _ _ _ rest)

theorem lift (a : Checked α) : Noting kind (liftM a : Compile α) := by
  intro setting p n y q m done
  cases a with
  | error fault => cases done
  | ok x =>
      cases done
      exact .same rfl

theorem reading (f : Environment → Fresh α) : Noting kind (reading f) := by
  intro setting p n y q m done
  obtain ⟨_, _, _, same⟩ := compile_reading done
  cases same
  exact .same rfl

theorem read : Noting kind (read : Compile Setting) := by
  intro setting p n y q m done
  cases done
  exact .same rfl

theorem modify {f : Progress → Progress} (same : ∀ p, (f p).diagnostics = p.diagnostics) :
    Noting kind (modify f : Compile Unit) := by
  intro setting p n y q m done
  cases done
  exact .same (same p)

theorem fail (span : Span) {problem : Problem} (other : kind problem = false) :
    Noting kind (fail span problem) := by
  intro setting p n y q m done
  cases done
  exact ⟨_, rfl, List.forall_mem_singleton.mpr other⟩

theorem fail_of (span : Span) {a : Checked Problem} {f : Unit → Compile β}
    (other : ∀ problem, a = .ok problem → kind problem = false) (next : ∀ x, Noting kind (f x)) :
    Noting kind (do
      Matching.fail span (← a)
      f ()) := by
  intro setting p n y q m done
  obtain ⟨problem, _, _, said, rest⟩ := compile_bind done
  cases isProblem : a with
  | error fault =>
      rw [isProblem] at said
      cases said
  | ok problem' =>
      rw [isProblem] at said
      cases said
      obtain ⟨_, _, _, told, final⟩ := compile_bind rest
      exact (fail span (other _ isProblem) _ _ _ _ _ _ told).trans (next () _ _ _ _ _ _ final)

end Noting

theorem refuse_noting {rows : List Row} {bad : Pattern → Bool}
    {problem : Pattern → Checked Problem}
    (other : ∀ p r, problem p = .ok r → kind r = false) : Noting kind (refuse rows bad problem) := by
  unfold refuse
  split
  · exact .pure _
  · exact .fail_of _ (fun r => other _ r) fun _ => .pure _

theorem notConstructor_other {type : Term} (pattern : Pattern) (r : Problem)
    (said : notConstructor type pattern = .ok r) : r.ofCoverage = false := by
  obtain ⟨_, _, final⟩ := bind_ok said
  cases final
  rfl

theorem compareLevels_noting (a b : Level) : Noting kind (compareLevels a b) :=
  .bind .read fun _ => .bind (.lift _) fun _ => .bind (.modify fun _ => rfl) fun _ => .pure _

theorem levelFits_noting (result data : Level) : Noting kind (levelFits result data) := by
  refine .bind (.lift _) fun level => .bind (.lift _) fun dataLevel => ?_
  split
  · split
    · exact .pure _
    · exact compareLevels_noting _ _
  · exact compareLevels_noting _ _

theorem truncationLevel_noting (other : ∀ data result, kind (.truncation data result) = false)
    (rows : List Row) (data : DataDef) (type : Term) :
    Noting kind (truncationLevel rows data type) := by
  unfold truncationLevel
  split
  · exact .pure _
  · refine .bind .read fun setting => ?_
    split
    · refine (levelFits_noting _ _).bind fun fits => ?_
      split
      · exact .bind (.lift _) fun _ => .pure _
      · exact .bind (.lift _) fun _ => .bind (.lift _) fun _ =>
          .bind (.fail _ (other _ _)) fun _ => .pure _
    · exact .pure _

theorem uncovered_noting (columns : List Column) (path : List Frame) :
    Noting kind (uncovered columns path) := by
  refine .bind (.reading _) fun found => ?_
  split
  · exact .pure _
  · refine .bind (.bind .read fun setting => .modify fun p => ?_) fun _ => .pure _
    split <;> rfl

theorem leaf_noting (other : kind .clauseWithoutBody = false) (columns : List Column) (row : Row) :
    Noting kind (leaf columns row) := by
  refine .bind (.modify fun _ => rfl) fun _ => ?_
  split
  · exact .bind (.fail _ other) fun _ => .pure _
  · exact .bind (.reading _) fun _ => .pure _

section Branches

variable {build : Build}
  (noting : ∀ columns rows path, Noting Problem.ofCoverage (build columns rows path))
include noting

theorem split_noting (column : Column) (rest : List Column) (rows : List Row) (path : List Frame)
    (before : List Var) (shape : Shape) (value : Term) (fields : List Column) :
    Noting Problem.ofCoverage (split build column rest rows path before shape value fields) := by
  refine .bind (.reading _) fun others => ?_
  dsimp only
  split
  · refine .bind (.fail _ ?_) fun _ => .pure _
    split <;> rfl
  · exact noting _ _ _

omit noting in
theorem splitAll_noting {splitOne : DefId → Compile (Option (Option (Shape × CaseTree)))}
    (each : ∀ c, Noting Problem.ofCoverage (splitOne c)) (live : List DefId) :
    Noting Problem.ofCoverage (splitAll splitOne live) := by
  induction live with
  | nil => exact .pure _
  | cons c live ih =>
      refine (each c).bind fun first => ih.bind fun others => ?_
      cases first <;> exact .pure _

theorem branchConstructor_noting (column : Column) (rest : List Column) (rows : List Row)
    (path : List Frame) (before : List Var) (data : DataDef) (u : Universe) (args : List Term)
    (c : DefId) : Noting Problem.ofCoverage
      (branchConstructor build column rest rows path before data u args c) := by
  refine .bind .read fun setting => ?_
  dsimp only
  split
  · exact .bind (.reading _) fun _ => (split_noting noting _ _ _ _ _ _ _ _).bind fun _ => .pure _
  · exact .pure _

theorem branchLive_noting (column : Column) (rest : List Column) (rows : List Row)
    (path : List Frame) (before : List Column) (type : Term) (data : DataDef) (u : Universe)
    (args : List Term) (level : Option Int) : Noting Problem.ofCoverage
      (branchLive build column rest rows path before type data u args level) := by
  refine .bind .read fun setting => ?_
  dsimp only
  split
  · split
    · exact .bind (.modify fun _ => rfl) fun _ => .pure _
    · exact .bind (.lift _) fun _ => .bind (.fail _ rfl) fun _ => .pure _
  · refine (refuse_noting notConstructor_other).bind fun refused => ?_
    split
    · exact .pure _
    · exact (splitAll_noting (branchConstructor_noting noting _ _ _ _ _ _ _ _) _).bind
        fun _ => .pure _

theorem branch_noting (before : List Column) (column : Column) (rest : List Column)
    (rows : List Row) (path : List Frame) :
    Noting Problem.ofCoverage (branch build before column rest rows path) := by
  refine .bind (.reading _) fun type => ?_
  split
  · -- a data type
    refine .bind .read fun setting => ?_
    dsimp only
    split
    · have leveled : ∀ {atLevel : Option (Option Int) → Compile (Option CaseTree)} (data : DataDef)
          (type : Term) (u : Universe) (args : List Term), atLevel none = pure none →
          (∀ level, atLevel (some level) = branchLive build column rest (rows.map (·.pass before))
            path before type data u args level) →
          Noting Problem.ofCoverage
            (truncationLevel (rows.map (·.pass before)) data type >>= atLevel) := by
        intro atLevel data type u args noLevel isLevel
        refine (truncationLevel_noting (fun _ _ => rfl) _ _ _).bind fun level => ?_
        cases level with
        | none =>
            rw [noLevel]
            exact .pure _
        | some level =>
            rw [isLevel]
            exact branchLive_noting noting _ _ _ _ _ _ _ _ _ _
      split
      · refine (refuse_noting fun p r said => ?_).bind fun refused => ?_
        · cases said
          rfl
        · split
          · exact .pure _
          · exact leveled _ _ _ _ rfl fun _ => rfl
      · exact leveled _ _ _ _ rfl fun _ => rfl
    · exact .pure _
  · -- a tuple type
    refine (refuse_noting notConstructor_other).bind fun refused => ?_
    split
    · exact .pure _
    · exact .bind (.reading _) fun _ => (split_noting noting _ _ _ _ _ _ _ _).bind fun _ => .pure _
  · exact (refuse_noting notConstructor_other).bind fun _ => .pure _

end Branches

theorem build_noting (fuel : Nat) (columns : List Column) (rows : List Row) (path : List Frame) :
    Noting Problem.ofCoverage (Matching.build fuel columns rows path) := by
  induction fuel generalizing columns rows path with
  | zero =>
      intro setting p n x q m impossible
      cases impossible
  | succ fuel ih =>
      unfold Matching.build
      split
      · exact uncovered_noting _ _
      · split
        · exact leaf_noting rfl _ _
        · dsimp only
          split
          · exact .pure _
          · exact branch_noting ih _ _ _ _ _

end Noting

section Silence

/-- Whoever gives up after a diagnostic has noted something. -/
theorem fail_loud {α : Type} {span : Span} {problem : Problem} {x y : α}
    (done : (do
      fail span problem
      return x : Compile α) setting p n = .ok ((y, q), m)) (silent : q.diagnostics = p.diagnostics) :
    False := by
  obtain ⟨_, _, _, told, final⟩ := compile_bind done
  cases told
  cases compile_pure final
  simp at silent

theorem compile_lift {α : Type} {a : Checked α} {r : (α × Progress) × Nat}
    (done : (liftM a : Compile α) setting p n = .ok r) : ∃ x, a = .ok x ∧ r = ((x, p), n) := by
  cases a with
  | error fault => cases done
  | ok x =>
      cases done
      exact ⟨x, rfl, rfl⟩

/-- Nothing is turned down in silence. -/
theorem refuse_silent {rows : List Row} {bad : Pattern → Bool}
    {problem : Pattern → Checked Problem} {refused : Bool}
    (done : refuse rows bad problem setting p n = .ok ((refused, q), m))
    (silent : q.diagnostics = p.diagnostics) :
    refused = false ∧ q = p ∧ m = n ∧ ∀ row ∈ rows, bad (row.patterns.headD .absurd) = false := by
  unfold refuse at done
  cases found : rows.find? fun r => bad (r.patterns.headD .absurd) with
  | none =>
      rw [found] at done
      cases compile_pure done
      exact ⟨rfl, rfl, rfl, by simpa using found⟩
  | some row =>
      rw [found] at done
      obtain ⟨_, _, _, said, rest⟩ := compile_bind done
      obtain ⟨_, _, same⟩ := compile_lift said
      cases same
      exact (fail_loud rest silent).elim

/-- What comes after rows that are not turned down. -/
theorem refuse_then {rows : List Row} {bad : Pattern → Bool} {problem : Pattern → Checked Problem}
    {α : Type} {x y : α} {a : Compile α}
    (done : (do
      if ← refuse rows bad problem then return x
      a : Compile α) setting p n = .ok ((y, q), m)) (silent : q.diagnostics = p.diagnostics) :
    a setting p n = .ok ((y, q), m) := by
  obtain ⟨refused, _, _, checked, next⟩ := compile_bind done
  cases refused with
  | true =>
      cases compile_pure next
      obtain ⟨impossible, _⟩ := refuse_silent checked silent
      cases impossible
  | false =>
      obtain ⟨rfl, rfl⟩ := refuse_false checked
      exact next

theorem compareLevels_run {a b : Level} {holds : Bool}
    (done : compareLevels a b setting p n = .ok ((holds, q), m)) :
    ∃ demands, q = { p with demands } := by
  obtain ⟨_, _, _, ask, rest⟩ := compile_bind done
  cases ask
  obtain ⟨_, _, _, compared, rest⟩ := compile_bind rest
  obtain ⟨_, _, same⟩ := compile_lift compared
  cases same
  obtain ⟨_, _, _, changed, final⟩ := compile_bind rest
  cases changed
  cases compile_pure final
  exact ⟨_, rfl⟩

theorem levelFits_run {result data : Level} {fits : Bool}
    (done : levelFits result data setting p n = .ok ((fits, q), m)) :
    ∃ demands, q = { p with demands } := by
  obtain ⟨level, _, _, first, rest⟩ := compile_bind done
  obtain ⟨_, _, same⟩ := compile_lift first
  cases same
  obtain ⟨dataLevel, _, _, second, rest⟩ := compile_bind rest
  obtain ⟨_, _, same⟩ := compile_lift second
  cases same
  have bounded : ∀ l d : Int, (if l ≤ d then (pure true : Compile Bool)
      else compareLevels result data) setting p n = .ok ((fits, q), m) →
      ∃ demands, q = { p with demands } := by
    intro l d run
    split at run
    · cases compile_pure run
      exact ⟨_, rfl⟩
    · exact compareLevels_run run
  cases level with
  | none => exact compareLevels_run rest
  | some l =>
      cases dataLevel with
      | none => exact compareLevels_run rest
      | some d => exact bounded l d rest

/-- Data is not found to be too high for the result in silence. -/
theorem truncationLevel_silent {rows : List Row} {data : DataDef} {type : Term}
    {level : Option (Option Int)}
    (done : truncationLevel rows data type setting p n = .ok ((level, q), m))
    (silent : q.diagnostics = p.diagnostics) :
    level.isSome = true ∧ ∃ demands, q = { p with demands } := by
  unfold truncationLevel at done
  split at done
  · cases compile_pure done
    exact ⟨rfl, _, rfl⟩
  · obtain ⟨_, _, _, ask, rest⟩ := compile_bind done
    cases ask
    cases known : setting.resultSort with
    | none =>
      rw [known] at rest
      cases compile_pure rest
      exact ⟨rfl, _, rfl⟩
    | some result =>
      rw [known] at rest
      obtain ⟨fits, _, _, compared, rest⟩ := compile_bind rest
      obtain ⟨demands, rfl⟩ := levelFits_run compared
      split at rest
      · obtain ⟨_, _, _, bounded, final⟩ := compile_bind rest
        obtain ⟨_, _, same⟩ := compile_lift bounded
        cases same
        cases compile_pure final
        exact ⟨rfl, _, rfl⟩
      · obtain ⟨_, _, _, said, rest⟩ := compile_bind rest
        obtain ⟨_, _, same⟩ := compile_lift said
        cases same
        obtain ⟨_, _, _, said, rest⟩ := compile_bind rest
        obtain ⟨_, _, same⟩ := compile_lift said
        cases same
        exact (fail_loud rest silent).elim

end Silence

end Matching

end PathTheory
