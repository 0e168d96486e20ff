import PathTheory.Proofs.Matching.Nodes
import PathTheory.Proofs.Reduction.Allowed
/-!
Compiled trees mention nothing that the clauses and the environment do not. And where no tree comes
out there is a reason for it among the diagnostics, unless that is excused: unless names may stand
for data types that there are not, or no missing clause may be listed.
-/
namespace PathTheory.Matching

variable {A : Allowance} {excused : Prop} {setting : Setting} {p q : Progress}

/-- Nothing noted so far is a mere warning. -/
def Progress.Serious (p : Progress) : Prop := ∀ d ∈ p.diagnostics, d.isWarning = false

/-- There is a reason for not giving a tree, or none is needed. -/
def Progress.Fails (excused : Prop) (p : Progress) : Prop :=
  excused ∨ p.diagnostics ≠ [] ∨ p.missing ≠ []

/-- No warning has been added, and no reason has gone. -/
structure Progress.Later (excused : Prop) (p q : Progress) : Prop where
  serious : p.Serious → q.Serious
  fails : p.Fails excused → q.Fails excused

theorem Progress.Later.refl (p : Progress) : p.Later excused p := ⟨id, id⟩

theorem Progress.Later.trans {r : Progress} (first : p.Later excused q) (next : q.Later excused r) :
    p.Later excused r := ⟨next.serious ∘ first.serious, next.fails ∘ first.fails⟩

/-- If the computation ends, it has gone on like that, and the result has the property. -/
def Proceeds {α : Type} (excused : Prop) (setting : Setting) (a : Compile α) (p : Progress)
    (Q : α → Progress → Prop) : Prop :=
  ∀ n x q m, a setting p n = .ok ((x, q), m) → p.Later excused q ∧ Q x q

abbrev Anyhow {α : Type} : α → Progress → Prop := fun _ _ => True

namespace Proceeds

variable {α β : Type} {a : Compile α} {f : α → Compile β} {P : α → Progress → Prop}
  {Q : β → Progress → Prop}

theorem pure {x : β} (holds : Q x p) : Proceeds excused setting (pure x) p Q := by
  intro n y q m done
  cases compile_pure done
  exact ⟨.refl p, holds⟩

theorem throw {fault : Fault} : Proceeds excused setting (throw fault) p Q := by
  intro n y q m impossible
  cases impossible

theorem bind (first : Proceeds excused setting a p P)
    (next : ∀ x q, p.Later excused q → P x q → Proceeds excused setting (f x) q Q) :
    Proceeds excused setting (a >>= f) p Q := by
  intro n y s k done
  obtain ⟨x, q, m, start, rest⟩ := compile_bind done
  obtain ⟨before, holds⟩ := first n x q m start
  obtain ⟨after, final⟩ := next x q before holds m y s k rest
  exact ⟨before.trans after, final⟩

theorem weaken {R : α → Progress → Prop} (first : Proceeds excused setting a p P)
    (holds : ∀ x q, P x q → R x q) : Proceeds excused setting a p R :=
  fun n x q m done => (first n x q m done).imp_right (holds x q)

theorem read {f : Setting → Compile β} (next : Proceeds excused setting (f setting) p Q) :
    Proceeds excused setting (read >>= f) p Q := next

theorem get {f : Progress → Compile β} (next : Proceeds excused setting (f p) p Q) :
    Proceeds excused setting (get >>= f) p Q := next

theorem modify (f : Progress → Progress) (later : p.Later excused (f p)) :
    Proceeds excused setting (modify f) p fun _ q => q = f p := by
  intro n x q m done
  cases done
  exact ⟨later, rfl⟩

theorem lift (a : Checked α) : Proceeds excused setting (liftM a) p Anyhow := by
  intro n x q m done
  cases a with
  | error fault => cases done
  | ok y =>
      cases done
      exact ⟨.refl p, trivial⟩

theorem reading {R : α → Prop} {f : Environment → Fresh α} (always : (f setting.env).Always R) :
    Proceeds excused setting (reading f) p fun x _ => R x := by
  intro n x q m done
  obtain ⟨y, k, run, same⟩ := compile_reading done
  cases same
  exact ⟨.refl p, always n x m run⟩

theorem forM {γ : Type} {f : γ → Compile Unit} (l : List γ)
    (each : ∀ x ∈ l, ∀ q, Proceeds excused setting (f x) q Anyhow) (p : Progress) :
    Proceeds excused setting (l.forM f) p Anyhow := by
  induction l generalizing p with
  | nil => exact pure trivial
  | cons x l ih =>
      refine (each x List.mem_cons_self p).bind fun _ q _ _ => ?_
      exact ih (fun y member => each y (List.mem_cons_of_mem x member)) q

theorem forIn {γ δ : Type} {f : γ → δ → Compile (ForInStep δ)} (l : List γ)
    (each : ∀ x ∈ l, ∀ d q, Proceeds excused setting (f x d) q Anyhow) (d : δ) (p : Progress) :
    Proceeds excused setting (forIn l d f) p Anyhow := by
  induction l generalizing d p with
  | nil => exact pure trivial
  | cons x l ih =>
      rw [List.forIn_cons]
      refine (each x List.mem_cons_self d p).bind fun step q _ _ => ?_
      cases step with
      | done d => exact pure trivial
      | yield d => exact ih (fun y member => each y (List.mem_cons_of_mem x member)) d q

theorem mapM {γ : Type} {f : γ → Compile α} (l : List γ)
    (each : ∀ x ∈ l, ∀ q, Proceeds excused setting (f x) q Anyhow) (p : Progress) :
    Proceeds excused setting (l.mapM f) p Anyhow := by
  induction l generalizing p with
  | nil =>
      rw [List.mapM_nil]
      exact pure trivial
  | cons x l ih =>
      rw [List.mapM_cons]
      refine (each x List.mem_cons_self p).bind fun _ q _ _ => ?_
      refine (ih (fun y member => each y (List.mem_cons_of_mem x member)) q).bind fun _ _ _ _ => ?_
      exact pure trivial

end Proceeds

section Reports

theorem Progress.Later.fail (span : Span) {problem : Problem} (isError : problem.isWarning = false) :
    p.Later excused { p with diagnostics := p.diagnostics ++ [⟨span, problem⟩] } where
  serious := fun serious =>
    List.forall_mem_append.mpr ⟨serious, List.forall_mem_singleton.mpr isError⟩
  fails := fun _ => .inr (.inl (by simp))

theorem fail_proceeds (span : Span) {problem : Problem} (isError : problem.isWarning = false) :
    Proceeds excused setting (fail span problem) p fun _ q => q.Fails excused :=
  (Proceeds.modify _ (.fail span isError)).weaken fun _ q same => by
    subst same
    exact .inr (.inl (by simp))

theorem failed_proceeds :
    Proceeds excused setting failed p fun isFailed q => q = p ∧ (isFailed = true → q.Fails excused) :=
  .get (.pure ⟨rfl, fun isFailed => .inr (.inl (by simpa using isFailed))⟩)

theorem markUsed_proceeds (row : Row) : Proceeds excused setting (markUsed row) p Anyhow :=
  (Proceeds.modify _ ⟨id, id⟩).weaken fun _ _ _ => trivial

/-- A missing clause is a reason, if it may be listed. -/
theorem recordMissing_proceeds (limit : excused ∨ 0 < setting.config.missingLimit)
    (row : List Pattern) : Proceeds excused setting (recordMissing row) p fun _ q => q.Fails excused := by
  refine .read ((Proceeds.modify _ ?_).weaken fun _ q same => ?_)
  · split
    · exact ⟨id, id⟩
    · exact ⟨id, Or.imp_right (Or.imp_right fun _ => by simp)⟩
  · subst same
    refine limit.imp_right fun positive => .inr ?_
    split
    · rename_i full
      exact List.ne_nil_of_length_pos (Nat.lt_of_lt_of_le positive full)
    · simp

theorem refuse_proceeds (rows : List Row) (bad : Pattern → Bool)
    {problem : Pattern → Checked Problem}
    (isError : ∀ p r, problem p = .ok r → r.isWarning = false) :
    Proceeds excused setting (refuse rows bad problem) p fun refused q =>
      (refused = true → q.Fails excused) ∧
        ((∃ r ∈ rows, bad (r.patterns.headD .absurd) = true) → refused = true) := by
  unfold refuse
  cases found : rows.find? fun r => bad (r.patterns.headD .absurd) with
  | none =>
      refine .pure ⟨nofun, fun ⟨r, member, isBad⟩ => ?_⟩
      exact absurd isBad (List.find?_eq_none.mp found r member)
  | some row =>
      intro n x q m done
      obtain ⟨r, q₁, k, said, rest⟩ := compile_bind done
      have known : q₁ = p ∧ problem (row.patterns.headD .absurd) = .ok r := by
        cases run : problem (row.patterns.headD .absurd) with
        | error fault =>
            rw [run] at said
            cases said
        | ok r' =>
            rw [run] at said
            cases said
            exact ⟨rfl, rfl⟩
      obtain ⟨rfl, isProblem⟩ := known
      have refused : Proceeds excused setting (do
          fail row.clause.span r
          return true) q₁ fun refused q => (refused = true → q.Fails excused) ∧
            ((∃ r ∈ rows, bad (r.patterns.headD .absurd) = true) → refused = true) :=
        (fail_proceeds _ (isError _ _ isProblem)).bind fun _ _ _ fails =>
          .pure ⟨fun _ => fails, fun _ => rfl⟩
      exact refused k x q m rest

theorem notConstructor_error {type : Term} {pattern : Pattern} {r : Problem}
    (said : notConstructor type pattern = .ok r) : r.isWarning = false := by
  obtain ⟨_, _, said⟩ := bind_ok said
  cases said
  rfl

end Reports

/-- Rows whose bodies and values are allowed, as wide as the columns. -/
structure Row.Allowed (A : Allowance) (width : Nat) (row : Row) : Prop where
  body : ∀ b ∈ row.clause.body, b.Allowed A
  subst : row.subst.Allowed A
  width : row.patterns.length = width

section Columns

variable {env : Environment} {columns : List Column} {s : Subst}

theorem columnsOf_allowed {params : Telescope} :
    Context.Allowed A (columnsOf params) ↔ Telescope.Allowed A params := List.forall_mem_map

theorem ofPairs_allowed : Telescope.Allowed A (Telescope.ofPairs columns) ↔
    Context.Allowed A columns := List.forall_mem_map

theorem bindColumns_allowed (images : s.Allowed A) (row : List Pattern) (columns : List Column) :
    (bindColumns s row columns).Allowed A := by
  unfold bindColumns
  induction row.zip columns generalizing s with
  | nil => exact images
  | cons entry rest ih =>
      obtain ⟨pattern, column⟩ := entry
      rw [List.foldl_cons]
      refine ih ?_
      cases pattern with
      | binding x =>
          dsimp only
          split
          · exact images
          · exact Subst.allowed_add.mpr ⟨Term.allowed_ref, images⟩
      | _ => exact images

theorem renameRow_allowed (row : List Pattern) (columns : List Column) :
    (renameRow row columns).Allowed A := by
  unfold renameRow
  have start : Subst.empty.Allowed A := Subst.allowed_empty
  revert start
  generalize Subst.empty = s
  induction row.zip columns generalizing s with
  | nil => exact id
  | cons entry rest ih =>
      intro images
      obtain ⟨pattern, column⟩ := entry
      rw [List.foldl_cons]
      refine ih _ ?_
      cases pattern with
      | binding x => exact Subst.allowed_add.mpr ⟨Term.allowed_ref, images⟩
      | _ => exact images

theorem freshen_allowed (known : env.Allowed A) (images : s.Allowed A)
    (given : Context.Allowed A columns) : (freshen env s columns).Always (Context.Allowed A) := by
  induction columns generalizing s with
  | nil => exact .pure given
  | cons column rest ih =>
      obtain ⟨x, type⟩ := column
      obtain ⟨here, others⟩ := Context.allowed_cons.mp given
      refine .bind (Subst.apply_allowed known.computes images here) fun type' fine => ?_
      refine .bind .anything fun y _ => ?_
      refine .bind (ih (Subst.allowed_add.mpr ⟨Term.allowed_ref, images⟩) others) ?_
      exact fun rest' fine' => .pure (Context.allowed_cons.mpr ⟨fine, fine'⟩)

theorem freshen_length :
    (freshen env s columns).Always fun fresh => fresh.length = columns.length := by
  induction columns generalizing s with
  | nil => exact .pure rfl
  | cons column rest ih =>
      refine .bind .anything fun _ _ => .bind .anything fun _ _ => ?_
      refine .bind ih fun rest' same => .pure ?_
      rw [List.length_cons, List.length_cons, same]

theorem replaceIn_allowed (known : env.Allowed A) (images : s.Allowed A)
    (given : Context.Allowed A columns) : (replaceIn env s columns).Always (Context.Allowed A) :=
  .mapM fun c member => .bind (Subst.apply_allowed known.computes images (given c member)) fun _ fine =>
    .pure fine

theorem beforeEmpty_allowed (given : Context.Allowed A columns) :
    (beforeEmpty env columns).Always fun found => ∀ before ∈ found, Context.Allowed A before := by
  induction columns with
  | nil => exact .pure nofun
  | cons column rest ih =>
      obtain ⟨x, type⟩ := column
      obtain ⟨here, others⟩ := Context.allowed_cons.mp given
      unfold beforeEmpty
      refine .bind .anything fun _ _ => ?_
      split
      · refine .pure fun before isEmpty => ?_
        cases isEmpty
        exact List.forall_mem_nil _
      · refine .bind (ih others) fun found fine => .pure fun before isBefore => ?_
        obtain ⟨tail, isTail, rfl⟩ := Option.map_eq_some_iff.mp isBefore
        exact Context.allowed_cons.mpr ⟨here, fine tail isTail⟩

theorem fieldRefs_allowed (fields : List Column) :
    ∀ a ∈ fields.map (fun f => Term.ref f.1), a.Allowed A := by
  intro a member
  obtain ⟨_, _, rfl⟩ := List.mem_map.mp member
  exact Term.allowed_ref

theorem Row.Allowed.pass {width : Nat} {row : Row} (allowed : row.Allowed A width)
    (before : List Column) : (row.pass before).Allowed A (width - before.length) where
  body := allowed.body
  subst := bindColumns_allowed allowed.subst _ _
  width := by
    unfold Row.pass
    rw [List.length_drop, allowed.width]

end Columns

/-- What is found is allowed, and if nothing is found there is a reason. -/
def Found (A : Allowance) (excused : Prop) (found : Option CaseTree) (p : Progress) : Prop :=
  (∀ tree ∈ found, tree.Allowed A) ∧ (found = none → p.Fails excused)

theorem Found.none (fails : p.Fails excused) : Found A excused none p := ⟨nofun, fun _ => fails⟩

theorem Found.some {tree : CaseTree} (allowed : tree.Allowed A) : Found A excused (some tree) p :=
  ⟨fun _ isTree => Option.mem_some_iff.mp isTree ▸ allowed, nofun⟩

theorem Found.later {found : Option CaseTree} (result : Found A excused found p) (later : p.Later excused q) :
    Found A excused found q := ⟨result.1, fun isNone => later.fails (result.2 isNone)⟩

/-- What is relied on to find a reason: names of data types stand for data types, and missing clauses
    are listed. -/
structure Setting.Known (A : Allowance) (excused : Prop) (setting : Setting) : Prop where
  env : setting.env.Allowed A
  data : ∀ d, A.data d → excused ∨ (setting.env.data? d).isSome
  limit : excused ∨ 0 < setting.config.missingLimit

/-- What is asked of the function that builds the children. -/
def Build.Sound (A : Allowance) (excused : Prop) (setting : Setting) (build : Build) : Prop :=
  ∀ columns rows path p, Context.Allowed A columns →
    (∀ row ∈ rows, row.Allowed A columns.length) →
      Proceeds excused setting (build columns rows path) p (Found A excused)

section Splitting

variable {build : Build}

theorem split_proceeds (known : setting.env.Allowed A) (sound : build.Sound A excused setting)
    {column : Column} {rest : List Column} (fromRest : Context.Allowed A rest) {rows : List Row}
    {width : Nat} (fromRows : ∀ row ∈ rows, row.Allowed A width) (path : List Frame)
    (before : List Var) (shape : Shape) {value : Term} (fromValue : value.Allowed A)
    {fields : List Column} (fromFields : Context.Allowed A fields) :
    Proceeds excused setting (split build column rest rows path before shape value fields) p
      (Found A excused) := by
  refine (Proceeds.reading (replaceIn_allowed known (Subst.allowed_single.mpr fromValue)
    fromRest)).bind fun rest _ _ fine => ?_
  dsimp only
  split
  · refine (fail_proceeds _ ?_).bind fun _ _ _ fails => .pure (.none fails)
    split <;> rfl
  · rename_i fits
    refine sound _ _ _ _ (List.forall_mem_append.mpr ⟨fromFields, fine⟩) fun row member => ?_
    have width := List.find?_eq_none.mp fits row member
    obtain ⟨outer, isRow, entered⟩ := List.mem_filterMap.mp member
    have allowed := fromRows outer isRow
    refine ⟨?_, ?_, by simpa using width⟩
    · obtain ⟨_, _, _, rfl⟩ | ⟨_, _, _, rfl⟩ := enter_cases entered <;> exact allowed.body
    · obtain ⟨_, _, _, rfl⟩ | ⟨_, _, _, rfl⟩ := enter_cases entered
      · exact allowed.subst
      · exact Subst.allowed_add.mpr ⟨fromValue, allowed.subst⟩

theorem splitAll_proceeds {splitOne : DefId → Compile (Option (Option (Shape × CaseTree)))}
    {cs : List DefId} (one : ∀ c ∈ cs, ∀ p, Proceeds excused setting (splitOne c) p fun found q =>
      (∀ shape child, found = some (some (shape, child)) → child.Allowed A) ∧
        (found = some none → q.Fails excused)) (p : Progress) :
    Proceeds excused setting (splitAll splitOne cs) p fun found q =>
      (∀ children ∈ found, ∀ entry ∈ children, entry.2.Allowed A) ∧
        (found = none → q.Fails excused) := by
  induction cs generalizing p with
  | nil =>
      refine .pure ⟨fun children isEmpty => ?_, nofun⟩
      cases isEmpty
      exact List.forall_mem_nil _
  | cons c rest ih =>
      obtain ⟨here, later⟩ := List.forall_mem_cons.mp one
      refine (here p).bind fun first q _ ⟨child, fails⟩ => ?_
      refine (ih later q).bind fun others s after ⟨children, fail⟩ => ?_
      match first, others with
      | none, others => exact .pure ⟨children, fail⟩
      | some none, others => exact .pure ⟨nofun, fun _ => after.fails (fails rfl)⟩
      | some (some child'), none => exact .pure ⟨nofun, fun _ => fail rfl⟩
      | some (some child'), some others =>
          refine .pure ⟨fun all isAll => ?_, nofun⟩
          cases isAll
          exact List.forall_mem_cons.mpr ⟨child child'.1 child'.2 rfl, children _ rfl⟩

theorem branchConstructor_proceeds (known : setting.env.Allowed A) (sound : build.Sound A excused setting)
    {column : Column} {rest : List Column} (fromRest : Context.Allowed A rest) {rows : List Row}
    {width : Nat} (fromRows : ∀ row ∈ rows, row.Allowed A width) (path : List Frame)
    (before : List Var) {data : DataDef} (levels : Universe) {args : List Term}
    (fromArgs : ∀ a ∈ args, a.Allowed A) {c : DefId} (own : A.definition c) (p : Progress) :
    Proceeds excused setting (branchConstructor build column rest rows path before data levels args c) p
      fun found q => (∀ shape child, found = some (some (shape, child)) → child.Allowed A) ∧
        (found = some none → q.Fails excused) := by
  refine .read ?_
  dsimp only
  cases isCon : setting.env.constructor? c with
  | none => exact .pure ⟨nofun, nofun⟩
  | some con =>
      have images : ((Subst.instantiate data.params args).addStd levels).Allowed A :=
        Subst.allowed_addStd.mpr (Subst.allowed_instantiate fromArgs)
      have params := columnsOf_allowed.mpr (known.constructor? own isCon).1
      refine (Proceeds.reading (freshen_allowed known images params)).bind ?_
      intro fields _ _ fromFields
      have value : (Term.con c levels args (fields.map fun f => .ref f.1)).Allowed A :=
        Term.allowed_con.mpr ⟨own, fromArgs, fieldRefs_allowed fields⟩
      refine (split_proceeds known sound fromRest fromRows path before _ value fromFields).bind ?_
      intro child q _ found
      cases child with
      | none => exact .pure ⟨nofun, fun _ => found.2 rfl⟩
      | some child =>
          refine .pure ⟨fun shape child' same => ?_, nofun⟩
          cases same
          exact found.1 _ rfl

variable {before : List Column} {column : Column} {rest : List Column} {rows : List Row}
  {width : Nat}

theorem branch_allowed (fromBefore : Context.Allowed A before)
    {children : List (Shape × CaseTree)} (each : ∀ entry ∈ children, entry.2.Allowed A) :
    (CaseTree.branch (Telescope.ofPairs before) children).Allowed A :=
  CaseTree.allowed_branch.mpr ⟨ofPairs_allowed.mpr fromBefore, each⟩

theorem branchLive_proceeds (known : setting.env.Allowed A) (sound : build.Sound A excused setting)
    (fromRest : Context.Allowed A rest) (fromRows : ∀ row ∈ rows, row.Allowed A width)
    (path : List Frame) (fromBefore : Context.Allowed A before) (type : Term) {data : DataDef}
    (own : ∀ c ∈ data.constructors, A.definition c) (levels : Universe) {args : List Term}
    (fromArgs : ∀ a ∈ args, a.Allowed A) (level : Option Int) :
    Proceeds excused setting (branchLive build column rest rows path before type data levels args level) p
      (Found A excused) := by
  refine .read ?_
  dsimp only
  split
  · split
    · exact (markUsed_proceeds _).bind fun _ _ _ _ =>
        .pure (.some (branch_allowed fromBefore (List.forall_mem_nil _)))
    · exact (Proceeds.lift _).bind fun _ _ _ _ => (fail_proceeds _ rfl).bind fun _ _ _ fails =>
        .pure (.none fails)
  · refine (refuse_proceeds _ _ fun _ _ => notConstructor_error).bind ?_
    intro refused q _ ⟨fails, _⟩
    split
    · rename_i isRefused
      exact .pure (.none (fails isRefused))
    · refine (splitAll_proceeds (fun c member p => branchConstructor_proceeds known sound fromRest
        fromRows path _ levels fromArgs (own c (List.mem_of_mem_filter member)) p) q).bind ?_
      intro children s _ ⟨each, fail⟩
      cases children with
      | none => exact .pure (.none (fail rfl))
      | some children => exact .pure (.some (branch_allowed fromBefore (each _ rfl)))

theorem compareLevels_proceeds (a b : Level) : Proceeds excused setting (compareLevels a b) p Anyhow :=
  .read ((Proceeds.lift _).bind fun _ _ _ _ => (Proceeds.modify _ ⟨id, id⟩).bind fun _ _ _ _ =>
    .pure trivial)

theorem levelFits_proceeds (result data : Level) :
    Proceeds excused setting (levelFits result data) p Anyhow := by
  refine (Proceeds.lift _).bind fun l _ _ _ => (Proceeds.lift _).bind fun d _ _ _ => ?_
  split
  · split
    · exact .pure trivial
    · exact compareLevels_proceeds _ _
  · exact compareLevels_proceeds _ _

theorem truncationLevel_proceeds (rows : List Row) (data : DataDef) (type : Term) :
    Proceeds excused setting (truncationLevel rows data type) p
      fun level q => level = none → q.Fails excused := by
  unfold truncationLevel
  split
  · exact .pure nofun
  · refine .read ?_
    cases setting.resultSort with
    | none => exact .pure nofun
    | some result =>
        refine (levelFits_proceeds _ _).bind fun fits _ _ _ => ?_
        split
        · exact (Proceeds.lift _).bind fun _ _ _ _ => .pure nofun
        · exact (Proceeds.lift _).bind fun _ _ _ _ => (Proceeds.lift _).bind fun _ _ _ _ =>
            (fail_proceeds _ rfl).bind fun _ _ _ fails => .pure fun _ => fails

theorem branchData_proceeds (known : setting.Known A excused) (sound : build.Sound A excused setting)
    (fromRest : Context.Allowed A rest) (fromRows : ∀ row ∈ rows, row.Allowed A width)
    (path : List Frame) (fromBefore : Context.Allowed A before) (type : Term) {d : DefId}
    (own : A.data d) (levels : Universe) {args : List Term} (fromArgs : ∀ a ∈ args, a.Allowed A) :
    Proceeds excused setting (branchData build column rest rows path before type d levels args) p
      (Found A excused) := by
  refine .read ?_
  cases isData : setting.env.data? d with
  | none =>
      refine .pure (.none (.inl ((known.data d own).resolve_right ?_)))
      rw [isData]
      exact nofun
  | some data =>
      have leveled : ∀ {atLevel : Option (Option Int) → Compile (Option CaseTree)},
          atLevel none = pure none → (∀ level, atLevel (some level) =
            branchLive build column rest rows path before type data levels args level) → ∀ p,
          Proceeds excused setting (truncationLevel rows data type >>= atLevel) p
            (Found A excused) := by
        intro atLevel tooHigh fits p
        refine (truncationLevel_proceeds rows data type).bind fun level q _ fails => ?_
        cases level with
        | none =>
            rw [tooHigh]
            exact .pure (.none (fails rfl))
        | some level =>
            rw [fits]
            exact branchLive_proceeds known.env sound fromRest fromRows path fromBefore type
              (known.env.data? (known.env.data d own).1 isData).2 levels fromArgs level
      dsimp only
      split
      · refine (refuse_proceeds _ _ ?_).bind fun refused q _ fails => ?_
        · intro _ r said
          cases said
          rfl
        · split
          · rename_i isRefused
            exact .pure (.none (fails.1 isRefused))
          · exact leveled rfl (fun _ => rfl) q
      · exact leveled rfl (fun _ => rfl) p

theorem branchTuple_proceeds (known : setting.env.Allowed A) (sound : build.Sound A excused setting)
    (fromRest : Context.Allowed A rest) (fromRows : ∀ row ∈ rows, row.Allowed A width)
    (path : List Frame) (fromBefore : Context.Allowed A before) {type : Term}
    (fromType : type.Allowed A) {params : Telescope} (fromParams : Telescope.Allowed A params) :
    Proceeds excused setting (branchTuple build column rest rows path before type params) p
      (Found A excused) := by
  refine (refuse_proceeds _ _ fun _ _ => notConstructor_error).bind ?_
  intro refused q _ ⟨fails, _⟩
  split
  · rename_i isRefused
    exact .pure (.none (fails isRefused))
  · refine (Proceeds.reading (freshen_allowed known Subst.allowed_empty
      (columnsOf_allowed.mpr fromParams))).bind fun fields _ _ fromFields => ?_
    have value : (Term.tuple (fields.map fun f => .ref f.1) type).Allowed A :=
      Term.allowed_tuple.mpr ⟨fieldRefs_allowed fields, fromType⟩
    refine (split_proceeds known sound fromRest fromRows path _ _ value fromFields).bind ?_
    intro child s _ found
    cases child with
    | none => exact .pure (.none (found.2 rfl))
    | some child =>
        exact .pure (.some (branch_allowed fromBefore
          (List.forall_mem_singleton.mpr (found.1 _ rfl))))

theorem branch_proceeds (known : setting.Known A excused) (sound : build.Sound A excused setting)
    (fromBefore : Context.Allowed A before) (fromColumn : column.2.Allowed A)
    (fromRest : Context.Allowed A rest) (fromRows : ∀ row ∈ rows, row.Allowed A width)
    (inspects : Inspects before rows) (path : List Frame) :
    Proceeds excused setting (branch build before column rest rows path) p (Found A excused) := by
  have passed : ∀ row ∈ rows.map (·.pass before), row.Allowed A (width - before.length) := by
    intro row member
    obtain ⟨outer, isRow, rfl⟩ := List.mem_map.mp member
    exact (fromRows outer isRow).pass before
  refine (Proceeds.reading (Term.whnf_allowed known.env.computes fromColumn)).bind ?_
  intro type _ _ fromType
  split
  · obtain ⟨own, args⟩ := Term.allowed_data.mp fromType
    exact branchData_proceeds known sound fromRest passed path fromBefore _ own _ args
  · exact branchTuple_proceeds known.env sound fromRest passed path fromBefore fromType
      (Term.allowed_sigma.mp fromType)
  · -- the row that is inspected here for no variable is turned down
    refine (refuse_proceeds _ _ fun _ _ => notConstructor_error).bind fun _ _ _ ⟨fails, hits⟩ => ?_
    obtain ⟨row, isRow, pattern, stands, notBinding⟩ := inspects.apart
    refine .pure (.none (fails (hits ⟨row.pass before, List.mem_map_of_mem isRow, ?_⟩)))
    unfold Row.pass
    rw [List.headD_eq_head?_getD, List.head?_drop, stands, Option.getD_some, notBinding]
    rfl

end Splitting

section Rows

theorem leaf_proceeds (known : setting.env.Allowed A) {columns : List Column}
    (given : Context.Allowed A columns) {row : Row} {width : Nat} (allowed : row.Allowed A width) :
    Proceeds excused setting (leaf columns row) p (Found A excused) := by
  refine (markUsed_proceeds row).bind fun _ _ _ _ => ?_
  split
  · exact (fail_proceeds _ rfl).bind fun _ _ _ fails => .pure (.none fails)
  · rename_i body hasBody
    refine (Proceeds.reading (Subst.apply_allowed known.computes
      (bindColumns_allowed allowed.subst _ _) (allowed.body body hasBody))).bind fun _ _ _ fine => ?_
    exact .pure (.some (CaseTree.allowed_leaf.mpr ⟨ofPairs_allowed.mpr given, fine⟩))

theorem uncovered_proceeds (limit : excused ∨ 0 < setting.config.missingLimit)
    {columns : List Column} (given : Context.Allowed A columns) (path : List Frame) :
    Proceeds excused setting (uncovered columns path) p (Found A excused) := by
  refine (Proceeds.reading (beforeEmpty_allowed given)).bind fun found _ _ fine => ?_
  split
  · exact .pure (.some (branch_allowed (fine _ rfl) (List.forall_mem_nil _)))
  · exact (recordMissing_proceeds limit _).bind fun _ _ _ fails => .pure (.none fails)

variable (known : setting.Known A excused)

include known

theorem build_sound (fuel : Nat) : Build.Sound A excused setting (Matching.build fuel) := by
  induction fuel with
  | zero => exact fun _ _ _ _ _ _ => .throw
  | succ fuel ih =>
      intro columns rows path p given fromRows
      unfold Matching.build
      cases rows with
      | nil => exact uncovered_proceeds known.limit given path
      | cons first others =>
          have width : ∀ row ∈ first :: others, row.patterns.length = columns.length :=
            fun row member => (fromRows row member).width
          dsimp only
          split
          · exact leaf_proceeds known.env given (fromRows first List.mem_cons_self)
          · rename_i notAll
            obtain ⟨inside, inspects⟩ := splitColumn_inspects width
              ⟨first, List.mem_cons_self, Bool.eq_false_iff.mpr notAll⟩
            split
            · rename_i nothing
              exact absurd inside (Nat.not_lt.mpr (List.drop_eq_nil_iff.mp nothing))
            · rename_i column rest isRest
              have below : ∀ c ∈ column :: rest, c.2.Allowed A := fun c member =>
                given c (List.mem_of_mem_drop (isRest ▸ member))
              obtain ⟨here, others'⟩ := List.forall_mem_cons.mp below
              exact branch_proceeds known ih (fun c member => given c (List.mem_of_mem_take member))
                here others' fromRows inspects path

theorem buildRows_proceeds {columns : List Column} (given : Context.Allowed A columns)
    {rows : List Row} (fromRows : ∀ row ∈ rows, row.Allowed A columns.length) :
    Proceeds excused setting (buildRows columns rows) p (Found A excused) :=
  build_sound known _ _ _ _ _ given fromRows

end Rows

section Interval

/-- Some pattern is a constructor at a parameter of the interval. -/
def MatchesEnd (intervals : List Bool) (patterns : List Pattern) : Prop :=
  ∃ entry ∈ patterns.zip intervals, (entry.2 && entry.1.constructor?.isSome) = true

theorem intervalPattern?_some {intervals : List Bool} {clauses : List Clause}
    {found : Clause × Pattern} (isFound : intervalPattern? intervals clauses = some found) :
    ∃ c ∈ clauses, MatchesEnd intervals c.patterns := by
  obtain ⟨c, listed, within⟩ := List.exists_of_findSome?_eq_some isFound
  obtain ⟨entry, stands, _⟩ := Option.map_eq_some_iff.mp within
  have isEnd := List.find?_some stands
  exact ⟨c, listed, entry, List.mem_of_find?_eq_some stands, isEnd⟩

theorem MatchesEnd.ends {intervals : List Bool} {patterns : List Pattern}
    (meets : MatchesEnd intervals patterns) :
    ((patterns.zipIdx.filter fun (p, _) => !p.isBinding).filter fun (p, j) =>
      p.constructor?.isSome && intervals[j]? == some true) ≠ [] := by
  obtain ⟨⟨p, interval⟩, member, isEnd⟩ := meets
  obtain ⟨isInterval, isCon⟩ := Bool.and_eq_true_iff.mp isEnd
  obtain ⟨j, here⟩ := List.mem_iff_getElem?.mp member
  obtain ⟨stands, marked⟩ := List.getElem?_zip_eq_some.mp here
  have notBinding : p.isBinding = false := by
    cases p <;> first | rfl | cases isCon
  refine List.ne_nil_of_mem (a := (p, j)) (List.mem_filter.mpr ⟨List.mem_filter.mpr
    ⟨List.mk_mem_zipIdx_iff_getElem?.mpr stands, ?_⟩, ?_⟩)
  · simp [notBinding]
  · simp_all

/-- A clause for an end of the interval is kept as one, or turned down. -/
theorem partRows_proceeds (intervals : List Bool) (rows : List Row) (p : Progress) :
    Proceeds excused setting (partRows intervals rows) p fun parted q =>
      (∀ e ∈ parted.1, e.row ∈ rows) ∧ (∀ r ∈ parted.2, r ∈ rows) ∧
        ((∃ r ∈ rows, MatchesEnd intervals r.patterns) → parted.1 = [] → q.Fails excused) := by
  induction rows generalizing p with
  | nil =>
      refine .pure ⟨List.forall_mem_nil _, List.forall_mem_nil _, ?_⟩
      rintro ⟨_, none, _⟩
      cases none
  | cons row rest ih =>
      have further : ∀ {r : Row}, r ∈ rest → r ∈ row :: rest := List.mem_cons_of_mem _
      unfold partRows
      dsimp only
      split
      · rename_i noEnds
        refine (ih p).bind fun parted _ _ ⟨ends, others, fails⟩ =>
          .pure ⟨fun e member => further (ends e member), ?_, ?_⟩
        · exact List.forall_mem_cons.mpr ⟨List.mem_cons_self, fun r member => further (others r member)⟩
        · rintro ⟨r, member, meets⟩
          refine fails ⟨r, (List.mem_cons.mp member).resolve_left ?_, meets⟩
          rintro rfl
          exact meets.ends noEnds
      · split
        · refine (fail_proceeds _ rfl).bind fun _ q _ failing => ?_
          intro n parted r m done
          obtain ⟨later, ends, others, _⟩ := ih q n parted r m done
          exact ⟨later, fun e member => further (ends e member),
            fun r member => further (others r member), fun _ _ => later.fails failing⟩
        · refine (ih p).bind fun parted _ _ ⟨ends, others, _⟩ => .pure ⟨?_, fun r member => ?_, nofun⟩
          · exact List.forall_mem_cons.mpr ⟨List.mem_cons_self, fun e member => further (ends e member)⟩
          · exact further (others r member)

theorem refuseAfter_proceeds (first : Nat) (rows : List Row) :
    Proceeds excused setting (refuseAfter first rows) p Anyhow := by
  refine .forM rows (fun row _ q => ?_) p
  split
  · exact (fail_proceeds _ rfl).weaken fun _ _ _ => trivial
  · exact .pure trivial

theorem put_allowed {e : Ends Term} (allowed : e.Allowed A) (side : Endpoint) {body : Term}
    (fine : body.Allowed A) : (Ends.put e side body).Allowed A := by
  have here : ∀ t ∈ some body, t.Allowed A := fun _ same => Option.mem_some_iff.mp same ▸ fine
  cases side with
  | left => exact ⟨here, allowed.2⟩
  | right => exact ⟨allowed.1, here⟩

theorem fillEnds_proceeds (known : setting.env.Allowed A) (columns : List Column) (first : Nat)
    {endRows : List EndRow} {width : Nat} (fromRows : ∀ e ∈ endRows, e.row.Allowed A width)
    {ends : List (Ends Term)} (given : ∀ e ∈ ends, e.Allowed A) (p : Progress) :
    Proceeds excused setting (fillEnds columns first endRows ends) p
      fun ends _ => ∀ e ∈ ends, e.Allowed A := by
  induction endRows generalizing ends p with
  | nil => exact .pure given
  | cons endRow rest ih =>
      obtain ⟨row, j⟩ := endRow
      obtain ⟨allowed, others⟩ := List.forall_mem_cons.mp fromRows
      refine .read ?_
      dsimp only
      split
      · rename_i side here _ found
        split
        · exact ih others given _
        · split
          · exact (fail_proceeds _ rfl).bind fun _ _ _ _ => ih others given _
          · rename_i body hasBody
            refine (Proceeds.reading (Subst.apply_allowed known.computes (renameRow_allowed _ _)
              (allowed.body body hasBody))).bind fun body' _ _ fine => ?_
            refine (markUsed_proceeds _).bind fun _ _ _ _ => ih others (fun e member => ?_) _
            rcases List.mem_or_eq_of_mem_set member with old | rfl
            · exact given e old
            · exact put_allowed (given here (List.mem_of_getElem? found)) side fine
      · exact ih others given _

theorem missingEnds_proceeds (limit : excused ∨ 0 < setting.config.missingLimit) (columns : List Column) (j : Nat) (ends : List (Ends Term))
    (p : Progress) : Proceeds excused setting (missingEnds columns j ends) p Anyhow := by
  induction ends generalizing j p with
  | nil => exact .pure trivial
  | cons here rest ih =>
      unfold missingEnds
      dsimp only
      split
      · refine .read ?_
        split
        · refine (Proceeds.reading (R := fun _ => True) .anything).bind fun _ _ _ _ => ?_
          split
          · refine (Proceeds.forIn _ (fun _ _ _ q => ?_) _ _).bind fun _ _ _ _ => ih _ _
            split
            · exact (recordMissing_proceeds limit _).bind fun _ _ _ _ => .pure trivial
            · exact .pure trivial
          · exact ih _ _
        · exact ih _ _
      · exact ih _ _

theorem buildInterval_proceeds (known : setting.Known A excused) {columns : List Column}
    (given : Context.Allowed A columns) (intervals : List Bool) {rows : List Row}
    (fromRows : ∀ row ∈ rows, row.Allowed A columns.length)
    (meets : ∃ row ∈ rows, MatchesEnd intervals row.patterns) :
    Proceeds excused setting (buildInterval columns intervals rows) p (Found A excused) := by
  refine (partRows_proceeds _ _ _).bind fun parted _ _ ⟨atEnds, apart, fails⟩ => ?_
  obtain ⟨endRows, others⟩ := parted
  dsimp only
  split
  · rename_i first _
    refine (refuseAfter_proceeds _ _).bind fun _ _ _ _ => ?_
    refine failed_proceeds.bind fun isFailed _ _ ⟨_, failing⟩ => ?_
    split
    · rename_i isFailed
      exact .pure (.none (failing isFailed))
    · have empty : ∀ e ∈ List.replicate (columns.length - first) (⟨none, none⟩ : Ends Term),
          e.Allowed A := by
        intro e member
        rw [List.eq_of_mem_replicate member]
        exact ⟨nofun, nofun⟩
      refine (fillEnds_proceeds known.env _ _ (fun e member => fromRows _ (atEnds e member)) empty
        _).bind fun ends _ _ fine => ?_
      have finished : ∀ (rest : Option CaseTree) (q : Progress),
          (∀ tree ∈ rest, tree.Allowed A) → Proceeds excused setting (do
            if (← failed) || !(← get).missing.isEmpty then return none
            return some (.interval (Telescope.ofPairs columns) (ends.dropWhile Ends.isEmpty) rest) :
              Compile (Option CaseTree)) q (Found A excused) := by
        intro rest q below
        refine failed_proceeds.bind fun isFailed r _ ⟨_, failing⟩ => .get ?_
        split
        · rename_i either
          refine .pure (.none ?_)
          rcases Bool.or_eq_true_iff.mp either with isFailed | isMissing
          · exact failing isFailed
          · exact .inr (.inr (by simpa using isMissing))
        · exact .pure (.some (CaseTree.allowed_interval.mpr ⟨⟨ofPairs_allowed.mpr given,
            fun e member => fine e ((List.dropWhile_sublist _).subset member)⟩, below⟩))
      split
      · split
        · exact (missingEnds_proceeds known.limit _ _ _ _).bind fun _ q _ _ => finished none q nofun
        · exact finished none _ nofun
      · have renamed : (freshen setting.env .empty columns).Always fun fresh =>
            Context.Allowed A fresh ∧ fresh.length = columns.length := fun n x m done =>
          ⟨freshen_allowed known.env Subst.allowed_empty given n x m done, freshen_length n x m done⟩
        refine (Proceeds.reading renamed).bind fun fresh _ _ ⟨fine, width⟩ => ?_
        refine (buildRows_proceeds known fine fun row member => ?_).bind
          fun rest q _ found => finished rest q found.1
        exact width ▸ fromRows row (apart row member)
  · rename_i noFirst
    have noColumn : endRows.map EndRow.column = [] :=
      List.min?_eq_none_iff.mp (Option.eq_none_iff_forall_ne_some.mpr noFirst)
    exact .pure (.none (fails meets (List.map_eq_nil_iff.mp noColumn)))

end Interval

section Clauses

theorem checkArity_proceeds (arity : Nat) (clauses : List Clause) :
    Proceeds excused setting (checkArity arity clauses) p Anyhow := by
  refine .forM clauses (fun c _ q => ?_) p
  split
  · exact (fail_proceeds _ rfl).weaken fun _ _ _ => trivial
  · split
    · exact (fail_proceeds _ rfl).weaken fun _ _ _ => trivial
    · exact .pure trivial

theorem isInterval_proceeds (type : Term) : Proceeds excused setting (isInterval type) p Anyhow := by
  refine .read ((Proceeds.reading (R := fun _ => True) .anything).bind fun t _ _ _ => ?_)
  split
  · exact .pure trivial
  · exact .pure trivial

/-- The body of a clause is allowed, if it has one. -/
def Clause.Allowed (A : Allowance) (c : Clause) : Prop := ∀ b ∈ c.body, b.Allowed A

theorem numbered_allowed {clauses : List Clause} (given : ∀ c ∈ clauses, c.Allowed A)
    {width : Nat} (fits : ∀ c ∈ clauses, c.patterns.length = width) :
    ∀ row ∈ numbered clauses, row.Allowed A width := by
  intro row member
  obtain ⟨clause, listed, isClause, patterns, subst⟩ := mem_numbered member
  exact ⟨isClause ▸ given clause listed, subst ▸ Subst.allowed_empty, patterns ▸ fits clause listed⟩

theorem numbered_matchesEnd {intervals : List Bool} {clauses : List Clause}
    (meets : ∃ c ∈ clauses, MatchesEnd intervals c.patterns) :
    ∃ row ∈ numbered clauses, MatchesEnd intervals row.patterns := by
  obtain ⟨c, listed, matched⟩ := meets
  obtain ⟨number, stands⟩ := List.mem_iff_getElem?.mp listed
  exact ⟨⟨number, c, c.patterns, .empty⟩, List.mem_map.mpr
    ⟨(c, number), List.mk_mem_zipIdx_iff_getElem?.mpr stands, rfl⟩, matched⟩

theorem clausesTree_proceeds (known : setting.Known A excused) {params : Telescope}
    (fromParams : Telescope.Allowed A params) {clauses : List Clause}
    (given : ∀ c ∈ clauses, c.Allowed A)
    (fits : ∀ c ∈ clauses, c.patterns.length = params.length) :
    Proceeds excused setting (clausesTree params clauses) p (Found A excused) := by
  have columns := columnsOf_allowed.mpr fromParams
  have rows : ∀ row ∈ numbered clauses, row.Allowed A (columnsOf params).length := by
    rw [columnsOf, List.length_map]
    exact numbered_allowed given fits
  refine .read ((Proceeds.mapM _ (fun c _ _ => isInterval_proceeds c.2) _).bind ?_)
  intro intervals _ _ _
  split
  · rename_i isFound
    split
    · exact (fail_proceeds _ rfl).bind fun _ _ _ fails => .pure (.none fails)
    · exact buildInterval_proceeds known columns _ rows
        (numbered_matchesEnd (intervalPattern?_some isFound))
  · exact buildRows_proceeds known columns rows

theorem unlessFailed_none {clauses : List Clause} {found : Option CaseTree} {n m : Nat}
    (done : unlessFailed clauses found setting p n = .ok ((none, q), m)) :
    q = p ∧ (p.diagnostics ≠ [] ∨ found = none) := by
  unfold unlessFailed at done
  obtain ⟨isFailed, p₁, _, ask, next⟩ := compile_bind done
  cases ask
  split at next
  · rename_i isFailed
    cases compile_pure next
    exact ⟨rfl, .inl (by simpa using isFailed)⟩
  · cases found with
    | none =>
        cases compile_pure next
        exact ⟨rfl, .inr rfl⟩
    | some tree =>
        obtain ⟨_, _, _, asked, next⟩ := compile_bind next
        cases asked
        split at next
        · obtain ⟨_, _, _, _, final⟩ := compile_bind next
          cases compile_pure final
        · cases compile_pure next

theorem Progress.Serious.reason (serious : p.Serious) (some : p.diagnostics ≠ []) :
    excused ∨ ∃ d ∈ p.diagnostics, d.isWarning = false :=
  have ⟨d, listed⟩ := List.exists_mem_of_ne_nil _ some
  .inr ⟨d, listed, serious d listed⟩

theorem compileClauses_allowed (known : setting.Known A excused) {span : Span} {params : Telescope}
    (fromParams : Telescope.Allowed A params) {clauses : List Clause}
    (given : ∀ c ∈ clauses, c.Allowed A) (start : p.Serious) {found : Option CaseTree} {n m : Nat}
    (done : compileClauses span params clauses setting p n = .ok ((found, q), m)) :
    (∀ tree ∈ found, tree.Allowed A) ∧
      (found = none → excused ∨ ∃ d ∈ q.diagnostics, d.isWarning = false) := by
  unfold compileClauses at done
  obtain ⟨_, p₁, _, arity, gated⟩ := compile_bind done
  have later : p.Later excused p₁ := (checkArity_proceeds _ _ _ _ _ _ arity).1
  have serious := later.serious start
  obtain ⟨isFailed, p₂, _, ask, rest⟩ := compile_bind gated
  cases isFailed with
  | true =>
      obtain ⟨rfl, _, some⟩ := failed_true ask
      cases compile_pure rest
      exact ⟨nofun, fun _ => serious.reason some⟩
  | false =>
      obtain ⟨rfl, rfl, silent⟩ := failed_false ask
      obtain ⟨_, rfl, fits⟩ := checkArity_silent clauses arity silent
      rw [if_neg Bool.false_ne_true] at rest
      obtain ⟨tree, p₃, _, treed, next⟩ := compile_bind rest
      obtain ⟨later, fine, fails⟩ := clausesTree_proceeds known fromParams given fits _ _ _ _ treed
      have serious := later.serious serious
      obtain ⟨_, _, _, ask, next⟩ := compile_bind next
      cases ask
      dsimp only at next
      refine ⟨fun result isResult => ?_, fun isNone => ?_⟩
      · cases isResult
        refine fine result (Option.mem_def.mpr ?_)
        split at next
        · obtain ⟨_, _, _, _, next⟩ := compile_bind next
          exact (unlessFailed_some next).1
        · exact (unlessFailed_some next).1
      · subst isNone
        split at next
        · obtain ⟨_, _, _, reported, next⟩ := compile_bind next
          cases reported
          obtain ⟨rfl, _⟩ := unlessFailed_none next
          have noted : p₃.Later excused { p₃ with diagnostics := p₃.diagnostics ++
              [⟨span, .missingClauses p₃.missing p₃.missingTruncated⟩] } := .fail span rfl
          exact (noted.serious serious).reason (by simp)
        · rename_i covered
          obtain ⟨rfl, cause⟩ := unlessFailed_none next
          rcases cause with some | isNone
          · exact serious.reason some
          · rcases fails isNone with pardon | some | missing
            · exact .inl pardon
            · exact serious.reason some
            · exact absurd (by simpa using missing) covered

/-- What is compiled mentions nothing new; and where no tree comes out, an error is noted. -/
theorem compile_allowed (known : setting.Known A excused) {span : Span} {params : Telescope}
    (fromParams : Telescope.Allowed A params) {clauses : List Clause}
    (given : ∀ c ∈ clauses, c.Allowed A) :
    (compile setting span params clauses).Always fun outcome =>
      (∀ tree ∈ outcome.tree, tree.Allowed A) ∧
        (outcome.tree = none → excused ∨ ∃ d ∈ outcome.diagnostics, d.isWarning = false) := by
  intro n outcome m done
  obtain ⟨⟨found, q⟩, k, ran, final⟩ := fresh_bind done
  cases fresh_pure final
  have start : Progress.start.Serious := List.forall_mem_nil _
  exact compileClauses_allowed known fromParams given start ran

end Clauses

end PathTheory.Matching
