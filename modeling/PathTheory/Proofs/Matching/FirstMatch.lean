import PathTheory.Proofs.Matching.Rows
import PathTheory.Proofs.Matching.Coverage
import Mathlib.Data.List.Find
/-!
First match. A compiled tree gives the body of the first clause that matches, and every variable of
the body stands for the value that it matched as long as the tree has looked at no more than the
outermost shape of it. What a row says of a variable is never looked at again, so once a component of
the value is taken apart as well, the variable of its column stays in the result.
-/
namespace PathTheory.Matching

open Pattern

section Resolving

variable {σ τ : Var → Nameless} {bound : List Var} {V : Var → Prop} {n m : Nat}

/-- What a variable reads as when some variables have been bound. -/
def resolve (bound : List Var) (σ : Var → Nameless) (z : Var) : Nameless :=
  if z ∈ bound then σ z else .free z

/-- Variables of columns that a leaf binds in the end. -/
def keptVars (vars : List Var) (os : List Opening) : List Var :=
  ((vars.zip os).filter fun entry => entry.2.isKept).map Prod.fst

theorem keptVars_append {vars others : List Var} {os rest : List Opening}
    (length : vars.length = os.length) :
    keptVars (vars ++ others) (os ++ rest) = keptVars vars os ++ keptVars others rest := by
  simp [keptVars, List.zip_append length]

theorem keptVars_cons (x : Var) (vars : List Var) (o : Opening) (os : List Opening) :
    keptVars (x :: vars) (o :: os) =
      if o.isKept = true then x :: keptVars vars os else keptVars vars os := by
  cases o <;> rfl

theorem keptVars_all {vars : List Var} {os : List Opening} (length : vars.length = os.length)
    (kept : ∀ o ∈ os, o.isKept = true) : keptVars vars os = vars := by
  induction vars generalizing os with
  | nil => rfl
  | cons x vars ih =>
      cases os with
      | nil => cases length
      | cons o os =>
          obtain ⟨here, later⟩ := List.forall_mem_cons.mp kept
          rw [keptVars_cons, if_pos here, ih (Nat.succ.inj length) later]

theorem keptVars_allKept {vars : List Var} {args : List Term} (length : vars.length = args.length) :
    keptVars vars (allKept args) = vars := by
  refine keptVars_all (length.trans (allKept_length args).symm) fun o member => ?_
  rw [mem_allKept member]
  rfl

theorem keptVars_subset {vars : List Var} {os : List Opening} :
    ∀ x ∈ keptVars vars os, x ∈ vars := by
  intro x member
  obtain ⟨entry, inZip, rfl⟩ := List.mem_map.mp member
  exact (List.of_mem_zip (List.mem_filter.mp inZip).1).1

/-- The variables of the scope are old, and what has been bound stands for what it did. -/
structure Settled (V : Var → Prop) (bound : List Var) (n : Nat) (σ : Var → Nameless) : Prop where
  old : ∀ z, V z → z.id < n
  boundOld : ∀ z ∈ bound, z.id < n
  rests : ∀ z, V z → z ∈ bound ∨ σ z = .free z

theorem Settled.mono (settled : Settled V bound n σ) (order : n ≤ m) : Settled V bound m σ where
  old z inScope := (settled.old z inScope).trans_le order
  boundOld z member := (settled.boundOld z member).trans_le order
  rests := settled.rests

theorem Settled.pass (settled : Settled V bound n σ) {before : List Column}
    (old : ∀ c ∈ before, c.1.id < n) :
    Settled (Beside V before) (bound ++ before.map Prod.fst) n σ where
  old := by
    rintro z (inScope | ⟨c, isColumn, rfl⟩)
    · exact settled.old z inScope
    · exact old c isColumn
  boundOld := by
    intro z member
    rcases List.mem_append.mp member with isBound | passed
    · exact settled.boundOld z isBound
    · obtain ⟨c, isColumn, rfl⟩ := List.mem_map.mp passed
      exact old c isColumn
  rests := by
    rintro z (inScope | ⟨c, isColumn, rfl⟩)
    · exact (settled.rests z inScope).imp_left (List.mem_append_left _)
    · exact .inl (List.mem_append_right _ (List.mem_map_of_mem isColumn))

theorem Settled.agree (settled : Settled V bound n σ) (agree : ∀ z, z.id < n → τ z = σ z) :
    Settled V bound n τ where
  old := settled.old
  boundOld := settled.boundOld
  rests z inScope := by
    rw [agree z (settled.old z inScope)]
    exact settled.rests z inScope

/-- The substitution of a walk puts in what has been bound on the way. -/
structure Binds (s : Subst) (bound : List Var) (σ : Var → Nameless) (n : Nat) : Prop where
  simple : s.Simple
  put : s.Within (fun _ => True) n
  image : ∀ z, (s.image z).reading = resolve bound σ z

theorem Binds.agree {s : Subst} (binds : Binds s bound σ m) (old : ∀ z ∈ bound, z.id < n)
    (agree : ∀ z, z.id < n → τ z = σ z) : Binds s bound τ m where
  simple := binds.simple
  put := binds.put
  image z := by
    rw [binds.image z]
    unfold resolve
    split
    · rename_i isBound
      exact (agree z (old z isBound)).symm
    · rfl

theorem Binds.pass {R : Nameless → Nameless → Prop} {env : Environment} {s : Subst}
    {before : List Column} {values others : List Term} (binds : Binds s bound σ m)
    (aligned : Aligned R env σ before values) (below : ∀ v ∈ values, v.Below m) :
    Binds (s.bind (Telescope.ofPairs before) (values ++ others)) (bound ++ before.map Prod.fst) σ
      m := by
  induction aligned generalizing s bound with
  | nil =>
      rw [List.map_nil, List.append_nil]
      have none : s.bind (Telescope.ofPairs []) ([] ++ others) = s := rfl
      rwa [none]
  | @cons c v before values here _ ih =>
      obtain ⟨valueBelow, valuesBelow⟩ := List.forall_mem_cons.mp below
      have step : Binds (s.add c.1 v) (bound ++ [c.1]) σ m := by
        refine ⟨binds.simple.add c.1 v, binds.put.add ⟨valueBelow, fun _ _ => trivial⟩, fun z => ?_⟩
        by_cases same : z = c.1
        · subst same
          simp [Subst.image, Subst.get?_add, resolve, here.1]
        · have image : (s.add c.1 v).image z = s.image z := by
            simp [Subst.image, Subst.get?_add, same]
          rw [image, binds.image z]
          simp [resolve, same]
      have later := ih step valuesBelow
      rw [List.append_assoc] at later
      exact later

end Resolving

section Answers

variable {σ τ : Var → Nameless} {bound vars : List Var} {V : Var → Prop} {first n m : Nat}
  {args others components : List Term} {os : List Opening} {r body : Term} {row inner : Row}
  {rows : List Row} {img : Var → Nameless}

/-- The result is the body of the first row that matches. Variables that still stand in the row become
    the values at their places just if these are looked into no further than their shape; the others
    become what the row says of them, with the variables of columns that are bound in the end. -/
structure Answers (first : Nat) (rows : List Row) (args : List Term) (vars : List Var)
    (os : List Opening) (bound : List Var) (σ : Var → Nameless) (r : Term) (row : Row) (body : Term)
    (img : Var → Nameless) : Prop where
  found : rows.find? (fun row => rowFits row.patterns args) = some row
  isBody : row.clause.body = some body
  reading : r.reading = body.reading.inst id img
  outer : ∀ x, x.id < first → x ∉ rowVars row.patterns →
    img x = (row.subst.image x).reading.inst id (resolve (bound ++ keptVars vars os) σ)
  inner : ∀ x, x.id < first → x ∈ rowVars row.patterns → ∃ w o,
    rowAt? Term.components x row.patterns args = some w ∧
      rowAt? Opening.parts x row.patterns os = some o ∧ (img x = w.reading ↔ o.Shallow)

/-- Columns before the inspected one are bound. -/
theorem Answers.pass {R : Nameless → Nameless → Prop} {env : Environment} {before : List Column}
    {values : List Term}
    (answers : Answers first (rows.map (·.pass before)) others vars os
      (bound ++ before.map Prod.fst) σ r inner body img)
    (aligned : Aligned R env σ before values) (kept : ∀ row ∈ rows, RowKept first n row)
    (allBound : ∀ row ∈ rows, ∀ p ∈ row.patterns.take before.length, p.isBinding = true)
    (width : ∀ row ∈ rows, before.length ≤ row.patterns.length) :
    ∃ row, Answers first rows (values ++ others) (before.map Prod.fst ++ vars) (allKept values ++ os)
      bound σ r row body img := by
  have length := List.Forall₂.length_eq aligned
  have taken : ∀ row ∈ rows, (row.patterns.take before.length).length = before.length := by
    intro row isRow
    rw [List.length_take]
    exact Nat.min_eq_left (width row isRow)
  have fits : ∀ row ∈ rows, rowFits (row.pass before).patterns others =
      rowFits row.patterns (values ++ others) := by
    intro row isRow
    have sized := (taken row isRow).trans length
    have whole : rowFits (row.patterns.take before.length ++ row.patterns.drop before.length)
        (values ++ others) = _ := rowFits_append sized
    rw [List.take_append_drop, rowFits_bindings (allBound row isRow) sized] at whole
    exact whole.symm
  have found := answers.found
  rw [List.find?_map] at found
  obtain ⟨row, here, rfl⟩ := Option.map_eq_some_iff.mp found
  have isRow := List.mem_of_find?_eq_some here
  have once := (kept row isRow).once
  have unset := (kept row isRow).unset
  have sized := (taken row isRow).trans length
  rw [rowVars_split row.patterns before.length] at once unset
  have resolved : bound ++ before.map Prod.fst ++ keptVars vars os =
      bound ++ keptVars (before.map Prod.fst ++ vars) (allKept values ++ os) := by
    rw [keptVars_append, keptVars_allKept, List.append_assoc] <;>
      simp [allKept_length, length]
  refine ⟨row, ?_, answers.isBody, answers.reading, fun x isOld outside => ?_,
    fun x isOld member => ?_⟩
  · rw [← here]
    exact (List.find?_congr fun row isRow => (fits row isRow)).symm
  · rw [rowVars_split row.patterns before.length] at outside
    obtain ⟨notHere, notLater⟩ := not_or.mp (List.mem_append.not.mp outside)
    rw [answers.outer x isOld notLater, resolved]
    simp only [Row.pass, Subst.image, bindColumns_get? notHere]
  · rw [rowVars_split row.patterns before.length] at member
    have apart := once x isOld
    rw [List.count_append] at apart
    have place : rowAt? Term.components x
        (row.patterns.take before.length ++ row.patterns.drop before.length) (values ++ others) = _ :=
      rowAt?_append sized
    have opening : rowAt? Opening.parts x
        (row.patterns.take before.length ++ row.patterns.drop before.length)
        (allKept values ++ os) = _ := rowAt?_append (sized.trans (allKept_length values).symm)
    rw [List.take_append_drop] at place opening
    by_cases here : x ∈ rowVars (row.patterns.take before.length)
    · have counted := List.count_pos_iff.mpr here
      have notLater : x ∉ rowVars (row.pass before).patterns := by
        rw [← List.count_eq_zero]
        simp only [Row.pass]
        omega
      obtain ⟨c, isColumn, v, image, stands, isPlace, isKept⟩ := bindColumns_at
        (allBound row isRow) aligned (taken row isRow) (by omega) (unset x member isOld) here
      have isBound : c.1 ∈ bound ++ before.map Prod.fst :=
        List.mem_append_right _ (List.mem_map_of_mem isColumn)
      refine ⟨v, .kept, by rw [place, isPlace]; rfl, by rw [opening, isKept]; rfl, ?_⟩
      have value : img x = v.reading := by
        rw [answers.outer x isOld notLater, Row.pass, image, Term.ref_reading, Nameless.inst,
          resolve, if_pos (List.mem_append_left _ isBound), stands]
      exact iff_of_true value (by simp [Opening.Shallow, Opening.parts])
    · obtain ⟨w, o, isPlace, isOpening, same⟩ :=
        answers.inner x isOld ((List.mem_append.mp member).resolve_left here)
      refine ⟨w, o, ?_, ?_, same⟩
      · rw [place, rowAt?_none here]
        exact isPlace
      · rw [opening, rowAt?_none here]
        exact isOpening

theorem shown_notFree {v : Term} (shown : v.shape?.isSome = true) (x : Var) :
    v.reading ≠ .free x := by
  intro same
  cases v with
  | con c u params args => cases same
  | tuple components type => cases same
  | _ => cases shown

/-- Where every new column is bound or stands for its own variable, no component is opened. -/
theorem kept_of_bound {R : Nameless → Nameless → Prop} {env : Environment} {fields : List Column}
    (aligned : Aligned R env τ fields components) {parts : List Opening}
    (opens : List.Forall₂ Opens components parts) (distinct : (fields.map Prod.fst).Nodup)
    (known : ∀ f ∈ fields, f.1 ∈ keptVars (fields.map Prod.fst) parts ∨ τ f.1 = .free f.1) :
    ∀ part ∈ parts, part.isKept = true := by
  induction aligned generalizing parts with
  | nil =>
      cases opens
      simp
  | @cons f v fields components here _ ih =>
      cases opens with
      | @cons _ part _ parts opened opens =>
          obtain ⟨apart, distinct⟩ := List.nodup_cons.mp distinct
          rw [List.map_cons, keptVars_cons] at known
          have head : part.isKept = true := by
            by_contra notKept
            rw [if_neg notKept] at known
            rcases known f List.mem_cons_self with inRest | free
            · exact apart (keptVars_subset _ inRest)
            · rw [here.1] at free
              exact shown_notFree (opened.resolve_left notKept) _ free
          rw [if_pos head] at known
          refine List.forall_mem_cons.mpr ⟨head, ih opens distinct fun g isField => ?_⟩
          refine (known g (List.mem_cons_of_mem _ isField)).imp_left fun member => ?_
          refine (List.mem_cons.mp member).resolve_left fun same => apart ?_
          exact same ▸ List.mem_map_of_mem isField

/-- A value over new columns reads as it did just if none of them is taken apart. -/
theorem opened_shallow {env : Environment} {v value : Term} {fields : List Column} {k : Nat}
    {later : List Var} {parts : List Opening}
    (taken : Taken Eq env V n k v value fields components σ τ) (settled : Settled V bound n σ)
    (opens : List.Forall₂ Opens components parts) (old : ∀ z ∈ later, z.id < n) :
    value.reading.inst id (resolve (bound ++ (keptVars (fields.map Prod.fst) parts ++ later)) τ) =
      v.reading ↔ (Opening.opened parts).Shallow := by
  rw [taken.like]
  constructor
  · intro same
    refine kept_of_bound taken.aligned opens taken.distinct fun f isField => ?_
    have reads := Nameless.inst_injective _ same f.1
      (Term.mem_reading_freeVars.mpr (taken.mentions f isField))
    have isNew := taken.new f isField
    unfold resolve at reads
    split at reads
    · rename_i member
      rcases List.mem_append.mp member with isBound | member
      · exact absurd (settled.boundOld f.1 isBound) (Nat.not_lt.mpr isNew)
      rcases List.mem_append.mp member with here | isLater
      · exact .inl here
      · exact absurd (old f.1 isLater) (Nat.not_lt.mpr isNew)
    · exact .inr reads.symm
  · intro shallow
    have length := (List.Forall₂.length_eq taken.aligned).trans (List.Forall₂.length_eq opens)
    rw [keptVars_all ((List.length_map _).trans length) shallow]
    apply Nameless.inst_congr
    intro z member
    unfold resolve
    split
    · rfl
    · rename_i outside
      simp only [List.mem_append, not_or] at outside
      rcases taken.valueIn.free z (Term.mem_reading_freeVars.mp member) with inScope | ⟨f, isField, same⟩
      · rw [taken.agree z (settled.old z inScope)]
        exact ((settled.rests z inScope).resolve_left outside.1).symm
      · exact absurd (same ▸ List.mem_map_of_mem isField) outside.2.1

theorem replaceIn_vars {env : Environment} {s : Subst} {l columns : List Column}
    (done : replaceIn env s l n = .ok (columns, m)) :
    columns.map Prod.fst = l.map Prod.fst := by
  induction l generalizing n columns with
  | nil =>
      unfold replaceIn at done
      rw [List.mapM_nil] at done
      cases fresh_pure done
      rfl
  | cons c rest ih =>
      obtain ⟨x, type⟩ := c
      obtain ⟨_, _, tail, _, replaced, rfl⟩ := replaceIn_cons done
      exact congrArg (x :: ·) (ih replaced)

/-- Under the shape of the inspected value, its components and the values after are matched. -/
theorem Answers.enter {env : Environment} {v value : Term} {column : Column}
    {rest fields columns : List Column} {shape : Shape} {entered : List Row} {k : Nat}
    (answers : Answers first entered (components ++ others) (columns.map Prod.fst) os bound τ r inner
      body img)
    (node : Node Eq env V n (column :: rest) rows (v :: others) σ)
    (taken : Taken Eq env V n k v value fields components σ τ)
    (enters : Enters env column rest rows shape value fields k columns entered m)
    (shown : v.shape? = some (shape, components)) (settled : Settled V bound n σ)
    (kept : ∀ row ∈ rows, RowKept first n row) (order : first ≤ n)
    (opens : List.Forall₂ Opens (components ++ others) os) :
    ∃ row, Answers first rows (v :: others) ((column :: rest).map Prod.fst)
      (.opened (os.take components.length) :: os.drop components.length) bound σ r row body img := by
  obtain ⟨rest', replaced, rfl⟩ := enters.types
  have sized := List.Forall₂.length_eq taken.aligned
  have outerSized := List.Forall₂.length_eq node.aligned
  have total := List.Forall₂.length_eq opens
  have names := replaceIn_vars replaced
  have arity : ∀ row ∈ rows, ∀ inner, row.enter shape value fields = some inner →
      inner.patterns.length = (components ++ others).length := by
    intro row isRow inner entered
    have member : inner ∈ rows.filterMap (·.enter shape value fields) :=
      List.mem_filterMap.mpr ⟨row, isRow, entered⟩
    rw [← enters.rows] at member
    rw [enters.width inner member, List.length_append, List.length_append, sized]
    have same := congrArg List.length names
    simp only [List.length_map, List.length_cons] at same outerSized
    omega
  have found := answers.found
  rw [enters.rows, List.find?_filterMap] at found
  obtain ⟨row, here, entered⟩ := Option.bind_eq_some_iff.mp found
  rw [List.find?_congr fun row isRow => enter_fits shown sized
    ((node.width row isRow).trans outerSized) (arity row isRow)] at here
  have isRow := List.mem_of_find?_eq_some here
  have isKept := kept row isRow
  have opened : (os.take components.length).length = components.length := by
    rw [List.length_take, ← total]
    simp
  have vars : (fields ++ rest').map Prod.fst = fields.map Prod.fst ++ rest.map Prod.fst := by
    rw [List.map_append, names]
  have bound' : keptVars ((fields ++ rest').map Prod.fst) os =
      keptVars (fields.map Prod.fst) (os.take components.length) ++
        keptVars (rest.map Prod.fst) (os.drop components.length) := by
    rw [vars, ← keptVars_append (by simp [opened, sized]), List.take_append_drop]
  have passed : keptVars ((column :: rest).map Prod.fst)
      (.opened (os.take components.length) :: os.drop components.length) =
      keptVars (rest.map Prod.fst) (os.drop components.length) := rfl
  have restOld : ∀ z ∈ keptVars (rest.map Prod.fst) (os.drop components.length), z.id < n := by
    intro z member
    obtain ⟨c, isColumn, rfl⟩ := List.mem_map.mp (keptVars_subset z member)
    exact (node.scope.column c (List.mem_cons_of_mem _ isColumn)).1
  have places : ∀ x : Var, x.id < first → _ := fun x isOld =>
    enter_places (x := x) isKept isOld order taken.new (by
      have inside := arity row isRow inner entered
      have outside := node.width row isRow
      simp only [List.length_append, List.length_cons] at inside outside outerSized
      omega) entered
  refine ⟨row, here, ?_, answers.reading, fun x isOld outside => ?_, fun x isOld member => ?_⟩
  · have clause : inner.clause = row.clause := by
      rcases enter_cases entered with ⟨_, _, _, rfl⟩ | ⟨_, _, _, rfl⟩ <;> rfl
    rw [← clause]
    exact answers.isBody
  · rcases places x isOld with ⟨_, notInner, image⟩ | ⟨_, isBinding, _⟩ | ⟨inside, _⟩
    · rw [answers.outer x isOld notInner, image, passed, bound']
      apply Nameless.inst_congr
      intro z member
      have zOld : z.id < n := (image_below isKept.put (isOld.trans_le order) (Nat.le_refl n)).freeVars
        (Term.mem_reading_freeVars.mp member)
      have notField : z ∉ keptVars (fields.map Prod.fst) (os.take components.length) :=
        fun inside => new_notMem zOld (Nat.le_refl n) taken.new (keptVars_subset z inside)
      simp [resolve, notField, taken.agree z zOld]
    · rw [isBinding] at outside
      exact absurd List.mem_cons_self outside
    · exact absurd inside outside
  · rcases places x isOld with ⟨outside, _⟩ | ⟨rest, isBinding, notInner, image⟩ |
      ⟨_, inside, places⟩
    · exact absurd member outside
    · refine ⟨v, .opened (os.take components.length), ?_, ?_, ?_⟩
      · simp [isBinding, rowAt?, at?]
      · simp [isBinding, rowAt?, at?]
      · rw [answers.outer x isOld notInner, image, bound']
        have opensHere := List.forall₂_take components.length opens
        rw [List.take_left] at opensHere
        exact opened_shallow taken settled opensHere restOld
    · obtain ⟨w, o, isPlace, isOpening, same⟩ := answers.inner x isOld inside
      refine ⟨w, o, ?_, ?_, same⟩
      · have parts : Term.components v = components := by
          simp [Term.components, shown]
        rw [places _ v others (by rw [parts, sized]), parts]
        exact isPlace
      · rw [places _ _ _ (opened.trans sized.symm), Opening.parts, List.take_append_drop]
        exact isOpening

end Answers

section Walking

variable {env : Environment} {s : Subst} {args : List Term} {r : Term} {n m : Nat}

theorem walk_leaf {whnf : Term → Fresh Term} {params : Telescope} {body : Term}
    (length : args.length = params.length)
    (done : (CaseTree.leaf params body).walk env whnf s args n = .ok (.reduced r, m)) :
    (s.bind params args).apply env body n = .ok (r, m) := by
  unfold CaseTree.walk at done
  rw [if_neg (by omega)] at done
  obtain ⟨t, k, applied, final⟩ := fresh_bind done
  rw [← length, List.drop_length] at final
  cases fresh_pure final
  exact applied

theorem walk_branch {whnf : Term → Fresh Term} {params : Telescope}
    {children : List (Shape × CaseTree)} {values others components : List Term} {v : Term}
    {shape : Shape} (length : values.length = params.length) (value : whnf v n = .ok (v, n))
    (shown : v.shape? = some (shape, components))
    (done : (CaseTree.branch params children).walk env whnf s (values ++ v :: others) n =
      .ok (.reduced r, m)) :
    walkChildren env whnf (s.bind params (values ++ v :: others)) shape children
      (components ++ others) n = .ok (.reduced r, m) := by
  unfold CaseTree.walk at done
  rw [List.length_append, if_neg (by omega), ← length, List.drop_left] at done
  obtain ⟨w, k, reduced, next⟩ := fresh_bind done
  cases value.symm.trans reduced
  simpa only [shown] using next

theorem walk_childless {whnf : Term → Fresh Term} {params : Telescope} :
    (CaseTree.branch params []).walk env whnf s args n ≠ .ok (.reduced r, m) := by
  intro done
  unfold CaseTree.walk at done
  by_cases short : args.length < params.length
  · rw [if_pos short] at done
    cases fresh_pure done
  · rw [if_neg short] at done
    cases left : args.drop params.length with
    | nil =>
        rw [left] at done
        cases fresh_pure done
    | cons v others =>
        rw [left] at done
        obtain ⟨w, k, _, next⟩ := fresh_bind done
        cases shown : w.shape? with
        | none =>
            simp only [shown] at next
            cases fresh_pure next
        | some entry =>
            simp only [shown] at next
            cases fresh_pure next

theorem shown_below {v : Term} {shape : Shape} {components : List Term}
    (shown : v.shape? = some (shape, components)) (below : v.Below n) :
    ∀ a ∈ components, a.Below n := by
  cases v with
  | con c u params args =>
      cases shown
      exact (Term.below_con.mp below).2
  | tuple components type =>
      cases shown
      exact (Term.below_tuple.mp below).1
  | _ => cases shown

variable {σ : Var → Nameless} {bound : List Var} {V : Var → Prop} {first k : Nat}
  {columns : List Column} {rows : List Row}

/-- At a leaf, the first row matches, and its variables are those of the columns. -/
theorem leaf_answers {R : Nameless → Nameless → Prop} {row : Row} {others : List Row}
    {body result : Term} (aligned : Aligned R env σ columns args)
    (old : ∀ c ∈ columns, c.1.id < n) (width : row.patterns.length = columns.length)
    (simple : row.subst.Simple) (kept : RowKept first n row) (order : first ≤ n) (later : m ≤ k)
    (below : ∀ a ∈ args, a.Below k) (binds : Binds s bound σ k)
    (allBound : row.patterns.all Pattern.isBinding = true) (isBody : row.clause.body = some body)
    (applied : (bindColumns row.subst row.patterns columns).apply env body n = .ok (result, m))
    {l : Nat} (done : (s.bind (Telescope.ofPairs columns) args).apply env result k = .ok (r, l)) :
    ∃ img, Answers first (row :: others) args (columns.map Prod.fst) (allKept args) bound σ r row body
      img := by
  have length := List.Forall₂.length_eq aligned
  have isBound : ∀ p ∈ row.patterns, p.isBinding = true := List.all_eq_true.mp allBound
  obtain ⟨_, resultBelow, inner⟩ := (bindColumns_within kept.put old).simple_reading
    (bindColumns_simple simple row.patterns columns) ((kept.body body isBody).mono order) applied
  have final : Binds (s.bind (Telescope.ofPairs columns) (args ++ [])) _ σ k :=
    binds.pass aligned below
  rw [List.append_nil] at final
  obtain ⟨_, _, outer⟩ := final.put.simple_reading final.simple (resultBelow.mono later) done
  have bindings : keptVars (columns.map Prod.fst) (allKept args) = columns.map Prod.fst :=
    keptVars_allKept ((List.length_map _).trans length)
  have reading : (fun z => ((s.bind (Telescope.ofPairs columns) args).image z).reading) =
      resolve (bound ++ keptVars (columns.map Prod.fst) (allKept args)) σ := by
    funext z
    rw [final.image z, bindings]
  rw [inner, Nameless.inst_inst, reading] at outer
  refine ⟨_, ?_, isBody, outer, fun x isOld outside => ?_, fun x isOld member => ?_⟩
  · simp [rowFits_bindings isBound (width.trans length)]
  · rw [Subst.image, bindColumns_get? outside]
    rfl
  · obtain ⟨c, isColumn, v, image, stands, place, opening⟩ := bindColumns_at isBound aligned width
      (kept.once x isOld) (kept.unset x member isOld) member
    refine ⟨v, .kept, place, opening, iff_of_true ?_ (by simp [Opening.Shallow, Opening.parts])⟩
    rw [image, Term.ref_reading, Nameless.inst, bindings, resolve, if_pos, stands]
    exact List.mem_append_right _ (List.mem_map_of_mem isColumn)

end Walking

section Descent

variable {env : Environment} {first k l : Nat} {V : Var → Prop} {n m : Nat} {columns : List Column}
  {rows : List Row} {args : List Term} {σ τ : Var → Nameless} {bound : List Var} {s : Subst}

/-- What holds where a walk comes to a node. The counter of the walk is beyond that of the compiler. -/
structure Arrives (env : Environment) (first k : Nat) (V : Var → Prop) (n : Nat)
    (columns : List Column) (rows : List Row) (args : List Term) (σ : Var → Nameless)
    (bound : List Var) (s : Subst) : Prop where
  node : Node Eq env V n columns rows args σ
  settled : Settled V bound n σ
  kept : ∀ row ∈ rows, RowKept first n row
  order : first ≤ n
  below : ∀ a ∈ args, a.Below k
  binds : Binds s bound σ k

theorem Arrives.mono (arrives : Arrives env first k V n columns rows args σ bound s)
    (later : n ≤ m) : Arrives env first k V m columns rows args σ bound s where
  node := arrives.node.mono later
  settled := arrives.settled.mono later
  kept row isRow := (arrives.kept row isRow).mono later
  order := arrives.order.trans later
  below := arrives.below
  binds := arrives.binds

/-- At the inspected column, the columns before have been bound. -/
theorem Arrives.inspect {before rest : List Column} {column : Column} {shape : Term}
    (arrives : Arrives env first k V n (before ++ column :: rest) rows args σ bound s)
    (reduced : column.2.whnf env n = .ok (shape, m)) : ∃ values v others,
      args = values ++ v :: others ∧ values.length = before.length ∧
      Aligned Eq env σ before values ∧ shape.Within (Beside V before) m ∧ v.Fits Eq env shape σ ∧
      Arrives env first k (Beside V before) m (column :: rest) (rows.map (·.pass before))
        (v :: others) σ (bound ++ before.map Prod.fst) (s.bind (Telescope.ofPairs before) args) := by
  obtain ⟨values, v, others, rfl, length, aligned, start, shapeIn, fits, here⟩ :=
    arrives.node.inspect .eq reduced
  obtain ⟨valuesBelow, restBelow⟩ := List.forall_mem_append.mp arrives.below
  have old := fun c isColumn => (arrives.node.scope.column c (List.mem_append_left _ isColumn)).1
  refine ⟨values, v, others, rfl, length, aligned, shapeIn, fits, here,
    (arrives.settled.pass old).mono start, fun row member => ?_, arrives.order.trans start, restBelow,
    arrives.binds.pass aligned valuesBelow⟩
  obtain ⟨original, isRow, rfl⟩ := List.mem_map.mp member
  exact ((arrives.kept original isRow).pass old).mono start

/-- Below a shape of the value. -/
theorem Arrives.enter {column : Column} {rest fields : List Column} {inner : List Row}
    {shape : Shape} {v value : Term} {components others : List Term} {i : Nat}
    (arrives : Arrives env first k V n (column :: rest) rows (v :: others) σ bound s)
    (taken : Taken Eq env V n m v value fields components σ τ)
    (enters : Enters env column rest rows shape value fields m columns inner i)
    (shown : v.shape? = some (shape, components)) :
    Arrives env first k V i columns inner (components ++ others) τ bound s := by
  obtain ⟨valueBelow, othersBelow⟩ := List.forall_mem_cons.mp arrives.below
  obtain ⟨next, below⟩ := arrives.node.enter .eq taken enters
  have later := taken.order.trans next
  refine ⟨below, (arrives.settled.agree taken.agree).mono later, fun row member => ?_,
    arrives.order.trans later,
    List.forall_mem_append.mpr ⟨shown_below shown valueBelow, othersBelow⟩,
    arrives.binds.agree arrives.settled.boundOld taken.agree⟩
  rw [enters.rows] at member
  obtain ⟨original, isRow, entered⟩ := List.mem_filterMap.mp member
  exact ((arrives.kept original isRow).enter arrives.order taken.order taken.new taken.valueIn.below
    entered).mono next

mutual

/-- Where a tree that was built gives a result, it is that of the first row that matches. -/
theorem Built.answers : ∀ {V : Var → Prop} {n m : Nat} {columns : List Column} {rows : List Row}
    {tree : CaseTree} {args : List Term} {σ : Var → Nameless} {bound : List Var} {s : Subst}
    {r : Term}, Built env n columns rows tree m →
    Arrives env first k V n columns rows args σ bound s → m ≤ k →
    tree.walk env (Term.whnf env) s args k = .ok (.reduced r, l) →
    ∃ row body img, Answers first rows args (columns.map Prod.fst) (tree.openings args) bound σ r row
      body img
  | V, n, m, columns, row :: others, _, args, σ, bound, s, r, .leaf allBound isBody applied, here,
      later, done => by
      have length := List.Forall₂.length_eq here.node.aligned
      have applied' := walk_leaf (by rw [ofPairs_length, length]) done
      obtain ⟨img, answers⟩ := leaf_answers here.node.aligned
        (fun c isColumn => (here.node.scope.column c isColumn).1)
        (here.node.width row List.mem_cons_self) (here.node.simple row List.mem_cons_self)
        (here.kept row List.mem_cons_self) here.order later here.below here.binds allBound isBody
        applied applied'
      exact ⟨row, _, img, answers⟩
  | V, n, m, columns, _, _, args, σ, bound, s, r, .empty _, _, _, done =>
      (walk_childless done).elim
  | V, n, m, _, _, _, args, σ, bound, s, r, .absurd _ _ _ _ _, _, _, done =>
      (walk_childless done).elim
  | V, n, m, _, rows, _, args, σ, bound, s, r, .data inspects reduced found complete children, here,
      later, done => by
      obtain ⟨values, v, others, rfl, length, aligned, shapeIn, fits, inspected⟩ :=
        here.inspect reduced
      obtain ⟨_, c, con, args, known, _, made⟩ := fits.data
      cases found.symm.trans known
      have sized := length.trans (ofPairs_length _).symm
      have walked := walk_branch sized (Term.whnf_shown reduced made.shown k) made.shown done
      obtain ⟨inner, body, img, answers⟩ := children.answers inspected later
        (Term.within_data.mp shapeIn) made walked
      obtain ⟨row, final⟩ := answers.pass aligned here.kept inspects.bound fun row isRow => by
        rw [here.node.width row isRow, List.length_append]
        exact Nat.le_add_right _ _
      rw [List.map_append, CaseTree.openings_branch sized made.shown]
      exact ⟨row, body, img, final⟩
  | V, n, m, _, rows, _, args, σ, bound, s, r, .tuple inspects reduced fresh enters child, here,
      later, done => by
      obtain ⟨values, v, others, rfl, length, aligned, shapeIn, fits, inspected⟩ :=
        here.inspect reduced
      obtain ⟨components, made⟩ := fits.sigma
      have shown := made.shown
      rw [made.fits.length] at shown
      have sized := length.trans (ofPairs_length _).symm
      have walked := walk_branch sized (Term.whnf_shown reduced shown k) shown done
      obtain ⟨τ, taken⟩ := taken_tuple shapeIn made fresh
      obtain ⟨_, body, img, answers⟩ := child.answers (inspected.enter taken enters shown) later walked
      obtain ⟨_, passed⟩ := answers.enter inspected.node taken enters shown inspected.settled
        inspected.kept inspected.order (CaseTree.openings_opens _ _)
      obtain ⟨row, final⟩ := passed.pass aligned here.kept inspects.bound fun row isRow => by
        rw [here.node.width row isRow, List.length_append]
        exact Nat.le_add_right _ _
      rw [List.map_append, CaseTree.openings_branch sized shown]
      exact ⟨row, body, img, final⟩

theorem BuiltAll.answers : ∀ {V : Var → Prop} {n m : Nat} {data : DataDef} {u : Universe}
    {dataArgs : List Term} {column : Column} {rest : List Column} {rows : List Row}
    {live : List DefId} {children : List (Shape × CaseTree)} {c : DefId} {con : ConstructorDef}
    {v : Term} {args others : List Term} {σ : Var → Nameless} {bound : List Var} {s : Subst}
    {r : Term}, BuiltAll env data u dataArgs column rest rows n live children m →
    Arrives env first k V n (column :: rest) rows (v :: others) σ bound s → m ≤ k →
    (∀ a ∈ dataArgs, a.Within V n) → v.MadeBy Eq env σ data u dataArgs c con args →
    walkChildren env (Term.whnf env) s (.con c) children (args ++ others) k =
      .ok (.reduced r, l) →
    ∃ row body img, Answers first rows (v :: others) ((column :: rest).map Prod.fst)
      (.opened ((childrenOpenings (.con c) children (args ++ others)).take args.length) ::
        (childrenOpenings (.con c) children (args ++ others)).drop args.length) bound σ r row body img
  | _, _, _, _, _, _, _, _, _, _, _, c, _, _, _, _, _, _, _, _, .nil, _, _, _, _, done => by
      cases fresh_pure done
  | V, n, m, _, _, _, _, _, _, _, _, c, con, v, args, others, σ, bound, s, r, .skip _ below, here,
      later, argsIn, made, done => below.answers here later argsIn made done
  | V, n, m, _, _, _, _, _, _, head :: _, _, c, con, v, args, others, σ, bound, s, r,
      .child defined fresh enters tree below, here, later, argsIn, made, done => by
      unfold walkChildren at done
      unfold childrenOpenings
      have node := here.node
      have order := (BuiltAll.child defined fresh enters tree .nil).order node.known node.scope argsIn
        node.simple
      have rest := below.order (node.known.mono order) (node.scope.mono order)
        (within_later argsIn order) node.simple
      by_cases same : head = c
      · subst same
        cases defined.symm.trans made.defined
        rw [if_pos (matches_con.mpr rfl)] at done ⊢
        obtain ⟨τ, taken⟩ := node.taken_con argsIn made fresh
        obtain ⟨_, body, img, answers⟩ := tree.answers (here.enter taken enters made.shown)
          (rest.trans later) done
        obtain ⟨row, final⟩ := answers.enter node taken enters made.shown here.settled here.kept
          here.order (CaseTree.openings_opens _ _)
        exact ⟨row, body, img, final⟩
      · rw [if_neg fun hit => same (Shape.con.inj (matches_con.mp hit))] at done ⊢
        exact below.answers (here.mono order) later (within_later argsIn order) made done

end

end Descent

section FirstMatch

variable {n m : Nat} {params : Telescope} {clauses : List Clause}

theorem Proper.free {params : Telescope} (proper : Telescope.Proper params) :
    ∀ x ∈ telescopeFree params [], x ∉ params.vars := by
  induction params with
  | nil => simp [telescopeFree]
  | cons b params ih =>
      obtain ⟨type, _, later⟩ := proper
      intro x member
      rw [Telescope.vars, List.map_cons, List.mem_cons, not_or]
      rcases List.mem_append.mp member with inType | inRest
      · exact type x inType
      · obtain ⟨free, apart⟩ := List.mem_filter.mp inRest
        exact ⟨by simpa using apart, ih later x free⟩

theorem telescope_below_free {params : Telescope} (old : Telescope.Below n params) :
    ∀ x ∈ telescopeFree params [], x.id < n := by
  induction params with
  | nil => simp [telescopeFree]
  | cons b params ih =>
      obtain ⟨here, later⟩ := List.forall_mem_cons.mp old
      intro x member
      rcases List.mem_append.mp member with inType | inRest
      · exact here.2.freeVars inType
      · exact ih later x (List.mem_filter.mp inRest).1

/-- Pattern variables are distinct. The body is older than the tree, and of the parameters it mentions
    those only that are pattern variables as well. -/
structure Clause.Ready (n : Nat) (params : Telescope) (clause : Clause) : Prop where
  distinct : (rowVars clause.patterns).Nodup
  body : ∀ body, clause.body = some body → body.Below n ∧
    ∀ x ∈ body.freeVars, x ∈ params.vars → x ∈ rowVars clause.patterns

theorem numbered_kept (ready : ∀ clause ∈ clauses, clause.Ready n params) :
    ∀ row ∈ numbered clauses, RowKept n m row := by
  intro row member
  obtain ⟨clause, isClause, rfl, patterns, empty⟩ := mem_numbered member
  have here := ready _ isClause
  refine ⟨?_, fun body isBody => (here.body body isBody).1, fun x _ => ?_, fun x _ _ => ?_⟩
  · rw [empty]
    exact Subst.within_empty
  · rw [patterns]
    exact List.nodup_iff_count.mp here.distinct x
  · rw [empty]
    rfl

theorem numbered_find {row : Row} {args : List Term}
    (found : (numbered clauses).find? (fun row => rowFits row.patterns args) = some row) :
    clauses.find? (fun clause => rowFits clause.patterns args) = some row.clause := by
  have all : (numbered clauses).map Row.clause = clauses := by
    rw [numbered, List.map_map]
    exact List.zipIdx_map_fst 0 clauses
  have same : (numbered clauses).find? ((fun clause => rowFits clause.patterns args) ∘ Row.clause) =
      (numbered clauses).find? (fun row => rowFits row.patterns args) := by
    refine List.find?_congr fun row member => ?_
    obtain ⟨_, _, rfl, patterns, _⟩ := mem_numbered member
    rw [Function.comp_apply, patterns]
  rw [← all, List.find?_map, same, found]
  rfl

/-- Where variables of the term stand in the row, the tree looks at no more than the shape. -/
def LooksShallow (tree : CaseTree) (args : List Term) (row : List Pattern) (body : Term) : Prop :=
  ∀ x ∈ body.freeVars, ∀ o, rowAt? Opening.parts x row (tree.openings args) = some o → o.Shallow

section Reading

variable {tree : CaseTree} {args : List Term} {r body : Term} {row : List Pattern}
  {img : Var → Nameless}

/-- What the variables of the body become where the row has matched the arguments: those of the row
    become the values at their places just if these are looked into no further than their shape. -/
structure Becomes (tree : CaseTree) (args : List Term) (row : List Pattern) (body : Term)
    (img : Var → Nameless) : Prop where
  outer : ∀ x ∈ body.freeVars, x ∉ rowVars row → img x = .free x
  inner : ∀ x ∈ body.freeVars, x ∈ rowVars row → ∃ w o, rowAt? Term.components x row args = some w ∧
    rowAt? Opening.parts x row (tree.openings args) = some o ∧ (img x = w.reading ↔ o.Shallow)

theorem Becomes.faithful (becomes : Becomes tree args row body img)
    (reading : r.reading = body.reading.inst id img) :
    r.reading = body.reading.inst id (matched row args) ↔ LooksShallow tree args row body := by
  rw [reading]
  constructor
  · intro same x free o opening
    have reads := Nameless.inst_injective _ same x (Term.mem_reading_freeVars.mpr free)
    by_cases member : x ∈ rowVars row
    · rcases becomes.inner x free member with ⟨w, o', place, opening', shallow⟩
      cases opening.symm.trans opening'
      apply shallow.mp
      rw [reads, matched, place]
      rfl
    · rw [rowAt?_none member] at opening
      cases opening
  · intro shallow
    apply Nameless.inst_congr
    intro x member
    have free := Term.mem_reading_freeVars.mp member
    by_cases isVar : x ∈ rowVars row
    · rcases becomes.inner x free isVar with ⟨w, o, place, opening, same⟩
      rw [same.mpr (shallow x free o opening), matched, place]
      rfl
    · rw [becomes.outer x free isVar, matched, rowAt?_none isVar]
      rfl

theorem Becomes.free (becomes : Becomes tree args row body img)
    (reading : r.reading = body.reading.inst id img) (shallow : LooksShallow tree args row body)
    {z : Var} (member : z ∈ r.freeVars) :
    (z ∈ body.freeVars ∧ z ∉ rowVars row) ∨ ∃ a ∈ args, z ∈ a.freeVars := by
  rw [← Term.mem_reading_freeVars, reading] at member
  rcases (Nameless.mem_inst_freeVars _).mp member with ⟨x, inBody, inImage⟩
  have free := Term.mem_reading_freeVars.mp inBody
  by_cases isVar : x ∈ rowVars row
  · rcases becomes.inner x free isVar with ⟨w, o, place, opening, same⟩
    rw [same.mpr (shallow x free o opening), Term.mem_reading_freeVars] at inImage
    exact .inr (rowAt?_free place inImage)
  · rw [becomes.outer x free isVar, Nameless.freeVars, List.mem_singleton] at inImage
    subst inImage
    exact .inl ⟨free, isVar⟩

end Reading

/-- **First match.** Where the tree of clauses without interval patterns gives a result for constructor
    values of the parameter types, some clause matches, and the result is the body of the first one
    that does, with the pattern variables replaced by what they matched, just if the tree looks at no
    more than the outermost shape of what the variables of the body stand for. Then all variables of
    the result are variables of the surroundings or of the arguments. -/
theorem compile_first_match {setting : Setting} {span : Span} {k l : Nat} {outcome : Outcome}
    {tree : CaseTree} {args : List Term} {r : Term}
    (known : setting.env.Within (fun x => x.id < n ∧ x ∉ params.vars) n)
    (old : Telescope.Below n params) (proper : Telescope.Proper params)
    (ready : ∀ clause ∈ clauses, clause.Ready n params)
    (noInterval : NoIntervalPattern setting.env params clauses)
    (done : compile setting span params clauses n = .ok (outcome, m))
    (given : outcome.tree = some tree)
    (values : fieldsFit Eq setting.env args params id .free)
    (below : ∀ a ∈ args, a.Below k) (later : m ≤ k)
    (ran : tree.run setting.env (Term.whnf setting.env) args k = .ok (.reduced r, l)) :
    ∃ clause body, clauses.find? (fun clause => rowFits clause.patterns args) = some clause ∧
      clause.body = some body ∧
      (r.reading = body.reading.inst id (matched clause.patterns args) ↔
        LooksShallow tree args clause.patterns body) ∧
      (LooksShallow tree args clause.patterns body → ∀ z ∈ r.freeVars,
        (z ∈ body.freeVars ∧ z ∉ rowVars clause.patterns) ∨ ∃ a ∈ args, z ∈ a.freeVars) := by
  have types : ∀ b ∈ params, b.type.Within (fun _ => True) n := fun b isParam =>
    ⟨(old b isParam).2, fun _ _ => trivial⟩
  obtain ⟨width, i, order, built⟩ := compile_built (known.widen fun _ _ => trivial) types noInterval
    done given
  obtain ⟨σ, agree, aligned⟩ := params_aligned proper values
  have node := root_node (known.mono order) (old.mono order)
    (fun x free => ⟨telescope_below_free old x free, Proper.free proper x free⟩) width aligned
  have here : Arrives setting.env n k (fun x => x.id < n ∧ x ∉ params.vars) i (columnsOf params)
      (numbered clauses) args σ [] .empty :=
    { node := node
      settled := ⟨fun z scope => scope.1.trans_le order, by simp, fun z scope => .inr (agree z scope.2)⟩
      kept := numbered_kept ready
      order := order
      below := below
      binds := ⟨⟨rfl, rfl⟩, Subst.within_empty, fun _ => rfl⟩ }
  obtain ⟨row, body, img, answers⟩ := built.answers here later ran
  have isRow := List.mem_of_find?_eq_some answers.found
  obtain ⟨clause, isClause, rfl, patterns, empty⟩ := mem_numbered isRow
  obtain ⟨bodyOld, ofParams⟩ := (ready _ isClause).body body answers.isBody
  have becomes : Becomes tree args row.clause.patterns body img := by
    refine ⟨fun x free outside => ?_, fun x free member => ?_⟩
    · have unbound : x ∉ params.vars := fun isParam => outside (ofParams x free isParam)
      rw [answers.outer x (bodyOld.freeVars free) (by rwa [patterns]), empty]
      change resolve _ σ x = _
      rw [resolve, agree x unbound, ite_self]
    · rw [← patterns] at member ⊢
      exact answers.inner x (bodyOld.freeVars free) member
  exact ⟨row.clause, body, numbered_find answers.found, answers.isBody,
    becomes.faithful answers.reading, fun shallow z member => becomes.free answers.reading shallow member⟩

end FirstMatch

section Examples

open Library

/-- Two less, with zero on its own. -/
def twoLess : List Clause := [
  ⟨.none, [.ofCon suc [.ofCon suc [.binding ⟨30, "n"⟩]]], some (.ref ⟨30, "n"⟩)⟩,
  ⟨.none, [.ofCon zero []], some zeroTerm⟩,
  ⟨.none, [.binding ⟨31, "k"⟩], some (.ref ⟨31, "k"⟩)⟩]

def twoLessTree : CaseTree := .branch [] [
  (.con zero, .leaf [] zeroTerm),
  (.con suc, .branch [] [
    (.con zero, .leaf [] (sucOf (.ref ⟨32, "n"⟩))),
    (.con suc, .leaf (Telescope.ofPairs [(⟨33, "n"⟩, natType)]) (.ref ⟨33, "n"⟩))])]

theorem twoLess_compiled : (compile plainSetting .none counted twoLess 32).map
    (fun r => (r.1.tree, r.2)) = .ok (some twoLessTree, 34) := rfl

theorem counted_fits (k : Nat) :
    fieldsFit Eq (environment 100) [numeral k] counted id .free :=
  ⟨numeral_inhabits .eq Likeness.eq_sees (library_hasNat 100) k, trivial⟩

theorem twoLess_ready : ∀ clause ∈ twoLess, clause.Ready 32 counted := by
  have distinct : ∀ clause ∈ twoLess, (rowVars clause.patterns).Nodup := by decide
  have apart : ∀ clause ∈ twoLess, ∀ body ∈ clause.body,
      body.Below 32 ∧ ∀ x ∈ body.freeVars, x.id ≠ 29 := by decide
  intro clause isClause
  refine ⟨distinct clause isClause, fun body isBody => ?_⟩
  obtain ⟨old, unlike⟩ := apart clause isClause body isBody
  refine ⟨old, fun x free isParam => ?_⟩
  obtain rfl := List.mem_singleton.mp isParam
  exact absurd rfl (unlike _ free)

theorem twoLess_first_match : ∃ t l,
    twoLessTree.run (environment 100) (Term.whnf (environment 100)) [numeral 3] 34 =
      .ok (.reduced t, l) ∧ ∃ clause body,
        twoLess.find? (fun clause => rowFits clause.patterns [numeral 3]) = some clause ∧
        clause.body = some body ∧
        t.reading = body.reading.inst id (matched clause.patterns [numeral 3]) := by
  obtain ⟨⟨outcome, m⟩, done, same⟩ := map_ok twoLess_compiled
  obtain ⟨given, rfl⟩ := Prod.mk.inj same
  have known : plainSetting.env.Within (fun x => x.id < 32 ∧ x ∉ counted.vars) 32 := by
    refine ((library_within 100).mono (by decide)).widen fun x old => ⟨old.trans (by decide), ?_⟩
    intro member
    obtain rfl := List.mem_singleton.mp member
    exact absurd old (by decide)
  have proper : Telescope.Proper counted := by
    simp [counted, Telescope.ofPairs, Telescope.Proper, natType, Term.freeVars, termsFree]
  have ran : twoLessTree.run plainSetting.env (Term.whnf plainSetting.env) [numeral 3] 34 =
      .ok (.reduced (numeral 1), 34) := rfl
  obtain ⟨clause, body, found, isBody, faithful, _⟩ := compile_first_match known (by decide) proper
    twoLess_ready (counted_plain _) done given (counted_fits 3) (by decide) (Nat.le_refl 34) ran
  refine ⟨_, _, ran, clause, body, found, isBody, faithful.mpr ?_⟩
  cases found
  cases isBody
  intro x member o place
  obtain rfl := List.mem_singleton.mp member
  cases place
  rintro _ ⟨⟩

/-- At one, the last clause is the first to match, and its variable stands for the argument. The tree
    has taken apart the predecessor as well, so the variable of its column is left in the result. -/
theorem twoLess_unbound :
    (compile plainSetting .none counted twoLess 32).map (fun r => (r.1.tree, r.2)) =
      .ok (some twoLessTree, 34) ∧
    fieldsFit Eq (environment 100) [numeral 1] counted id .free ∧
    twoLessTree.run (environment 100) (Term.whnf (environment 100)) [numeral 1] 34 =
      .ok (.reduced (sucOf (.ref ⟨32, "n"⟩)), 34) ∧
    (twoLess.find? fun clause => rowFits clause.patterns [numeral 1]) =
      some ⟨.none, [.binding ⟨31, "k"⟩], some (.ref ⟨31, "k"⟩)⟩ ∧
    matched [.binding ⟨31, "k"⟩] [numeral 1] ⟨31, "k"⟩ = (numeral 1).reading ∧
    (sucOf (.ref ⟨32, "n"⟩)).reading ≠ (numeral 1).reading := by
  refine ⟨rfl, counted_fits 1, rfl, rfl, rfl, fun same => ?_⟩
  cases same

end Examples

end PathTheory.Matching
