import PathTheory.Proofs.Matching.Nodes
import PathTheory.Proofs.Matching.Patterns
/-!
Rows and what their variables stand for. A row binds each of its variables once: to a column that is
passed, or to the value over new columns where the variable stands before a shape. Both are the last
thing that the row ever says of the variable.
-/
namespace PathTheory.Matching

open Pattern

variable {env : Environment} {n m first : Nat}

/-- A row on the way to a leaf. What is said of its variables is said of the old ones, which are those
    that the body may mention. -/
structure RowKept (first n : Nat) (row : Row) : Prop where
  put : row.subst.Within (fun _ => True) n
  body : ∀ body, row.clause.body = some body → body.Below first
  once : ∀ x, x.id < first → (rowVars row.patterns).count x ≤ 1
  unset : ∀ x ∈ rowVars row.patterns, x.id < first → row.subst.get? x = none

theorem RowKept.mono {row : Row} (kept : RowKept first n row) (order : n ≤ m) :
    RowKept first m row where
  put := kept.put.mono order
  body := kept.body
  once := kept.once
  unset := kept.unset

section Passing

theorem bindColumns_cons (s : Subst) (p : Pattern) (row : List Pattern) (c : Column)
    (columns : List Column) :
    bindColumns s (p :: row) (c :: columns) = bindColumns (match p with
      | .binding x => if x = c.1 then s else s.add x (.ref c.1)
      | _ => s) row columns := rfl

theorem bindColumns_within {s : Subst} (put : s.Within (fun _ => True) n) {row : List Pattern}
    {columns : List Column} (old : ∀ c ∈ columns, c.1.id < n) :
    (bindColumns s row columns).Within (fun _ => True) n := by
  induction row generalizing s columns with
  | nil => exact put
  | cons p row ih =>
      cases columns with
      | nil => exact put
      | cons c columns =>
          obtain ⟨here, later⟩ := List.forall_mem_cons.mp old
          rw [bindColumns_cons]
          apply ih _ later
          cases p with
          | binding x =>
              dsimp only
              split
              · exact put
              · exact put.add (ref_within here trivial)
          | _ => exact put

/-- Other variables than those of the row are left alone. -/
theorem bindColumns_get? {s : Subst} {row : List Pattern} {x : Var} (outside : x ∉ rowVars row)
    (columns : List Column) : (bindColumns s row columns).get? x = s.get? x := by
  induction row generalizing s columns with
  | nil => rfl
  | cons p row ih =>
      cases columns with
      | nil => rfl
      | cons c columns =>
          simp only [rowVars, List.mem_append, not_or] at outside
          rw [bindColumns_cons, ih outside.2]
          cases p with
          | binding y =>
              have apart : x ≠ y := by
                simpa [vars] using outside.1
              dsimp only
              split
              · rfl
              · simp [Subst.get?_add, apart]
          | _ => rfl

/-- A variable of the row becomes its column, which stands for the value at its place. -/
theorem bindColumns_at {R : Nameless → Nameless → Prop} {σ : Var → Nameless} {s : Subst}
    {row : List Pattern} {columns : List Column} {values : List Term} {x : Var}
    (bound : ∀ p ∈ row, p.isBinding = true) (aligned : Aligned R env σ columns values)
    (length : row.length = columns.length) (once : (rowVars row).count x ≤ 1)
    (unset : s.get? x = none) (member : x ∈ rowVars row) : ∃ c ∈ columns, ∃ v,
      (bindColumns s row columns).image x = .ref c.1 ∧ σ c.1 = v.reading ∧
        rowAt? Term.components x row values = some v ∧
          rowAt? Opening.parts x row (allKept values) = some .kept := by
  induction aligned generalizing s row with
  | nil =>
      obtain rfl := List.length_eq_zero_iff.mp length
      cases member
  | @cons c v columns values here _ ih =>
      cases row with
      | nil => cases length
      | cons p row =>
          obtain ⟨isBinding, others⟩ := List.forall_mem_cons.mp bound
          cases p with
          | binding y =>
              rw [bindColumns_cons]
              by_cases same : x = y
              · subst same
                have outside : x ∉ rowVars row := by
                  rw [← List.count_eq_zero]
                  simp only [rowVars, vars, List.singleton_append, List.count_cons_self] at once
                  omega
                refine ⟨c, List.mem_cons_self, v, ?_, here.1, ?_, ?_⟩
                · rw [Subst.image, bindColumns_get? outside]
                  dsimp only
                  split
                  · rename_i hit
                    rw [unset, hit]
                    rfl
                  · simp [Subst.get?_add]
                · simp [rowAt?, at?]
                · simp [allKept, rowAt?, at?]
              · have once' : (rowVars row).count x ≤ 1 := by
                  simpa [rowVars, vars, List.count_cons, Ne.symm same] using once
                have member' : x ∈ rowVars row := by
                  simpa [rowVars, vars, same] using member
                have unset' : (if y = c.1 then s else s.add y (.ref c.1)).get? x = none := by
                  split
                  · exact unset
                  · simpa [Subst.get?_add, same] using unset
                obtain ⟨d, isColumn, w, image, stands, place, kept⟩ :=
                  ih others (Nat.succ.inj length) once' unset' member'
                refine ⟨d, List.mem_cons_of_mem _ isColumn, w, image, stands, ?_, ?_⟩
                · simpa [rowAt?, at?, same] using place
                · simpa [allKept, rowAt?, at?, same] using kept
          | _ => cases isBinding

theorem rowVars_split (row : List Pattern) (k : Nat) :
    rowVars row = rowVars (row.take k) ++ rowVars (row.drop k) := by
  rw [← rowVars_append, List.take_append_drop]

theorem RowKept.pass {row : Row} (kept : RowKept first n row) {before : List Column}
    (old : ∀ c ∈ before, c.1.id < n) : RowKept first n (row.pass before) where
  put := bindColumns_within kept.put old
  body := kept.body
  once := by
    intro x isOld
    have all := kept.once x isOld
    rw [rowVars_split row.patterns before.length, List.count_append] at all
    exact (Nat.le_add_left _ _).trans all
  unset := by
    intro x member isOld
    have all := kept.once x isOld
    have here := List.count_pos_iff.mpr member
    rw [rowVars_split row.patterns before.length, List.count_append] at all
    simp only [Row.pass] at here
    have outside : x ∉ rowVars (row.patterns.take before.length) := by
      rw [← List.count_eq_zero]
      omega
    rw [Row.pass, bindColumns_get? outside]
    apply kept.unset x _ isOld
    rw [rowVars_split row.patterns before.length]
    exact List.mem_append_right _ member

end Passing

section Entering

variable {row inner : Row} {shape : Shape} {value : Term} {fields : List Column}

theorem new_notMem {x : Var} (isOld : x.id < first) (order : first ≤ n)
    (new : ∀ f ∈ fields, n ≤ f.1.id) : x ∉ fields.map Prod.fst := by
  intro member
  obtain ⟨f, isField, rfl⟩ := List.mem_map.mp member
  have isNew := new f isField
  omega

theorem RowKept.enter (kept : RowKept first n row) (order : first ≤ n) (later : n ≤ m)
    (new : ∀ f ∈ fields, n ≤ f.1.id) (valueBelow : value.Below m)
    (entered : row.enter shape value fields = some inner) : RowKept first m inner := by
  rcases enter_cases entered with ⟨args, rest, here, rfl⟩ | ⟨y, rest, here, rfl⟩
  · have same : rowVars (args ++ rest) = rowVars row.patterns := by
      rw [here, rowVars_append]
      rfl
    refine ⟨kept.put.mono later, kept.body, ?_, ?_⟩
    · rw [same]
      exact kept.once
    · rw [same]
      exact kept.unset
  · have vars : rowVars row.patterns = y :: rowVars rest := by
      rw [here]
      rfl
    have once := kept.once
    have unset := kept.unset
    rw [vars] at once unset
    refine ⟨(kept.put.mono later).add ⟨valueBelow, fun _ _ => trivial⟩, kept.body, ?_, ?_⟩
    · intro x isOld
      have apart := List.count_eq_zero.mpr (new_notMem isOld order new)
      have all := once x isOld
      rw [List.count_cons] at all
      rw [rowVars_append, rowVars_bindings, List.count_append, apart]
      omega
    · intro x member isOld
      rw [rowVars_append, rowVars_bindings] at member
      have member := (List.mem_append.mp member).resolve_left (new_notMem isOld order new)
      have apart : x ≠ y := by
        rintro rfl
        have all := once x isOld
        have here := List.count_pos_iff.mpr member
        rw [List.count_cons_self] at all
        omega
      rw [Subst.get?_add, if_neg apart]
      exact unset x (List.mem_cons_of_mem _ member) isOld

/-- What is left of a row below a shape of the value fits the components and the values after just if
    the row fits the values. -/
theorem enter_fits {v : Term} {components others : List Term}
    (shown : v.shape? = some (shape, components)) (length : fields.length = components.length)
    (width : row.patterns.length = (v :: others).length)
    (arity : ∀ inner, row.enter shape value fields = some inner →
      inner.patterns.length = (components ++ others).length) :
    (row.enter shape value fields).any (fun inner => rowFits inner.patterns (components ++ others)) =
      rowFits row.patterns (v :: others) := by
  unfold Row.enter at arity ⊢
  cases here : row.patterns with
  | nil => simp [here] at width
  | cons p rest =>
      simp only [here, List.length_cons, Nat.add_right_cancel_iff] at width
      cases p with
      | binding y =>
          have bound : ∀ p ∈ fields.map fun f => Pattern.binding f.1, p.isBinding = true := by
            intro p member
            obtain ⟨_, _, rfl⟩ := List.mem_map.mp member
            rfl
          have components : rowFits (fields.map fun f => Pattern.binding f.1) components = true :=
            rowFits_bindings bound (by rw [List.length_map, length])
          simp [rowFits, fits, rowFits_append, length, components]
      | absurd => simp [rowFits, fits]
      | shaped k args =>
          simp only [here] at arity
          by_cases same : k = shape
          · subst same
            have counted : args.length = components.length := by
              have total := arity _ (if_pos rfl)
              simp only [List.length_append] at total
              omega
            simp [rowFits, fits, shown, rowFits_append, counted]
          · simp [rowFits, fits, shown, same]

/-- What becomes of an old variable where a row goes on below a shape: the row keeps what it says of
    it, or puts in the value for it, or the place of the variable is found in what is left. -/
theorem enter_places {x : Var} (kept : RowKept first n row) (isOld : x.id < first)
    (order : first ≤ n) (new : ∀ f ∈ fields, n ≤ f.1.id)
    (arity : inner.patterns.length + 1 = fields.length + row.patterns.length)
    (entered : row.enter shape value fields = some inner) :
    (x ∉ rowVars row.patterns ∧ x ∉ rowVars inner.patterns ∧
      inner.subst.image x = row.subst.image x) ∨
    (∃ rest, row.patterns = .binding x :: rest ∧ x ∉ rowVars inner.patterns ∧
      inner.subst.image x = value) ∨
    (x ∈ rowVars row.patterns ∧ x ∈ rowVars inner.patterns ∧
      ∀ {α : Type} (parts : α → List α) (a : α) (l : List α), (parts a).length = fields.length →
        rowAt? parts x row.patterns (a :: l) = rowAt? parts x inner.patterns (parts a ++ l)) := by
  have notNew := new_notMem isOld order new
  have once := kept.once x isOld
  rcases enter_cases entered with ⟨args, rest, here, rfl⟩ | ⟨y, rest, here, rfl⟩
  · have vars : rowVars row.patterns = rowVars (args ++ rest) := by
      rw [here, rowVars_append]
      rfl
    by_cases member : x ∈ rowVars row.patterns
    · refine .inr (.inr ⟨member, vars ▸ member, fun parts a l length => ?_⟩)
      have counted : args.length = (parts a).length := by
        simp only [here, List.length_append, List.length_cons] at arity
        omega
      rw [here, rowAt?_append counted]
      rfl
    · exact .inl ⟨member, vars ▸ member, rfl⟩
  · have vars : rowVars row.patterns = y :: rowVars rest := by
      rw [here]
      rfl
    have inner : ∀ z, z ∈ rowVars ((fields.map fun f => Pattern.binding f.1) ++ rest) ↔
        z ∈ fields.map Prod.fst ∨ z ∈ rowVars rest := by
      intro z
      rw [rowVars_append, rowVars_bindings, List.mem_append]
    rw [vars] at once
    by_cases same : x = y
    · subst same
      refine .inr (.inl ⟨rest, here, fun member => ?_, ?_⟩)
      · have counted := List.count_pos_iff.mpr (((inner x).mp member).resolve_left notNew)
        rw [List.count_cons_self] at once
        omega
      · simp [Subst.image, Subst.get?_add]
    · have image : (row.subst.add y value).image x = row.subst.image x := by
        simp [Subst.image, Subst.get?_add, same]
      by_cases member : x ∈ rowVars rest
      · refine .inr (.inr ⟨vars ▸ List.mem_cons_of_mem _ member, (inner x).mpr (.inr member),
          fun parts a l length => ?_⟩)
        have counted : (fields.map fun f => Pattern.binding f.1).length = (parts a).length := by
          rw [List.length_map, length]
        have notHere : x ∉ rowVars (fields.map fun f => Pattern.binding f.1) := by
          rw [rowVars_bindings]
          exact notNew
        rw [here, rowAt?_append counted, rowAt?_none notHere]
        simp [rowAt?, at?, same]
      · refine .inl ⟨?_, fun inside => ?_, image⟩
        · rw [vars, List.mem_cons, not_or]
          exact ⟨same, member⟩
        · exact ((inner x).mp inside).elim notNew member

end Entering

end PathTheory.Matching
