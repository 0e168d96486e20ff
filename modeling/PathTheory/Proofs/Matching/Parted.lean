import PathTheory.Proofs.Matching.Explored
/-!
Clauses for the ends of the interval and the others. Where a tree is given, the clauses were parted
in two without complaint: the ones match one end each and nothing else, and their bodies stand in the
root node at their columns and ends, the first clause for an end counting; the others make a tree
over columns of their own.
-/
namespace PathTheory.Matching

variable {setting : Setting} {p q : Progress} {n m : Nat}

section Parts

/-- The column in which a row matches an end of the interval. -/
def endColumn? (intervals : List Bool) (row : Row) : Option Nat :=
  ((row.patterns.zipIdx.filter fun (p, _) => !p.isBinding).filter fun (p, j) =>
    p.constructor?.isSome && intervals[j]? == some true).head?.map (·.2)

theorem endColumn?_some {intervals : List Bool} {row : Row} {j : Nat}
    (found : endColumn? intervals row = some j) : ∃ p, row.patterns[j]? = some p ∧
      p.constructor?.isSome = true ∧ intervals[j]? = some true := by
  obtain ⟨⟨p, j'⟩, first, rfl⟩ := Option.map_eq_some_iff.mp found
  obtain ⟨member, isEnd⟩ := List.mem_filter.mp (List.mem_of_head? first)
  obtain ⟨isCon, isInterval⟩ := Bool.and_eq_true_iff.mp isEnd
  exact ⟨p, List.mk_mem_zipIdx_iff_getElem?.mp (List.mem_filter.mp member).1, isCon,
    by simpa using isInterval⟩

theorem notBinding_of_constructor {p : Pattern} (isCon : p.constructor?.isSome = true) :
    p.isBinding = false := by
  cases p <;> first | rfl | cases isCon

theorem endColumn?_isSome {intervals : List Bool} {row : Row} {j : Nat} {p : Pattern}
    (stands : row.patterns[j]? = some p) (isCon : p.constructor?.isSome = true)
    (isInterval : intervals[j]? = some true) : ∃ i, endColumn? intervals row = some i := by
  have member : (p, j) ∈ (row.patterns.zipIdx.filter fun (p, _) => !p.isBinding).filter
      fun (p, j) => p.constructor?.isSome && intervals[j]? == some true := by
    simp [List.mem_filter, List.mk_mem_zipIdx_iff_getElem?, stands, isCon, isInterval,
      notBinding_of_constructor isCon]
  obtain ⟨first, isFirst⟩ := Option.isSome_iff_exists.mp
    (List.isSome_head?.mpr (List.ne_nil_of_mem member))
  exact ⟨first.2, by rw [endColumn?, isFirst]; rfl⟩

/-- The rows that match an end, with the columns where they do. -/
def endRows (intervals : List Bool) (rows : List Row) : List EndRow :=
  rows.filterMap fun row => (endColumn? intervals row).map (EndRow.mk row)

theorem mem_endRows {intervals : List Bool} {rows : List Row} {e : EndRow} :
    e ∈ endRows intervals rows ↔ e.row ∈ rows ∧ endColumn? intervals e.row = some e.column := by
  simp only [endRows, List.mem_filterMap, Option.map_eq_some_iff]
  constructor
  · rintro ⟨row, isRow, j, column, rfl⟩
    exact ⟨isRow, column⟩
  · rintro ⟨isRow, column⟩
    exact ⟨e.row, isRow, e.column, column, rfl⟩

/-- The row matches an end of the interval in its column and nothing else. -/
structure EndRow.Alone (intervals : List Bool) (e : EndRow) : Prop where
  column : endColumn? intervals e.row = some e.column
  alone : ∀ i p, e.row.patterns[i]? = some p → p.isBinding = false → i = e.column

theorem partRows_noting {kind : Problem → Bool} (other : kind .severalIntervalPatterns = false)
    (intervals : List Bool) (rows : List Row) : Noting kind (partRows intervals rows) := by
  induction rows with
  | nil => exact .pure _
  | cons row rest ih =>
      unfold partRows
      dsimp only
      split
      · exact ih.bind fun _ => .pure _
      · split
        · exact (Noting.fail _ other).bind fun _ => ih
        · exact ih.bind fun _ => .pure _

theorem EndRow.alone_of_single {intervals : List Bool} {row : Row} {j : Nat}
    (column : endColumn? intervals row = some j)
    (single : (row.patterns.zipIdx.filter fun (p, _) => !p.isBinding).length ≤ 1) :
    EndRow.Alone intervals ⟨row, j⟩ := by
  refine ⟨column, fun i p stands notBinding => ?_⟩
  obtain ⟨p', stands', isCon, _⟩ := endColumn?_some column
  have here : ∀ {p : Pattern} {i : Nat}, row.patterns[i]? = some p → p.isBinding = false →
      (p, i) ∈ row.patterns.zipIdx.filter fun (p, _) => !p.isBinding := by
    intro p i stands notBinding
    simp [List.mem_filter, List.mk_mem_zipIdx_iff_getElem?, stands, notBinding]
  have first := here stands notBinding
  have second := here stands' (notBinding_of_constructor isCon)
  obtain ⟨only, isOnly⟩ := List.length_eq_one_iff.mp
    (Nat.le_antisymm single (List.length_pos_of_mem first))
  rw [isOnly, List.mem_singleton] at first second
  exact congrArg Prod.snd (first.trans second.symm)

/-- Where nothing is noted, the clauses with an end of the interval match nothing else. -/
theorem partRows_silent {intervals : List Bool} {rows : List Row} {parted : List EndRow × List Row}
    (done : partRows intervals rows setting p n = .ok ((parted, q), m))
    (silent : q.diagnostics = p.diagnostics) : q = p ∧ m = n ∧
      parted.1 = endRows intervals rows ∧
      parted.2 = (rows.filter fun row => (endColumn? intervals row).isNone) ∧
      ∀ e ∈ endRows intervals rows, e.Alone intervals := by
  induction rows generalizing parted p q n m with
  | nil =>
      cases compile_pure done
      exact ⟨rfl, rfl, rfl, rfl, List.forall_mem_nil _⟩
  | cons row rest ih =>
      unfold partRows at done
      dsimp only at done
      cases isEnds : (row.patterns.zipIdx.filter fun (p, _) => !p.isBinding).filter fun (p, j) =>
          p.constructor?.isSome && intervals[j]? == some true with
      | nil =>
        rw [isEnds] at done
        obtain ⟨⟨ends, others⟩, _, _, later, final⟩ := compile_bind done
        cases compile_pure final
        obtain ⟨rfl, rfl, rfl, rfl, alone⟩ := ih later silent
        have none : endColumn? intervals row = none := by
          rw [endColumn?, isEnds]
          rfl
        have same : endRows intervals (row :: rest) = endRows intervals rest := by
          simp [endRows, none]
        rw [same]
        exact ⟨rfl, rfl, rfl, by simp [none], alone⟩
      | cons entry _ =>
        have some : endColumn? intervals row = some entry.2 := by
          rw [endColumn?, isEnds]
          rfl
        rw [isEnds] at done
        dsimp only at done
        split at done
        · -- a complaint stays
          obtain ⟨_, _, _, told, later⟩ := compile_bind done
          cases told
          obtain ⟨noted, same, _⟩ : Progress.Onward Problem.ofCoverage _ q :=
            partRows_noting rfl _ _ _ _ _ _ _ _ later
          simp [same] at silent
        · rename_i single
          obtain ⟨⟨ends, others⟩, _, _, later, final⟩ := compile_bind done
          cases compile_pure final
          obtain ⟨rfl, rfl, rfl, rfl, alone⟩ := ih later silent
          have added : endRows intervals (row :: rest) = ⟨row, entry.2⟩ :: endRows intervals rest := by
            simp [endRows, some]
          rw [added]
          refine ⟨rfl, rfl, rfl, by simp [some], List.forall_mem_cons.mpr ⟨?_, alone⟩⟩
          exact EndRow.alone_of_single some (Nat.not_lt.mp single)

end Parts

section Ends

/-- The end that a clause is for. -/
def EndRow.side? (env : Environment) (e : EndRow) : Option Endpoint :=
  e.row.patterns[e.column]? >>= Pattern.constructor? >>= env.endpoint?

def endAt? (ends : List (Ends Term)) (i : Nat) (side : Endpoint) : Option Term :=
  ends[i]? >>= (Ends.at? · side)

/-- The body of the row, over the variables of the columns. -/
def Renamed (env : Environment) (columns : List Column) (low : Nat) (e : EndRow) (result : Term) :
    Prop :=
  ∃ body n m, e.row.clause.body = some body ∧ low ≤ n ∧
    (renameRow e.row.patterns columns).apply env body n = .ok (result, m)

/-- What stands at an end before and after the first row for it is put there. -/
inductive Settles (puts : EndRow → Term → Prop) : Option Term → Option EndRow → Option Term → Prop
  | kept {body : Term} {e : Option EndRow} : Settles puts (some body) e (some body)
  | placed {body : Term} {e : EndRow} : puts e body → Settles puts none (some e) (some body)
  | empty : Settles puts none none none

theorem Settles.weaken {puts more : EndRow → Term → Prop} {before after : Option Term}
    {e : Option EndRow} (settles : Settles puts before e after)
    (each : ∀ e body, puts e body → more e body) : Settles more before e after := by
  cases settles with
  | kept => exact .kept
  | placed put => exact .placed (each _ _ put)
  | empty => exact .empty

theorem Settles.of_some {puts : EndRow → Term → Prop} {e : Option EndRow} {body : Term}
    (settles : Settles puts none e (some body)) : ∃ e', e = some e' ∧ puts e' body := by
  cases settles with
  | placed put => exact ⟨_, rfl, put⟩

theorem Settles.of_row {puts : EndRow → Term → Prop} {e : EndRow} {after : Option Term}
    (settles : Settles puts none (some e) after) : ∃ body, after = some body ∧ puts e body := by
  cases settles with
  | placed put => exact ⟨_, rfl, put⟩

/-- A row changes nothing where it is for another end, or where something stands already. -/
theorem Settles.skip {puts : EndRow → Term → Prop} {before after : Option Term}
    {rows : List EndRow} {f : EndRow → Bool} {e : EndRow}
    (idle : f e = true → before.isSome = true) (settles : Settles puts before (rows.find? f) after) :
    Settles puts before ((e :: rows).find? f) after := by
  cases isFor : f e with
  | false => rwa [List.find?_cons, isFor]
  | true =>
      obtain ⟨body, here⟩ := Option.isSome_iff_exists.mp (idle isFor)
      rw [here] at settles ⊢
      cases settles
      exact .kept

theorem Ends.notEmpty_of_at? {e : Ends Term} {side : Endpoint} {body : Term}
    (stands : e.at? side = some body) : e.isEmpty = false := by
  cases side <;> simp_all [Ends.isEmpty, Ends.at?]

theorem Ends.at?_of_notEmpty {e : Ends Term} (notEmpty : e.isEmpty = false) :
    ∃ side body, e.at? side = some body := by
  obtain ⟨left, right⟩ := e
  cases left with
  | some body => exact ⟨.left, body, rfl⟩
  | none =>
      cases right with
      | some body => exact ⟨.right, body, rfl⟩
      | none => cases notEmpty

theorem put_at? (here : Ends Term) (side other : Endpoint) (body : Term) :
    (Ends.put here side body).at? other = if side = other then some body else here.at? other := by
  cases side <;> cases other <;> rfl

theorem endAt?_set {ends : List (Ends Term)} {here : Ends Term} {j : Nat}
    (stands : ends[j]? = some here) (i : Nat) (side other : Endpoint) (body : Term) :
    endAt? (ends.set j (Ends.put here side body)) i other =
      if j = i ∧ side = other then some body else endAt? ends i other := by
  unfold endAt?
  by_cases same : j = i
  · subst same
    have inRange := (List.getElem?_eq_some_iff.mp stands).1
    rw [List.getElem?_set_self inRange, stands]
    simp [put_at?]
  · simp [List.getElem?_set_ne same, same]

/-- The row is for that end, in the column of that number from the first one on. -/
def EndRow.isFor (env : Environment) (first i : Nat) (side : Endpoint) (e : EndRow) : Bool :=
  e.column - first == i && e.side? env == some side

theorem EndRow.isFor_iff {env : Environment} {first i : Nat} {side : Endpoint} {e : EndRow} :
    e.isFor env first i side = true ↔ e.column - first = i ∧ e.side? env = some side := by
  simp [isFor]

/-- What a row puts at its end settles that end, and no other one. -/
theorem Settles.put {puts : EndRow → Term → Prop} {env : Environment} {first i : Nat}
    {ends : List (Ends Term)} {here : Ends Term} {e : EndRow} {rest : List EndRow}
    {side other : Endpoint} {body : Term} {after : Option Term} (isSide : e.side? env = some side)
    (stands : ends[e.column - first]? = some here) (free : here.at? side = none) (put : puts e body)
    (settles : Settles puts (endAt? (ends.set (e.column - first) (Ends.put here side body)) i other)
      (rest.find? (EndRow.isFor env first i other)) after) :
    Settles puts (endAt? ends i other) ((e :: rest).find? (EndRow.isFor env first i other)) after := by
  rw [endAt?_set stands] at settles
  by_cases meets : e.column - first = i ∧ side = other
  · obtain ⟨rfl, rfl⟩ := meets
    have isFor : e.isFor env first (e.column - first) side = true :=
      EndRow.isFor_iff.mpr ⟨rfl, isSide⟩
    have before : endAt? ends (e.column - first) side = none := by
      simpa [endAt?, stands] using free
    rw [if_pos ⟨rfl, rfl⟩] at settles
    rw [List.find?_cons, isFor, before]
    cases settles
    exact .placed put
  · rw [if_neg meets] at settles
    refine settles.skip fun isFor => absurd ?_ meets
    obtain ⟨rfl, same⟩ := EndRow.isFor_iff.mp isFor
    cases isSide.symm.trans same
    exact ⟨rfl, rfl⟩

theorem Renamed.earlier {env : Environment} {columns : List Column} {low later : Nat} {e : EndRow}
    {result : Term} (order : low ≤ later) (renamed : Renamed env columns later e result) :
    Renamed env columns low e result := by
  obtain ⟨body, n, m, isBody, after, applied⟩ := renamed
  exact ⟨body, n, m, isBody, order.trans after, applied⟩

theorem fillEnds_noting {kind : Problem → Bool} (other : kind .clauseWithoutBody = false)
    (columns : List Column) (first : Nat) (rows : List EndRow) (ends : List (Ends Term)) :
    Noting kind (fillEnds columns first rows ends) := by
  induction rows generalizing ends with
  | nil => exact .pure _
  | cons e rest ih =>
      unfold fillEnds
      refine .bind .read fun setting => ?_
      dsimp only
      split
      · split
        · exact ih _
        · split
          · exact (Noting.fail _ other).bind fun _ => ih _
          · exact .bind (.reading _) fun _ => .bind (.modify fun _ => rfl) fun _ => ih _
      · exact ih _

theorem renameRow_fold_simple {s : Subst} (simple : s.Simple) (l : List (Pattern × Column)) :
    (l.foldl (fun s (pattern, column) => match pattern with
      | .binding x => s.add x (.ref column.1)
      | _ => s) s).Simple := by
  induction l generalizing s with
  | nil => exact simple
  | cons entry l ih =>
      obtain ⟨p, column⟩ := entry
      cases p with
      | binding x => exact ih (simple.add x _)
      | _ => exact ih simple

theorem renameRow_simple (row : List Pattern) (columns : List Column) :
    (renameRow row columns).Simple := renameRow_fold_simple ⟨rfl, rfl⟩ _

/-- Where nothing is noted, every end gets the body of the first row for it. -/
theorem fillEnds_settles {columns : List Column} {first : Nat} {rows : List EndRow}
    {ends filled : List (Ends Term)}
    (done : fillEnds columns first rows ends setting p n = .ok ((filled, q), m))
    (silent : q.diagnostics = p.diagnostics) : n ≤ m ∧ filled.length = ends.length ∧
      ∀ i < ends.length, ∀ side, Settles (Renamed setting.env columns n) (endAt? ends i side)
        (rows.find? (EndRow.isFor setting.env first i side)) (endAt? filled i side) := by
  induction rows generalizing ends p n with
  | nil =>
      cases compile_pure done
      refine ⟨Nat.le_refl _, rfl, fun i _ side => ?_⟩
      cases endAt? filled i side with
      | none => exact .empty
      | some body => exact .kept
  | cons e rest ih =>
      obtain ⟨row, j⟩ := e
      unfold fillEnds at done
      obtain ⟨_, _, _, ask, done⟩ := compile_bind done
      cases ask
      dsimp only at done
      cases isSide : EndRow.side? setting.env ⟨row, j⟩ with
      | none =>
          have noSide : row.patterns[j]? >>= Pattern.constructor? >>= setting.env.endpoint? = none :=
            isSide
          rw [noSide] at done
          obtain ⟨order, length, settles⟩ := ih done silent
          refine ⟨order, length, fun i inRange other => (settles i inRange other).skip fun isFor => ?_⟩
          cases isSide.symm.trans (EndRow.isFor_iff.mp isFor).2
      | some side =>
          have hasSide : row.patterns[j]? >>= Pattern.constructor? >>= setting.env.endpoint? =
            some side := isSide
          rw [hasSide] at done
          cases stands : ends[j - first]? with
          | none =>
              rw [stands] at done
              obtain ⟨order, length, settles⟩ := ih done silent
              refine ⟨order, length, fun i inRange other =>
                (settles i inRange other).skip fun isFor => ?_⟩
              obtain ⟨rfl, _⟩ := EndRow.isFor_iff.mp isFor
              exact absurd inRange (Nat.not_lt.mpr (List.getElem?_eq_none_iff.mp stands))
          | some here =>
              rw [stands] at done
              dsimp only at done
              split at done
              · rename_i taken
                obtain ⟨order, length, settles⟩ := ih done silent
                refine ⟨order, length, fun i inRange other =>
                  (settles i inRange other).skip fun isFor => ?_⟩
                obtain ⟨rfl, same⟩ := EndRow.isFor_iff.mp isFor
                cases isSide.symm.trans same
                simpa [endAt?, stands] using taken
              · rename_i free
                cases isBody : row.clause.body with
                | none =>
                    rw [isBody] at done
                    obtain ⟨_, _, _, told, later⟩ := compile_bind done
                    cases told
                    obtain ⟨noted, same, _⟩ : Progress.Onward Problem.ofCoverage _ q :=
                      fillEnds_noting rfl _ _ _ _ _ _ _ _ _ _ later
                    simp [same] at silent
                | some body =>
                    rw [isBody] at done
                    obtain ⟨result, _, k, applied, done⟩ := compile_bind done
                    obtain ⟨_, _, renamed, same⟩ := compile_reading applied
                    cases same
                    obtain ⟨_, _, _, mark, later⟩ := compile_bind done
                    cases mark
                    have order := Subst.apply_order (renameRow_simple _ _).still renamed
                    obtain ⟨next, length, settles⟩ := ih later silent
                    rw [List.length_set] at length settles
                    refine ⟨order.trans next, length, fun i inRange other => ?_⟩
                    exact Settles.put (e := ⟨row, j⟩) isSide stands (by simpa using free)
                      ⟨body, _, _, isBody, Nat.le_refl n, renamed⟩
                      ((settles i inRange other).weaken fun _ _ => Renamed.earlier order)

end Ends

section Root

variable {env : Environment}

theorem length_dropWhile {α : Type} (f : α → Bool) (l : List α) :
    l.length - (l.dropWhile f).length = (l.takeWhile f).length := by
  have whole := congrArg List.length (@List.takeWhile_append_dropWhile α f l)
  rw [List.length_append] at whole
  omega

theorem getElem?_dropWhile {α : Type} (f : α → Bool) (l : List α) (i : Nat) :
    (l.dropWhile f)[i]? = l[l.length - (l.dropWhile f).length + i]? := by
  have whole : l[(l.takeWhile f).length + i]? =
      (l.takeWhile f ++ l.dropWhile f)[(l.takeWhile f).length + i]? := by
    rw [List.takeWhile_append_dropWhile]
  rw [length_dropWhile, whole, List.getElem?_append_right (Nat.le_add_right _ _),
    Nat.add_sub_cancel_left]


theorem forM_noting {α : Type} {kind : Problem → Bool} {f : α → Compile Unit}
    (noting : ∀ x, Noting kind (f x)) (l : List α) : Noting kind (l.forM f) := by
  induction l with
  | nil => exact .pure _
  | cons x l ih => exact (noting x).bind fun _ => ih

theorem refuseAfter_noting {kind : Problem → Bool}
    (other : ∀ pattern, kind (.dataAfterInterval pattern) = false) (first : Nat) (rows : List Row) :
    Noting kind (refuseAfter first rows) := by
  refine forM_noting (fun row => ?_) rows
  split
  · exact .fail _ (other _)
  · exact .pure _

theorem refuseAfter_still (first : Nat) (rows : List Row) : Still (refuseAfter first rows) := by
  refine Still.forM (fun row => ?_) rows
  split
  · exact .modify _
  · exact .pure _

theorem recordMissing_noting {kind : Problem → Bool} (row : List Pattern) :
    Noting kind (recordMissing row) := by
  refine .bind .read fun setting => .modify fun p => ?_
  split <;> rfl

theorem forIn_noting {α : Type} {kind : Problem → Bool} {f : α → PUnit → Compile (ForInStep PUnit)}
    (noting : ∀ x u, Noting kind (f x u)) (l : List α) (u : PUnit) : Noting kind (forIn l u f) := by
  induction l with
  | nil => exact .pure _
  | cons x l ih =>
      rw [List.forIn_cons]
      refine (noting x u).bind fun step => ?_
      cases step with
      | done _ => exact .pure _
      | yield _ => exact ih

theorem missingEnds_noting {kind : Problem → Bool} (columns : List Column) (j : Nat)
    (ends : List (Ends Term)) : Noting kind (missingEnds columns j ends) := by
  induction ends generalizing j with
  | nil => exact .pure _
  | cons e rest ih =>
      unfold missingEnds
      dsimp only
      split
      · refine .bind .read fun setting => ?_
        split
        · refine .bind (.reading _) fun type => ?_
          split
          · refine (forIn_noting (fun entry _ => ?_) _ _).bind fun _ => ih _
            split
            · exact (recordMissing_noting _).bind fun _ => .pure _
            · exact .pure _
          · exact ih _
        · exact ih _
      · exact ih _

/-- The ends of the root node, from the first column with a clause for one on. -/
structure Filled (env : Environment) (columns : List Column) (intervals : List Bool)
    (rows : List Row) (low first : Nat) (ends : List (Ends Term)) : Prop where
  alone : ∀ e ∈ endRows intervals rows, e.Alone intervals
  least : ((endRows intervals rows).map EndRow.column).min? = some first
  length : ends.length = columns.length - first
  settles : ∀ i < ends.length, ∀ side, Settles (Renamed env columns low) none
    ((endRows intervals rows).find? (EndRow.isFor env first i side)) (endAt? ends i side)

theorem endAt?_replicate (k i : Nat) (side : Endpoint) :
    endAt? (List.replicate k ⟨none, none⟩) i side = none := by
  unfold endAt?
  cases here : (List.replicate k (⟨none, none⟩ : Ends Term))[i]? with
  | none => rfl
  | some e =>
      obtain rfl := List.eq_of_mem_replicate (List.mem_of_getElem? here)
      cases side <;> rfl

/-- The root node stands if nothing was found wrong. -/
theorem root_some {columns : List Column} {ends : List (Ends Term)} {rest : Option CaseTree}
    {tree : CaseTree} (done : (do
      if (← failed) || !(← get).missing.isEmpty then return none
      return some (.interval (Telescope.ofPairs columns) (ends.dropWhile Ends.isEmpty) rest) :
        Compile (Option CaseTree)) setting p n = .ok ((some tree, q), m)) :
    tree = .interval (Telescope.ofPairs columns) (ends.dropWhile Ends.isEmpty) rest ∧ q = p ∧ m = n ∧
      p.diagnostics = [] := by
  obtain ⟨isFailed, _, _, ask, gated⟩ := compile_bind done
  obtain ⟨progress, _, _, asked, given⟩ := compile_bind gated
  cases asked
  cases isFailed with
  | true => cases compile_pure given
  | false =>
      obtain ⟨rfl, rfl, silent⟩ := failed_false ask
      split at given
      · cases compile_pure given
      · cases compile_pure given
        exact ⟨rfl, rfl, rfl, silent⟩

/-- The tree of clauses some of which match an end: those at the root, the others below it. -/
theorem buildInterval_some {columns : List Column} {intervals : List Bool} {rows : List Row}
    {tree : CaseTree}
    (done : buildInterval columns intervals rows setting p n = .ok ((some tree, q), m))
    (start : p.diagnostics = []) : ∃ first ends rest k,
      Filled setting.env columns intervals rows n first ends ∧ n ≤ k ∧
      tree = .interval (Telescope.ofPairs columns) (ends.dropWhile Ends.isEmpty) rest ∧
      ∀ t ∈ rest, ∃ fresh l p', freshen setting.env .empty columns k = .ok (fresh, l) ∧
        buildRows fresh (rows.filter fun row => (endColumn? intervals row).isNone) setting p' l =
          .ok ((some t, q), m) := by
  unfold buildInterval at done
  obtain ⟨⟨ends, others⟩, p₁, i, parted, matched⟩ := compile_bind done
  dsimp only at matched
  cases least : (ends.map EndRow.column).min? with
  | none =>
      rw [least] at matched
      cases compile_pure matched
  | some first =>
      rw [least] at matched
      obtain ⟨_, p₂, j, refused, gated⟩ := compile_bind matched
      obtain ⟨isFailed, p₃, _, ask, going⟩ := compile_bind gated
      cases isFailed with
      | true => cases compile_pure going
      | false =>
          obtain ⟨rfl, rfl, silent⟩ := failed_false ask
          have before : p.Onward Problem.ofCoverage p₁ := partRows_noting rfl _ _ _ _ _ _ _ _ parted
          obtain ⟨same, _⟩ := before.silent
            (refuseAfter_noting (fun _ => rfl) _ _ _ _ _ _ _ _ refused) (silent.trans start.symm)
          obtain ⟨_, order, isEnds, isOthers, alone⟩ := partRows_silent parted same
          have still := refuseAfter_still _ _ _ _ _ _ refused
          dsimp only at isEnds isOthers still
          rw [if_neg Bool.false_ne_true] at going
          obtain ⟨filled, p₄, k, filling, left⟩ := compile_bind going
          -- however the others go on, what was filled in was filled in in silence
          have rooted : ∀ {q : Progress}, p₄.Onward Problem.ofCoverage q → q.diagnostics = [] →
              Filled setting.env columns intervals rows n first filled ∧ n ≤ k := by
            intro q onward quiet
            have filledSilent := ((fillEnds_noting rfl _ _ _ _ _ _ _ _ _ _ filling).silent onward
              (quiet.trans silent.symm)).1
            obtain ⟨later, length, settles⟩ := fillEnds_settles filling filledSilent
            rw [still, order, isEnds] at settles
            rw [List.length_replicate] at length settles
            simp only [endAt?_replicate] at settles
            refine ⟨⟨alone, isEnds ▸ least, length, length ▸ settles⟩, ?_⟩
            omega
          split at left
          · split at left
            · obtain ⟨_, _, _, listed, pured⟩ := compile_bind left
              obtain ⟨_, _, _, none, last⟩ := compile_bind pured
              cases compile_pure none
              obtain ⟨isTree, _, _, quiet⟩ := root_some last
              obtain ⟨here, later⟩ := rooted (missingEnds_noting _ _ _ _ _ _ _ _ _ listed) quiet
              exact ⟨first, filled, .none, k, here, later, isTree, nofun⟩
            · obtain ⟨_, _, _, none, last⟩ := compile_bind left
              cases compile_pure none
              obtain ⟨isTree, _, _, quiet⟩ := root_some last
              obtain ⟨here, later⟩ := rooted (.same rfl) quiet
              exact ⟨first, filled, .none, k, here, later, isTree, nofun⟩
          · obtain ⟨fresh, _, _, copied, built⟩ := compile_bind left
            obtain ⟨_, _, freshened, same⟩ := compile_reading copied
            cases same
            obtain ⟨rest, p₅, _, rows, last⟩ := compile_bind built
            obtain ⟨isTree, rfl, rfl, quiet⟩ := root_some last
            obtain ⟨here, later⟩ := rooted (build_noting _ _ _ _ _ _ _ _ _ _ rows) quiet
            refine ⟨first, filled, rest, k, here, later, isTree, ?_⟩
            rintro t ⟨⟩
            exact ⟨fresh, _, p₄, freshened, isOthers ▸ rows⟩

theorem Filled.first_le {columns : List Column} {intervals : List Bool} {rows : List Row}
    {first : Nat} {ends : List (Ends Term)} (filled : Filled env columns intervals rows n first ends) {e : EndRow}
    (member : e ∈ endRows intervals rows) : first ≤ e.column :=
  (List.min?_eq_some_iff.mp filled.least).2 _ (List.mem_map_of_mem member)

/-- What stands at an end of the root node comes from a row for that end in that column. -/
theorem Filled.source {columns : List Column} {intervals : List Bool} {rows : List Row}
    {first j : Nat} {ends : List (Ends Term)} (filled : Filled env columns intervals rows n first ends)
    {e : Ends Term} {side : Endpoint} {body : Term} (here : ends[j]? = some e)
    (stands : e.at? side = some body) :
    ∃ r ∈ endRows intervals rows, r.column = first + j ∧ r.side? env = some side := by
  have inRange := (List.getElem?_eq_some_iff.mp here).1
  have settles := filled.settles j inRange side
  have isBody : endAt? ends j side = some body := by
    rw [endAt?, here]
    exact stands
  rw [isBody] at settles
  obtain ⟨r, found, _⟩ := settles.of_some
  have member := List.mem_of_find?_eq_some found
  obtain ⟨column, isSide⟩ := EndRow.isFor_iff.mp (List.find?_some found)
  have first_le := filled.first_le member
  exact ⟨r, member, by omega, isSide⟩

/-- Where clauses are compiled to a tree, they are as long as the telescope, and nothing is noted
    until the tree is there. -/
theorem compile_tree {span : Span} {params : Telescope} {clauses : List Clause} {outcome : Outcome}
    {tree : CaseTree} (done : compile setting span params clauses n = .ok (outcome, m))
    (given : outcome.tree = some tree) :
    (∀ c ∈ clauses, c.patterns.length = params.length) ∧ ∃ p q, p.diagnostics = [] ∧
      clausesTree params clauses setting p n = .ok ((some tree, q), m) := by
  obtain ⟨⟨found, q⟩, _, ran, final⟩ := fresh_bind done
  cases fresh_pure final
  cases given
  unfold compileClauses at ran
  obtain ⟨_, p₁, _, arity, gated⟩ := compile_bind ran
  obtain ⟨isFailed, _, _, ask, rest⟩ := compile_bind gated
  cases isFailed with
  | true => cases compile_pure rest
  | false =>
      obtain ⟨rfl, rfl, silent⟩ := failed_false ask
      obtain ⟨_, rfl, width⟩ := checkArity_silent clauses arity silent
      rw [if_neg Bool.false_ne_true] at rest
      obtain ⟨found, q₁, l, treed, next⟩ := compile_bind rest
      obtain ⟨_, _, _, ask, last⟩ := compile_bind next
      cases ask
      have isTree : found = some tree ∧ m = l := by
        dsimp only at last
        split at last
        · obtain ⟨_, _, _, reported, final⟩ := compile_bind last
          cases reported
          exact unlessFailed_some final
        · exact unlessFailed_some last
      obtain ⟨rfl, rfl⟩ := isTree
      exact ⟨width, _, q₁, silent, treed⟩

/-- Either no clause matches an end, and the rows are split over the columns of the parameters, or the
    clauses are those of a function that may match ends, and these are looked at first. -/
theorem clausesTree_some {params : Telescope} {clauses : List Clause} {tree : CaseTree}
    (done : clausesTree params clauses setting p n = .ok ((some tree, q), m)) : ∃ intervals k,
      (columnsOf params).mapM (fun c => isInterval c.2) setting p n = .ok ((intervals, p), k) ∧
      (intervalPattern? intervals clauses = none ∧
          buildRows (columnsOf params) (numbered clauses) setting p k = .ok ((some tree, q), m) ∨
        (setting.inCase = false ∧ setting.config.allowInterval = true) ∧
          buildInterval (columnsOf params) intervals (numbered clauses) setting p k =
            .ok ((some tree, q), m)) := by
  unfold clausesTree at done
  obtain ⟨_, _, _, ask, next⟩ := compile_bind done
  cases ask
  obtain ⟨intervals, _, k, asked, matched⟩ := compile_bind next
  obtain rfl := isIntervals_run asked
  refine ⟨intervals, k, asked, ?_⟩
  cases found : intervalPattern? intervals clauses with
  | none =>
      rw [found] at matched
      exact .inl ⟨rfl, matched⟩
  | some entry =>
      rw [found] at matched
      dsimp only at matched
      split at matched
      · obtain ⟨_, _, _, _, final⟩ := compile_bind matched
        cases compile_pure final
      · rename_i allowed
        simp only [Bool.or_eq_true, Bool.not_eq_true', not_or, Bool.not_eq_true,
          Bool.not_eq_false] at allowed
        exact .inr ⟨allowed, matched⟩

end Root

end PathTheory.Matching
