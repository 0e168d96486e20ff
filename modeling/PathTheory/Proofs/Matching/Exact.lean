import PathTheory.Proofs.Matching.Reported
import PathTheory.Proofs.Matching.Seen
/-!
What is said of coverage is right. The examples of missing clauses that are listed have no values in
common with the clauses, and whatever matches no clause matches an example, unless some are left out.
A clause that is said to be redundant is never the first one to match.
-/
namespace PathTheory.Matching

open Pattern

variable {n m k : Nat} {args : List Term} {used : List Nat} {examples : List (List Pattern)}

section Clauses

variable {setting : Setting} {span : Span} {params : Telescope} {clauses : List Clause}
  {outcome : Outcome}

theorem numbered_width (width : ∀ c ∈ clauses, c.patterns.length = params.length) :
    ∀ row ∈ numbered clauses, row.patterns.length = (columnsOf params).length := by
  intro row isRow
  obtain ⟨clause, isClause, _, patterns, _⟩ := mem_numbered isRow
  rw [patterns, width clause isClause, columnsOf_length]

/-- What has been seen of the clauses for values of the parameter types. -/
theorem Surveyed.seen (surveyed : Surveyed setting span params clauses n outcome used examples k m)
    (known : setting.env.Within (fun _ => True) n) (old : Telescope.Below n params)
    (proper : Telescope.Proper params)
    (values : fieldsFit Nameless.Alike setting.env args params id .free)
    (spare : ∀ clause ∈ clauses, RowSpares setting.env clause.patterns args) :
    Seen (numbered clauses) args used (Exemplified examples args) := by
  obtain ⟨σ, _, aligned⟩ := params_aligned proper values
  have node := root_node (known.mono surveyed.order) (old.mono surveyed.order) (fun _ _ => trivial)
    surveyed.width aligned
  refine surveyed.explored.seen .alike node fun row member => ?_
  obtain ⟨clause, isClause, _, patterns, _⟩ := mem_numbered member
  rw [patterns]
  exact spare clause isClause

theorem numbered_mem {clause : Clause} (isClause : clause ∈ clauses) :
    ∃ row ∈ numbered clauses, row.patterns = clause.patterns := by
  obtain ⟨i, here⟩ := List.mem_iff_getElem?.mp isClause
  have listed : (clause, i) ∈ clauses.zipIdx := List.mk_mem_zipIdx_iff_getElem?.mpr here
  exact ⟨_, List.mem_map_of_mem listed, rfl⟩

theorem isWarning_of_other {d : Diagnostic} (other : d.problem.ofCoverage = false) :
    d.isWarning = false := by
  obtain ⟨at', problem⟩ := d
  cases problem <;> first | rfl | cases other

theorem redundant_isWarning {d : Diagnostic} {l : List (Clause × Nat)}
    (noted : d ∈ redundant used l) : d.isWarning = true := by
  obtain ⟨_, _, rfl⟩ := List.mem_map.mp noted
  rfl

/-- The report of missing clauses is the only one that is not a warning. -/
theorem Surveyed.missing {at' : Span} {texts : List String} {truncated : Bool}
    (surveyed : Surveyed setting span params clauses n outcome used examples k m)
    (only : outcome.diagnostics.filter (!·.isWarning) = [⟨at', .missingClauses texts truncated⟩]) :
    texts = (examples.take setting.config.missingLimit).map rowText ∧
      truncated = decide (setting.config.missingLimit < examples.length) := by
  have warnings : List.filter (!·.isWarning) (if outcome.tree.isSome && setting.config.reportRedundant
      then redundant used clauses.zipIdx else []) = [] := by
    rw [List.filter_eq_nil_iff]
    intro d noted
    split at noted
    · simp [redundant_isWarning noted]
    · cases noted
  rw [surveyed.diagnostics, List.filter_append, warnings, List.append_nil, missingReport] at only
  split at only
  · cases only
  · cases only
    exact ⟨rfl, rfl⟩

/-- **Missing clauses.** If the clauses match no end of the interval and nothing is wrong but that
    clauses are missing, then the examples that are listed are made of variables, constructors and
    tuples, and have no values in common with any clause; and unless some are left out, every list of
    constructor values of the parameter types that meets no truncated data where a pattern is not a
    variable is matched by some clause or by some example. -/
theorem compile_missing_exact {at' : Span} {texts : List String} {truncated : Bool}
    (known : setting.env.Within (fun _ => True) n) (old : Telescope.Below n params)
    (proper : Telescope.Proper params)
    (noInterval : NoIntervalPattern setting.env params clauses)
    (done : compile setting span params clauses n = .ok (outcome, m))
    (only : outcome.diagnostics.filter (!·.isWarning) = [⟨at', .missingClauses texts truncated⟩]) :
    ∃ examples : List (List Pattern), texts = examples.map rowText ∧
      (∀ e ∈ examples, e.length = params.length ∧ RowComplete setting.env e ∧
        ∀ args, rowFits e args = true → ∀ clause ∈ clauses, rowFits clause.patterns args = false) ∧
      (truncated = false → ∀ args, fieldsFit Nameless.Alike setting.env args params id .free →
        (∀ clause ∈ clauses, RowSpares setting.env clause.patterns args) →
        (∃ clause ∈ clauses, rowFits clause.patterns args = true) ∨
          ∃ e ∈ examples, rowFits e args = true) := by
  rcases compile_surveyed known (fun b isParam => ⟨(old b isParam).2, fun _ _ => trivial⟩)
    noInterval done with ⟨d, noted, other⟩ | ⟨used, examples, k, surveyed⟩
  · -- nothing else is wrong
    have isMissing : d ∈ outcome.diagnostics.filter (!·.isWarning) := by
      refine List.mem_filter.mpr ⟨noted, ?_⟩
      rw [isWarning_of_other other]
      rfl
    rw [only] at isMissing
    cases List.mem_singleton.mp isMissing
    cases other
  · obtain ⟨rfl, rfl⟩ := surveyed.missing only
    refine ⟨examples.take setting.config.missingLimit, rfl, fun e listed => ?_, ?_⟩
    · have isExample := List.mem_of_mem_take listed
      obtain ⟨length, apart⟩ := surveyed.explored.apart (numbered_width surveyed.width) e isExample
      rw [columnsOf_length] at length
      refine ⟨length, surveyed.explored.complete (numbered_width surveyed.width) e isExample, ?_⟩
      intro args fits clause isClause
      obtain ⟨row, isRow, patterns⟩ := numbered_mem isClause
      exact patterns ▸ apart args fits row isRow
    · intro all args values spare
      have few : examples.length ≤ setting.config.missingLimit := by simpa using all
      rw [List.take_of_length_le few]
      have seen := surveyed.seen known old proper values spare
      cases found : (numbered clauses).find? fun row => rowFits row.patterns args with
      | none => exact .inr (seen.left found)
      | some row =>
          obtain ⟨clause, isClause, _, patterns, _⟩ :=
            mem_numbered (List.mem_of_find?_eq_some found)
          have fits := List.find?_some found
          exact .inl ⟨clause, isClause, patterns ▸ fits⟩

open Library

/-- A clause for two and above. -/
def twoOrMore : List Clause :=
  [⟨.none, [.ofCon suc [.ofCon suc [.binding ⟨30, "n"⟩]]], some (.ref ⟨30, "n"⟩)⟩]

theorem counted_proper : Telescope.Proper counted := by
  simp [counted, Telescope.ofPairs, Telescope.Proper, natType, Term.freeVars, termsFree]

theorem counted_values (k : Nat) :
    fieldsFit Nameless.Alike plainSetting.env [numeral k] counted id .free :=
  ⟨numeral_inhabits .alike (fun _ _ => id) (library_hasNat 100) k, trivial⟩

/-- No data of the library is truncated, so it does not matter what stands against what. -/
theorem library_untruncatedValue (v : Term) : Untruncated (environment 100) v :=
  fun _ _ _ _ _ known _ => library_untruncated known

mutual

theorem library_spares : ∀ (p : Pattern) (v : Term), Spares (environment 100) p v
  | .binding _, _ => trivial
  | .absurd, v => library_untruncatedValue v
  | .shaped _ args, v => ⟨library_untruncatedValue v, fun components _ => library_rowSpares args components⟩

theorem library_rowSpares : ∀ (row : List Pattern) (values : List Term),
    RowSpares (environment 100) row values
  | [], _ => trivial
  | _ :: _, [] => trivial
  | p :: row, v :: values => ⟨library_spares p v, library_rowSpares row values⟩

end

/-- Zero and one are missing. -/
theorem twoOrMore_missing : ∃ outcome m, compile plainSetting .none counted twoOrMore 32 =
      .ok (outcome, m) ∧
    outcome.diagnostics = [⟨.none, .missingClauses ["zero", "suc zero"] false⟩] ∧
    ∃ examples : List (List Pattern), ["zero", "suc zero"] = examples.map rowText ∧
      (∀ e ∈ examples, ∀ args, rowFits e args = true →
        ∀ clause ∈ twoOrMore, rowFits clause.patterns args = false) ∧
      ∃ e ∈ examples, rowFits e [numeral 1] = true := by
  have run : ∃ outcome m, compile plainSetting .none counted twoOrMore 32 = .ok (outcome, m) ∧
      outcome.diagnostics = [⟨.none, .missingClauses ["zero", "suc zero"] false⟩] :=
    ⟨_, _, rfl, rfl⟩
  obtain ⟨outcome, m, done, noted⟩ := run
  have known : plainSetting.env.Within (fun _ => True) 32 :=
    ((library_within 100).mono (by decide)).widen fun _ _ => trivial
  obtain ⟨examples, texts, apart, covers⟩ := compile_missing_exact known (by decide) counted_proper
    (counted_plain _) done (by rw [noted]; rfl)
  refine ⟨outcome, m, done, noted, examples, texts, fun e listed => (apart e listed).2.2, ?_⟩
  refine (covers rfl [numeral 1] (counted_values 1) fun _ _ => library_rowSpares _ _).resolve_left ?_
  decide

/-- A clause for the first constructor of the type that the parameter has as it stands. -/
def bentTrue : Clause := ⟨.none, [.binding ⟨34, "i"⟩, .ofCon trueCon []], some (numeral 1)⟩

/-- The rest of that type. -/
def bentOther : List Pattern := [.binding ⟨32, "i"⟩, .ofCon falseCon []]

theorem bent_plain {clauses : List Clause}
    (free : ∀ clause ∈ clauses, ∃ x p, clause.patterns = [.binding x, p]) :
    NoIntervalPattern bentEnvironment bentParams clauses := by
  have reduces : ∀ n, (bentType (.ref ⟨32, "i"⟩)).whnf bentEnvironment n = .ok (boolType, n) :=
    fun _ => rfl
  intro clause isClause entry member isCon
  obtain ⟨x, p, patterns⟩ := free clause isClause
  rw [patterns] at member
  simp only [bentParams, Telescope.ofPairs, List.map, List.zip_cons_cons, List.zip_nil_left,
    List.mem_cons, List.not_mem_nil, or_false] at member
  rcases member with rfl | rfl
  · cases isCon
  · rintro ⟨n, d, u, args, m, data, reduced, known, interval⟩
    cases (reduces n).symm.trans reduced
    cases known
    cases interval

/-- At the left end the natural numbers are values of the second type. -/
theorem bent_values : leftTerm.Inhabits Eq bentEnvironment intervalType.reading ∧
    (bentType leftTerm).whnf bentEnvironment 38 = .ok (natType, 38) ∧
    (numeral 5).Inhabits Eq bentEnvironment natType.reading := by
  refine ⟨inhabits_constant Likeness.eq_sees fun σ => ?_, rfl,
    numeral_inhabits .eq Likeness.eq_sees ⟨rfl, rfl, rfl⟩ 5⟩
  exact ⟨_, _, rfl, List.mem_cons_self, rfl, rfl, trivial⟩

/-- The examples are those of the type as it stands. With the left end in the place of the variable it
    is another one, and a value of that one matches neither the clause nor the example. -/
theorem bentTrue_missing :
    (compile bentSetting .none bentParams [bentTrue] 38).map (fun r => r.1.diagnostics) =
      .ok [⟨.none, .missingClauses [rowText bentOther] false⟩] ∧
    NoIntervalPattern bentEnvironment bentParams [bentTrue] ∧
    leftTerm.Inhabits Eq bentEnvironment intervalType.reading ∧
    (bentType leftTerm).whnf bentEnvironment 38 = .ok (natType, 38) ∧
    (numeral 5).Inhabits Eq bentEnvironment natType.reading ∧
    rowFits bentTrue.patterns [leftTerm, numeral 5] = false ∧
    rowFits bentOther [leftTerm, numeral 5] = false :=
  ⟨rfl, bent_plain (List.forall_mem_singleton.mpr ⟨_, _, rfl⟩), bent_values.1, bent_values.2.1,
    bent_values.2.2, by decide, by decide⟩

/-- The row of the first clause that matches is the first row that does. -/
theorem numbered_first {i : Nat}
    (first : clauses.findIdx? (fun clause => rowFits clause.patterns args) = some i) :
    ∃ row, (numbered clauses).find? (fun row => rowFits row.patterns args) = some row ∧
      row.number = i := by
  rw [List.findIdx?_eq_fst_find?_zipIdx] at first
  obtain ⟨c, found, number⟩ := Option.map_eq_some_iff.mp first
  refine ⟨⟨c.2, c.1, c.1.patterns, .empty⟩, ?_, number⟩
  rw [numbered, List.find?_map]
  exact Option.map_eq_some_iff.mpr ⟨c, found, rfl⟩

/-- **Redundant clauses.** If the clauses match no end of the interval and the compiler gives a tree
    for them, then what it notes is that some of them are redundant, and none of these is the first
    one to match a list of constructor values of the parameter types that meets no truncated data
    where a pattern is not a variable. -/
theorem compile_redundant_sound {tree : CaseTree}
    (known : setting.env.Within (fun _ => True) n) (old : Telescope.Below n params)
    (proper : Telescope.Proper params)
    (noInterval : NoIntervalPattern setting.env params clauses)
    (done : compile setting span params clauses n = .ok (outcome, m))
    (given : outcome.tree = some tree) :
    ∃ unused : List (Clause × Nat), unused.Sublist clauses.zipIdx ∧
      outcome.diagnostics = unused.map (fun c =>
        ⟨c.1.span, .redundantClause (rowText c.1.patterns)⟩) ∧
      ∀ c ∈ unused, ∀ args, fieldsFit Nameless.Alike setting.env args params id .free →
        (∀ clause ∈ clauses, RowSpares setting.env clause.patterns args) →
        clauses.findIdx? (fun clause => rowFits clause.patterns args) ≠ some c.2 := by
  rcases compile_surveyed known (fun b isParam => ⟨(old b isParam).2, fun _ _ => trivial⟩)
    noInterval done with ⟨d, noted, other⟩ | ⟨used, examples, k, surveyed⟩
  · have isWarning := compile_mild done given d noted
    rw [isWarning_of_other other] at isWarning
    cases isWarning
  · have isSome : outcome.tree.isSome = true := by
      rw [given]
      rfl
    have noted := surveyed.diagnostics
    rw [missingReport, surveyed.tree isSome, if_pos List.isEmpty_nil, List.nil_append, isSome,
      Bool.true_and] at noted
    split at noted
    · refine ⟨_, List.filter_sublist, noted, fun c isUnused args values spare first => ?_⟩
      -- a clause that is the first one to match is used
      have seen := surveyed.seen known old proper values spare
      obtain ⟨row, found, number⟩ := numbered_first first
      have isUsed := seen.led row found
      rw [number] at isUsed
      simpa [isUsed] using (List.mem_filter.mp isUnused).2
    · exact ⟨[], List.nil_sublist _, noted, List.forall_mem_nil _⟩

/-- The predecessor, and once more all numbers. -/
def pred : List Clause := [
  ⟨.none, [.ofCon zero []], some zeroTerm⟩,
  ⟨.none, [.ofCon suc [.binding ⟨30, "n"⟩]], some (.ref ⟨30, "n"⟩)⟩,
  ⟨.none, [.binding ⟨31, "k"⟩], some (.ref ⟨31, "k"⟩)⟩]

theorem pred_redundant : ∃ outcome m tree, compile plainSetting .none counted pred 32 =
      .ok (outcome, m) ∧ outcome.tree = some tree ∧
    ∃ unused : List (Clause × Nat), unused.map Prod.snd = [2] ∧
      outcome.diagnostics = unused.map (fun c =>
        ⟨c.1.span, .redundantClause (rowText c.1.patterns)⟩) ∧
      ∀ i, pred.findIdx? (fun clause => rowFits clause.patterns [numeral i]) ≠ some 2 := by
  have run : ∃ outcome m tree, compile plainSetting .none counted pred 32 = .ok (outcome, m) ∧
      outcome.tree = some tree ∧ outcome.diagnostics = [⟨.none, .redundantClause "k"⟩] :=
    ⟨_, _, _, rfl, rfl, rfl⟩
  obtain ⟨outcome, m, tree, done, given, noted⟩ := run
  have known : plainSetting.env.Within (fun _ => True) 32 :=
    ((library_within 100).mono (by decide)).widen fun _ _ => trivial
  obtain ⟨unused, listed, warned, never⟩ := compile_redundant_sound known (by decide) counted_proper
    (counted_plain _) done given
  rw [noted] at warned
  obtain ⟨c, rest, rfl, first, none⟩ := List.map_eq_cons_iff.mp warned.symm
  obtain rfl := List.map_eq_nil_iff.mp none
  have isLast : c.2 = 2 := by
    have isClause := listed.subset (List.mem_singleton_self c)
    simp only [pred, List.zipIdx_cons, List.zipIdx_nil, List.mem_cons, List.not_mem_nil,
      or_false] at isClause
    rcases isClause with rfl | rfl | rfl
    · exact absurd (congrArg Diagnostic.problem first) (by decide)
    · exact absurd (congrArg Diagnostic.problem first) (by decide)
    · rfl
  refine ⟨outcome, m, tree, done, given, [c], by rw [List.map_singleton, isLast],
    by rw [noted]; exact warned, fun i => ?_⟩
  rw [← isLast]
  exact never c (List.mem_singleton_self c) [numeral i] (counted_values i)
    fun _ _ => library_rowSpares _ _

/-- Clauses for the type that the second parameter has as it stands, and one for the rest. -/
def bentAll : List Clause := [bentTrue,
  ⟨.none, [.binding ⟨35, "i"⟩, .ofCon falseCon []], some (numeral 2)⟩,
  ⟨.none, [.binding ⟨36, "i"⟩, .binding ⟨37, "z"⟩], some (numeral 3)⟩]

/-- At the left end the clause that is said to be redundant is the first one to match. -/
theorem bentAll_redundant :
    (compile bentSetting .none bentParams bentAll 38).map
      (fun r => (r.1.tree.isSome, r.1.diagnostics)) =
      .ok (true, [⟨.none, .redundantClause "i, z"⟩]) ∧
    NoIntervalPattern bentEnvironment bentParams bentAll ∧
    leftTerm.Inhabits Eq bentEnvironment intervalType.reading ∧
    (bentType leftTerm).whnf bentEnvironment 38 = .ok (natType, 38) ∧
    (numeral 5).Inhabits Eq bentEnvironment natType.reading ∧
    bentAll.findIdx? (fun clause => rowFits clause.patterns [leftTerm, numeral 5]) = some 2 := by
  refine ⟨rfl, bent_plain ?_, bent_values.1, bent_values.2.1, bent_values.2.2, by decide⟩
  simp [bentAll, bentTrue]

end Clauses

end PathTheory.Matching
