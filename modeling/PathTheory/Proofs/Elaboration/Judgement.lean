import PathTheory.Proofs.Elaboration.Sound
/-!
Elaboration of expressions keeps to what is allowed: patterns and clauses, functions, tuples and
projections. The two judgements are tied together at the end, by induction on how deep expressions
are nested.
-/
namespace PathTheory

open Surface (Expr Pat Scrutinee)

namespace Elaborate

variable {g : Ground} {config : Config} {c : Moment} {j : Judge} {Γ : Context}

section Patterns

/-- A typed pattern leaves a context and a term that are allowed. -/
def PatternCheck.Sound (g : Ground) (config : Config) (check : PatternCheck) : Prop :=
  ∀ {c : Moment} {Γ : Context} {type : Term}, Context.Allowed (c.allowance g) Γ →
    type.Allowed (c.allowance g) → Elaborate.Sound g config c (check Γ type) fun A found =>
      ∀ r ∈ found, Context.Allowed A r.1 ∧ r.2.2.Allowed A

theorem reportNothing_sound {α : Type} (span : Span) (problem : Problem)
    {P : Allowance → α → Prop} : Sound g config c (reportNothing span problem)
      fun A found => ∀ r ∈ found, P A r :=
  (report_sound _).bind fun _ _ _ _ => .pure nofun

theorem checkParts_sound {params : Telescope} {parts : List PatternCheck} {u : Subst}
    (each : ∀ part ∈ parts, PatternCheck.Sound g config part)
    (given : Context.Allowed (c.allowance g) Γ)
    (fromParams : Telescope.Allowed (c.allowance g) params) (images : u.Allowed (c.allowance g)) :
    Sound g config c (checkParts params parts u Γ) fun A found =>
      ∀ r ∈ found, Context.Allowed A r.1 ∧ ∀ t ∈ r.2.2, t.Allowed A := by
  induction params generalizing c parts u Γ with
  | nil => exact .pure fun r same => Option.mem_some_iff.mp same ▸ ⟨given, List.forall_mem_nil _⟩
  | cons b rest ih =>
      cases parts with
      | nil => exact .pure fun r same => Option.mem_some_iff.mp same ▸ ⟨given, List.forall_mem_nil _⟩
      | cons part parts =>
          obtain ⟨here, others⟩ := List.forall_mem_cons.mp each
          obtain ⟨fromType, fromRest⟩ := Telescope.allowed_cons.mp fromParams
          refine (subst_sound images fromType).bind fun type c₁ order₁ fine => ?_
          refine (here (given.mono order₁) fine).bind fun found c₂ order₂ result => ?_
          cases found with
          | none => exact .pure nofun
          | some r =>
              obtain ⟨given', fromTerm⟩ := result r rfl
              have order := order₁.trans order₂
              refine (ih others given' (fromRest.mono order)
                (Subst.allowed_add.mpr ⟨fromTerm, images.mono order⟩)).bind ?_
              intro found' c₃ order₃ result'
              cases found' with
              | none => exact .pure nofun
              | some r' =>
                  obtain ⟨inner, fromTerms⟩ := result' r' rfl
                  refine .pure fun r'' same => Option.mem_some_iff.mp same ▸ ⟨inner, ?_⟩
                  exact List.forall_mem_cons.mpr ⟨fromTerm.mono order₃, fromTerms⟩

theorem checkCon_sound (span : Span) {d : DefId} (own : g.definition d) {parts : List PatternCheck}
    (each : ∀ part ∈ parts, PatternCheck.Sound g config part) :
    PatternCheck.Sound g config (checkCon span d parts) := by
  intro c Γ type given fromType
  refine .within fun suits => .look ((whnf_sound fromType).bind fun head c₁ order₁ fromHead => ?_)
  have foreign : Sound g config c₁ (do
      reportNothing span (.expectedConstructor d.name (← head.text)))
      fun A (found : Option (Context × Pattern × Term)) =>
        ∀ r ∈ found, Context.Allowed A r.1 ∧ r.2.2.Allowed A :=
    Sound.checkedAny.bind fun _ _ _ _ => reportNothing_sound span _
  split
  · rename_i con isConstructor
    obtain ⟨_, fromArgs⟩ := Term.allowed_data.mp fromHead
    have fromFields := (suits.known.constructor? own isConstructor).1.mono order₁
    dsimp only
    split
    · split
      · exact foreign
      · split
        · exact reportNothing_sound span _
        · split
          · exact reportNothing_sound span _
          · refine (checkParts_sound each (given.mono order₁) fromFields
              (Subst.allowed_addStd.mpr (Subst.allowed_instantiate fromArgs))).bind ?_
            intro found c₂ order₂ result
            cases found with
            | none => exact .pure nofun
            | some r =>
                obtain ⟨inner, fromTerms⟩ := result r rfl
                refine .pure fun r' same => Option.mem_some_iff.mp same ▸ ⟨inner, ?_⟩
                exact Term.allowed_con.mpr ⟨order₂.definition d (order₁.definition d own),
                  Term.allowed_mono fromArgs order₂, fromTerms⟩
    · exact foreign
  · exact foreign

theorem checkTuplePattern_sound (span : Span) {parts : List PatternCheck}
    (each : ∀ part ∈ parts, PatternCheck.Sound g config part) :
    PatternCheck.Sound g config (checkTuplePattern span parts) := by
  intro c Γ type given fromType
  refine (whnf_sound fromType).bind fun head c₁ order₁ fromHead => ?_
  have foreign : Sound g config c₁ (do
      let pattern := "tuple of " ++ toString parts.length ++ " fields"
      reportNothing span (.expectedConstructor pattern (← head.text)))
      fun A (found : Option (Context × Pattern × Term)) =>
        ∀ r ∈ found, Context.Allowed A r.1 ∧ r.2.2.Allowed A :=
    Sound.checkedAny.bind fun _ _ _ _ => reportNothing_sound span _
  dsimp only
  split
  · split
    · exact foreign
    · refine (checkParts_sound each (given.mono order₁) (Term.allowed_sigma.mp fromHead)
        Subst.allowed_empty).bind fun found c₂ order₂ result => ?_
      cases found with
      | none => exact .pure nofun
      | some r =>
          obtain ⟨inner, fromTerms⟩ := result r rfl
          refine .pure fun r' same => Option.mem_some_iff.mp same ▸ ⟨inner, ?_⟩
          exact Term.allowed_tuple.mpr ⟨fromTerms, fromHead.mono order₂⟩
  · exact foreign

theorem checkNumber_sound (span : Span) (zero : g.definition Library.zero)
    (suc : g.definition Library.suc) (n : Nat) :
    PatternCheck.Sound g config (checkNumber span n) := by
  induction n with
  | zero => exact checkCon_sound span zero (List.forall_mem_nil _)
  | succ n ih => exact checkCon_sound span suc (List.forall_mem_singleton.mpr ih)

mutual

theorem checkPattern_sound : ∀ p : Pat, p.Within g.definition g.error →
    PatternCheck.Sound g config (checkPattern p)
  | .var x, _ => fun given fromType =>
      (bind_sound given x fromType).bind fun _ _ _ inner =>
        .pure fun _ same => Option.mem_some_iff.mp same ▸ ⟨inner, Term.allowed_ref⟩
  | .absurd _, within => fun given _ =>
      .pure fun _ same => Option.mem_some_iff.mp same ▸
        ⟨given, Term.allowed_note.mpr (.inl (.inl within))⟩
  | .number span n, within => checkNumber_sound span within.1 within.2 n
  | .con span _ args, within => checkCon_sound span within.1 (checkPatterns_sound args within.2)
  | .tuple span args, within => checkTuplePattern_sound span (checkPatterns_sound args within)

theorem checkPatterns_sound : ∀ pats : List Pat, Surface.patsWithin g.definition g.error pats →
    ∀ part ∈ checkPatterns pats, PatternCheck.Sound g config part
  | [], _ => List.forall_mem_nil _
  | p :: rest, within => List.forall_mem_cons.mpr
      ⟨checkPattern_sound p within.1, checkPatterns_sound rest within.2⟩

end

end Patterns

section Clauses

/-- A row goes on behind its first pattern. -/
theorem checkRow_next (isMatched : Binding Term → Bool) (b : Binding Term) (pat : Pat)
    (P : Allowance → Context → Subst → Prop) {rest : Telescope} {others : List Pat} {u : Subst}
    {type : Term} (here : pat.Within g.definition g.error)
    (given : Context.Allowed (c.allowance g) Γ) (fine : type.Allowed (c.allowance g))
    (later : ∀ {c₁ : Moment} {Γ' : Context} {term : Term}, c.allowance g ≤ c₁.allowance g →
      Context.Allowed (c₁.allowance g) Γ' → term.Allowed (c₁.allowance g) →
        Sound g config c₁ (checkRow rest isMatched others (u.add b.var term) Γ')
          fun A found => ∀ r ∈ found, P A r.1 r.2.2) : Sound g config c (do
      match ← checkPattern pat Γ type with
      | none => return none
      | some (Γ, pattern, term) => do
          match ← checkRow rest isMatched others (u.add b.var term) Γ with
          | none => return none
          | some (Γ, patterns, s) => return some (Γ, pattern :: patterns, s))
      fun A found => ∀ r ∈ found, P A r.1 r.2.2 := by
  refine (checkPattern_sound pat here given fine).bind ?_
  intro found c₁ order₁ result
  cases found with
  | none => exact .pure nofun
  | some r =>
      obtain ⟨given', fromTerm⟩ := result r rfl
      refine (later order₁ given' fromTerm).bind ?_
      intro found' c₂ order₂ result'
      cases found' with
      | none => exact .pure nofun
      | some r' => exact .pure fun _ same => Option.mem_some_iff.mp same ▸ result' r' rfl

theorem checkRow_sound (isMatched : Binding Term → Bool) {params : Telescope} {pats : List Pat}
    (within : ∀ p ∈ pats, p.Within g.definition g.error) {u : Subst}
    (given : Context.Allowed (c.allowance g) Γ)
    (fromParams : Telescope.Allowed (c.allowance g) params) (images : u.Allowed (c.allowance g)) :
    Sound g config c (checkRow params isMatched pats u Γ) fun A found =>
      ∀ r ∈ found, Context.Allowed A r.1 ∧ r.2.2.Allowed A := by
  induction params generalizing c pats u Γ with
  | nil => exact .pure fun r same => Option.mem_some_iff.mp same ▸ ⟨given, images⟩
  | cons b rest ih =>
      obtain ⟨fromType, fromRest⟩ := Telescope.allowed_cons.mp fromParams
      refine (subst_sound images fromType).bind fun type c₁ order₁ fine => ?_
      have given := given.mono order₁
      let P := fun A (Γ : Context) (u : Subst) => Context.Allowed A Γ ∧ u.Allowed A
      have next : ∀ {others : List Pat}, (∀ p ∈ others, p.Within g.definition g.error) →
          ∀ {c₂ : Moment} {Γ' : Context} {term : Term}, c₁.allowance g ≤ c₂.allowance g →
            Context.Allowed (c₂.allowance g) Γ' → term.Allowed (c₂.allowance g) →
              Sound g config c₂ (checkRow rest isMatched others (u.add b.var term) Γ')
                fun A found => ∀ r ∈ found, Context.Allowed A r.1 ∧ r.2.2.Allowed A :=
        fun later _ _ _ order₂ given' fromTerm => ih later given'
          (fromRest.mono (order₁.trans order₂))
          (Subst.allowed_add.mpr ⟨fromTerm, images.mono (order₁.trans order₂)⟩)
      cases isMatched b with
      | false => exact checkRow_next isMatched b (.var b.var) P trivial given fine (next within)
      | true =>
          cases pats with
          | nil => exact checkRow_next isMatched b (.var b.var) P trivial given fine (next within)
          | cons pat pats =>
              obtain ⟨here, later⟩ := List.forall_mem_cons.mp within
              exact checkRow_next isMatched b pat P here given fine (next later)

/-- Of an absurd pattern at the end of a row nothing is handed on but its term. -/
theorem checkRow_ends (isMatched : Binding Term → Bool) {params : Telescope} {before : List Pat}
    {span : Span} (within : ∀ p ∈ before, p.Within g.definition g.error) {u : Subst}
    (given : Context.Allowed (c.allowance g) Γ)
    (fromParams : Telescope.Allowed (c.allowance g) params) (images : u.Allowed (c.allowance g))
    (last : ∀ b ∈ params.getLast?, isMatched b = true)
    (arity : (params.filter isMatched).length = before.length + 1) :
    Sound g config c (checkRow params isMatched (before ++ [.absurd span]) u Γ)
      fun A found => ∀ r ∈ found, Anything A r := by
  induction params generalizing c before u Γ with
  | nil => cases arity
  | cons b rest ih =>
      obtain ⟨fromType, fromRest⟩ := Telescope.allowed_cons.mp fromParams
      refine (subst_sound images fromType).bind fun type c₁ order₁ fine => ?_
      have given := given.mono order₁
      cases rest with
      | nil =>
          have own : isMatched b = true := last b rfl
          have none : before = [] := by
            simpa [own] using arity
          subst none
          simp only [own]
          exact .pure fun _ _ => trivial
      | cons b' rest =>
          have next : ∀ {others : List Pat}, (∀ p ∈ others, p.Within g.definition g.error) →
              ((b' :: rest).filter isMatched).length = others.length + 1 →
              ∀ {c₂ : Moment} {Γ' : Context} {term : Term}, c₁.allowance g ≤ c₂.allowance g →
                Context.Allowed (c₂.allowance g) Γ' → term.Allowed (c₂.allowance g) →
                  Sound g config c₂ (checkRow (b' :: rest) isMatched (others ++ [.absurd span])
                    (u.add b.var term) Γ') fun A found => ∀ r ∈ found, Anything A r :=
            fun later arity _ _ _ order₂ given' fromTerm => ih later given'
              (fromRest.mono (order₁.trans order₂))
              (Subst.allowed_add.mpr ⟨fromTerm, images.mono (order₁.trans order₂)⟩) last arity
          cases own : isMatched b with
          | false =>
              rw [List.filter_cons_of_neg (by simp [own])] at arity
              exact checkRow_next isMatched b (.var b.var) (fun _ _ _ => True) trivial given fine
                (next within arity)
          | true =>
              rw [List.filter_cons_of_pos own, List.length_cons] at arity
              cases before with
              | nil =>
                  -- the last parameter is matched as well
                  have more : b' :: rest ≠ [] := List.cons_ne_nil b' rest
                  have listed := List.mem_filter.mpr
                    ⟨List.getLast_mem more, last _ (List.getLast?_eq_getLast_of_ne_nil more)⟩
                  rw [List.eq_nil_of_length_eq_zero (Nat.succ.inj arity)] at listed
                  cases listed
              | cons pat others =>
                  obtain ⟨here, later⟩ := List.forall_mem_cons.mp within
                  exact checkRow_next isMatched b pat (fun _ _ _ => True) here given fine
                    (next later (Nat.succ.inj arity))

variable {params : Telescope} {result : Term}

theorem checkClause_sound (sound : Judge.Sound g config j) (isMatched : Binding Term → Bool)
    {last : Prop} {clause : Surface.Clause} (within : clause.Within g.definition g.error last)
    (isLast : last → ∀ b ∈ params.getLast?, isMatched b = true)
    (given : Context.Allowed (c.allowance g) Γ)
    (fromParams : Telescope.Allowed (c.allowance g) params)
    (fromResult : result.Allowed (c.allowance g)) :
    Sound g config c (checkClause j Γ params isMatched result clause) fun A found =>
      ∀ clause ∈ found, clause.Allowed A := by
  unfold checkClause
  dsimp only
  split
  · exact reportNothing_sound _ _
  · split
    · exact reportNothing_sound _ _
    · rename_i enough fits
      rcases within.1 with each | ⟨matched, noBody, before, span, ends, each⟩
      · refine (checkRow_sound isMatched each given fromParams Subst.allowed_empty).bind ?_
        intro found c₁ order₁ row
        cases found with
        | none => exact .pure fun _ absent => by cases absent
        | some r =>
            obtain ⟨inner, images⟩ := row r rfl
            refine (subst_sound images (fromResult.mono order₁)).bind fun type c₂ order₂ fine => ?_
            have checked : Sound g config c₂ (clause.body.mapM fun e => j.check r.1 e type)
                fun A body => ∀ b ∈ body, b.Allowed A := by
              cases isBody : clause.body with
              | none => exact .pure fun _ absent => by cases absent
              | some e =>
                  rw [Option.mapM_some, map_eq_pure_bind]
                  exact (sound.check (inner.mono order₂) (within.2 e isBody) fine).bind
                    fun _ _ _ allowed => .pure fun _ same => Option.mem_some_iff.mp same ▸ allowed
            refine checked.bind fun body c₃ _ fromBody => .pure fun clause' same => ?_
            cases Option.mem_some_iff.mp same
            exact fromBody
      · have arity : (params.filter isMatched).length = before.length + 1 := by
          rw [ends, List.length_append, List.length_singleton] at enough fits
          omega
        rw [ends, noBody]
        refine (checkRow_ends isMatched each given fromParams Subst.allowed_empty (isLast matched)
          arity).bind fun found c₁ _ _ => ?_
        cases found with
        | none => exact .pure fun _ absent => by cases absent
        | some r =>
            refine Sound.readingAny.bind fun type c₂ _ _ => .pure fun clause' same => ?_
            cases Option.mem_some_iff.mp same
            exact fun _ absent => by cases absent

theorem checkClauses_sound (sound : Judge.Sound g config j) (span : Span)
    (eliminated : Option (List Var)) {clauses : List Surface.Clause}
    (within : ∀ clause ∈ clauses, clause.Within g.definition g.error
      (Surface.LastMatched eliminated (params.map Binding.head)))
    (given : Context.Allowed (c.allowance g) Γ)
    (fromParams : Telescope.Allowed (c.allowance g) params)
    (fromResult : result.Allowed (c.allowance g)) :
    Sound g config c (checkClauses j Γ span params eliminated clauses result) fun A r =>
      ∀ clause ∈ r, clause.Allowed A := by
  unfold checkClauses
  split
  · exact (report_sound _).bind fun _ _ _ _ => .pure (List.forall_mem_nil _)
  · refine .filterMapM (R := fun A (_ : Surface.Clause) => Context.Allowed A Γ ∧
      Telescope.Allowed A params ∧ result.Allowed A) ?_ ?_ ?_ ?_
    · exact fun order ⟨given, params, result⟩ => ⟨given.mono order, params.mono order,
        result.mono order⟩
    · exact fun order fine b isBody => (fine b isBody).mono order
    · exact fun _ _ => ⟨given, fromParams, fromResult⟩
    · intro clause listed c ⟨given, fromParams, fromResult⟩
      refine checkClause_sound sound _ (within clause listed) (fun isLast b own => ?_) given
        fromParams fromResult
      have matched := isLast b.head (by simpa using ⟨b, own, rfl⟩)
      cases eliminated with
      | none => exact beq_iff_eq.mpr matched
      | some xs => exact List.contains_iff_mem.mpr matched

/-- A value to be matched is bound to the name that is written, or to a new one. -/
theorem nameScrutinee_sound {arg : Scrutinee} {rest : List Scrutinee} {outer : Context} {u : Subst}
    {v type : Term} {P : Allowance → List Term × Telescope × Context × Subst → Prop}
    (named : ∀ {c₁ : Moment}, c.allowance g ≤ c₁.allowance g → ∀ x, Sound g config c₁ (do
      let Γ ← bind Γ x type
      let (values, params, Γ, u) ← checkScrutinees j outer rest Γ (u.add x v)
      return (v :: values, ⟨.explicit, x, type⟩ :: params, Γ, u)) P) :
    Sound g config c (do
      let x ← match arg.name with
        | some x => pure x
        | none => reading fun _ => Fresh.var "x"
      let Γ ← bind Γ x type
      let (values, params, Γ, u) ← checkScrutinees j outer rest Γ (u.add x v)
      return (v :: values, ⟨.explicit, x, type⟩ :: params, Γ, u)) P := by
  cases arg.name with
  | some x => exact named le_rfl x
  | none => exact Sound.readingAny.bind fun x c₁ order _ => named order x

theorem checkScrutinees_sound (sound : Judge.Sound g config j) {outer : Context}
    {args : List Scrutinee} (within : ∀ arg ∈ args, arg.Within g.definition g.error) {u : Subst}
    (fromOuter : Context.Allowed (c.allowance g) outer) (given : Context.Allowed (c.allowance g) Γ)
    (images : u.Allowed (c.allowance g)) :
    Sound g config c (checkScrutinees j outer args Γ u) fun A r =>
      (∀ v ∈ r.1, v.Allowed A) ∧ Telescope.Allowed A r.2.1 ∧ Context.Allowed A r.2.2.1 ∧
        r.2.2.2.Allowed A ∧ ∀ b ∈ r.2.1, b.mode = .explicit := by
  induction args generalizing c Γ u with
  | nil => exact .pure ⟨List.forall_mem_nil _, Telescope.allowed_nil, given, images,
      List.forall_mem_nil _⟩
  | cons arg rest ih =>
      obtain ⟨⟨value, fromType⟩, others⟩ := List.forall_mem_cons.mp within
      have named : ∀ {c₁ : Moment} {v type : Term}, c.allowance g ≤ c₁.allowance g →
          v.Allowed (c₁.allowance g) → type.Allowed (c₁.allowance g) → ∀ x : Var,
          Sound g config c₁ (do
            let Γ ← bind Γ x type
            let r ← checkScrutinees j outer rest Γ (u.add x v)
            return (v :: r.1, ⟨.explicit, x, type⟩ :: r.2.1, r.2.2.1, r.2.2.2)) fun A r =>
              (∀ v ∈ r.1, v.Allowed A) ∧ Telescope.Allowed A r.2.1 ∧ Context.Allowed A r.2.2.1 ∧
                r.2.2.2.Allowed A ∧ ∀ b ∈ r.2.1, b.mode = .explicit := by
        intro c₁ v type order₁ fromValue fine x
        refine (bind_sound (given.mono order₁) x fine).bind fun Γ' c₂ order₂ given' => ?_
        have order := order₁.trans order₂
        refine (ih others (fromOuter.mono order) given' (Subst.allowed_add.mpr
          ⟨fromValue.mono order₂, images.mono order⟩)).bind ?_
        rintro r c₃ order₃ ⟨values, params, inner, images, explicit⟩
        have later := order₂.trans order₃
        exact .pure ⟨List.forall_mem_cons.mpr ⟨fromValue.mono later, values⟩,
          Telescope.allowed_cons.mpr ⟨fine.mono later, params⟩, inner, images,
          List.forall_mem_cons.mpr ⟨rfl, explicit⟩⟩
      have next : ∀ {c₁ : Moment} {v type : Term}, c.allowance g ≤ c₁.allowance g →
          v.Allowed (c₁.allowance g) → type.Allowed (c₁.allowance g) → ∀ {c₂ : Moment},
          c₁.allowance g ≤ c₂.allowance g → ∀ x, _ := fun order₁ fromValue fine _ order₂ x =>
        named (order₁.trans order₂) (fromValue.mono order₂) (fine.mono order₂) x
      unfold checkScrutinees
      cases isType : arg.type with
      | none =>
          exact (sound.infer fromOuter value).bind fun r c₁ order₁ fine =>
            nameScrutinee_sound (next order₁ fine.1 fine.2)
      | some e =>
          refine (inferType_sound sound given (fromType e isType)).bind fun r c₁ order₁ fine => ?_
          refine (subst_sound (images.mono order₁) fine).bind fun here c₂ order₂ fromHere => ?_
          have order := order₁.trans order₂
          refine (sound.check (fromOuter.mono order) value fromHere).bind ?_
          intro v c₃ order₃ fromValue
          exact nameScrutinee_sound (next (order.trans order₃) fromValue
            (fine.mono (order₂.trans order₃)))

theorem inferCase_sound (sound : Judge.Sound g config j) (span : Span) {args : List Scrutinee}
    (fromArgs : ∀ arg ∈ args, arg.Within g.definition g.error) {result : Option Expr}
    (fromResult : ∀ e ∈ result, e.Within g.definition g.error) {clauses : List Surface.Clause}
    (fromClauses : ∀ clause ∈ clauses, clause.Within g.definition g.error True)
    {expected : Option Term}
    (fromExpected : ∀ t ∈ expected, t.Allowed (c.allowance g))
    (given : Context.Allowed (c.allowance g) Γ) :
    Sound g config c (inferCase j Γ span args result clauses expected) Typed := by
  refine (checkScrutinees_sound sound fromArgs given given Subst.allowed_empty).bind ?_
  rintro ⟨values, params, inner, u⟩ c₁ order₁ ⟨fromValues, fromParams, given₁, images, explicit⟩
  have isLast : Surface.LastMatched none (params.map Binding.head) := by
    intro b own
    obtain ⟨b', listed, rfl⟩ := List.mem_map.mp (List.mem_of_getLast? own)
    exact explicit b' listed
  have fromClauses : ∀ clause ∈ clauses, clause.Within g.definition g.error
      (Surface.LastMatched none (params.map Binding.head)) := fun clause listed =>
    (fromClauses clause listed).imp_left fun matched => matched.mono fun _ => isLast
  have next : ∀ {c₂ : Moment} {type : Term} {finish : Option CaseTree → Elaborate (Term × Term)},
      finish none = pure (note "case", note "case") →
      (∀ tree, finish (some tree) = do
        let type' ← subst u type
        return (.caseOf values params type tree, type')) →
      c₁.allowance g ≤ c₂.allowance g → type.Allowed (c₂.allowance g) → Sound g config c₂ (do
        let sort ← sortOf type
        let clauses ← checkClauses j Γ span params none clauses type
        finish (← compile span params clauses sort true)) Typed := by
    intro c₂ type finish without withTree order₂ fromType
    refine (sortOf_sound type).bind fun sort c₃ order₃ _ => ?_
    have later := order₂.trans order₃
    refine (checkClauses_sound sound span none fromClauses (given.mono (order₁.trans later))
      (fromParams.mono later) (fromType.mono order₃)).bind fun checked c₄ order₄ fromChecked => ?_
    have later := later.trans order₄
    refine (compile_sound span (fromParams.mono later) fromChecked sort true).bind ?_
    rintro found c₅ order₅ ⟨fromTree, missing⟩
    have later := later.trans order₅
    cases found with
    | none =>
        have possible : (note "case").Allowed (c₅.allowance g) :=
          Term.allowed_note.mpr (missing rfl)
        rw [without]
        exact .pure ⟨possible, possible⟩
    | some tree =>
        rw [withTree]
        have fromType := fromType.mono (order₃.trans (order₄.trans order₅))
        refine (subst_sound (images.mono later) fromType).bind ?_
        intro type' c₆ order₆ fromType'
        have later := later.trans order₆
        exact .pure ⟨Term.allowed_caseOf.mpr ⟨Term.allowed_mono fromValues later,
          ⟨fromParams.mono later, fromType.mono order₆⟩, (fromTree tree rfl).mono order₆⟩, fromType'⟩
  cases result with
  | some e =>
      refine (inferType_sound sound given₁ (fromResult e rfl)).bind fun r c₂ order₂ fine => ?_
      exact next rfl (fun _ => rfl) order₂ fine
  | none =>
      cases expected with
      | some type => exact next rfl (fun _ => rfl) le_rfl ((fromExpected type rfl).mono order₁)
      | none =>
          exact (unknownType_sound Γ span).bind fun type c₂ order₂ fine =>
            next rfl (fun _ => rfl) order₂ fine

end Clauses

section Functions

theorem compareOrFail_sound {term actual expected : Term} (fine : term.Allowed (c.allowance g))
    (fromActual : actual.Allowed (c.allowance g)) (fromExpected : expected.Allowed (c.allowance g))
    (span : Span) : Sound g config c (compareOrFail term actual expected span)
      fun A t => t.Allowed A := by
  refine (compare_sound fromActual fromExpected .le span).bind fun holds c₁ order₁ _ => ?_
  split
  · exact .pure (fine.mono order₁)
  · exact failMismatch_sound _ _ _

/-- What the domain of a binder names, if it is written. -/
def DomainsWithin (g : Ground) (params : List (Binding (Option Expr))) : Prop :=
  ∀ b ∈ params, ∀ e ∈ b.type, e.Within g.definition g.error

theorem inferDomains_sound (sound : Judge.Sound g config j) (span : Span)
    {params : List (Binding (Option Expr))} (within : DomainsWithin g params)
    (given : Context.Allowed (c.allowance g) Γ) :
    Sound g config c (inferDomains j span Γ params) fun A r =>
      Telescope.Allowed A r.1 ∧ Context.Allowed A r.2 := by
  induction params generalizing c Γ with
  | nil => exact .pure ⟨Telescope.allowed_nil, given⟩
  | cons b rest ih =>
      obtain ⟨mode, x, written⟩ := b
      obtain ⟨here, others⟩ := List.forall_mem_cons.mp within
      have next : ∀ {c₁ : Moment} {domain : Term}, c.allowance g ≤ c₁.allowance g →
          domain.Allowed (c₁.allowance g) → Sound g config c₁ (do
            let Γ ← bind Γ x domain
            let r ← inferDomains j span Γ rest
            return (⟨mode, x, domain⟩ :: r.1, r.2)) fun A r =>
              Telescope.Allowed A r.1 ∧ Context.Allowed A r.2 := by
        intro c₁ domain order₁ fine
        refine (bind_sound (given.mono order₁) x fine).bind fun Γ' c₂ order₂ given' => ?_
        refine (ih others given').bind fun r c₃ order₃ allowed => .pure ⟨?_, allowed.2⟩
        exact Telescope.allowed_cons.mpr ⟨fine.mono (order₂.trans order₃), allowed.1⟩
      cases written with
      | some e =>
          refine (inferType_sound sound given (here e rfl)).bind fun r c₁ order₁ fine => ?_
          exact next order₁ fine
      | none => exact (unknownType_sound Γ span).bind fun domain c₁ order₁ fine => next order₁ fine

theorem inferLambda_sound (sound : Judge.Sound g config j) (span : Span)
    {params : List (Binding (Option Expr))} (within : DomainsWithin g params) {body : Expr}
    (fromBody : body.Within g.definition g.error) (given : Context.Allowed (c.allowance g) Γ) :
    Sound g config c (inferLambda j Γ span params body) Typed := by
  refine (inferDomains_sound sound span within given).bind ?_
  rintro ⟨binders, inner⟩ c₁ order₁ ⟨fromBinders, given'⟩
  refine (sound.infer given' fromBody).bind fun r c₂ order₂ ⟨fine, fromType⟩ => ?_
  have fromBinders := fromBinders.mono order₂
  exact .pure ⟨Term.allowed_lamOver.mpr ⟨fromBinders, fine⟩,
    Term.allowed_piOver.mpr ⟨fromBinders, fromType⟩⟩

theorem checkLambda_sound (sound : Judge.Sound g config j) (span : Span) {body : Expr}
    (fromBody : body.Within g.definition g.error) (fuel : Nat)
    {params : List (Binding (Option Expr))} (within : DomainsWithin g params) {expected : Term}
    (given : Context.Allowed (c.allowance g) Γ)
    (fromExpected : expected.Allowed (c.allowance g)) :
    Sound g config c (checkLambda j span body fuel Γ params expected) fun A t => t.Allowed A := by
  induction fuel generalizing c Γ params expected with
  | zero => exact .throw
  | succ fuel ih =>
      cases params with
      | nil => exact sound.check given fromBody fromExpected
      | cons param rest =>
          obtain ⟨here, others⟩ := List.forall_mem_cons.mp within
          refine (whnf_sound fromExpected).bind fun type c₁ order₁ fromType => ?_
          have given := given.mono order₁
          split
          · rename_i mode x domain codomain
            obtain ⟨fromDomain, fromCodomain⟩ := Term.allowed_pi.mp fromType
            -- under a binder of the given name the body is checked against the codomain
            have inside : ∀ {c₂ : Moment} {binders : List (Binding (Option Expr))} (mode' : Mode)
                (y : Var), c₁.allowance g ≤ c₂.allowance g → DomainsWithin g binders →
                Sound g config c₂ (do
                  let inner ← bind Γ y domain
                  let codomain ← subst (.single x (.ref y)) codomain
                  let body ← checkLambda j span body fuel inner binders codomain
                  return Term.lam mode' y domain body) fun A t => t.Allowed A := by
              intro c₂ binders mode' y order₂ within'
              refine (bind_sound (given.mono order₂) y (fromDomain.mono order₂)).bind ?_
              intro inner c₃ order₃ given'
              have order := order₂.trans order₃
              refine (subst_sound (Subst.allowed_single.mpr Term.allowed_ref)
                (fromCodomain.mono order)).bind fun codomain' c₄ order₄ fromCodomain' => ?_
              refine (ih within' (given'.mono order₄) fromCodomain').bind ?_
              intro body' c₅ order₅ fine
              have order := order.trans (order₄.trans order₅)
              exact .pure (Term.allowed_lam.mpr ⟨fromDomain.mono order, fine⟩)
            split
            · exact Sound.readingAny.bind fun y c₂ order₂ _ => inside .implicit y order₂ within
            · split
              · exact failMismatch_sound _ _ _
              · cases isType : param.type with
                | none => exact inside mode param.var le_rfl others
                | some e =>
                    refine (inferType_sound sound given (here e isType)).bind ?_
                    intro r c₂ order₂ fine
                    refine (compare_sound (fromDomain.mono order₂) fine .eq span).bind ?_
                    intro holds c₃ order₃ _
                    split
                    · exact failMismatch_sound _ _ _
                    · exact inside mode param.var (order₂.trans order₃) others
          · exact .pure fromType
          · refine (inferLambda_sound sound span within fromBody given).bind ?_
            intro r c₂ order₂ ⟨fine, fromActual⟩
            exact compareOrFail_sound fine fromActual (fromType.mono order₂) span

end Functions

section Tuples

theorem checkComponents_sound (sound : Judge.Sound g config j) {es : List Expr}
    (within : ∀ e ∈ es, e.Within g.definition g.error) {params : Telescope} {u : Subst}
    (given : Context.Allowed (c.allowance g) Γ)
    (fromParams : Telescope.Allowed (c.allowance g) params) (images : u.Allowed (c.allowance g)) :
    Sound g config c (checkComponents j Γ es params u) fun A r => ∀ t ∈ r, t.Allowed A := by
  induction es generalizing c params u with
  | nil => exact .pure (List.forall_mem_nil _)
  | cons e es ih =>
      cases params with
      | nil => exact .pure (List.forall_mem_nil _)
      | cons b rest =>
          obtain ⟨here, others⟩ := List.forall_mem_cons.mp within
          obtain ⟨fromType, fromRest⟩ := Telescope.allowed_cons.mp fromParams
          refine (subst_sound images fromType).bind fun type c₁ order₁ fine => ?_
          refine (sound.check (given.mono order₁) here fine).bind fun value c₂ order₂ fromValue => ?_
          have order := order₁.trans order₂
          refine (ih others (given.mono order) (fromRest.mono order)
            (Subst.allowed_add.mpr ⟨fromValue, images.mono order⟩)).bind ?_
          exact fun values c₃ order₃ fromValues => .pure
            (List.forall_mem_cons.mpr ⟨fromValue.mono order₃, fromValues⟩)

theorem checkTuple_sound (sound : Judge.Sound g config j) (span : Span) {components : List Expr}
    (within : ∀ e ∈ components, e.Within g.definition g.error) {params : Telescope}
    (given : Context.Allowed (c.allowance g) Γ)
    (fromParams : Telescope.Allowed (c.allowance g) params) :
    Sound g config c (checkTuple j Γ span components params) fun A t => t.Allowed A := by
  unfold checkTuple
  split
  · exact failMismatch_sound _ _ _
  · refine (checkComponents_sound sound within given fromParams Subst.allowed_empty).bind ?_
    exact fun values c₁ order₁ fromValues => .pure (Term.allowed_tuple.mpr
      ⟨fromValues, Term.allowed_sigma.mpr (fromParams.mono order₁)⟩)

theorem inferComponents_sound (sound : Judge.Sound g config j) {es : List Expr}
    (within : ∀ e ∈ es, e.Within g.definition g.error)
    (given : Context.Allowed (c.allowance g) Γ) :
    Sound g config c (inferComponents j Γ es) fun A r =>
      (∀ t ∈ r.1, t.Allowed A) ∧ Telescope.Allowed A r.2 := by
  induction es generalizing c with
  | nil => exact .pure ⟨List.forall_mem_nil _, Telescope.allowed_nil⟩
  | cons e es ih =>
      obtain ⟨here, others⟩ := List.forall_mem_cons.mp within
      refine (sound.infer given here).bind fun r c₁ order₁ ⟨fromValue, fromType⟩ => ?_
      refine Sound.readingAny.bind fun x c₂ order₂ _ => ?_
      refine (ih others (given.mono (order₁.trans order₂))).bind ?_
      intro r' c₃ order₃ ⟨values, params⟩
      have later := order₂.trans order₃
      exact .pure ⟨List.forall_mem_cons.mpr ⟨fromValue.mono later, values⟩,
        Telescope.allowed_cons.mpr ⟨fromType.mono later, params⟩⟩

theorem inferProjection_sound (sound : Judge.Sound g config j) (span : Span) {whole : Expr}
    (within : whole.Within g.definition g.error) (index : Nat)
    (given : Context.Allowed (c.allowance g) Γ) :
    Sound g config c (inferProjection Γ j span whole index) Typed := by
  refine (sound.infer given within).bind fun r c₁ order₁ ⟨fine, fromType⟩ => ?_
  refine (whnf_sound fromType).bind fun head c₂ order₂ fromHead => ?_
  have fine := fine.mono order₂
  dsimp only
  split
  · have component : Sound g config c₂ (reading fun env =>
        (componentType? env r.1 index 0 _ .empty).run) fun A found => ∀ t ∈ found, t.Allowed A :=
      .reading fun known => componentType?_allowed known fine index 0
        (Term.allowed_sigma.mp fromHead) Subst.allowed_empty
    refine component.bind fun found c₃ order₃ fromFound => ?_
    cases found with
    | some type => exact .pure ⟨Term.allowed_proj.mpr (fine.mono order₃), fromFound type rfl⟩
    | none => exact failBothMismatch_sound _ _ _
  · exact failBothMismatch_sound _ _ _

end Tuples

section Judgement

theorem sortOfPis_sound (span : Span) (u : Universe) (us : List Universe) :
    Sound g config c (sortOfPis span u us) Anything := by
  induction us generalizing c with
  | nil => exact .pure trivial
  | cons domain rest ih => exact ih.bind fun _ _ _ _ => sortOfPi_sound domain _ span

theorem numeral_allowed {A : Allowance} (zero : A.definition Library.zero)
    (suc : A.definition Library.suc) (n : Nat) : (Library.numeral n).Allowed A := by
  induction n with
  | zero => exact Term.allowed_con.mpr ⟨zero, List.forall_mem_nil _, List.forall_mem_nil _⟩
  | succ n ih =>
      refine Term.allowed_con.mpr ⟨suc, List.forall_mem_nil _, ?_⟩
      exact List.forall_mem_singleton.mpr ih

/-- The parts of a case expression are within what the whole is within. -/
theorem caseOf_within {span : Span} {args : List Scrutinee} {result : Option Expr}
    {clauses : List Surface.Clause}
    (within : (Expr.caseOf span args result clauses).Within g.definition g.error) :
    (∀ arg ∈ args, arg.Within g.definition g.error) ∧ (∀ e ∈ result, e.Within g.definition g.error) ∧
      ∀ clause ∈ clauses, clause.Within g.definition g.error True := by
  have child : ∀ {e : Expr}, e ∈ (Expr.caseOf span args result clauses).children →
      e.Within g.definition g.error := within.child
  simp only [Expr.children, List.mem_append, List.mem_flatMap, List.mem_cons, Option.mem_toList,
    List.mem_filterMap] at child
  refine ⟨fun arg listed => ⟨?_, fun e isType => ?_⟩, fun e isResult => ?_, fun clause listed =>
    ⟨within.clauses clause listed, fun e isBody => ?_⟩⟩
  · exact child (.inl (.inl ⟨arg, listed, .inl rfl⟩))
  · exact child (.inl (.inl ⟨arg, listed, .inr isType⟩))
  · exact child (.inl (.inr isResult))
  · exact child (.inr ⟨clause, listed, isBody⟩)

theorem inferStep_sound (sound : Judge.Sound g config j) {e : Expr}
    (within : e.Within g.definition g.error) (given : Context.Allowed (c.allowance g) Γ) :
    Sound g config c (inferStep j Γ e) Typed := by
  cases e with
  | var span x =>
      rw [inferStep]
      split
      · rename_i found
        exact .pure ⟨Term.allowed_ref, given.lookup found⟩
      · exact failBoth_sound rfl
  | const span d =>
      exact inferCall_sound sound span (within.names d (List.mem_singleton_self d))
        (List.forall_mem_nil _) given
  | app span head args =>
      have fromHead := within.child (List.mem_cons_self ..)
      have fromArgs : ∀ arg ∈ args, arg.2.Within g.definition g.error := fun arg listed =>
        within.child (List.mem_cons_of_mem _ (List.mem_map_of_mem listed))
      have general : Sound g config c (do
          let r ← j.infer Γ head
          apply j Γ span r.1 r.2 args) Typed :=
        (sound.infer given fromHead).bind fun r c₁ order₁ typed =>
          apply_sound sound span fromArgs (given.mono order₁) typed.1 typed.2
      cases head with
      | const _ d =>
          exact inferCall_sound sound span (fromHead.names d (List.mem_singleton_self d)) fromArgs
            given
      | _ => exact general
  | lam span params body =>
      refine inferLambda_sound sound span (fun b listed e isType => ?_)
        (within.child (List.mem_cons_self ..)) given
      exact within.child (List.mem_cons_of_mem _ (List.mem_filterMap.mpr ⟨b, listed, isType⟩))
  | pi span params codomain =>
      refine (checkBinders_sound sound given fun b listed => within.child
        (List.mem_cons_of_mem _ (List.mem_map_of_mem listed))).bind ?_
      rintro ⟨params', inner, us⟩ c₁ order₁ ⟨fromParams, given', _⟩
      refine (inferType_sound sound given' (within.child (List.mem_cons_self ..))).bind ?_
      intro r c₂ order₂ fine
      refine (sortOfPis_sound span _ us).bind fun u c₃ order₃ _ => .pure ⟨?_, Term.allowed_univ⟩
      exact Term.allowed_piOver.mpr ⟨fromParams.mono (order₂.trans order₃), fine.mono order₃⟩
  | sigma span params =>
      refine (checkBinders_sound sound given fun b listed => within.child
        (List.mem_map_of_mem listed)).bind ?_
      rintro ⟨params', inner, us⟩ c₁ order₁ ⟨fromParams, _⟩
      refine (sortAbove_sound us span).bind fun u c₂ order₂ _ => .pure ⟨?_, Term.allowed_univ⟩
      exact Term.allowed_sigma.mpr (fromParams.mono order₂)
  | tuple span components =>
      refine (inferComponents_sound sound (fun e listed => within.child listed) given).bind ?_
      rintro ⟨values, params⟩ c₁ order₁ ⟨fromValues, fromParams⟩
      have type := Term.allowed_sigma.mpr fromParams
      exact .pure ⟨Term.allowed_tuple.mpr ⟨fromValues, type⟩, type⟩
  | proj span whole index =>
      exact inferProjection_sound sound span (within.child (List.mem_singleton_self whole)) index
        given
  | univ span sort =>
      exact (universeFor_sound sort).bind fun u _ _ _ => Sound.checkedAny.bind fun _ _ _ _ =>
        .pure ⟨Term.allowed_univ, Term.allowed_univ⟩
  | hole span =>
      refine (unknownType_sound Γ span).bind fun type c₁ order₁ fromType => ?_
      exact (freshMeta_sound Γ _ fromType span).bind fun t c₂ order₂ fine =>
        .pure ⟨fine, fromType.mono order₂⟩
  | number span n =>
      refine .within fun suits => .pure ⟨numeral_allowed (within.names _ (by simp [Expr.names]))
        (within.names _ (by simp [Expr.names])) n, ?_⟩
      exact Term.allowed_data.mpr ⟨suits.number, List.forall_mem_nil _⟩
  | caseOf span args result clauses =>
      obtain ⟨fromArgs, fromResult, fromClauses⟩ := caseOf_within within
      exact inferCase_sound sound span fromArgs fromResult fromClauses
        (fun t absent => by cases absent) given
  | record span d fields =>
      exact inferRecord_sound sound span (within.names d (List.mem_singleton_self d))
        (fun entry listed => within.child (List.mem_map_of_mem listed)) given
  | new span d fields =>
      refine (inferRecord_sound sound span (within.names d (List.mem_singleton_self d))
        (fun entry listed => within.child (List.mem_map_of_mem listed)) given).bind ?_
      rintro r c₁ order₁ ⟨fine, _⟩
      dsimp only
      split
      · exact .pure ⟨fine, fine⟩
      · exact .pure ⟨Term.allowed_new.mpr fine, fine⟩

theorem checkStep_sound (sound : Judge.Sound g config j) {e : Expr}
    (within : e.Within g.definition g.error) (given : Context.Allowed (c.allowance g) Γ)
    {expected : Term} (fromExpected : expected.Allowed (c.allowance g)) :
    Sound g config c (checkStep j Γ e expected) fun A t => t.Allowed A := by
  refine (whnf_sound fromExpected).bind fun type c₁ order₁ fromType => ?_
  have given := given.mono order₁
  have fromExpected := fromExpected.mono order₁
  split
  · rename_i span params body _ _ _ _
    refine .look (checkLambda_sound sound span (within.child (List.mem_cons_self ..)) _ ?_ given
      fromType)
    exact fun b listed e isType =>
      within.child (List.mem_cons_of_mem _ (List.mem_filterMap.mpr ⟨b, listed, isType⟩))
  · exact checkTuple_sound sound _ (fun e listed => within.child listed) given
      (Term.allowed_sigma.mp fromType)
  · exact freshMeta_sound Γ _ fromExpected _
  · obtain ⟨fromArgs, fromResult, fromClauses⟩ := caseOf_within within
    refine (inferCase_sound sound _ fromArgs fromResult fromClauses (fun t same => ?_) given).bind
      fun r _ _ fine => .pure fine.1
    exact Option.mem_some_iff.mp same ▸ fromExpected
  · refine (sound.infer given within).bind fun r c₂ order₂ typed => ?_
    have next : ∀ {c₃ : Moment} {r : Term × Term}, c₁.allowance g ≤ c₃.allowance g →
        Typed (c₃.allowance g) r → Sound g config c₃ (compareOrFail r.1 r.2 expected e.span)
          fun A t => t.Allowed A := fun order₃ typed =>
      compareOrFail_sound typed.1 typed.2 (fromExpected.mono order₃) e.span
    dsimp only
    split
    · exact next order₂ typed
    · refine .look ((supplyImplicits_sound Γ _ _ typed.1 typed.2).bind fun r' c₃ order₃ typed' => ?_)
      exact next (order₂.trans order₃) typed'

/-- Every rule is applied to smaller expressions, or turns a check into an inference. -/
theorem judgeWith_sound (fuel : Nat) : Judge.Sound g config (judgeWith fuel) := by
  induction fuel with
  | zero => exact ⟨fun _ _ _ => .throw, fun _ _ => .throw⟩
  | succ fuel ih =>
      exact ⟨fun given within fromType => checkStep_sound ih within given fromType,
        fun given within => inferStep_sound ih within given⟩

theorem judge_sound : Sound g config c judge fun _ j => ∀ g, Judge.Sound g config j :=
  .look (.pure fun _ => judgeWith_sound _)

end Judgement

end Elaborate

end PathTheory
