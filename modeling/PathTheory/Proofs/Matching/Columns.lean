import PathTheory.Proofs.Matching.Value
/-!
Columns below a split. Every column is in scope of those before it, and every value is one of the
type of its column once the variables of all columns are replaced by their values. Splitting a value
keeps both: new columns stand for the components, and the types of the columns after it stay the same
up to likeness.
-/
namespace PathTheory

variable {V W : Var → Prop} {n m : Nat}

theorem Subst.Within.widen {s : Subst} (within : s.Within V n) (wider : ∀ x, V x → W x) :
    s.Within W n where
  range := within.range
  below := within.below
  still := within.still
  free x t known w member := wider w (within.free x t known w member)

namespace Matching

/-- Types of columns may mention the columns before them. -/
def InScope (V : Var → Prop) (n : Nat) : List Column → Prop
  | [] => True
  | c :: rest => c.1.id < n ∧ c.2.Within V n ∧ InScope (fun x => V x ∨ x = c.1) n rest

theorem InScope.widen {columns : List Column} (scope : InScope V n columns)
    (wider : ∀ x, V x → W x) : InScope W n columns := by
  induction columns generalizing V W with
  | nil => trivial
  | cons c rest ih =>
      obtain ⟨old, type, inner⟩ := scope
      exact ⟨old, type.widen wider, ih inner fun x => Or.imp (wider x) id⟩

theorem InScope.mono {columns : List Column} (scope : InScope V n columns) (order : n ≤ m) :
    InScope V m columns := by
  induction columns generalizing V with
  | nil => trivial
  | cons c rest ih =>
      obtain ⟨old, type, inner⟩ := scope
      exact ⟨old.trans_le order, type.mono order, ih inner⟩

/-- The variables of columns beside those of the scope. -/
def Beside (V : Var → Prop) (columns : List Column) (x : Var) : Prop :=
  V x ∨ ∃ c ∈ columns, x = c.1

theorem inScope_append {columns others : List Column} :
    InScope V n (columns ++ others) ↔
      InScope V n columns ∧ InScope (Beside V columns) n others := by
  induction columns generalizing V with
  | nil =>
      refine ⟨fun scope => ⟨trivial, scope.widen fun _ => Or.inl⟩, fun ⟨_, scope⟩ => ?_⟩
      exact scope.widen fun x inScope => inScope.resolve_right (by simp)
  | cons c rest ih =>
      have same : ∀ x, Beside (fun x => V x ∨ x = c.1) rest x ↔ Beside V (c :: rest) x := by
        intro x
        simp [Beside, or_assoc]
      rw [List.cons_append, InScope, ih, InScope, and_assoc, and_assoc]
      refine and_congr_right fun _ => and_congr_right fun _ => and_congr_right fun _ => ?_
      exact ⟨fun scope => scope.widen fun x => (same x).mp,
        fun scope => scope.widen fun x => (same x).mpr⟩

theorem InScope.column {columns : List Column} (scope : InScope V n columns) :
    ∀ c ∈ columns, c.1.id < n ∧ c.2.Below n := by
  induction columns generalizing V with
  | nil => simp
  | cons c rest ih =>
      obtain ⟨old, type, inner⟩ := scope
      exact List.forall_mem_cons.mpr ⟨⟨old, type.below⟩, ih inner⟩

section Steps

variable {env : Environment} {s : Subst}

theorem freshen_cons {x : Var} {type : Term} {rest fields : List Column}
    (done : freshen env s ((x, type) :: rest) n = .ok (fields, m)) :
    ∃ type' k tail, s.apply env type n = .ok (type', k) ∧
      freshen env (s.add x (.ref ⟨k, x.name⟩)) rest (k + 1) = .ok (tail, m) ∧
      fields = (⟨k, x.name⟩, type') :: tail := by
  obtain ⟨type', k, applied, next⟩ := fresh_bind done
  obtain ⟨y, _, named, next⟩ := fresh_bind next
  cases named
  obtain ⟨tail, _, renamed, final⟩ := fresh_bind next
  cases fresh_pure final
  exact ⟨type', k, tail, applied, renamed, rfl⟩

theorem replaceIn_cons {x : Var} {type : Term} {rest columns : List Column}
    (done : replaceIn env s ((x, type) :: rest) n = .ok (columns, m)) :
    ∃ type' k tail, s.apply env type n = .ok (type', k) ∧
      replaceIn env s rest k = .ok (tail, m) ∧ columns = (x, type') :: tail := by
  unfold replaceIn at done
  rw [List.mapM_cons] at done
  obtain ⟨_, k, first, next⟩ := fresh_bind done
  obtain ⟨type', _, applied, named⟩ := fresh_bind first
  cases fresh_pure named
  obtain ⟨tail, _, replaced, final⟩ := fresh_bind next
  cases fresh_pure final
  exact ⟨type', k, tail, applied, replaced, rfl⟩

theorem image_below {s : Subst} (put : s.Within V n) {z : Var} (old : z.id < m) (order : n ≤ m) :
    (s.image z).Below m := by
  unfold Subst.image
  cases known : s.get? z with
  | none => exact Term.below_ref.mpr old
  | some t => exact (put.below z t known).mono order

theorem ref_within {x : Var} (old : x.id < n) (inScope : V x) : (Term.ref x).Within V n := by
  refine ⟨Term.below_ref.mpr old, fun z member => ?_⟩
  rw [Term.freeVars, List.mem_singleton] at member
  exact member ▸ inScope

/-- The substitution for the next binding of a telescope. -/
theorem freshen_put (put : s.Within V n) {k : Nat} (order : n ≤ k) {x : Var} (y : Var)
    (isNew : y.id < k + 1) : (s.add x (.ref y)).Within (fun z => V z ∨ z = y) (k + 1) :=
  ((put.mono (order.trans (Nat.le_succ k))).widen fun _ => Or.inl).add
    (ref_within isNew (.inr rfl))

theorem freshen_scope {x y : Var} {l : List Column}
    (scope : InScope (fun z => s.Reach V z ∨ z = x) n l) :
    InScope ((s.add x (.ref y)).Reach fun z => V z ∨ z = y) n l := by
  refine scope.widen fun z inScope => ?_
  rcases inScope with reach | rfl
  · exact Subst.Reach.add (reach.imp Or.inl id)
  · exact .inr (by simp [Subst.get?_add])

/-- New columns for a telescope are in scope, and their variables are new. -/
theorem freshen_inScope {l fields : List Column} (put : s.Within V n)
    (scope : InScope (s.Reach V) n l) (done : freshen env s l n = .ok (fields, m)) :
    n ≤ m ∧ InScope V m fields ∧ (∀ c ∈ fields, n ≤ c.1.id) := by
  induction l generalizing s V n fields with
  | nil =>
      cases fresh_pure done
      exact ⟨Nat.le_refl _, trivial, by simp⟩
  | cons c rest ih =>
      obtain ⟨x, type⟩ := c
      obtain ⟨_, typeIn, restIn⟩ := scope
      obtain ⟨type', k, tail, applied, renamed, rfl⟩ := freshen_cons done
      obtain ⟨order, typeWithin, _⟩ := put.yields typeIn _ _ applied
      have later : n ≤ k + 1 := order.trans (Nat.le_succ k)
      obtain ⟨next, tailIn, new⟩ := ih (freshen_put put order _ (Nat.lt_succ_self k))
        (freshen_scope (restIn.mono later)) renamed
      have old : k < m := next
      refine ⟨later.trans next, ⟨old, typeWithin.mono old.le, tailIn⟩, ?_⟩
      exact List.forall_mem_cons.mpr ⟨order, fun c member => later.trans (new c member)⟩

/-- New variables are numbered one after another, so no two are the same. -/
theorem freshen_nodup {l fields : List Column} (put : s.Within V n)
    (scope : InScope (s.Reach V) n l) (done : freshen env s l n = .ok (fields, m)) :
    (fields.map Prod.fst).Nodup := by
  induction l generalizing s V n fields with
  | nil =>
      cases fresh_pure done
      exact List.nodup_nil
  | cons c rest ih =>
      obtain ⟨x, type⟩ := c
      obtain ⟨_, typeIn, restIn⟩ := scope
      obtain ⟨type', k, tail, applied, renamed, rfl⟩ := freshen_cons done
      obtain ⟨order, _, _⟩ := put.yields typeIn _ _ applied
      have later : n ≤ k + 1 := order.trans (Nat.le_succ k)
      have put' := freshen_put (x := x) put order ⟨k, x.name⟩ (Nat.lt_succ_self k)
      have scope' := freshen_scope (y := ⟨k, x.name⟩) (restIn.mono later)
      obtain ⟨_, _, new⟩ := freshen_inScope put' scope' renamed
      refine List.nodup_cons.mpr ⟨fun member => ?_, ih put' scope' renamed⟩
      obtain ⟨c, isField, same⟩ := List.mem_map.mp member
      have isNew := new c isField
      rw [same] at isNew
      exact Nat.lt_irrefl k isNew

theorem replaceIn_inScope {l columns : List Column} (put : s.Within V n)
    (scope : InScope (s.Reach V) n l) (done : replaceIn env s l n = .ok (columns, m)) :
    n ≤ m ∧ InScope V m columns := by
  induction l generalizing V n columns with
  | nil =>
      unfold replaceIn at done
      rw [List.mapM_nil] at done
      cases fresh_pure done
      exact ⟨Nat.le_refl _, trivial⟩
  | cons c rest ih =>
      obtain ⟨x, type⟩ := c
      obtain ⟨old, typeIn, restIn⟩ := scope
      obtain ⟨type', k, tail, applied, replaced, rfl⟩ := replaceIn_cons done
      obtain ⟨order, typeWithin, _⟩ := put.yields typeIn _ _ applied
      have restIn' : InScope (s.Reach fun z => V z ∨ z = x) k rest := by
        refine (restIn.mono order).widen fun z inScope => ?_
        rcases inScope with reach | rfl
        · exact reach.imp Or.inl id
        · exact .inl (.inr rfl)
      obtain ⟨next, tailIn⟩ := ih ((put.mono order).widen fun _ => Or.inl) restIn' replaced
      exact ⟨order.trans next, old.trans_le (order.trans next), typeWithin.mono next, tailIn⟩

end Steps

section Values

variable {R : Nameless → Nameless → Prop} {env : Environment} {σ τ : Var → Nameless} {s : Subst}

/-- The variable of the column stands for the value, which is one of its type. -/
def Stands (R : Nameless → Nameless → Prop) (env : Environment) (σ : Var → Nameless) (c : Column)
    (v : Term) : Prop :=
  σ c.1 = v.reading ∧ v.Inhabits R env (c.2.reading.inst id σ)

/-- Values for columns in step. -/
def Aligned (R : Nameless → Nameless → Prop) (env : Environment) (σ : Var → Nameless) :
    List Column → List Term → Prop := List.Forall₂ (Stands R env σ)

theorem inst_old {t : Term} (below : t.Below n) (agree : ∀ z, z.id < n → σ z = τ z) :
    t.reading.inst id σ = t.reading.inst id τ :=
  Nameless.inst_congr _ fun z member => agree z (below.freeVars (Term.mem_reading_freeVars.mp member))

/-- Only what stands for old variables matters. -/
theorem Aligned.agree {columns : List Column} {args : List Term} (aligned : Aligned R env σ columns args)
    (scope : InScope V n columns) (agree : ∀ z, z.id < n → τ z = σ z) :
    Aligned R env τ columns args := by
  induction aligned generalizing V with
  | nil => exact .nil
  | cons here _ ih =>
      obtain ⟨old, type, inner⟩ := scope
      refine .cons ⟨(agree _ old).trans here.1, ?_⟩ (ih inner)
      rw [inst_old type.below agree]
      exact here.2

/-- References to columns read as the values that the columns stand for. -/
theorem fieldRefs_readings {fields : List Column} {args : List Term}
    (aligned : Aligned R env σ fields args) :
    fields.map ((Nameless.inst id σ ∘ Term.reading) ∘ fun f => Term.ref f.1) =
      args.map Term.reading := by
  induction aligned with
  | nil => rfl
  | cons here _ ih =>
      rw [List.map_cons, List.map_cons, ih]
      exact congrArg (· :: _) here.1

/-- What the type of a binding becomes, over values for the substituted variables. -/
theorem instance_reading {type type' : Term} {k : Nat} (below : type.Below k)
    (agree : ∀ z, z.id < k → τ z = (s.image z).reading.inst id σ)
    (reading : type'.reading = type.reading.inst s.onUniverse fun z => (s.image z).reading) :
    type'.reading.inst id σ = type.reading.inst s.onUniverse τ := by
  rw [reading, Nameless.inst_inst, Function.id_comp]
  apply Nameless.inst_congr
  intro z member
  exact (agree z (below.freeVars (Term.mem_reading_freeVars.mp member))).symm

/-- New columns for a telescope stand for values that fit it. -/
theorem freshen_aligned {params : Telescope} {fields : List Column} {args : List Term} {k : Nat}
    (put : s.Within V n) (scope : InScope (s.Reach V) n (columnsOf params))
    (old : Telescope.Below k params) (order : k ≤ n)
    (fits : fieldsFit R env args params s.onUniverse τ)
    (agree : ∀ z, z.id < k → τ z = (s.image z).reading.inst id σ)
    (done : freshen env s (columnsOf params) n = .ok (fields, m)) :
    ∃ σ', (∀ z, z.id < n → σ' z = σ z) ∧ Aligned R env σ' fields args := by
  induction params generalizing s V n fields args σ τ with
  | nil =>
      cases fresh_pure done
      cases args with
      | nil => exact ⟨σ, fun _ _ => rfl, .nil⟩
      | cons a args => exact fits.elim
  | cons b params ih =>
      cases args with
      | nil => exact fits.elim
      | cons a args =>
          obtain ⟨_, typeIn, restIn⟩ := scope
          obtain ⟨oldType, oldRest⟩ := List.forall_mem_cons.mp old
          obtain ⟨type', k', tail, applied, renamed, rfl⟩ := freshen_cons done
          obtain ⟨later, typeWithin, reading⟩ := put.yields typeIn _ _ applied
          let y : Var := ⟨k', b.var.name⟩
          have isNew : ∀ z : Var, z.id < k' → z ≠ y := by
            rintro z isOld rfl
            exact Nat.lt_irrefl _ isOld
          let σ₁ := Function.update σ y a.reading
          have same : ∀ z : Var, z.id < k' → σ₁ z = σ z := fun z isOld =>
            Function.update_of_ne (isNew z isOld) _ _
          have put' := freshen_put (x := b.var) put later y (Nat.lt_succ_self k')
          have agree' : ∀ z, z.id < k → Function.update τ b.var a.reading z =
              ((s.add b.var (.ref y)).image z).reading.inst id σ₁ := by
            intro z isOld
            have isOldHere := isOld.trans_le (order.trans later)
            by_cases hit : z = b.var
            · subst hit
              simp [Subst.image, Subst.get?_add, Term.ref_reading, Nameless.inst, σ₁]
            · have image : (s.add b.var (.ref y)).image z = s.image z := by
                simp [Subst.image, Subst.get?_add, hit]
              rw [Function.update_of_ne hit, image, agree z isOld]
              exact (inst_old (image_below put isOldHere later) same).symm
          obtain ⟨σ', agree'', aligned⟩ := ih put'
            (freshen_scope (restIn.mono (later.trans (Nat.le_succ k')))) oldRest
            (order.trans (later.trans (Nat.le_succ k'))) fits.2 agree' renamed
          have here : σ' y = a.reading := by
            rw [agree'' y (Nat.lt_succ_self k')]
            exact Function.update_self _ _ _
          have before : ∀ z : Var, z.id < k' → σ' z = σ z := fun z isOld =>
            (agree'' z (isOld.trans (Nat.lt_succ_self k'))).trans (same z isOld)
          refine ⟨σ', fun z isOld => before z (isOld.trans_le later), .cons ⟨here, ?_⟩ aligned⟩
          rw [inst_old typeWithin.below before,
            instance_reading oldType.2 agree reading]
          exact fits.1

/-- Replaced variables that already stood for the same leave the columns as they were. -/
theorem replaceIn_aligned (likeness : Likeness R) {l columns : List Column} {args : List Term}
    {k : Nat} (put : s.Within V n) (levels : s.onUniverse = id) (scope : InScope (s.Reach V) k l)
    (order : k ≤ n) (like : ∀ z, z.id < k → R ((s.image z).reading.inst id σ) (σ z))
    (aligned : Aligned R env σ l args) (done : replaceIn env s l n = .ok (columns, m)) :
    Aligned R env σ columns args := by
  induction aligned generalizing V n columns with
  | nil =>
      unfold replaceIn at done
      rw [List.mapM_nil] at done
      cases fresh_pure done
      exact .nil
  | @cons c v l args here _ ih =>
      obtain ⟨x, type⟩ := c
      obtain ⟨_, typeIn, restIn⟩ := scope
      obtain ⟨type', k', tail, applied, replaced, rfl⟩ := replaceIn_cons done
      obtain ⟨later, _, reading⟩ := put.yields (typeIn.mono order) _ _ applied
      have restIn' : InScope (s.Reach fun z => V z ∨ z = x) k l := by
        refine restIn.widen fun z inScope => ?_
        rcases inScope with reach | rfl
        · exact reach.imp Or.inl id
        · exact .inl (.inr rfl)
      refine .cons ⟨here.1, here.2.like likeness ?_⟩
        (ih ((put.mono later).widen fun _ => Or.inl) restIn' (order.trans later) replaced)
      rw [instance_reading typeIn.below (fun z _ => rfl) reading, levels]
      refine likeness.inst _ _ fun z member => likeness.symm (like z ?_)
      exact typeIn.below.freeVars (Term.mem_reading_freeVars.mp member)

end Values

section Shapes

variable {env : Environment}

theorem telescope_inScope {params : Telescope} (below : Telescope.Below n params)
    (free : ∀ x ∈ telescopeFree params [], V x) : InScope V n (columnsOf params) := by
  induction params generalizing V with
  | nil => trivial
  | cons b params ih =>
      obtain ⟨here, rest⟩ := List.forall_mem_cons.mp below
      simp only [telescopeFree, List.mem_append, List.mem_filter, bne_iff_ne] at free
      refine ⟨here.1, ⟨here.2, fun x member => free x (.inl member)⟩, ih rest fun x member => ?_⟩
      by_cases same : x = b.var
      · exact .inr same
      · exact .inl (free x (.inr ⟨member, same⟩))

/-- The type of the inspected column is reduced in the scope of the columns before it. -/
theorem inspected {before rest : List Column} {column : Column} {shape : Term}
    (known : env.Within V n) (scope : InScope V n (before ++ column :: rest))
    (reduced : column.2.whnf env n = .ok (shape, m)) :
    n ≤ m ∧ shape.Within (Beside V before) m ∧ env.Within (Beside V before) m ∧
      InScope (Beside V before) m (column :: rest) := by
  obtain ⟨_, here⟩ := inScope_append.mp scope
  have known' := known.widen (W := Beside V before) fun _ => Or.inl
  obtain ⟨order, shapeIn⟩ := Term.whnf_within known' _ _ (Nat.le_refl n) here.2.1 _ _ reduced
  exact ⟨order, shapeIn, known'.mono order, here.mono order⟩

theorem fieldRefs_within {fields : List Column} (scope : InScope V n fields) :
    ∀ a ∈ fields.map fun f => Term.ref f.1, a.Within (Beside V fields) n := by
  intro a member
  obtain ⟨c, isField, rfl⟩ := List.mem_map.mp member
  exact ref_within (scope.column c isField).1 (.inr ⟨c, isField, rfl⟩)

/-- New columns for the parameters of a constructor, and the value they make. -/
theorem conFields {data : DataDef} {u : Universe} {args : List Term} {c : DefId}
    {con : ConstructorDef} {fields : List Column} (known : env.Within V n)
    (argsIn : ∀ a ∈ args, a.Within V n) (defined : env.constructor? c = some con)
    (fresh : freshen env ((Subst.instantiate data.params args).addStd u) (columnsOf con.params) n =
      .ok (fields, m)) :
    n ≤ m ∧ InScope V m fields ∧ ((∀ f ∈ fields, n ≤ f.1.id) ∧ (fields.map Prod.fst).Nodup) ∧
      (conValue c u args fields).Within (Beside V fields) m := by
  have put := (Subst.within_empty.bind data.params argsIn).addStd u
  have scope := (telescope_inScope (known.constructors c con defined)
    (known.shapes c con defined)).widen fun x inScope =>
      (Or.inl inScope : ((Subst.instantiate data.params args).addStd u).Reach V x)
  obtain ⟨order, fieldsIn, new⟩ := freshen_inScope put scope fresh
  refine ⟨order, fieldsIn, ⟨new, freshen_nodup put scope fresh⟩, ?_⟩
  have refs := terms_within.mp (fieldRefs_within fieldsIn)
  have dataArgs := terms_within.mp (within_later argsIn order)
  refine ⟨Term.below_con.mpr ⟨dataArgs.1, refs.1⟩, fun x member => ?_⟩
  rcases List.mem_append.mp member with inArgs | inRefs
  · exact .inl (dataArgs.2 x inArgs)
  · exact refs.2 x inRefs

/-- New columns for the components of a tuple, and the tuple they make. -/
theorem tupleFields {params : Telescope} {fields : List Column}
    (typeIn : (Term.sigma params).Within V n)
    (fresh : freshen env .empty (columnsOf params) n = .ok (fields, m)) :
    n ≤ m ∧ InScope V m fields ∧ ((∀ f ∈ fields, n ≤ f.1.id) ∧ (fields.map Prod.fst).Nodup) ∧
      (tupleValue (.sigma params) fields).Within (Beside V fields) m := by
  have scope := (telescope_inScope (Term.below_sigma.mp typeIn.below) typeIn.free).widen
    fun x inScope => (Or.inl inScope : Subst.empty.Reach V x)
  obtain ⟨order, fieldsIn, new⟩ := freshen_inScope Subst.within_empty scope fresh
  refine ⟨order, fieldsIn, ⟨new, freshen_nodup Subst.within_empty scope fresh⟩, ?_⟩
  have refs := terms_within.mp (fieldRefs_within fieldsIn)
  have type := (typeIn.mono order).widen fun x => (Or.inl : V x → Beside V fields x)
  refine ⟨Term.below_tuple.mpr ⟨refs.1, type.below⟩, fun x member => ?_⟩
  rcases List.mem_append.mp member with inRefs | inType
  · exact refs.2 x inRefs
  · exact type.free x inType

variable {column : Column} {rest fields columns : List Column} {rows inner : List Row}
  {shape : Shape} {value : Term}

theorem single_put {x : Var} {t : Term} (within : t.Within V n) :
    (Subst.single x t).Within V n := Subst.within_empty.add within

theorem single_scope {x : Var} {t : Term} {l : List Column}
    (scope : InScope (fun z => V z ∨ z = x) n l) (wider : ∀ z, V z → W z) :
    InScope ((Subst.single x t).Reach W) n l :=
  scope.widen fun z inScope => inScope.imp (wider z) fun same => by
    simp [Subst.single, Subst.get?_add, same]

/-- The columns below a shape are in scope of the columns before the inspected one. -/
theorem Enters.inScope {k : Nat}
    (enters : Enters env column rest rows shape value fields n columns inner m)
    (scope : InScope V k (column :: rest)) (order : k ≤ n) (fieldsIn : InScope V n fields)
    (valueIn : value.Within (Beside V fields) n) : n ≤ m ∧ InScope V m columns := by
  obtain ⟨others, types, rfl⟩ := enters.types
  obtain ⟨later, othersIn⟩ := replaceIn_inScope (single_put valueIn)
    (single_scope (scope.2.2.mono order) fun _ => Or.inl) types
  exact ⟨later, inScope_append.mpr ⟨fieldsIn.mono later, othersIn⟩⟩

/-- The columns below a shape stand for the components and the values after. -/
theorem Enters.aligned {k : Nat} {R : Nameless → Nameless → Prop} {σ : Var → Nameless}
    {components others : List Term} (likeness : Likeness R)
    (enters : Enters env column rest rows shape value fields n columns inner m)
    (scope : InScope V k (column :: rest)) (order : k ≤ n)
    (valueIn : value.Within (Beside V fields) n)
    (fieldsAligned : Aligned R env σ fields components) (restAligned : Aligned R env σ rest others)
    (like : R (value.reading.inst id σ) (σ column.1)) :
    Aligned R env σ columns (components ++ others) := by
  obtain ⟨rest', types, rfl⟩ := enters.types
  refine List.rel_append fieldsAligned ?_
  refine replaceIn_aligned likeness (single_put valueIn) rfl
    (single_scope scope.2.2 fun _ => Or.inl) order (fun z _ => ?_) restAligned types
  by_cases same : z = column.1
  · subst same
    simpa [Subst.image, Subst.single, Subst.get?_add] using like
  · have missing : (Subst.single column.1 value).get? z = none := by
      rw [Subst.single, Subst.get?_add, if_neg same]
      rfl
    rw [Subst.image, missing]
    exact likeness.refl _

theorem onUniverse_levels {s t : Subst} (same : s.levels = t.levels) :
    s.onUniverse = t.onUniverse := by
  funext u
  simp [Subst.onUniverse, Subst.sort, same]

end Shapes

end Matching

end PathTheory
