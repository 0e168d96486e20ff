import PathTheory.Proofs.Elaboration.Sessions
/-!
Accepted functions. An error term stands for something that is missing, and wherever elaboration
makes one it reports an error; but error terms also come in with definitions that are only declared
or that failed before. If everything that a function names is known for good, then the function is
stored without error terms once it is accepted.
-/
namespace PathTheory

open Surface (Expr Declaration FunctionDecl)

/-- Definitions with the property may be mentioned, data types among them; nothing may be missing
    and nothing may be open. -/
def Allowance.sure (env : Environment) (known : DefId → Prop) : Allowance where
  hole := fun _ => False
  error := False
  definition := known
  data := fun d => known d ∧ (env.data? d).isSome

/-- The same for what is made from here on. -/
def Ground.sure (env : Environment) (known : DefId → Prop) : Ground where
  bounded := True
  first := env.metas.size
  error := False
  definition := known
  data := fun d => known d ∧ (env.data? d).isSome

section Sure

variable {env : Environment} {known : DefId → Prop} {config : Config}

theorem Ground.sure_suits (sure : env.Allowed (.sure env known)) (number : known Library.nat)
    (isData : (env.data? Library.nat).isSome) (limit : 0 < config.missingLimit) :
    (Ground.sure env known).Suits config (.start env) where
  holds := by
    have order : Allowance.sure env known ≤ Moment.allowance (.sure env known) (.start env) :=
      ⟨fun _ => False.elim, False.elim, fun _ own => own, fun _ own => own⟩
    refine ⟨fun _ => le_rfl, ⟨fun x definition own found => ?_, ?_, sure.instances, ?_⟩,
      Store.empty_allowed _⟩
    · exact (sure.definitions x definition own found).mono order
    · exact fun x own => ⟨own.1, .inr own.2⟩
    · intro m _ own _
      obtain ⟨new, old⟩ := own trivial
      exact absurd old (Nat.not_lt.mpr new)
  data := fun _ own isData => ⟨own, isData⟩
  number := ⟨number, isData⟩
  made := fun _ m new old => absurd old (Nat.not_lt.mpr new)
  limit := .inr limit

end Sure

/-- A function that names only what is known, itself included, and in which nothing depends on an
    absurd pattern. It takes the name of no data type that is known, and what is an instance of it
    is known. -/
structure Surface.FunctionDecl.Fits (env : Environment) (known : DefId → Prop) (d : FunctionDecl) :
    Prop where
  within : d.Within known False
  data : ∀ x, known x → (env.data? x).isSome → x.index ≠ d.id.index
  instances : ∀ i ∈ env.instances, i.ofClass = d.id → known i.value

/-- Functions one after another, each of which names only what is known by then. -/
inductive Surface.FunctionDecl.InOrder (instances : List Instance) :
    (DefId → Prop) → List FunctionDecl → Prop
  | nil {known : DefId → Prop} : InOrder instances known []
  | cons {known : DefId → Prop} {d : FunctionDecl} {rest : List FunctionDecl}
      (within : d.Within known False) (fresh : ∀ x, known x → x.index ≠ d.id.index)
      (values : ∀ i ∈ instances, i.ofClass = d.id → known i.value)
      (others : InOrder instances (fun x => known x ∨ x = d.id) rest) :
      InOrder instances known (d :: rest)

namespace Session

/-- Some definitions are known for good: they mention only each other, no metavariables and no
    errors. Numbers are among them, and missing clauses are listed. -/
structure Sure (s : Session) (known : DefId → Prop) : Prop where
  allowed : s.env.Allowed (.sure s.env known)
  number : known Library.nat
  isData : (s.env.data? Library.nat).isSome
  limit : 0 < s.config.missingLimit

variable {s s' : Session} {d : FunctionDecl} {known : DefId → Prop}

theorem elaborate_config {α : Type} {e : Elaborate α} {x : α}
    (done : elaborate e s = .ok (x, s')) : s'.config = s.config := by
  unfold elaborate at done
  obtain ⟨_, _, final⟩ := bind_ok done
  cases final
  rfl

/-- Once a function is accepted, it is known for good as well. -/
theorem Sure.accepted (sure : s.Sure known) (fits : d.Fits s.env known) {id : DefId}
    (done : declare (.function d) s = .ok (.ok id, s')) :
    s'.Sure (fun x => known x ∨ x = d.id) ∧ s'.env.instances = s.env.instances := by
  obtain ⟨st, store, n, run⟩ := elaborate_run done
  have suits := Ground.sure_suits sure.allowed sure.number sure.isData sure.limit
  have admits : (Ground.sure s.env known).Admits d.id s.env :=
    ⟨.inr fun x own => fits.data x own.1 own.2, fits.instances⟩
  have replaces := d.elaborate_replaces (c := .start s.env) suits admits fits.within run
  have spares : s.env.Spares [d.id] s'.env := replaces.spares
  have kept : ∀ x : DefId, x.index ≠ d.id.index →
      s'.env.definition? x = s.env.definition? x := fun x apart =>
    spares.definitions x (List.forall_mem_singleton.mpr apart.symm)
  have isData : ∀ x, known x → (s.env.data? x).isSome → (s'.env.data? x).isSome := by
    intro x own isData
    unfold Environment.data? at isData ⊢
    rwa [kept x (fits.data x own isData)]
  obtain ⟨c₁, _, _, settles, silent⟩ := replaces
  have strict := settles.finishes.noError (fun missing => missing) (silent ⟨id, rfl⟩)
  have carries := settles.finishes.carries trivial
  refine ⟨⟨⟨fun x definition own found => ?_, fun x own => ⟨own.1, .inr own.2⟩, ?_,
    fun _ _ none => none.elim⟩, .inl sure.number, isData _ sure.number sure.isData, ?_⟩,
    spares.instances⟩
  · by_cases same : x.index = d.id.index
    · unfold Environment.definition? at found
      rw [same] at found
      obtain ⟨before, fine, zonks⟩ :=
        settles.stores.stored d.id (List.mem_singleton_self _) definition found
      exact (zonks.allowed carries fine).mono ⟨fun _ none => none, strict, fun _ own => own,
        fun x own => ⟨.inl own.1, isData x own.1 own.2⟩⟩
    · rw [kept x same] at found
      have own : known x := own.resolve_right fun isOwn => same (congrArg DefId.index isOwn)
      exact (sure.allowed.definitions x definition own found).mono ⟨fun _ none => none,
        fun missing => missing, fun _ own => .inl own,
        fun x own => ⟨.inl own.1, isData x own.1 own.2⟩⟩
  · intro i listed own
    rw [spares.instances] at listed
    exact .inl (own.elim (sure.allowed.instances i listed) (fits.instances i listed))
  · rw [elaborate_config done]
    exact sure.limit

/-- No error stands in a definition that is known for good. -/
theorem Sure.noError (sure : s.Sure known) {x : DefId} (own : known x) {definition : Definition}
    (stored : s.env.definition? x = some definition) :
    ∀ t ∈ definition.terms, ∀ part ∈ t.subterms, part.isError = false :=
  (sure.allowed.definitions x definition own stored).noError fun missing => missing

/-- A function that is accepted is stored without error terms, if all that it names is known for
    good: definitions that mention only each other, no metavariables and no errors. The function
    may mention itself, but nothing may come after an absurd pattern, and missing clauses have to be
    listed. -/
theorem accepted_without_errors (sure : s.Sure known) (fits : d.Fits s.env known) {id : DefId}
    (accepted : declare (.function d) s = .ok (.ok id, s')) {definition : Definition}
    (stored : s'.env.definition? d.id = some definition) :
    ∀ t ∈ definition.terms, ∀ part ∈ t.subterms, part.isError = false :=
  (sure.accepted fits accepted).1.noError (.inr rfl) stored

theorem load_cons {d : Declaration} {rest : List Declaration}
    (done : load (d :: rest) s = .ok (.ok (), s')) :
    ∃ id s₁, declare d s = .ok (.ok id, s₁) ∧ load rest s₁ = .ok (.ok (), s') := by
  unfold load at done
  obtain ⟨⟨r, s₁⟩, declared, next⟩ := bind_ok done
  cases r with
  | ok id => exact ⟨id, s₁, declared, next⟩
  | error failure => cases next

/-- Functions that are loaded in order are known for good from then on. -/
theorem Sure.load {ds : List FunctionDecl} (sure : s.Sure known)
    (ordered : FunctionDecl.InOrder s.env.instances known ds)
    (done : load (ds.map .function) s = .ok (.ok (), s')) :
    s'.Sure fun x => known x ∨ x ∈ ds.map (·.id) := by
  induction ds generalizing s known with
  | nil =>
      cases done
      simpa using sure
  | cons d rest ih =>
      obtain ⟨id, s₁, declared, others⟩ := load_cons done
      cases ordered with
      | cons within fresh values later =>
          obtain ⟨sure₁, instances⟩ :=
            sure.accepted ⟨within, fun x own _ => fresh x own, values⟩ declared
          simpa [or_assoc] using ih sure₁ (instances ▸ later) others

/-- Functions that are loaded in order are stored without error terms. -/
theorem loaded_without_errors {ds : List FunctionDecl} (sure : s.Sure known)
    (ordered : FunctionDecl.InOrder s.env.instances known ds)
    (done : load (ds.map .function) s = .ok (.ok (), s')) (listed : d ∈ ds)
    {definition : Definition} (stored : s'.env.definition? d.id = some definition) :
    ∀ t ∈ definition.terms, ∀ part ∈ t.subterms, part.isError = false :=
  (sure.load ordered done).noError (.inr (List.mem_map_of_mem listed)) stored

/-- The declaration is accepted, and what is then stored for a definition passes the test. -/
def declaresWith (d : Declaration) (s : Session) (x : DefId) (test : Definition → Bool) : Bool :=
  match declare d s with
  | .ok (.ok _, s') => (s'.env.definition? x).any test
  | _ => false

theorem declaresWith_run {d : Declaration} {s : Session} {x : DefId} {test : Definition → Bool}
    (accepts : declaresWith d s x test = true) : ∃ id s' definition,
      declare d s = .ok (.ok id, s') ∧ s'.env.definition? x = some definition ∧
      test definition = true := by
  unfold declaresWith at accepts
  split at accepts
  · rename_i id s' accepted
    obtain ⟨definition, stored, passes⟩ := (Option.any_eq_true _ _).mp accepts
    exact ⟨id, s', definition, accepted, stored, passes⟩
  · cases accepts

section Plus

open Surface Library

section Within

variable {definition : DefId → Prop} {error : Prop}

theorem within_var (span : Span) (x : Var) : (Expr.var span x).Within definition error := by
  rw [Expr.within_iff]
  simp [Expr.names, Expr.clauses, Expr.children]

theorem within_const {span : Span} {d : DefId} :
    (Expr.const span d).Within definition error ↔ definition d := by
  rw [Expr.within_iff]
  simp [Expr.names, Expr.clauses, Expr.children]

theorem within_app {span : Span} {head : Expr} {args : List (Mode × Expr)} :
    (Expr.app span head args).Within definition error ↔
      head.Within definition error ∧ ∀ arg ∈ args, arg.2.Within definition error := by
  rw [Expr.within_iff]
  simp only [Expr.names, Expr.clauses, Expr.children, List.not_mem_nil, false_imp_iff,
    implies_true, true_and, List.forall_mem_cons, List.forall_mem_map]

end Within

def plus : DefId := ⟨11, "plus"⟩

/-- Addition by recursion on its first argument. -/
def plusDecl : FunctionDecl where
  span := .none
  id := plus
  params := [⟨.explicit, ⟨29, "m"⟩, .const .none nat⟩, ⟨.explicit, ⟨30, "n"⟩, .const .none nat⟩]
  result := some (.const .none nat)
  body := .clauses none [
    ⟨.none, [.con .none zero [], .var ⟨31, "n"⟩], some (.var .none ⟨31, "n"⟩)⟩,
    ⟨.none, [.con .none suc [.var ⟨32, "m"⟩], .var ⟨33, "n"⟩],
      some (.app .none (.const .none suc) [(.explicit, .app .none (.const .none plus)
        [(.explicit, .var .none ⟨32, "m"⟩), (.explicit, .var .none ⟨33, "n"⟩)])])⟩]

def reservedPlus : Session :=
  { ((start .standard 20).reserveFunction "plus").2 with nextVar := 34 }

/-- What the numbers are made of. -/
def isNumeric (x : DefId) : Prop := x ∈ [nat, zero, suc]

theorem numeric_allowed : reservedPlus.env.Allowed (.sure reservedPlus.env isNumeric) where
  definitions := by
    have number : natType.Allowed (.sure reservedPlus.env isNumeric) :=
      Term.allowed_data.mpr ⟨⟨List.mem_cons_self, rfl⟩, List.forall_mem_nil _⟩
    intro x definition own found
    have own : x ∈ [nat, zero, suc] := own
    simp only [List.mem_cons, List.not_mem_nil, or_false] at own
    rcases own with rfl | rfl | rfl
    · cases found
      exact ⟨Telescope.allowed_nil, by simp [Allowance.sure, isNumeric]⟩
    · cases found
      exact ⟨Telescope.allowed_nil, List.mem_cons_self, rfl⟩
    · cases found
      exact ⟨Telescope.allowed_cons.mpr ⟨number, Telescope.allowed_nil⟩, List.mem_cons_self, rfl⟩
  data := fun x own => ⟨own.1, .inr own.2⟩
  instances := nofun
  metas := fun _ _ none => none.elim

theorem numeric_sure : reservedPlus.Sure isNumeric :=
  ⟨numeric_allowed, List.mem_cons_self, rfl, by decide⟩

theorem plus_within : plusDecl.Within isNumeric False where
  params := by simp [plusDecl, within_const, isNumeric]
  result := by simp [plusDecl, within_const, isNumeric]
  body := by
    simp [plusDecl, BodyExpr.Within, ClauseOf.Within, ClauseOf.Matches, Pat.Within, patsWithin,
      within_app, within_const, within_var, isNumeric]

theorem plus_fits : plusDecl.Fits reservedPlus.env isNumeric where
  within := plus_within
  data := fun x own _ => by
    have apart : ∀ x ∈ [nat, zero, suc], x.index ≠ plus.index := by
      decide
    exact apart x own
  instances := nofun

theorem plus_without_errors : ∃ id s' definition,
    declare (.function plusDecl) reservedPlus = .ok (.ok id, s') ∧
    s'.env.definition? plus = some definition ∧
    ∀ t ∈ definition.terms, ∀ part ∈ t.subterms, part.isError = false := by
  have accepts : declaresWith (.function plusDecl) reservedPlus plus (fun _ => true) = true := by
    decide +kernel
  obtain ⟨id, s', definition, accepted, stored, _⟩ := declaresWith_run accepts
  exact ⟨id, s', definition, accepted, stored,
    accepted_without_errors numeric_sure plus_fits accepted stored⟩

end Plus

section Absorbed

open Surface Library

def unfinished : DefId := ⟨11, "f"⟩

/-- A function that is only declared, applied to a number. -/
def absorbing : FunctionDecl where
  span := .none
  id := ⟨12, "g"⟩
  params := []
  result := some (.const .none nat)
  body := .term (.app .none (.const .none unfinished) [(.explicit, .number .none 0)])

def reservedBoth : Session := (((start .standard 20).reserveFunction "f").2.reserveFunction "g").2

/-- The application is accepted, and an error term is stored in its place. -/
theorem absorbing_accepted : ∃ id s' f,
    declare (.function absorbing) reservedBoth = .ok (.ok id, s') ∧
    s'.env.definition? absorbing.id = some (.function f) ∧
    f.body.map Body.terms = some [declared] ∧ declared.isError = true := by
  have accepts : declaresWith (.function absorbing) reservedBoth absorbing.id (fun definition =>
      definition.function?.any fun f => f.body.map Body.terms = some [declared]) = true := by
    decide +kernel
  obtain ⟨id, s', definition, accepted, stored, absorbs⟩ := declaresWith_run accepts
  obtain ⟨f, isFunction, absorbed⟩ := (Option.any_eq_true _ _).mp absorbs
  cases definition <;> cases isFunction
  exact ⟨id, s', f, accepted, stored, of_decide_eq_true absorbed, rfl⟩

end Absorbed

end Session

end PathTheory
