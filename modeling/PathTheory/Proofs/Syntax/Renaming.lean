import PathTheory.Proofs.Syntax.Below
/-!
Renaming of variables. Every variable of a term is replaced by another one, binders included, so the
free variables are renamed in their order and nothing else changes. The main statement is that a
case tree has the reading of its renaming if and only if its free variables keep their names.
-/
namespace PathTheory

section Definitions

variable (ρ : Var → Var)

mutual

/-- The term with every variable renamed, binders included. -/
def Term.mapVars : Term → Term
  | .ref x => .ref (ρ x)
  | .lam mode x domain body => .lam mode (ρ x) domain.mapVars body.mapVars
  | .pi mode x domain codomain => .pi mode (ρ x) domain.mapVars codomain.mapVars
  | .sigma params => .sigma (mapTelescope params)
  | .tuple components type => .tuple (mapTerms components) type.mapVars
  | .proj whole index => .proj whole.mapVars index
  | .univ u => .univ u
  | .app fn arg => .app fn.mapVars arg.mapVars
  | .call f levels args => .call f levels (mapTerms args)
  | .con c levels params args => .con c levels (mapTerms params) (mapTerms args)
  | .data d levels args => .data d levels (mapTerms args)
  | .record c levels fields => .record c levels (mapFields fields)
  | .field f levels arg => .field f levels arg.mapVars
  | .new r => .new r.mapVars
  | .caseOf args params result tree =>
      .caseOf (mapTerms args) (mapTelescope params) result.mapVars tree.mapVars
  | .hole m => .hole m
  | .error message term => .error message (mapOption term)

def mapTerms : List Term → List Term
  | [] => []
  | a :: rest => a.mapVars :: mapTerms rest

def mapOption : Option Term → Option Term
  | none => none
  | some a => some a.mapVars

def mapFields : List (DefId × Term) → List (DefId × Term)
  | [] => []
  | (f, a) :: rest => (f, a.mapVars) :: mapFields rest

def mapTelescope : List (Binding Term) → List (Binding Term)
  | [] => []
  | ⟨mode, x, type⟩ :: rest => ⟨mode, ρ x, type.mapVars⟩ :: mapTelescope rest

def CaseTree.mapVars : CaseTree → CaseTree
  | .leaf params body => .leaf (mapTelescope params) body.mapVars
  | .branch params children => .branch (mapTelescope params) (mapChildren children)
  | .interval params ends rest =>
      .interval (mapTelescope params) (mapEnds ends) (mapRest rest)

def mapChildren : List (Shape × CaseTree) → List (Shape × CaseTree)
  | [] => []
  | (k, child) :: others => (k, child.mapVars) :: mapChildren others

def mapEnds : List (Ends Term) → List (Ends Term)
  | [] => []
  | ⟨left, right⟩ :: others => ⟨mapOption left, mapOption right⟩ :: mapEnds others

def mapRest : Option CaseTree → Option CaseTree
  | none => none
  | some tree => some tree.mapVars

end

mutual

def Scoped.mapVars : Scoped → Scoped
  | .var x => .var (ρ x)
  | .hole m => .hole m
  | .node label parts => .node label parts.mapVars

def Parts.mapVars : Parts → Parts
  | .nil => .nil
  | .part t rest => .part t.mapVars rest.mapVars
  | .binder mode x rest => .binder mode (ρ x) rest.mapVars

end

end Definitions

variable {ρ : Var → Var}

theorem mapTerms_eq (l : List Term) : mapTerms ρ l = l.map (Term.mapVars ρ) := by
  induction l with
  | nil => rfl
  | cons a rest ih => rw [mapTerms, ih, List.map_cons]

theorem mapOption_eq (a : Option Term) : mapOption ρ a = a.map (Term.mapVars ρ) := by
  cases a <;> rfl

def Binding.mapVars (ρ : Var → Var) (b : Binding Term) : Binding Term :=
  ⟨b.mode, ρ b.var, b.type.mapVars ρ⟩

theorem mapTelescope_eq (l : Telescope) : mapTelescope ρ l = l.map (Binding.mapVars ρ) := by
  induction l with
  | nil => rfl
  | cons b rest ih => rw [mapTelescope, ih, List.map_cons, Binding.mapVars]

def Ends.mapVars (ρ : Var → Var) (e : Ends Term) : Ends Term :=
  ⟨e.left.map (Term.mapVars ρ), e.right.map (Term.mapVars ρ)⟩

theorem mapEnds_eq (l : List (Ends Term)) : mapEnds ρ l = l.map (Ends.mapVars ρ) := by
  induction l with
  | nil => rfl
  | cons e rest ih => rw [mapEnds, ih, List.map_cons, Ends.mapVars, mapOption_eq, mapOption_eq]

section Trees

theorem Parts.one_mapVars (t : Scoped) : (Parts.one t).mapVars ρ = .one (t.mapVars ρ) := rfl

mutual

theorem Term.toScoped_mapVars : ∀ t : Term, (t.mapVars ρ).toScoped = t.toScoped.mapVars ρ
  | .ref _ | .univ _ | .hole _ => rfl
  | .lam _ _ a b | .pi _ _ a b | .app a b => by
      simp [Term.mapVars, Term.toScoped, Scoped.mapVars, Parts.mapVars, Parts.one_mapVars,
        a.toScoped_mapVars, b.toScoped_mapVars]
  | .sigma params => by
      simp [Term.mapVars, Term.toScoped, Scoped.mapVars, Parts.mapVars,
        telescopeParts_mapVars params]
  | .tuple components type => by
      simp [Term.mapVars, Term.toScoped, Scoped.mapVars, Parts.one_mapVars,
        termsParts_mapVars components, type.toScoped_mapVars]
  | .proj a _ | .field _ _ a | .new a => by
      simp [Term.mapVars, Term.toScoped, Scoped.mapVars, Parts.one_mapVars, a.toScoped_mapVars]
  | .call _ _ args | .data _ _ args => by
      simp [Term.mapVars, Term.toScoped, Scoped.mapVars, Parts.mapVars, termsParts_mapVars args]
  | .con _ _ params args => by
      simp [Term.mapVars, Term.toScoped, Scoped.mapVars, Parts.mapVars, termsParts_mapVars params,
        termsParts_mapVars args]
  | .record _ _ fields => by
      simp [Term.mapVars, Term.toScoped, Scoped.mapVars, fieldsParts_mapVars fields]
  | .caseOf args params result tree => by
      simp [Term.mapVars, Term.toScoped, Scoped.mapVars, Parts.mapVars, Parts.one_mapVars,
        termsParts_mapVars args, telescopeParts_mapVars params, result.toScoped_mapVars,
        tree.toScoped_mapVars]
  | .error _ a => by
      simp [Term.mapVars, Term.toScoped, Scoped.mapVars, Parts.one_mapVars, optionScoped_mapVars a]

theorem termsParts_mapVars : ∀ (l : List Term) (rest : Parts),
    (termsParts l rest).mapVars ρ = termsParts (mapTerms ρ l) (rest.mapVars ρ)
  | [], _ => rfl
  | a :: others, rest => by
      simp [mapTerms, termsParts, Parts.mapVars, a.toScoped_mapVars, termsParts_mapVars others]

theorem optionScoped_mapVars : ∀ a : Option Term,
    optionScoped (mapOption ρ a) = (optionScoped a).mapVars ρ
  | none => rfl
  | some a => by
      simp [mapOption, optionScoped, Scoped.mapVars, Parts.one_mapVars, a.toScoped_mapVars]

theorem fieldsParts_mapVars : ∀ l : List (DefId × Term),
    fieldsParts (mapFields ρ l) = (fieldsParts l).mapVars ρ
  | [] => rfl
  | (_, a) :: others => by
      simp [mapFields, fieldsParts, Scoped.mapVars, Parts.mapVars, Parts.one_mapVars,
        a.toScoped_mapVars, fieldsParts_mapVars others]

theorem telescopeParts_mapVars : ∀ (l : List (Binding Term)) (rest : Parts),
    (telescopeParts l rest).mapVars ρ = telescopeParts (mapTelescope ρ l) (rest.mapVars ρ)
  | [], _ => rfl
  | ⟨_, _, a⟩ :: others, rest => by
      simp [mapTelescope, telescopeParts, Parts.mapVars, a.toScoped_mapVars,
        telescopeParts_mapVars others]

theorem CaseTree.toScoped_mapVars : ∀ t : CaseTree, (t.mapVars ρ).toScoped = t.toScoped.mapVars ρ
  | .leaf params body => by
      simp [CaseTree.mapVars, CaseTree.toScoped, Scoped.mapVars, telescopeParts_mapVars params,
        Parts.one_mapVars, body.toScoped_mapVars]
  | .branch params children => by
      simp [CaseTree.mapVars, CaseTree.toScoped, Scoped.mapVars, telescopeParts_mapVars params,
        childrenParts_mapVars children]
  | .interval params ends rest => by
      simp [CaseTree.mapVars, CaseTree.toScoped, Scoped.mapVars, Parts.mapVars, Parts.one_mapVars,
        telescopeParts_mapVars params, endsParts_mapVars ends, restScoped_mapVars rest]

theorem childrenParts_mapVars : ∀ l : List (Shape × CaseTree),
    childrenParts (mapChildren ρ l) = (childrenParts l).mapVars ρ
  | [] => rfl
  | (_, t) :: others => by
      simp [mapChildren, childrenParts, Scoped.mapVars, Parts.mapVars, Parts.one_mapVars,
        t.toScoped_mapVars, childrenParts_mapVars others]

theorem endsParts_mapVars : ∀ l : List (Ends Term),
    endsParts (mapEnds ρ l) = (endsParts l).mapVars ρ
  | [] => rfl
  | ⟨a, b⟩ :: others => by
      simp [mapEnds, endsParts, Parts.mapVars, optionScoped_mapVars a, optionScoped_mapVars b,
        endsParts_mapVars others]

theorem restScoped_mapVars : ∀ t : Option CaseTree,
    restScoped (mapRest ρ t) = (restScoped t).mapVars ρ
  | none => rfl
  | some t => by
      simp [mapRest, restScoped, Scoped.mapVars, Parts.one_mapVars, t.toScoped_mapVars]

end

end Trees

section Old

variable {n : Nat}

/-- Variables that were made before the counter reached this number keep their names. -/
def FixesBelow (ρ : Var → Var) (n : Nat) : Prop := ∀ x : Var, x.id < n → ρ x = x

mutual

/-- A term that has old variables only is not changed if these keep their names. -/
theorem Term.mapVars_below (old : FixesBelow ρ n) : ∀ t : Term, t.Below n → t.mapVars ρ = t
  | .ref x, below => by rw [Term.mapVars, old x (Term.below_ref.mp below)]
  | .univ _, _ | .hole _, _ => rfl
  | .lam _ x a b, below => by
      obtain ⟨first, here, second⟩ := Term.below_lam.mp below
      rw [Term.mapVars, old x here, a.mapVars_below old first, b.mapVars_below old second]
  | .pi _ x a b, below => by
      obtain ⟨first, here, second⟩ := Term.below_pi.mp below
      rw [Term.mapVars, old x here, a.mapVars_below old first, b.mapVars_below old second]
  | .sigma params, below => by
      rw [Term.mapVars, mapTelescope_below old params (Term.below_sigma.mp below)]
  | .tuple components type, below => by
      obtain ⟨first, second⟩ := Term.below_tuple.mp below
      rw [Term.mapVars, mapTerms_below old components first, type.mapVars_below old second]
  | .proj a _, below => by rw [Term.mapVars, a.mapVars_below old (Term.below_proj.mp below)]
  | .app a b, below => by
      obtain ⟨first, second⟩ := Term.below_app.mp below
      rw [Term.mapVars, a.mapVars_below old first, b.mapVars_below old second]
  | .call _ _ args, below => by
      rw [Term.mapVars, mapTerms_below old args (Term.below_call.mp below)]
  | .con _ _ params args, below => by
      obtain ⟨first, second⟩ := Term.below_con.mp below
      rw [Term.mapVars, mapTerms_below old params first, mapTerms_below old args second]
  | .data _ _ args, below => by
      rw [Term.mapVars, mapTerms_below old args (Term.below_data.mp below)]
  | .record _ _ fields, below => by
      rw [Term.mapVars, mapFields_below old fields (Term.below_record.mp below)]
  | .field _ _ a, below => by rw [Term.mapVars, a.mapVars_below old (Term.below_field.mp below)]
  | .new a, below => by rw [Term.mapVars, a.mapVars_below old (Term.below_new.mp below)]
  | .caseOf args params result tree, below => by
      obtain ⟨first, ⟨second, third⟩, last⟩ := Term.below_caseOf.mp below
      rw [Term.mapVars, mapTerms_below old args first, mapTelescope_below old params second,
        result.mapVars_below old third, tree.mapVars_below old last]
  | .error _ a, below => by
      have inside : ∀ t ∈ a, t.Below n := by
        rw [Term.Below, Term.toScoped, Scoped.below_node, Parts.below_one] at below
        exact optionScoped_below.mp below
      rw [Term.mapVars, mapOption_below old a inside]

theorem mapTerms_below (old : FixesBelow ρ n) : ∀ l : List Term, (∀ a ∈ l, a.Below n) →
    mapTerms ρ l = l
  | [], _ => rfl
  | a :: others, below => by
      obtain ⟨here, rest⟩ := List.forall_mem_cons.mp below
      rw [mapTerms, a.mapVars_below old here, mapTerms_below old others rest]

theorem mapOption_below (old : FixesBelow ρ n) : ∀ a : Option Term, (∀ t ∈ a, t.Below n) →
    mapOption ρ a = a
  | none, _ => rfl
  | some a, below => by rw [mapOption, a.mapVars_below old (below a rfl)]

theorem mapFields_below (old : FixesBelow ρ n) : ∀ l : List (DefId × Term),
    (∀ entry ∈ l, entry.2.Below n) → mapFields ρ l = l
  | [], _ => rfl
  | (_, a) :: others, below => by
      obtain ⟨here, rest⟩ := List.forall_mem_cons.mp below
      rw [mapFields, a.mapVars_below old here, mapFields_below old others rest]

theorem mapTelescope_below (old : FixesBelow ρ n) : ∀ l : List (Binding Term), Telescope.Below n l →
    mapTelescope ρ l = l
  | [], _ => rfl
  | ⟨_, x, a⟩ :: others, below => by
      obtain ⟨here, rest⟩ := List.forall_mem_cons.mp below
      rw [mapTelescope, old x here.1, a.mapVars_below old here.2,
        mapTelescope_below old others rest]

theorem CaseTree.mapVars_below (old : FixesBelow ρ n) : ∀ t : CaseTree, t.Below n → t.mapVars ρ = t
  | .leaf params body, below => by
      obtain ⟨first, second⟩ := CaseTree.below_leaf.mp below
      rw [CaseTree.mapVars, mapTelescope_below old params first, body.mapVars_below old second]
  | .branch params children, below => by
      obtain ⟨first, second⟩ := CaseTree.below_branch.mp below
      rw [CaseTree.mapVars, mapTelescope_below old params first,
        mapChildren_below old children second]
  | .interval params ends rest, below => by
      obtain ⟨⟨first, second⟩, third⟩ := CaseTree.below_interval.mp below
      rw [CaseTree.mapVars, mapTelescope_below old params first, mapEnds_below old ends second,
        mapRest_below old rest third]

theorem mapChildren_below (old : FixesBelow ρ n) : ∀ l : List (Shape × CaseTree),
    (∀ entry ∈ l, entry.2.Below n) → mapChildren ρ l = l
  | [], _ => rfl
  | (_, t) :: others, below => by
      obtain ⟨here, rest⟩ := List.forall_mem_cons.mp below
      rw [mapChildren, t.mapVars_below old here, mapChildren_below old others rest]

theorem mapEnds_below (old : FixesBelow ρ n) : ∀ l : List (Ends Term),
    (∀ e ∈ l, (∀ t ∈ e.left, t.Below n) ∧ ∀ t ∈ e.right, t.Below n) → mapEnds ρ l = l
  | [], _ => rfl
  | ⟨a, b⟩ :: others, below => by
      obtain ⟨here, rest⟩ := List.forall_mem_cons.mp below
      rw [mapEnds, mapOption_below old a here.1, mapOption_below old b here.2,
        mapEnds_below old others rest]

theorem mapRest_below (old : FixesBelow ρ n) : ∀ t : Option CaseTree,
    (∀ tree ∈ t, tree.Below n) → mapRest ρ t = t
  | none, _ => rfl
  | some t, below => by rw [mapRest, t.mapVars_below old (below t rfl)]

end

end Old

theorem filter_ne_map (apart : ρ.Injective) (x : Var) (l : List Var) :
    (l.map ρ).filter (· != ρ x) = (l.filter (· != x)).map ρ := by
  rw [List.filter_map]
  congr 1
  refine List.filter_congr fun y _ => ?_
  rw [Function.comp_apply, Bool.eq_iff_iff, bne_iff_ne, bne_iff_ne, apart.ne_iff]

mutual

theorem Scoped.freeVars_mapVars (apart : ρ.Injective) : ∀ t : Scoped,
    (t.mapVars ρ).freeVars = t.freeVars.map ρ
  | .var _ | .hole _ => rfl
  | .node _ parts => by
      rw [Scoped.mapVars, Scoped.freeVars, parts.freeVars_mapVars apart, Scoped.freeVars]

theorem Parts.freeVars_mapVars (apart : ρ.Injective) : ∀ t : Parts,
    (t.mapVars ρ).freeVars = t.freeVars.map ρ
  | .nil => rfl
  | .part t rest => by
      rw [Parts.mapVars, Parts.freeVars, t.freeVars_mapVars apart, rest.freeVars_mapVars apart,
        Parts.freeVars, List.map_append]
  | .binder _ x rest => by
      rw [Parts.mapVars, Parts.freeVars, rest.freeVars_mapVars apart, filter_ne_map apart,
        Parts.freeVars]

end

theorem Term.freeVars_mapVars (apart : ρ.Injective) (t : Term) :
    (t.mapVars ρ).freeVars = t.freeVars.map ρ := by
  rw [← Term.toScoped_freeVars, ← Term.toScoped_freeVars, Term.toScoped_mapVars,
    t.toScoped.freeVars_mapVars apart]

theorem position_map (apart : ρ.Injective) (x : Var) (scope : List Var) :
    position (ρ x) (scope.map ρ) = position x scope := by
  induction scope with
  | nil => rfl
  | cons y scope ih => simp only [List.map_cons, position, apart.eq_iff, ih]

mutual

theorem Scoped.read_mapVars (apart : ρ.Injective) (scope : List Var) : ∀ t : Scoped,
    (t.mapVars ρ).read (scope.map ρ) = (t.read scope).inst id fun x => .free (ρ x)
  | .var x => by
      rw [Scoped.mapVars, Scoped.read, position_map apart, Scoped.read]
      cases position x scope <;> rfl
  | .hole _ => rfl
  | .node l parts => by
      rw [Scoped.mapVars, Scoped.read, Scoped.read, Nameless.inst,
        Label.map_id (f := id) fun _ => rfl, parts.read_mapVars apart scope]

theorem Parts.read_mapVars (apart : ρ.Injective) (scope : List Var) : ∀ t : Parts,
    (t.mapVars ρ).read (scope.map ρ) = (t.read scope).inst id fun x => .free (ρ x)
  | .nil => rfl
  | .part t rest => by
      rw [Parts.mapVars, Parts.read, Parts.read, NamelessParts.inst, t.read_mapVars apart scope,
        rest.read_mapVars apart scope]
  | .binder mode x rest => by
      rw [Parts.mapVars, Parts.read, Parts.read, NamelessParts.inst,
        ← rest.read_mapVars apart (x :: scope), List.map_cons]

end

/-- The renaming is alpha-equal to the tree itself just if no free variable is renamed. -/
theorem CaseTree.reading_mapVars_iff (apart : ρ.Injective) (t : CaseTree) :
    (t.mapVars ρ).reading = t.reading ↔ ∀ x ∈ t.freeVars, ρ x = x := by
  have renamed : (t.mapVars ρ).reading = t.reading.inst id fun x => .free (ρ x) := by
    rw [CaseTree.reading, CaseTree.toScoped_mapVars]
    exact Scoped.read_mapVars apart [] t.toScoped
  have kept : t.reading.inst id .free = t.reading :=
    Nameless.inst_self (fun _ => rfl) _ fun _ _ => rfl
  rw [renamed]
  constructor
  · intro same x free
    exact Nameless.free.inj (Nameless.inst_injective _ (same.trans kept.symm) x
      (CaseTree.mem_reading_freeVars.mpr free))
  · intro same
    refine Nameless.inst_self (fun _ => rfl) _ fun x free => ?_
    rw [same x (CaseTree.mem_reading_freeVars.mp free)]

end PathTheory
