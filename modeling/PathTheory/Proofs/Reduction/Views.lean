import PathTheory.Proofs.Reduction.Nameless
/-!
What reduction looks at. A term and its reading show it the same shapes, components, bodies and
ends.
-/
namespace PathTheory

section Levels

theorem Label.mapM_ok_iff {g : Universe → Checked Universe} {l : Label} :
    (∃ r, l.mapM g = .ok r) ↔ ∀ u ∈ l.sort?, ∃ v, g u = .ok v := by
  cases l with
  | univ u | call _ u | con _ u | data _ u | record _ u | field _ u =>
      simp only [Label.sort?, Option.mem_some_iff]
      constructor
      · rintro ⟨r, done⟩ _ rfl
        obtain ⟨v, mapped, _⟩ := bind_ok done
        exact ⟨v, mapped⟩
      · intro all
        obtain ⟨v, mapped⟩ := all u rfl
        simp only [Label.mapM, mapped]
        exact ⟨_, rfl⟩
  | _ =>
      exact ⟨fun _ u isSort => absurd isSort (Option.not_mem_none u), fun _ => ⟨_, rfl⟩⟩

theorem Subst.under_ok (s : Subst) (x : Var) (n : Nat) : ∃ y inner m,
    s.under x n = .ok ((y, inner), m) ∧ inner.zonks = s.zonks ∧ inner.levels = s.levels := by
  unfold Subst.under
  split
  · exact ⟨_, _, _, rfl, rfl, rfl⟩
  · refine ⟨_, _, _, rfl, ?_, ?_⟩ <;> split <;> rfl

variable {rule : HoleRule}

mutual

/-- A substitution gives a tree just if it gives all the levels in it. -/
theorem Scoped.subst_ok_iff (plain : rule.Plain) : ∀ (t : Scoped) (scope : List Var) {s : Subst}
    (n : Nat), s.zonks = false →
      ((∃ r, t.subst rule s n = .ok r) ↔ ∀ u ∈ (t.read scope).sorts, ∃ v, s.sort u = .ok v)
  | .var x, scope, s, n, _ => by
      have none : (Scoped.read scope (.var x)).sorts = [] := by
        unfold Scoped.read
        split <;> rfl
      rw [none]
      exact ⟨fun _ u member => absurd member List.not_mem_nil, fun _ => ⟨_, rfl⟩⟩
  | .hole m, scope, s, n, still => by
      refine ⟨fun _ u member => absurd member List.not_mem_nil, fun _ => ?_⟩
      unfold Scoped.subst
      split
      · exact ⟨_, rfl⟩
      · rw [plain s m still]
        exact ⟨_, rfl⟩
  | .node l parts, scope, s, n, still => by
      unfold Scoped.subst
      split
      · rename_i stop
        have noLevels : s.levels.isEmpty = true := by
          simp_all [Subst.isEmpty]
        refine ⟨fun _ u _ => ⟨u, ?_⟩, fun _ => ⟨_, rfl⟩⟩
        simp [Subst.sort, noLevels]
      · have split : (∀ u ∈ (Scoped.read scope (.node l parts)).sorts, ∃ v, s.sort u = .ok v) ↔
            (∀ u ∈ l.sort?, ∃ v, s.sort u = .ok v) ∧
              ∀ u ∈ (parts.read scope).sorts, ∃ v, s.sort u = .ok v := by
          simp [Scoped.read, Nameless.sorts, or_imp, forall_and]
        rw [split, ← Label.mapM_ok_iff, ← parts.subst_ok_iff plain scope n still]
        constructor
        · rintro ⟨r, done⟩
          obtain ⟨l', k, mapped, next⟩ := fresh_bind done
          obtain ⟨_, labels, same⟩ := fresh_lift mapped
          cases same
          obtain ⟨parts', m, replaced, _⟩ := fresh_bind next
          exact ⟨⟨_, labels⟩, ⟨_, replaced⟩⟩
        · rintro ⟨⟨l', labels⟩, ⟨parts', m⟩, replaced⟩
          rw [labels]
          exact ⟨_, fresh_map_of_ok replaced (Scoped.node l')⟩

theorem Parts.subst_ok_iff (plain : rule.Plain) : ∀ (t : Parts) (scope : List Var) {s : Subst}
    (n : Nat), s.zonks = false →
      ((∃ r, t.subst rule s n = .ok r) ↔ ∀ u ∈ (t.read scope).sorts, ∃ v, s.sort u = .ok v)
  | .nil, _, _, _, _ =>
      ⟨fun _ u member => absurd member List.not_mem_nil, fun _ => ⟨_, rfl⟩⟩
  | .part t rest, scope, s, n, still => by
      have split : (∀ u ∈ (Parts.read scope (.part t rest)).sorts, ∃ v, s.sort u = .ok v) ↔
          (∀ u ∈ (t.read scope).sorts, ∃ v, s.sort u = .ok v) ∧
            ∀ u ∈ (rest.read scope).sorts, ∃ v, s.sort u = .ok v := by
        simp [Parts.read, NamelessParts.sorts, or_imp, forall_and]
      rw [split, ← t.subst_ok_iff plain scope n still]
      constructor
      · rintro ⟨r, done⟩
        obtain ⟨t', k, head, next⟩ := fresh_bind done
        obtain ⟨rest', m, tail, _⟩ := fresh_bind next
        exact ⟨⟨_, head⟩, (rest.subst_ok_iff plain scope k still).mp ⟨_, tail⟩⟩
      · rintro ⟨⟨⟨t', k⟩, head⟩, levels⟩
        obtain ⟨⟨rest', m⟩, tail⟩ := (rest.subst_ok_iff plain scope k still).mpr levels
        exact ⟨_, fresh_then head (fresh_map_of_ok tail (Parts.part t'))⟩
  | .binder mode x rest, scope, s, n, still => by
      obtain ⟨y, inner, k, passed, zonks, levels⟩ := s.under_ok x n
      have sameSort : inner.sort = s.sort := by
        funext u
        simp [Subst.sort, levels]
      have inside := rest.subst_ok_iff plain (x :: scope) k (zonks.trans still)
      rw [sameSort] at inside
      refine Iff.trans ?_ inside
      constructor
      · rintro ⟨r, done⟩
        obtain ⟨_, _, first, next⟩ := fresh_bind done
        rw [passed] at first
        cases first
        obtain ⟨rest', m, tail, _⟩ := fresh_bind next
        exact ⟨_, tail⟩
      · rintro ⟨⟨rest', m⟩, tail⟩
        exact ⟨_, fresh_then passed (fresh_map_of_ok tail (Parts.binder mode y))⟩

end

end Levels

namespace Subst

variable {s : Subst} {n : Nat}

theorem apply_ok_iff (still : s.zonks = false) (env : Environment) (t : Term) (scope : List Var) :
    (∃ r, s.apply env t n = .ok r) ↔
      ∀ u ∈ (t.toScoped.read scope).sorts, ∃ v, s.sort u = .ok v := by
  rw [← t.toScoped.subst_ok_iff (rule_plain env) scope n still, Term.toScoped_subst]
  constructor
  · rintro ⟨⟨t', m⟩, done⟩
    exact ⟨_, fresh_map_of_ok done _⟩
  · rintro ⟨r, done⟩
    obtain ⟨t', m, first, _⟩ := fresh_map done
    exact ⟨_, first⟩

theorem applyTree_ok_iff (still : s.zonks = false) (env : Environment) (t : CaseTree)
    (scope : List Var) : (∃ r, s.applyTree env t n = .ok r) ↔
      ∀ u ∈ (t.toScoped.read scope).sorts, ∃ v, s.sort u = .ok v := by
  rw [← t.toScoped.subst_ok_iff (rule_plain env) scope n still, CaseTree.toScoped_subst]
  constructor
  · rintro ⟨⟨t', m⟩, done⟩
    exact ⟨_, fresh_map_of_ok done _⟩
  · rintro ⟨r, done⟩
    obtain ⟨t', m, first, _⟩ := fresh_map done
    exact ⟨_, first⟩

/-- A substitution puts for the names of a scope what stands at their places. -/
structure Agrees (s : Subst) (scope : List Var) (ρ : List Nameless) : Prop where
  lengths : scope.length = ρ.length
  image : ∀ z, (s.image z).reading = assign scope ρ z

theorem agrees_empty : empty.Agrees [] [] := ⟨rfl, fun _ => rfl⟩

theorem Agrees.add {scope : List Var} {ρ : List Nameless} (agrees : s.Agrees scope ρ) (x : Var)
    (t : Term) : (s.add x t).Agrees (x :: scope) (t.reading :: ρ) where
  lengths := congrArg (· + 1) agrees.lengths
  image z := by
    rw [assign_cons, ← agrees.image z, Subst.image, get?_add]
    split <;> rfl

theorem Agrees.bind {scope : List Var} {ρ : List Nameless} (agrees : s.Agrees scope ρ)
    {params : Telescope} {args : List Term} (enough : params.length ≤ args.length) :
    (s.bind params args).Agrees (params.vars.reverse ++ scope)
      (((args.map Term.reading).take params.length).reverse ++ ρ) := by
  induction params generalizing s args scope ρ with
  | nil => simpa [Subst.bind, Telescope.vars] using agrees
  | cons b params ih =>
      cases args with
      | nil => cases enough
      | cons a args =>
          rw [bind_cons]
          simpa [Telescope.vars] using
            ih (agrees.add b.var a) (Nat.le_of_succ_le_succ enough)

/-- Levels put in and places filled: what the substitution makes of a term. -/
theorem Agrees.reading {scope : List Var} {ρ : List Nameless} (agrees : s.Agrees scope ρ)
    (f : Universe → Universe) (t : Term) :
    ((t.toScoped.read scope).inst f .free).fill ρ 0 =
      t.reading.inst f fun z => (s.image z).reading := by
  have filled := Scoped.read_fill (f := f) agrees.lengths [] t.toScoped
  rw [List.nil_append, List.length_nil] at filled
  rw [filled]
  exact Nameless.inst_congr _ fun z _ => (agrees.image z).symm

theorem Agrees.reading_id {scope : List Var} {ρ : List Nameless} (agrees : s.Agrees scope ρ)
    (t : Term) : (t.toScoped.read scope).fill ρ 0 =
      t.reading.inst id fun z => (s.image z).reading := by
  have same : (t.toScoped.read scope).inst id .free = t.toScoped.read scope :=
    Nameless.inst_self (fun _ => rfl) _ fun _ _ => rfl
  rw [← agrees.reading id t, same]

end Subst

section Views

theorem termsParts_list (l : List Term) (rest : Parts) (scope : List Var) :
    ((termsParts l rest).read scope).list =
      l.map (fun t => t.toScoped.read scope) ++ (rest.read scope).list := by
  induction l with
  | nil => rfl
  | cons a others ih =>
      rw [termsParts, Parts.read, NamelessParts.list, ih]
      rfl

theorem terms_list (l : List Term) : ((termsParts l .nil).read []).list = l.map Term.reading := by
  rw [termsParts_list]
  exact List.append_nil _

theorem Term.applyAll_reading (fn : Term) (args : List Term) :
    (fn.applyAll args).reading = fn.reading.applyAll (args.map Term.reading) := by
  induction args generalizing fn with
  | nil => rfl
  | cons a others ih => exact ih (.app fn a)

theorem tuple_list (components : List Term) (type : Term) :
    ((termsParts components (.one (.node .ofType (.one type.toScoped)))).read []).list.dropLast =
      components.map Term.reading := by
  rw [termsParts_list]
  exact List.dropLast_concat

theorem Term.shape?_reading (t : Term) : t.reading.shape? =
    t.shape?.map fun (shape, components) => (shape, components.map Term.reading) := by
  cases t with
  | con c u params args =>
      change some (Shape.con c, ((termsParts args .nil).read []).list) = _
      rw [terms_list]
      rfl
  | tuple components type =>
      change some (Shape.tuple (NamelessParts.list _).dropLast.length, _) = _
      rw [tuple_list, List.length_map]
      rfl
  | _ => rfl

theorem Term.endpoint?_reading (env : Environment) (t : Term) :
    t.reading.endpoint? env = t.endpoint? env := by
  cases t <;> rfl

theorem Term.component?_reading (t : Term) (i : Nat) : t.reading.component? i =
    match t with
    | .tuple components _ => components[i]?.map Term.reading
    | _ => none := by
  cases t with
  | tuple components type =>
      change (NamelessParts.list _).dropLast[i]? = _
      rw [tuple_list, List.getElem?_map]
  | _ => rfl

theorem fields_slot? (f : DefId) (fields : List (DefId × Term)) :
    ((fieldsParts fields).read []).slot? f = (fields.lookup f).map Term.reading := by
  induction fields with
  | nil => rfl
  | cons entry others ih =>
      obtain ⟨g, t⟩ := entry
      change (if f = g then some t.reading else _) = _
      by_cases same : f = g
      · simp [same]
      · have apart : (f == g) = false := by
          simpa using same
        simp [List.lookup_cons, same, apart, ih]

theorem Term.fixed?_reading (t : Term) (f : DefId) : t.reading.fixed? f =
    match t with
    | .new r => (r.fixed? f).map Term.reading
    | _ => none := by
  cases t with
  | new r =>
      cases r with
      | record c u fields => exact fields_slot? f fields
      | _ => rfl
  | _ => rfl

/-- What follows a telescope and is none itself. -/
def Parts.Stops (parts : Parts) : Prop :=
  ∀ scope ρ args, (parts.read scope).enter ρ args = some (parts.read scope, ρ, args)

theorem Parts.one_stops (t : Scoped) : (Parts.one t).Stops := fun _ _ _ => rfl

theorem endsParts_stops (ends : List (Ends Term)) : (endsParts ends).Stops := by
  intro scope ρ args
  cases ends with
  | nil => rfl
  | cons e others => rfl

theorem telescopeParts_enter {params : Telescope} {rest : Parts} (stops : rest.Stops)
    (scope : List Var) (ρ args : List Nameless) :
    ((telescopeParts params rest).read scope).enter ρ args =
      if args.length < params.length then none
      else some (rest.read (params.vars.reverse ++ scope), (args.take params.length).reverse ++ ρ,
        args.drop params.length) := by
  induction params generalizing scope ρ args with
  | nil => simpa [telescopeParts, Telescope.vars] using stops scope ρ args
  | cons b params ih =>
      cases args with
      | nil => rfl
      | cons a args =>
          have later := ih (b.var :: scope) (a :: ρ) args
          simp only [telescopeParts, Parts.read, NamelessParts.enter, later]
          simp [Telescope.vars]

def Ends.map {α β : Type} (f : α → β) (e : Ends α) : Ends β := ⟨e.left.map f, e.right.map f⟩

theorem Ends.map_at? {α β : Type} (f : α → β) (e : Ends α) (side : Endpoint) :
    (e.map f).at? side = (e.at? side).map f := by
  cases side <;> rfl

theorem Ends.map_isEmpty {α β : Type} (f : α → β) (e : Ends α) :
    (e.map f).isEmpty = e.isEmpty := by
  simp [Ends.map, Ends.isEmpty]

theorem Term.reading_given? (t : Term) : t.reading.given? = none := by
  cases t <;> rfl

theorem optionScoped_given (o : Option Term) (scope : List Var) :
    ((optionScoped o).read scope).given? = o.map fun t => t.toScoped.read scope := by
  cases o <;> rfl

theorem endsParts_ends (ends : List (Ends Term)) (scope : List Var) :
    ((endsParts ends).read scope).ends = ends.map (Ends.map fun t => t.toScoped.read scope) := by
  induction ends with
  | nil => rfl
  | cons e others ih =>
      simp only [endsParts, Parts.read, NamelessParts.ends, optionScoped_given, ih, List.map_cons]
      rfl

end Views

/-- Terms for the free variables. -/
abbrev Nameless.put (τ : Var → Term) (t : Nameless) : Nameless := t.inst id fun x => (τ x).reading

abbrev NamelessParts.put (τ : Var → Term) (t : NamelessParts) : NamelessParts :=
  t.inst id fun x => (τ x).reading

theorem Label.map_id' (l : Label) : l.map id = l := l.map_id fun _ => rfl

theorem put_node (τ : Var → Term) (l : Label) (parts : NamelessParts) :
    (Nameless.node l parts).put τ = .node l (parts.put τ) := by
  rw [Nameless.put, Nameless.inst, Label.map_id']

/-- Labels of terms in weak head normal form whatever the definitions say. -/
def Label.isValue : Label → Bool
  | .lam | .pi | .sigma | .tuple | .univ _ | .con _ _ | .data _ _ | .record _ _ | .new
  | .error _ => true
  | _ => false

def Nameless.isValue : Nameless → Bool
  | .node l _ => l.isValue
  | _ => false

theorem Nameless.headStep?_value {t : Nameless} (value : t.isValue = true) (env : Environment)
    (whnf : Nameless → Traced Nameless) : t.headStep? env whnf = pure none := by
  cases t with
  | node l parts =>
      cases l with
      | app | proj | call | field | caseOf => cases value
      | _ => rfl
  | _ => cases value

theorem Nameless.value_of_endpoint {env : Environment} {t : Nameless} {side : Endpoint}
    (isEnd : t.endpoint? env = some side) : t.isValue = true := by
  cases t with
  | node l parts =>
      cases l with
      | con c u => rfl
      | _ => cases isEnd
  | _ => cases isEnd

theorem Nameless.value_of_shape {t : Nameless} {shown : Shape × List Nameless}
    (hasShape : t.shape? = some shown) : t.isValue = true := by
  cases t with
  | node l parts =>
      cases l with
      | con | tuple => rfl
      | _ => cases hasShape
  | _ => cases hasShape

theorem Nameless.value_of_lam {t body : Nameless} (isLam : t.lamBody? = some body) :
    t.isValue = true := by
  unfold Nameless.lamBody? at isLam
  split at isLam
  · rfl
  · cases isLam

theorem Nameless.value_of_component {t r : Nameless} {i : Nat}
    (found : t.component? i = some r) : t.isValue = true := by
  unfold Nameless.component? at found
  split at found
  · rfl
  · cases found

theorem Nameless.value_of_fixed {t r : Nameless} {f : DefId} (found : t.fixed? f = some r) :
    t.isValue = true := by
  unfold Nameless.fixed? at found
  split at found
  · rfl
  · cases found

/-- A body that the ends give stands at one of them. -/
theorem tryEnds_body {env : Environment} {whnf : Nameless → Traced Nameless} {body : Nameless} :
    ∀ {ends : List (Ends Nameless × Nameless)} {l : List Passed},
      Nameless.tryEnds env whnf ends = .ok (some body, l) →
        ∃ e ∈ ends, ∃ side, e.1.at? side = some body
  | [], _, done => by cases done
  | (rules, arg) :: others, l, done => by
      have later : ∀ {l}, Nameless.tryEnds env whnf others = .ok (some body, l) →
          ∃ e ∈ (rules, arg) :: others, ∃ side, e.1.at? side = some body := by
        intro l done
        obtain ⟨e, member, found⟩ := tryEnds_body done
        exact ⟨e, List.mem_cons_of_mem _ member, found⟩
      unfold Nameless.tryEnds at done
      split at done
      · exact later done
      · obtain ⟨v, _, _, _, rest, _⟩ := Traced.bind_ok done
        split at rest
        · rename_i side _
          split at rest
          · rename_i found
            cases rest
            exact ⟨_, List.mem_cons_self, side, found⟩
          · exact later rest
        · obtain ⟨_, _, _, _, next, _⟩ := Traced.bind_ok rest
          exact later next

end PathTheory
