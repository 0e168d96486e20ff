import PathTheory.Proofs.Syntax.Substitution
/-!
Bound variables of nameless terms. Filling puts terms for the binders around a term, the innermost
one first. The main statement is that filling a reading is the same as substituting for the names of
its scope.
-/
namespace PathTheory

mutual

/-- Every bound variable belongs to a binder of the term or to one of this many around it. -/
def Nameless.Closed : Nat → Nameless → Prop
  | d, .bound i => i < d
  | _, .free _ | _, .hole _ => True
  | d, .node _ parts => parts.Closed d

def NamelessParts.Closed : Nat → NamelessParts → Prop
  | _, .nil => True
  | d, .part t rest => t.Closed d ∧ rest.Closed d
  | d, .binder _ rest => rest.Closed (d + 1)

end

mutual

/-- Terms for the binders around a term; the number counts the binders passed on the way. -/
def Nameless.fill (ρ : List Nameless) : Nat → Nameless → Nameless
  | d, .bound i => if i < d then .bound i else ρ.getD (i - d) (.bound i)
  | _, .free x => .free x
  | _, .hole m => .hole m
  | d, .node label parts => .node label (parts.fill ρ d)

def NamelessParts.fill (ρ : List Nameless) : Nat → NamelessParts → NamelessParts
  | _, .nil => .nil
  | d, .part t rest => .part (t.fill ρ d) (rest.fill ρ d)
  | d, .binder mode rest => .binder mode (rest.fill ρ (d + 1))

end

mutual

/-- Whether the binder this many binders out is used. -/
def Nameless.mentions : Nat → Nameless → Bool
  | d, .bound i => i == d
  | _, .free _ | _, .hole _ => false
  | d, .node _ parts => parts.mentions d

def NamelessParts.mentions : Nat → NamelessParts → Bool
  | _, .nil => false
  | d, .part t rest => t.mentions d || rest.mentions d
  | d, .binder _ rest => rest.mentions (d + 1)

end

mutual

theorem Nameless.Closed.mono {d e : Nat} (order : d ≤ e) : ∀ {t : Nameless}, t.Closed d → t.Closed e
  | .bound _, closed => closed.trans_le order
  | .free _, _ | .hole _, _ => trivial
  | .node _ _, closed => NamelessParts.Closed.mono order closed

theorem NamelessParts.Closed.mono {d e : Nat} (order : d ≤ e) :
    ∀ {t : NamelessParts}, t.Closed d → t.Closed e
  | .nil, _ => trivial
  | .part _ _, closed => ⟨closed.1.mono order, closed.2.mono order⟩
  | .binder _ _, closed => NamelessParts.Closed.mono (Nat.succ_le_succ order) closed

end

mutual

/-- There is nothing to fill in a term without loose bound variables. -/
theorem Nameless.Closed.fill {ρ : List Nameless} {d : Nat} :
    ∀ {t : Nameless}, t.Closed d → t.fill ρ d = t
  | .bound _, closed => if_pos closed
  | .free _, _ | .hole _, _ => rfl
  | .node _ parts, closed => by
      rw [Nameless.fill, NamelessParts.Closed.fill (t := parts) closed]

theorem NamelessParts.Closed.fill {ρ : List Nameless} {d : Nat} :
    ∀ {t : NamelessParts}, t.Closed d → t.fill ρ d = t
  | .nil, _ => rfl
  | .part _ _, closed => by
      rw [NamelessParts.fill, closed.1.fill, closed.2.fill]
  | .binder _ rest, closed => by
      rw [NamelessParts.fill, NamelessParts.Closed.fill (t := rest) closed]

end

mutual

theorem Nameless.Closed.mentions {d : Nat} : ∀ {t : Nameless}, t.Closed d → t.mentions d = false
  | .bound i, closed => by
      simpa [Nameless.mentions] using Nat.ne_of_lt closed
  | .free _, _ | .hole _, _ => rfl
  | .node _ parts, closed => NamelessParts.Closed.mentions (t := parts) closed

theorem NamelessParts.Closed.mentions {d : Nat} :
    ∀ {t : NamelessParts}, t.Closed d → t.mentions d = false
  | .nil, _ => rfl
  | .part _ _, closed => by
      rw [NamelessParts.mentions, closed.1.mentions, closed.2.mentions, Bool.or_false]
  | .binder _ rest, closed => NamelessParts.Closed.mentions (t := rest) closed

end

theorem position_append (x : Var) (inner outer : List Var) :
    position x (inner ++ outer) =
      (position x inner <|> (position x outer).map (· + inner.length)) := by
  induction inner with
  | nil => simp [position]
  | cons y inner ih =>
      by_cases same : x = y
      · simp [position, same]
      · simp only [List.cons_append, Subst.position_cons_ne same, ih, List.length_cons]
        cases position x inner <;> simp [Function.comp_def, Nat.add_assoc]

theorem position_lt {x : Var} {scope : List Var} {i : Nat} (found : position x scope = some i) :
    i < scope.length := by
  induction scope generalizing i with
  | nil => cases found
  | cons y scope ih =>
      by_cases same : x = y
      · have first : 0 = i := by
          simpa [position, same] using found
        simp [← first]
      · rw [Subst.position_cons_ne same, Option.map_eq_some_iff] at found
        obtain ⟨j, later, rfl⟩ := found
        exact Nat.succ_lt_succ (ih later)

mutual

theorem Scoped.read_closed : ∀ (scope : List Var) (t : Scoped),
    (t.read scope).Closed scope.length
  | scope, .var x => by
      unfold Scoped.read
      cases found : position x scope with
      | none => trivial
      | some i => exact position_lt found
  | _, .hole _ => trivial
  | scope, .node _ parts => parts.read_closed scope

theorem Parts.read_closed : ∀ (scope : List Var) (t : Parts), (t.read scope).Closed scope.length
  | _, .nil => trivial
  | scope, .part t rest => ⟨t.read_closed scope, rest.read_closed scope⟩
  | scope, .binder _ x rest => rest.read_closed (x :: scope)

end

theorem Term.reading_closed (t : Term) : t.reading.Closed 0 := t.toScoped.read_closed []

theorem CaseTree.reading_closed (t : CaseTree) : t.reading.Closed 0 := t.toScoped.read_closed []

/-- What a scope with terms for its binders says of a variable. -/
def assign (scope : List Var) (ρ : List Nameless) (x : Var) : Nameless :=
  match position x scope with
  | some i => ρ.getD i (.free x)
  | none => .free x

theorem assign_nil (ρ : List Nameless) (x : Var) : assign [] ρ x = .free x := rfl

theorem assign_cons (x : Var) (scope : List Var) (t : Nameless) (ρ : List Nameless) (z : Var) :
    assign (x :: scope) (t :: ρ) z = if z = x then t else assign scope ρ z := by
  by_cases same : z = x
  · simp [assign, position, same]
  · simp only [assign, Subst.position_cons_ne same, same, if_false]
    cases position z scope <;> rfl

mutual

/-- Filling the outer binders of a scope is substituting for their names. -/
theorem Scoped.read_fill {f : Universe → Universe} {outer : List Var} {ρ : List Nameless}
    (lengths : outer.length = ρ.length) : ∀ (inner : List Var) (t : Scoped),
      ((t.read (inner ++ outer)).inst f .free).fill ρ inner.length =
        (t.read inner).inst f (assign outer ρ)
  | inner, .var x => by
      unfold Scoped.read
      rw [position_append]
      cases here : position x inner with
      | some i =>
          have small := position_lt here
          simp [Nameless.inst, Nameless.fill, small]
      | none =>
          cases there : position x outer with
          | none => simp [Nameless.inst, Nameless.fill, assign, there]
          | some i =>
              have inRange : i < ρ.length := lengths ▸ position_lt there
              have past : ¬ i + inner.length < inner.length := by omega
              simp [Nameless.inst, Nameless.fill, assign, there, List.getD, inRange, past]
  | _, .hole _ => rfl
  | inner, .node l parts => by
      simp only [Scoped.read, Nameless.inst, Nameless.fill, parts.read_fill lengths inner]

theorem Parts.read_fill {f : Universe → Universe} {outer : List Var} {ρ : List Nameless}
    (lengths : outer.length = ρ.length) : ∀ (inner : List Var) (t : Parts),
      ((t.read (inner ++ outer)).inst f .free).fill ρ inner.length =
        (t.read inner).inst f (assign outer ρ)
  | _, .nil => rfl
  | inner, .part t rest => by
      simp only [Parts.read, NamelessParts.inst, NamelessParts.fill, t.read_fill lengths inner,
        rest.read_fill lengths inner]
  | inner, .binder mode x rest => by
      have later := rest.read_fill (f := f) lengths (x :: inner)
      simp only [List.cons_append, List.length_cons] at later
      simp only [Parts.read, NamelessParts.inst, NamelessParts.fill, later]

end

mutual

/-- A name for the next binder and terms for the others, put in one after the other. -/
theorem Nameless.fill_named {x : Var} {ρ : List Nameless} (closed : ∀ r ∈ ρ, r.Closed 0) :
    ∀ (d : Nat) (t : Nameless), (t.fill ρ (d + 1)).fill [.free x] d = t.fill (.free x :: ρ) d
  | d, .bound i => by
      rcases Nat.lt_trichotomy i d with below | rfl | above
      · have inside : i < d + 1 := by omega
        simp [Nameless.fill, below, inside]
      · simp [Nameless.fill]
      · have past : ¬ i < d + 1 := by omega
        have outside : ¬ i < d := by omega
        obtain ⟨k, rfl⟩ : ∃ k, i = d + 1 + k := ⟨i - (d + 1), by omega⟩
        have first : d + 1 + k - d = k + 1 := by omega
        cases found : ρ[k]? with
        | none => simp [Nameless.fill, past, outside, first, List.getD, found]
        | some r =>
            have same := (closed r (List.mem_of_getElem? found)).mono (Nat.zero_le d)
            simp [Nameless.fill, past, outside, first, List.getD, found, same.fill]
  | _, .free _ | _, .hole _ => rfl
  | d, .node _ parts => by
      simp only [Nameless.fill, parts.fill_named closed d]

theorem NamelessParts.fill_named {x : Var} {ρ : List Nameless} (closed : ∀ r ∈ ρ, r.Closed 0) :
    ∀ (d : Nat) (t : NamelessParts),
      (t.fill ρ (d + 1)).fill [.free x] d = t.fill (.free x :: ρ) d
  | _, .nil => rfl
  | d, .part t rest => by
      simp only [NamelessParts.fill, t.fill_named closed d, rest.fill_named closed d]
  | d, .binder _ rest => by
      simp only [NamelessParts.fill, rest.fill_named closed (d + 1)]

end

theorem assign_self (x z : Var) : assign [x] [.free x] z = .free z := by
  rw [assign_cons, assign_nil]
  split
  · rename_i same
    rw [same]
  · rfl

/-- A binder that keeps its name. -/
theorem Scoped.read_named (x : Var) (t : Scoped) : (t.read [x]).fill [.free x] 0 = t.read [] := by
  have filled : ((t.read [x]).inst id .free).fill [.free x] 0 =
      (t.read []).inst id (assign [x] [.free x]) := Scoped.read_fill rfl [] t
  rwa [Nameless.inst_self (f := id) (fun _ => rfl) _ fun _ _ => rfl,
    Nameless.inst_self (f := id) (fun _ => rfl) _ fun z _ => assign_self x z] at filled

theorem Parts.read_named (x : Var) (t : Parts) : (t.read [x]).fill [.free x] 0 = t.read [] := by
  have filled : ((t.read [x]).inst id .free).fill [.free x] 0 =
      (t.read []).inst id (assign [x] [.free x]) := Parts.read_fill rfl [] t
  rwa [NamelessParts.inst_self (f := id) (fun _ => rfl) _ fun _ _ => rfl,
    NamelessParts.inst_self (f := id) (fun _ => rfl) _ fun z _ => assign_self x z] at filled

mutual

theorem Scoped.read_mentions (x : Var) (outer : List Var) : ∀ (inner : List Var) (t : Scoped),
    (t.read (inner ++ x :: outer)).mentions inner.length = true ↔ x ∈ t.freeVars ∧ x ∉ inner
  | inner, .var y => by
      unfold Scoped.read
      rw [position_append]
      cases here : position y inner with
      | some i =>
          have member := mem_of_position here
          have apart := Nat.ne_of_lt (position_lt here)
          simp only [Option.some_or, Nameless.mentions, Scoped.freeVars, List.mem_singleton,
            Option.orElse_eq_orElse, Option.orElse_eq_or, beq_iff_eq, apart, false_iff]
          rintro ⟨rfl, outside⟩
          exact outside member
      | none =>
          have outside := position_eq_none_iff.mp here
          by_cases same : y = x
          · subst same
            simp [position, Nameless.mentions, Scoped.freeVars, outside]
          · have apart : ¬ x = y := fun other => same other.symm
            cases there : position y outer <;>
              simp [Subst.position_cons_ne same, there, Nameless.mentions, Scoped.freeVars, apart]
  | _, .hole _ => by
      simp [Scoped.read, Nameless.mentions, Scoped.freeVars]
  | inner, .node _ parts => parts.read_mentions x outer inner

theorem Parts.read_mentions (x : Var) (outer : List Var) : ∀ (inner : List Var) (t : Parts),
    (t.read (inner ++ x :: outer)).mentions inner.length = true ↔ x ∈ t.freeVars ∧ x ∉ inner
  | _, .nil => by
      simp [Parts.read, NamelessParts.mentions, Parts.freeVars]
  | inner, .part t rest => by
      simp [Parts.read, NamelessParts.mentions, Parts.freeVars, t.read_mentions x outer inner,
        rest.read_mentions x outer inner, or_and_right]
  | inner, .binder mode y rest => by
      have later := rest.read_mentions x outer (y :: inner)
      simp only [List.cons_append, List.length_cons, List.mem_cons, not_or] at later
      simp [Parts.read, NamelessParts.mentions, Parts.freeVars, later, and_assoc]

end

end PathTheory
