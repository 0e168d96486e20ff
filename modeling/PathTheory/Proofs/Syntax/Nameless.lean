import PathTheory.Proofs.Syntax.Scoped
/-!
Nameless terms. A bound variable is the number of binders between it and its own, a free variable
keeps its name, so instantiation of free variables never captures anything. The reading of a term
forgets the names of its binders; terms with the same reading differ in these names only.
-/
namespace PathTheory

mutual

inductive Nameless where
  | bound (index : Nat)
  | free (x : Var)
  | hole (m : MetaId)
  | node (label : Label) (parts : NamelessParts)

inductive NamelessParts where
  | nil
  | part (t : Nameless) (rest : NamelessParts)
  | binder (mode : Mode) (rest : NamelessParts)

end

mutual

def Nameless.freeVars : Nameless → List Var
  | .bound _ | .hole _ => []
  | .free x => [x]
  | .node _ parts => parts.freeVars

def NamelessParts.freeVars : NamelessParts → List Var
  | .nil => []
  | .part t rest => t.freeVars ++ rest.freeVars
  | .binder _ rest => rest.freeVars

end

mutual

/-- Universes mapped, and free variables replaced by terms without loose bound variables. -/
def Nameless.inst (f : Universe → Universe) (σ : Var → Nameless) : Nameless → Nameless
  | .bound i => .bound i
  | .free x => σ x
  | .hole m => .hole m
  | .node label parts => .node (label.map f) (parts.inst f σ)

def NamelessParts.inst (f : Universe → Universe) (σ : Var → Nameless) :
    NamelessParts → NamelessParts
  | .nil => .nil
  | .part t rest => .part (t.inst f σ) (rest.inst f σ)
  | .binder mode rest => .binder mode (rest.inst f σ)

end

theorem Label.map_map (f g : Universe → Universe) (l : Label) :
    (l.map g).map f = l.map (f ∘ g) := by
  cases l <;> rfl

theorem Label.map_id {f : Universe → Universe} (same : ∀ u, f u = u) (l : Label) :
    l.map f = l := by
  cases l <;> simp [Label.map, same]

section Instantiation

variable {f g : Universe → Universe} {σ τ : Var → Nameless}

mutual

theorem Nameless.inst_congr : ∀ t : Nameless, (∀ x ∈ t.freeVars, σ x = τ x) →
    t.inst f σ = t.inst f τ
  | .bound _, _ | .hole _, _ => rfl
  | .free x, same => same x (by simp [Nameless.freeVars])
  | .node l parts, same => by
      simp [Nameless.inst, parts.inst_congr same]

theorem NamelessParts.inst_congr : ∀ t : NamelessParts, (∀ x ∈ t.freeVars, σ x = τ x) →
    t.inst f σ = t.inst f τ
  | .nil, _ => rfl
  | .part t rest, same => by
      simp only [NamelessParts.freeVars, List.mem_append] at same
      simp [NamelessParts.inst, t.inst_congr fun x member => same x (.inl member),
        rest.inst_congr fun x member => same x (.inr member)]
  | .binder mode rest, same => by
      simp [NamelessParts.inst, rest.inst_congr same]

end

mutual

theorem Nameless.inst_inst : ∀ t : Nameless,
    (t.inst g τ).inst f σ = t.inst (f ∘ g) fun x => (τ x).inst f σ
  | .bound _ | .hole _ | .free _ => rfl
  | .node l parts => by
      simp [Nameless.inst, parts.inst_inst, Label.map_map]

theorem NamelessParts.inst_inst : ∀ t : NamelessParts,
    (t.inst g τ).inst f σ = t.inst (f ∘ g) fun x => (τ x).inst f σ
  | .nil => rfl
  | .part t rest => by
      simp [NamelessParts.inst, t.inst_inst, rest.inst_inst]
  | .binder mode rest => by
      simp [NamelessParts.inst, rest.inst_inst]

end

mutual

theorem Nameless.inst_self (sameLevels : ∀ u, f u = u) : ∀ t : Nameless,
    (∀ x ∈ t.freeVars, σ x = .free x) → t.inst f σ = t
  | .bound _, _ | .hole _, _ => rfl
  | .free x, same => same x (by simp [Nameless.freeVars])
  | .node l parts, same => by
      simp [Nameless.inst, parts.inst_self sameLevels same, Label.map_id sameLevels]

theorem NamelessParts.inst_self (sameLevels : ∀ u, f u = u) : ∀ t : NamelessParts,
    (∀ x ∈ t.freeVars, σ x = .free x) → t.inst f σ = t
  | .nil, _ => rfl
  | .part t rest, same => by
      simp only [NamelessParts.freeVars, List.mem_append] at same
      simp [NamelessParts.inst, t.inst_self sameLevels fun x member => same x (.inl member),
        rest.inst_self sameLevels fun x member => same x (.inr member)]
  | .binder mode rest, same => by
      simp [NamelessParts.inst, rest.inst_self sameLevels same]

end

mutual

/-- Instances of one term agree only if the replacements of all its variables do. -/
theorem Nameless.inst_injective : ∀ t : Nameless, t.inst f σ = t.inst f τ →
    ∀ x ∈ t.freeVars, σ x = τ x
  | .bound _, _, _, member | .hole _, _, _, member => by cases member
  | .free x, same, y, member => by
      simp only [Nameless.freeVars, List.mem_singleton] at member
      subst member
      exact same
  | .node l parts, same, x, member => by
      simp only [Nameless.inst, Nameless.node.injEq, true_and] at same
      exact parts.inst_injective same x member

theorem NamelessParts.inst_injective : ∀ t : NamelessParts, t.inst f σ = t.inst f τ →
    ∀ x ∈ t.freeVars, σ x = τ x
  | .nil, _, _, member => by cases member
  | .part t rest, same, x, member => by
      simp only [NamelessParts.inst, NamelessParts.part.injEq] at same
      rcases List.mem_append.mp member with inHead | inRest
      · exact t.inst_injective same.1 x inHead
      · exact rest.inst_injective same.2 x inRest
  | .binder mode rest, same, x, member => by
      simp only [NamelessParts.inst, NamelessParts.binder.injEq, true_and] at same
      exact rest.inst_injective same x member

end

mutual

theorem Nameless.mem_inst_freeVars {x : Var} : ∀ t : Nameless,
    x ∈ (t.inst f σ).freeVars ↔ ∃ z ∈ t.freeVars, x ∈ (σ z).freeVars
  | .bound _ | .hole _ => by simp [Nameless.inst, Nameless.freeVars]
  | .free z => by simp [Nameless.inst, Nameless.freeVars]
  | .node l parts => by
      simp [Nameless.inst, Nameless.freeVars, parts.mem_inst_freeVars]

theorem NamelessParts.mem_inst_freeVars {x : Var} : ∀ t : NamelessParts,
    x ∈ (t.inst f σ).freeVars ↔ ∃ z ∈ t.freeVars, x ∈ (σ z).freeVars
  | .nil => by simp [NamelessParts.inst, NamelessParts.freeVars]
  | .part t rest => by
      simp [NamelessParts.inst, NamelessParts.freeVars, t.mem_inst_freeVars,
        rest.mem_inst_freeVars, or_and_right, exists_or]
  | .binder mode rest => by
      simp [NamelessParts.inst, NamelessParts.freeVars, rest.mem_inst_freeVars]

end

end Instantiation

/-- The number of binders between a variable and the innermost one of its name. -/
def position (x : Var) : List Var → Option Nat
  | [] => none
  | y :: scope => if x = y then some 0 else (position x scope).map (· + 1)

theorem position_eq_none_iff {x : Var} {scope : List Var} : position x scope = none ↔ x ∉ scope := by
  induction scope with
  | nil => simp [position]
  | cons y scope ih =>
      unfold position
      by_cases same : x = y
      · simp [same]
      · simp [same, ih]

theorem mem_of_position {x : Var} {scope : List Var} {i : Nat} (found : position x scope = some i) :
    x ∈ scope := by
  by_cases member : x ∈ scope
  · exact member
  · rw [position_eq_none_iff.mpr member] at found
    cases found

mutual

/-- The nameless form of a tree in a scope; the innermost binder comes first. -/
def Scoped.read (scope : List Var) : Scoped → Nameless
  | .var x => match position x scope with
      | some i => .bound i
      | none => .free x
  | .hole m => .hole m
  | .node label parts => .node label (parts.read scope)

def Parts.read (scope : List Var) : Parts → NamelessParts
  | .nil => .nil
  | .part t rest => .part (t.read scope) (rest.read scope)
  | .binder mode x rest => .binder mode (rest.read (x :: scope))

end

mutual

/-- The reading depends on what the scope says of the free variables only. -/
theorem Scoped.read_congr {scope other : List Var} : ∀ t : Scoped,
    (∀ x ∈ t.freeVars, position x scope = position x other) → t.read scope = t.read other
  | .var x, same => by
      simp [Scoped.read, same x (by simp [Scoped.freeVars])]
  | .hole _, _ => rfl
  | .node l parts, same => by
      simp [Scoped.read, parts.read_congr same]

theorem Parts.read_congr {scope other : List Var} : ∀ t : Parts,
    (∀ x ∈ t.freeVars, position x scope = position x other) → t.read scope = t.read other
  | .nil, _ => rfl
  | .part t rest, same => by
      simp only [Parts.freeVars, List.mem_append] at same
      simp [Parts.read, t.read_congr fun x member => same x (.inl member),
        rest.read_congr fun x member => same x (.inr member)]
  | .binder mode y rest, same => by
      have inner : ∀ x ∈ rest.freeVars, position x (y :: scope) = position x (y :: other) := by
        intro x member
        unfold position
        by_cases hit : x = y
        · simp [hit]
        · have outer : x ∈ (Parts.binder mode y rest).freeVars := by
            simp [Parts.freeVars, member, hit]
          simp [hit, same x outer]
      simp [Parts.read, rest.read_congr inner]

end

mutual

theorem Scoped.mem_read_freeVars {scope : List Var} {x : Var} : ∀ t : Scoped,
    x ∈ (t.read scope).freeVars ↔ x ∈ t.freeVars ∧ x ∉ scope
  | .var y => by
      unfold Scoped.read
      cases found : position y scope with
      | some i =>
          have inScope := mem_of_position found
          simp only [Nameless.freeVars, Scoped.freeVars, List.mem_singleton, List.not_mem_nil,
            false_iff]
          rintro ⟨rfl, outside⟩
          exact outside inScope
      | none =>
          have outside := position_eq_none_iff.mp found
          simp only [Nameless.freeVars, Scoped.freeVars, List.mem_singleton]
          constructor
          · rintro rfl
            exact ⟨rfl, outside⟩
          · exact And.left
  | .hole _ => by simp [Scoped.read, Nameless.freeVars, Scoped.freeVars]
  | .node l parts => by
      simp [Scoped.read, Nameless.freeVars, Scoped.freeVars, parts.mem_read_freeVars]

theorem Parts.mem_read_freeVars {scope : List Var} {x : Var} : ∀ t : Parts,
    x ∈ (t.read scope).freeVars ↔ x ∈ t.freeVars ∧ x ∉ scope
  | .nil => by simp [Parts.read, NamelessParts.freeVars, Parts.freeVars]
  | .part t rest => by
      simp [Parts.read, NamelessParts.freeVars, Parts.freeVars, t.mem_read_freeVars,
        rest.mem_read_freeVars, or_and_right]
  | .binder mode y rest => by
      simp only [Parts.read, NamelessParts.freeVars, Parts.freeVars, rest.mem_read_freeVars,
        List.mem_cons, not_or, List.mem_filter, bne_iff_ne, ne_eq, and_assoc]

end

/-- The nameless form of a term. -/
def Term.reading (t : Term) : Nameless := t.toScoped.read []

def CaseTree.reading (t : CaseTree) : Nameless := t.toScoped.read []

/-- Equality up to the names of binders. -/
def Term.AlphaEq (a b : Term) : Prop := a.reading = b.reading

theorem Term.mem_reading_freeVars {t : Term} {x : Var} :
    x ∈ t.reading.freeVars ↔ x ∈ t.freeVars := by
  simp [Term.reading, Scoped.mem_read_freeVars, Term.toScoped_freeVars]

theorem CaseTree.mem_reading_freeVars {t : CaseTree} {x : Var} :
    x ∈ t.reading.freeVars ↔ x ∈ t.freeVars := by
  simp [CaseTree.reading, Scoped.mem_read_freeVars, CaseTree.toScoped_freeVars]

end PathTheory
