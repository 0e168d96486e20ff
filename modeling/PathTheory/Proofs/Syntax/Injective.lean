import PathTheory.Proofs.Syntax.Scoped
/-!
Terms back from their trees. What follows the terms or the telescope of a node can be told from them,
so a tree is the tree of one term at most.
-/
namespace PathTheory

/-- What can come behind terms: nothing that a term begins with. -/
def Parts.Ending : Parts → Prop
  | .nil => True
  | .part (.node l _) _ => l.isTerm = false
  | _ => False

/-- What can come behind a telescope: no type with a binder after it. -/
def Parts.Inside : Parts → Prop
  | .part _ (.binder _ _ _) => False
  | _ => True

theorem Term.toScoped_ending (t : Term) (rest : Parts) : ¬ (Parts.part t.toScoped rest).Ending := by
  cases t <;> simp [Term.toScoped, Parts.Ending, Label.isTerm]

theorem childrenParts_inside (l : List (Shape × CaseTree)) : (childrenParts l).Inside := by
  match l with
  | [] | [_] | _ :: _ :: _ => trivial

theorem endsParts_inside (l : List (Ends Term)) : (endsParts l).Inside := by
  cases l <;> trivial

mutual

/-- No two terms have one tree. -/
theorem Term.toScoped_injective : ∀ {a b : Term}, a.toScoped = b.toScoped → a = b
  | .ref _, b, same | .univ _, b, same | .hole _, b, same => by
      cases b <;> cases same
      rfl
  | .lam _ _ a c, b, same | .pi _ _ a c, b, same => by
      cases b <;> simp only [Term.toScoped, Parts.one, Scoped.node.injEq, Parts.part.injEq,
        Parts.binder.injEq, reduceCtorEq, false_and, true_and, and_true] at same
      obtain ⟨first, rfl, rfl, second⟩ := same
      rw [Term.toScoped_injective first, Term.toScoped_injective second]
  | .app a c, b, same => by
      cases b <;> simp only [Term.toScoped, Parts.one, Scoped.node.injEq, Parts.part.injEq,
        reduceCtorEq, false_and, true_and, and_true] at same
      rw [Term.toScoped_injective same.1, Term.toScoped_injective same.2]
  | .sigma params, b, same => by
      cases b <;> simp only [Term.toScoped, Scoped.node.injEq, reduceCtorEq, false_and,
        true_and] at same
      rw [(telescopeParts_injective same trivial trivial).1]
  | .tuple components type, b, same => by
      cases b <;> simp only [Term.toScoped, Scoped.node.injEq, reduceCtorEq, false_and,
        true_and] at same
      obtain ⟨rfl, last⟩ := termsParts_injective same rfl rfl
      simp only [Parts.one, Parts.part.injEq, Scoped.node.injEq, true_and, and_true] at last
      rw [Term.toScoped_injective last]
  | .proj a _, b, same | .field _ _ a, b, same => by
      cases b <;> simp only [Term.toScoped, Parts.one, Scoped.node.injEq, Parts.part.injEq,
        Label.proj.injEq, Label.field.injEq, reduceCtorEq, false_and, and_true] at same
      simp only [same.1, Term.toScoped_injective same.2]
  | .new a, b, same => by
      cases b <;> simp only [Term.toScoped, Parts.one, Scoped.node.injEq, Parts.part.injEq,
        reduceCtorEq, false_and, true_and, and_true] at same
      rw [Term.toScoped_injective same]
  | .call _ _ args, b, same | .data _ _ args, b, same => by
      cases b <;> simp only [Term.toScoped, Scoped.node.injEq, Label.call.injEq, Label.data.injEq,
        reduceCtorEq, false_and] at same
      obtain ⟨⟨rfl, rfl⟩, inner⟩ := same
      rw [(termsParts_injective inner trivial trivial).1]
  | .con _ _ params args, b, same => by
      cases b <;> simp only [Term.toScoped, Scoped.node.injEq, Parts.part.injEq, Label.con.injEq,
        reduceCtorEq, false_and, true_and] at same
      obtain ⟨⟨rfl, rfl⟩, first, second⟩ := same
      rw [(termsParts_injective first trivial trivial).1,
        (termsParts_injective second trivial trivial).1]
  | .record _ _ fields, b, same => by
      cases b <;> simp only [Term.toScoped, Scoped.node.injEq, Label.record.injEq, reduceCtorEq,
        false_and] at same
      obtain ⟨⟨rfl, rfl⟩, inner⟩ := same
      rw [fieldsParts_injective inner]
  | .caseOf args params result tree, b, same => by
      cases b <;> simp only [Term.toScoped, Scoped.node.injEq, reduceCtorEq, false_and,
        true_and] at same
      obtain ⟨rfl, last⟩ := termsParts_injective same rfl rfl
      simp only [Parts.one, Parts.part.injEq, Scoped.node.injEq, true_and, and_true] at last
      obtain ⟨motive, cases⟩ := last
      obtain ⟨rfl, inner⟩ := telescopeParts_injective motive trivial trivial
      simp only [Parts.part.injEq, and_true] at inner
      rw [Term.toScoped_injective inner, CaseTree.toScoped_injective cases]
  | .error _ a, b, same => by
      cases b <;> simp only [Term.toScoped, Parts.one, Scoped.node.injEq, Parts.part.injEq,
        Label.error.injEq, reduceCtorEq, false_and, and_true] at same
      rw [same.1, optionScoped_injective same.2]

theorem termsParts_injective : ∀ {l l' : List Term} {rest rest' : Parts},
    termsParts l rest = termsParts l' rest' → rest.Ending → rest'.Ending → l = l' ∧ rest = rest'
  | [], [], _, _, same, _, _ => ⟨rfl, same⟩
  -- what comes behind the shorter list would begin with a term of the longer one
  | [], a :: l', rest, rest', same, ending, _ => by
      have begins : rest = .part a.toScoped (termsParts l' rest') := same
      exact (a.toScoped_ending _ (begins ▸ ending)).elim
  | a :: l, [], rest, rest', same, _, ending => by
      have begins : rest' = .part a.toScoped (termsParts l rest) := same.symm
      exact (a.toScoped_ending _ (begins ▸ ending)).elim
  | a :: l, b :: l', _, _, same, ending, ending' => by
      obtain ⟨head, tail⟩ := Parts.part.inj same
      obtain ⟨rfl, rfl⟩ := termsParts_injective tail ending ending'
      rw [Term.toScoped_injective head]
      exact ⟨rfl, rfl⟩

theorem optionScoped_injective : ∀ {a b : Option Term}, optionScoped a = optionScoped b → a = b
  | none, none, _ => rfl
  | none, some b, same | some a, none, same => by cases same
  | some a, some b, same => by
      simp only [optionScoped, Parts.one, Scoped.node.injEq, Parts.part.injEq, true_and,
        and_true] at same
      rw [Term.toScoped_injective same]

theorem fieldsParts_injective : ∀ {l l' : List (DefId × Term)}, fieldsParts l = fieldsParts l' →
    l = l'
  | [], [], _ => rfl
  | [], _ :: _, same | _ :: _, [], same => by cases same
  | (f, a) :: l, (g, b) :: l', same => by
      simp only [fieldsParts, Parts.one, Parts.part.injEq, Scoped.node.injEq, Label.slot.injEq,
        and_true] at same
      obtain ⟨⟨rfl, head⟩, tail⟩ := same
      rw [Term.toScoped_injective head, fieldsParts_injective tail]

theorem telescopeParts_injective : ∀ {l l' : List (Binding Term)} {rest rest' : Parts},
    telescopeParts l rest = telescopeParts l' rest' → rest.Inside → rest'.Inside →
      l = l' ∧ rest = rest'
  | [], [], _, _, same, _, _ => ⟨rfl, same⟩
  -- what comes behind the shorter telescope would begin with a binder of the longer one
  | [], ⟨mode, x, a⟩ :: l', rest, rest', same, inside, _ => by
      have begins : rest = .part a.toScoped (.binder mode x (telescopeParts l' rest')) := same
      exact (begins ▸ inside : Parts.Inside (.part _ (.binder _ _ _))).elim
  | ⟨mode, x, a⟩ :: l, [], rest, rest', same, _, inside => by
      have begins : rest' = .part a.toScoped (.binder mode x (telescopeParts l rest)) := same.symm
      exact (begins ▸ inside : Parts.Inside (.part _ (.binder _ _ _))).elim
  | ⟨_, _, a⟩ :: l, ⟨_, _, b⟩ :: l', _, _, same, inside, inside' => by
      simp only [telescopeParts, Parts.part.injEq, Parts.binder.injEq] at same
      obtain ⟨head, rfl, rfl, tail⟩ := same
      obtain ⟨rfl, rfl⟩ := telescopeParts_injective tail inside inside'
      rw [Term.toScoped_injective head]
      exact ⟨rfl, rfl⟩

theorem CaseTree.toScoped_injective : ∀ {a b : CaseTree}, a.toScoped = b.toScoped → a = b
  | .leaf params body, b, same => by
      cases b <;> simp only [CaseTree.toScoped, Scoped.node.injEq, reduceCtorEq, false_and,
        true_and] at same
      obtain ⟨rfl, last⟩ := telescopeParts_injective same trivial trivial
      simp only [Parts.one, Parts.part.injEq, and_true] at last
      rw [Term.toScoped_injective last]
  | .branch params children, b, same => by
      cases b <;> simp only [CaseTree.toScoped, Scoped.node.injEq, reduceCtorEq, false_and,
        true_and] at same
      obtain ⟨rfl, last⟩ :=
        telescopeParts_injective same (childrenParts_inside _) (childrenParts_inside _)
      rw [childrenParts_injective last]
  | .interval params ends rest, b, same => by
      cases b <;> simp only [CaseTree.toScoped, Parts.one, Scoped.node.injEq, Parts.part.injEq,
        reduceCtorEq, false_and, true_and, and_true] at same
      obtain ⟨first, second⟩ := same
      obtain ⟨rfl, last⟩ :=
        telescopeParts_injective first (endsParts_inside _) (endsParts_inside _)
      rw [endsParts_injective last, restScoped_injective second]

theorem childrenParts_injective : ∀ {l l' : List (Shape × CaseTree)},
    childrenParts l = childrenParts l' → l = l'
  | [], [], _ => rfl
  | [], _ :: _, same | _ :: _, [], same => by cases same
  | (_, a) :: l, (_, b) :: l', same => by
      simp only [childrenParts, Parts.one, Parts.part.injEq, Scoped.node.injEq, Label.child.injEq,
        and_true] at same
      obtain ⟨⟨rfl, head⟩, tail⟩ := same
      rw [CaseTree.toScoped_injective head, childrenParts_injective tail]

theorem endsParts_injective : ∀ {l l' : List (Ends Term)}, endsParts l = endsParts l' → l = l'
  | [], [], _ => rfl
  | [], _ :: _, same | _ :: _, [], same => by cases same
  | ⟨_, _⟩ :: l, ⟨_, _⟩ :: l', same => by
      simp only [endsParts, Parts.part.injEq] at same
      obtain ⟨left, right, tail⟩ := same
      rw [optionScoped_injective left, optionScoped_injective right, endsParts_injective tail]

theorem restScoped_injective : ∀ {a b : Option CaseTree}, restScoped a = restScoped b → a = b
  | none, none, _ => rfl
  | none, some _, same | some _, none, same => by cases same
  | some a, some b, same => by
      simp only [restScoped, Parts.one, Scoped.node.injEq, Parts.part.injEq, true_and,
        and_true] at same
      rw [CaseTree.toScoped_injective same]

end

end PathTheory
