import PathTheory.Proofs.Reduction.Views
import Mathlib.Data.List.Forall2
/-!
Terms that agree up to some places. In such a place the second term has what is given for the term
that the first one has there; everywhere else the two are built alike. Agreement goes on under
filling and instantiation, and where only variables are replaced, whatever a reduction looks at in
the first term it finds in the second one too.
-/
namespace PathTheory

mutual

/-- The second term is the first one with other terms in some places. -/
inductive Nameless.UpTo (spot : Nameless → Nameless → Prop) : Nameless → Nameless → Prop
  | swap {a b : Nameless} : spot a b → Nameless.UpTo spot a b
  | bound (i : Nat) : Nameless.UpTo spot (.bound i) (.bound i)
  | hole (m : MetaId) : Nameless.UpTo spot (.hole m) (.hole m)
  | node (l : Label) {p q : NamelessParts} : NamelessParts.UpTo spot p q →
      Nameless.UpTo spot (.node l p) (.node l q)

inductive NamelessParts.UpTo (spot : Nameless → Nameless → Prop) :
    NamelessParts → NamelessParts → Prop
  | nil : NamelessParts.UpTo spot .nil .nil
  | part {a b : Nameless} {p q : NamelessParts} : Nameless.UpTo spot a b →
      NamelessParts.UpTo spot p q → NamelessParts.UpTo spot (.part a p) (.part b q)
  | binder (mode : Mode) {p q : NamelessParts} : NamelessParts.UpTo spot p q →
      NamelessParts.UpTo spot (.binder mode p) (.binder mode q)

end

section Agreement

variable {spot other : Nameless → Nameless → Prop} {f : Universe → Universe}
  {σ τ : Var → Nameless}

mutual

/-- What the second term has in the places may be replaced in turn. -/
theorem Nameless.UpTo.put (each : ∀ a b, spot a b → a.UpTo other (b.inst id σ)) :
    ∀ {a b : Nameless}, a.UpTo spot b → a.UpTo other (b.inst id σ)
  | _, _, .swap here => each _ _ here
  | _, _, .bound i => .bound i
  | _, _, .hole m => .hole m
  | _, _, .node l parts => by
      rw [Nameless.inst, Label.map_id']
      exact .node l (parts.put each)

theorem NamelessParts.UpTo.put (each : ∀ a b, spot a b → a.UpTo other (b.inst id σ)) :
    ∀ {p q : NamelessParts}, p.UpTo spot q → p.UpTo other (q.inst id σ)
  | _, _, .nil => .nil
  | _, _, .part a rest => .part (a.put each) (rest.put each)
  | _, _, .binder mode rest => .binder mode (rest.put each)

end

theorem Nameless.inst_free (t : Nameless) : t.inst id .free = t :=
  t.inst_self (fun _ => rfl) fun _ _ => rfl

theorem Nameless.UpTo.mono (more : ∀ a b, spot a b → other a b) {a b : Nameless}
    (same : a.UpTo spot b) : a.UpTo other b := by
  have put : a.UpTo other (b.inst id .free) := same.put fun a b here => by
    rw [b.inst_free]
    exact .swap (more a b here)
  rwa [b.inst_free] at put

theorem NamelessParts.UpTo.mono (more : ∀ a b, spot a b → other a b) {p q : NamelessParts}
    (same : p.UpTo spot q) : p.UpTo other q := by
  have put : p.UpTo other (q.inst id .free) := same.put fun a b here => by
    rw [b.inst_free]
    exact .swap (more a b here)
  rwa [NamelessParts.inst_self (f := id) (fun _ => rfl) _ fun _ _ => rfl] at put

mutual

/-- Instances of one term agree if what stands for its variables does. -/
theorem Nameless.UpTo.inst : ∀ t : Nameless, (∀ x ∈ t.freeVars, (σ x).UpTo spot (τ x)) →
    (t.inst f σ).UpTo spot (t.inst f τ)
  | .bound i, _ => .bound i
  | .hole m, _ => .hole m
  | .free x, same => same x (List.mem_singleton_self x)
  | .node _ parts, same => .node _ (NamelessParts.UpTo.inst parts same)

theorem NamelessParts.UpTo.inst : ∀ t : NamelessParts,
    (∀ x ∈ t.freeVars, (σ x).UpTo spot (τ x)) → (t.inst f σ).UpTo spot (t.inst f τ)
  | .nil, _ => .nil
  | .part t rest, same =>
      .part (Nameless.UpTo.inst t fun x member => same x (List.mem_append_left _ member))
        (NamelessParts.UpTo.inst rest fun x member => same x (List.mem_append_right _ member))
  | .binder mode rest, same => .binder mode (NamelessParts.UpTo.inst rest same)

end

/-- A term agrees with itself if its variables may stay. -/
theorem Nameless.UpTo.self {t : Nameless} (stays : ∀ x ∈ t.freeVars, spot (.free x) (.free x)) :
    t.UpTo spot t := by
  have same : (t.inst id .free).UpTo spot (t.inst id .free) :=
    UpTo.inst t fun x member => .swap (stays x member)
  rwa [t.inst_free] at same

end Agreement

/-- What is replaced has no loose bound variables, and neither has what is put there. -/
def Shut (spot : Nameless → Nameless → Prop) : Prop :=
  ∀ {a b}, spot a b → a.Closed 0 ∧ b.Closed 0

/-- Terms are put for variables, and nothing else is replaced. -/
structure PutsTerms (spot : Nameless → Nameless → Prop) : Prop where
  var : ∀ {a b}, spot a b → ∃ x, a = .free x
  closed : ∀ {a b}, spot a b → b.Closed 0
  given : ∀ {a b}, spot a b → b.given? = none

section Putting

variable {spot : Nameless → Nameless → Prop}

/-- Related lists of terms. -/
abbrev AllUpTo (spot : Nameless → Nameless → Prop) : List Nameless → List Nameless → Prop :=
  List.Forall₂ (Nameless.UpTo spot)

theorem PutsTerms.node (puts : PutsTerms spot) {l : Label} {p : NamelessParts} {b : Nameless}
    (same : (Nameless.node l p).UpTo spot b) : ∃ q, b = .node l q ∧ p.UpTo spot q := by
  cases same with
  | swap here =>
      obtain ⟨_, impossible⟩ := puts.var here
      cases impossible
  | node _ parts => exact ⟨_, rfl, parts⟩

theorem PutsTerms.shut (puts : PutsTerms spot) : Shut spot := by
  intro a b here
  obtain ⟨x, rfl⟩ := puts.var here
  exact ⟨trivial, puts.closed here⟩

theorem getD_upTo {ρ ρ' : List Nameless} (same : AllUpTo spot ρ ρ') (i : Nat) {a b : Nameless}
    (default : a.UpTo spot b) : (ρ.getD i a).UpTo spot (ρ'.getD i b) := by
  induction same generalizing i with
  | nil => simpa using default
  | cons here _ ih =>
      cases i with
      | zero => exact here
      | succ i => exact ih i

mutual

theorem Nameless.UpTo.fill (shut : Shut spot) {ρ ρ' : List Nameless}
    (values : AllUpTo spot ρ ρ') (d : Nat) :
    ∀ {a b : Nameless}, a.UpTo spot b → (a.fill ρ d).UpTo spot (b.fill ρ' d)
  | a, b, .swap here => by
      obtain ⟨left, right⟩ := shut here
      rw [(left.mono (Nat.zero_le d)).fill, (right.mono (Nat.zero_le d)).fill]
      exact .swap here
  | _, _, .bound i => by
      simp only [Nameless.fill]
      split
      · exact .bound i
      · exact getD_upTo values _ (.bound i)
  | _, _, .hole m => .hole m
  | _, _, .node l parts => .node l (parts.fill shut values d)

theorem NamelessParts.UpTo.fill (shut : Shut spot) {ρ ρ' : List Nameless}
    (values : AllUpTo spot ρ ρ') (d : Nat) :
    ∀ {p q : NamelessParts}, p.UpTo spot q → (p.fill ρ d).UpTo spot (q.fill ρ' d)
  | _, _, .nil => .nil
  | _, _, .part a rest => .part (a.fill shut values d) (rest.fill shut values d)
  | _, _, .binder mode rest => .binder mode (rest.fill shut values (d + 1))

end

mutual

theorem Nameless.UpTo.mentions (shut : Shut spot) (d : Nat) :
    ∀ {a b : Nameless}, a.UpTo spot b → a.mentions d = b.mentions d
  | a, b, .swap here => by
      obtain ⟨left, right⟩ := shut here
      rw [(left.mono (Nat.zero_le d)).mentions, (right.mono (Nat.zero_le d)).mentions]
  | _, _, .bound _ | _, _, .hole _ => rfl
  | _, _, .node _ parts => parts.mentions shut d

theorem NamelessParts.UpTo.mentions (shut : Shut spot) (d : Nat) :
    ∀ {p q : NamelessParts}, p.UpTo spot q → p.mentions d = q.mentions d
  | _, _, .nil => rfl
  | _, _, .part a rest => by
      rw [NamelessParts.mentions, NamelessParts.mentions, a.mentions shut d, rest.mentions shut d]
  | _, _, .binder _ rest => rest.mentions shut (d + 1)

end

mutual

theorem Nameless.UpTo.closed (shut : Shut spot) :
    ∀ (d : Nat) {a b : Nameless}, a.UpTo spot b → a.Closed d → b.Closed d
  | d, _, _, .swap here, _ => (shut here).2.mono (Nat.zero_le d)
  | _, _, _, .bound _, closed => closed
  | _, _, _, .hole _, _ => trivial
  | d, _, _, .node _ parts, closed => NamelessParts.UpTo.closed shut d parts closed

theorem NamelessParts.UpTo.closed (shut : Shut spot) :
    ∀ (d : Nat) {p q : NamelessParts}, p.UpTo spot q → p.Closed d → q.Closed d
  | _, _, _, .nil, _ => trivial
  | d, _, _, .part a rest, closed => ⟨a.closed shut d closed.1, rest.closed shut d closed.2⟩
  | d, _, _, .binder _ rest, closed => NamelessParts.UpTo.closed shut (d + 1) rest closed

end

theorem list_upTo : ∀ {p q : NamelessParts}, p.UpTo spot q → AllUpTo spot p.list q.list
  | _, _, .nil => .nil
  | _, _, .part a rest => .cons a (list_upTo rest)
  | _, _, .binder _ rest => (list_upTo rest :)

theorem dropLast_upTo {l l' : List Nameless} (same : AllUpTo spot l l') :
    AllUpTo spot l.dropLast l'.dropLast := by
  rw [List.dropLast_eq_take, List.dropLast_eq_take, same.length_eq]
  exact List.forall₂_take _ same

theorem getElem?_upTo {l l' : List Nameless} (same : AllUpTo spot l l') {i : Nat} {a : Nameless}
    (found : l[i]? = some a) : ∃ b, l'[i]? = some b ∧ a.UpTo spot b := by
  induction same generalizing i with
  | nil => cases found
  | cons here _ ih =>
      cases i with
      | zero =>
          cases found
          exact ⟨_, rfl, here⟩
      | succ i => exact ih found

theorem applyAll_upTo {fn fn' : Nameless} {args args' : List Nameless} (head : fn.UpTo spot fn')
    (same : AllUpTo spot args args') : (fn.applyAll args).UpTo spot (fn'.applyAll args') := by
  induction same generalizing fn fn' with
  | nil => exact head
  | cons here _ ih => exact ih (.node .app (.part head (.part here .nil)))

/-- What is entered is entered on the other side as well. -/
theorem enter_upTo : ∀ {p q : NamelessParts} {ρ ρ' args args' : List Nameless}
    {inner : NamelessParts} {values left : List Nameless}, p.UpTo spot q → AllUpTo spot ρ ρ' →
    AllUpTo spot args args' → p.enter ρ args = some (inner, values, left) →
    ∃ inner' values' left', q.enter ρ' args' = some (inner', values', left') ∧
      inner.UpTo spot inner' ∧ AllUpTo spot values values' ∧ AllUpTo spot left left'
  | _, _, _, _, _, _, _, _, _, .nil, outer, given, entered => by
      cases entered
      exact ⟨_, _, _, rfl, .nil, outer, given⟩
  | _, _, _, _, _, _, _, _, _, .binder mode rest, outer, given, entered => by
      cases entered
      exact ⟨_, _, _, rfl, .binder mode rest, outer, given⟩
  | _, _, _, _, _, _, _, _, _, .part a .nil, outer, given, entered => by
      cases entered
      exact ⟨_, _, _, rfl, .part a .nil, outer, given⟩
  | _, _, _, _, _, _, _, _, _, .part a (.part b rest), outer, given, entered => by
      cases entered
      exact ⟨_, _, _, rfl, .part a (.part b rest), outer, given⟩
  | _, _, _, _, _, _, _, _, _, .part a (.binder mode rest), outer, given, entered => by
      cases given with
      | nil => cases entered
      | cons first others =>
          have inside := enter_upTo rest (.cons first outer) others entered
          exact inside

theorem given?_upTo (puts : PutsTerms spot) {a b : Nameless} (same : a.UpTo spot b) :
    Option.Rel (Nameless.UpTo spot) a.given? b.given? := by
  cases same with
  | swap here =>
      obtain ⟨x, rfl⟩ := puts.var here
      rw [puts.given here]
      exact .none
  | bound _ | hole _ => exact .none
  | node l parts =>
      cases l with
      | given =>
          cases parts with
          | part a rest =>
              cases rest with
              | nil => exact .some a
              | _ => exact .none
          | _ => exact .none
      | _ => exact .none

/-- Rules for the ends that agree side by side. -/
def Ends.UpTo (spot : Nameless → Nameless → Prop) (e e' : Ends Nameless) : Prop :=
  ∀ side, Option.Rel (Nameless.UpTo spot) (e.at? side) (e'.at? side)

theorem Ends.UpTo.isEmpty {e e' : Ends Nameless} (same : e.UpTo spot e') :
    e'.isEmpty = e.isEmpty := by
  have left := same .left
  have right := same .right
  obtain ⟨l, r⟩ := e
  obtain ⟨l', r'⟩ := e'
  cases left <;> cases right <;> simp_all [Ends.isEmpty]

theorem ends_upTo (puts : PutsTerms spot) : ∀ {p q : NamelessParts}, p.UpTo spot q →
    List.Forall₂ (Ends.UpTo spot) p.ends q.ends
  | _, _, .nil | _, _, .binder _ _ | _, _, .part _ .nil | _, _, .part _ (.binder _ _) => .nil
  | _, _, .part a (.part b rest) => by
      refine .cons (fun side => ?_) (ends_upTo puts rest)
      cases side with
      | left => exact given?_upTo puts a
      | right => exact given?_upTo puts b

theorem shape?_upTo (puts : PutsTerms spot) {a b : Nameless} (same : a.UpTo spot b) {shape : Shape}
    {components : List Nameless} (shown : a.shape? = some (shape, components)) :
    ∃ components', b.shape? = some (shape, components') ∧
      AllUpTo spot components components' := by
  cases a with
  | node l p =>
      obtain ⟨q, rfl, parts⟩ := puts.node same
      cases l with
      | con c u =>
          cases parts with
          | part _ rest =>
              cases shown
              exact ⟨_, rfl, list_upTo rest⟩
          | _ => cases shown
      | tuple =>
          cases shown
          have components := dropLast_upTo (list_upTo parts)
          exact ⟨_, by simp only [Nameless.shape?, components.length_eq], components⟩
      | _ => cases shown
  | _ => cases shown

theorem endpoint?_upTo (puts : PutsTerms spot) {a b : Nameless} (same : a.UpTo spot b)
    {env : Environment} {side : Endpoint} (isEnd : a.endpoint? env = some side) :
    b.endpoint? env = some side := by
  cases a with
  | node l p =>
      obtain ⟨q, rfl, -⟩ := puts.node same
      cases l <;> exact isEnd
  | _ => cases isEnd

/-- What has a shape has the same end, if any, on the other side. -/
theorem endpoint?_upTo_of_shape (puts : PutsTerms spot) {a b : Nameless} (same : a.UpTo spot b)
    (shown : a.shape?.isSome = true) (env : Environment) : b.endpoint? env = a.endpoint? env := by
  cases a with
  | node l p =>
      obtain ⟨q, rfl, -⟩ := puts.node same
      cases l <;> rfl
  | _ => cases shown

theorem isValue_upTo (puts : PutsTerms spot) {a b : Nameless} (same : a.UpTo spot b)
    (value : a.isValue = true) : b.isValue = true := by
  cases a with
  | node l p =>
      obtain ⟨q, rfl, -⟩ := puts.node same
      exact value
  | _ => cases value

theorem lamBody?_upTo (puts : PutsTerms spot) {a b : Nameless} (same : a.UpTo spot b)
    {body : Nameless} (isLam : a.lamBody? = some body) :
    ∃ body', b.lamBody? = some body' ∧ body.UpTo spot body' := by
  unfold Nameless.lamBody? at isLam
  split at isLam
  · cases isLam
    obtain ⟨q, rfl, parts⟩ := puts.node same
    cases parts with
    | part _ binder =>
        cases binder with
        | binder _ inside =>
            cases inside with
            | part body nothing =>
                cases nothing
                exact ⟨_, rfl, body⟩
  · cases isLam

theorem component?_upTo (puts : PutsTerms spot) {a b : Nameless} (same : a.UpTo spot b) {i : Nat}
    {r : Nameless} (found : a.component? i = some r) :
    ∃ r', b.component? i = some r' ∧ r.UpTo spot r' := by
  unfold Nameless.component? at found
  split at found
  · obtain ⟨q, rfl, parts⟩ := puts.node same
    exact getElem?_upTo (dropLast_upTo (list_upTo parts)) found
  · cases found

theorem slot?_upTo (puts : PutsTerms spot) (f : DefId) : ∀ {p q : NamelessParts} {r : Nameless},
    p.UpTo spot q → p.slot? f = some r → ∃ r', q.slot? f = some r' ∧ r.UpTo spot r' := by
  intro p
  induction p using NamelessParts.slot?.induct (f := f) with
  | case1 t rest =>
      intro q r same found
      simp only [NamelessParts.slot?, if_true, Option.some.injEq] at found
      subst found
      cases same with
      | part here others =>
          obtain ⟨_, rfl, field⟩ := puts.node here
          cases field with
          | part value nothing =>
              cases nothing
              exact ⟨_, if_pos rfl, value⟩
  | case2 g t rest different ih =>
      intro q r same found
      simp only [NamelessParts.slot?, if_neg different] at found
      cases same with
      | part here others =>
          obtain ⟨_, rfl, field⟩ := puts.node here
          cases field with
          | part value nothing =>
              cases nothing
              obtain ⟨r', later, value⟩ := ih others found
              exact ⟨r', (if_neg different).trans later, value⟩
  | case3 fields noSlot =>
      intro q r same found
      rw [NamelessParts.slot?.eq_2 _ _ noSlot] at found
      cases found

theorem fixed?_upTo (puts : PutsTerms spot) {a b : Nameless} (same : a.UpTo spot b) {f : DefId}
    {r : Nameless} (found : a.fixed? f = some r) :
    ∃ r', b.fixed? f = some r' ∧ r.UpTo spot r' := by
  unfold Nameless.fixed? at found
  split at found
  · obtain ⟨q, rfl, parts⟩ := puts.node same
    cases parts with
    | part record nothing =>
        cases nothing
        obtain ⟨_, rfl, fields⟩ := puts.node record
        exact slot?_upTo puts f fields found
  · cases found

theorem caseParts?_upTo {p q : NamelessParts} (same : p.UpTo spot q) {args : List Nameless}
    {tree : Nameless} (isCase : Nameless.caseParts? p = some (args, tree)) :
    ∃ args' tree', Nameless.caseParts? q = some (args', tree') ∧ AllUpTo spot args args' ∧
      tree.UpTo spot tree' := by
  have backwards := List.rel_reverse (list_upTo same)
  unfold Nameless.caseParts? at isCase ⊢
  split at isCase
  · rename_i shown
    cases isCase
    rw [shown] at backwards
    obtain ⟨tree', _, last, others, same⟩ := List.forall₂_cons_left_iff.mp backwards
    obtain ⟨motive', args', _, given, same'⟩ := List.forall₂_cons_left_iff.mp others
    rw [same, same']
    exact ⟨_, _, rfl, List.rel_reverse given, last⟩
  · cases isCase

end Putting

section Instances

/-- The same term is put for a variable wherever it stands. -/
def Putting (τ : Var → Term) (a b : Nameless) : Prop := ∃ x, a = .free x ∧ b = (τ x).reading

variable {τ : Var → Term}

theorem putting_puts (τ : Var → Term) : PutsTerms (Putting τ) where
  var := fun ⟨x, left, _⟩ => ⟨x, left⟩
  closed := by
    rintro _ _ ⟨x, _, rfl⟩
    exact (τ x).reading_closed
  given := by
    rintro _ _ ⟨x, _, rfl⟩
    exact (τ x).reading_given?

theorem putting_keeps {x : Var} (kept : τ x = .ref x) : Putting τ (.free x) (.free x) :=
  ⟨x, rfl, (congrArg Term.reading kept).symm⟩

theorem Nameless.upTo_put (t : Nameless) : t.UpTo (Putting τ) (t.put τ) := by
  have same : (t.inst id .free).UpTo (Putting τ) (t.put τ) :=
    UpTo.inst t fun x _ => .swap ⟨x, rfl, rfl⟩
  rwa [t.inst_free] at same

mutual

theorem Nameless.UpTo.eq_put : ∀ {a b : Nameless}, a.UpTo (Putting τ) b → b = a.put τ
  | _, _, .swap here => by
      obtain ⟨x, rfl, rfl⟩ := here
      rfl
  | _, _, .bound _ | _, _, .hole _ => rfl
  | _, _, .node l parts => by rw [put_node, parts.eq_put]

theorem NamelessParts.UpTo.eq_put : ∀ {p q : NamelessParts}, p.UpTo (Putting τ) q → q = p.put τ
  | _, _, .nil => rfl
  | _, _, .part a rest => by
      rw [a.eq_put, rest.eq_put]
      rfl
  | _, _, .binder _ rest => by
      rw [rest.eq_put]
      rfl

end

end Instances

end PathTheory
