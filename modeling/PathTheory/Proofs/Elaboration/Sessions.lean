import PathTheory.Session
import PathTheory.Proofs.Elaboration.Outcome
/-!
Metavariables never leave the elaboration that they are made in. Whatever is done in a session, the
definitions of its environment mention none, and neither does an expression or its type.
-/
namespace PathTheory

open Surface (Expr Declaration)

variable {config : Config}

/-- Only metavariables that are made from here on may be mentioned. -/
def Ground.fresh (env : Environment) : Ground :=
  ⟨True, env.metas.size, True, fun _ => True, fun _ => True⟩

theorem Ground.fresh_open (env : Environment) : (Ground.fresh env).Open :=
  ⟨trivial, fun _ => trivial, fun _ => trivial⟩

/-- An elaboration starts with an empty store. -/
def Moment.start (env : Environment) : Moment := ⟨.start, .empty, env⟩

theorem Store.empty_allowed (A : Allowance) : Store.empty.Allowed A where
  equations := nofun
  props := nofun
  lowerBounds := nofun
  upperBounds := nofun
  metas := nofun
  context := nofun

theorem Ground.fresh_suits {env : Environment} (holeless : env.Holeless) :
    (Ground.fresh env).Suits config (.start env) where
  holds := by
    refine ⟨fun _ => le_rfl, ⟨fun x definition _ found => ?_, ?_, ?_, ?_⟩, Store.empty_allowed _⟩
    · refine (holeless x definition found).mono ⟨fun _ => False.elim, fun _ => ?_, ?_, ?_⟩
      · exact .inl (.inl trivial)
      · exact fun _ _ => trivial
      · exact fun _ _ => trivial
    · exact fun _ _ => ⟨trivial, .inl (.inl (.inl trivial))⟩
    · exact fun _ _ _ => trivial
    · intro m _ own _
      obtain ⟨new, old⟩ := own trivial
      exact absurd old (Nat.not_lt.mpr new)
  data := fun _ _ _ => trivial
  number := trivial
  made := fun _ m new old => absurd old (Nat.not_lt.mpr new)
  limit := .inl trivial

namespace Session

/-- The sessions that are reached by reserving names, numbering variables, and elaborating
    declarations and expressions one after another, whether they are accepted or not. -/
inductive Reached : Session → Prop
  | start (config : Config) (fuel : Nat) : Reached (.start config fuel)
  | function {s : Session} (reached : Reached s) (name : String) :
      Reached (s.reserveFunction name).2
  | data {s : Session} (reached : Reached s) (name : String) (constructors : List String) :
      Reached (s.reserveData name constructors).2.2
  | cls {s : Session} (reached : Reached s) (name : String) (fields : List String) :
      Reached (s.reserveClass name fields).2.2
  | vars {s : Session} (reached : Reached s) (n : Nat) : Reached { s with nextVar := n }
  | declare {s s' : Session} (reached : Reached s) {d : Declaration} {r : Except Failure DefId}
      (done : declare d s = .ok (r, s')) : Reached s'
  | expression {s s' : Session} (reached : Reached s) {e : Expr} {expected : Option Expr}
      {r : Except Failure (Term × Term)}
      (done : elaborate (e.elaborate expected) s = .ok (r, s')) : Reached s'
  | evaluate {s s' : Session} (reached : Reached s) {e : Expr} {r : Except Failure Term}
      (done : evaluate e s = .ok (r, s')) : Reached s'

variable {s s' : Session}

theorem elaborate_run {α : Type} {e : Elaborate α} {x : α}
    (done : elaborate e s = .ok (x, s')) : ∃ st store n,
      e s.config .start .empty s.env s.nextVar = .ok ((((x, st), store), s'.env), n) := by
  unfold elaborate at done
  obtain ⟨⟨⟨⟨⟨⟨y, st⟩, store⟩, env⟩, n⟩, _⟩, ran, final⟩ := bind_ok done
  obtain ⟨r, run, same⟩ := bind_ok ran
  cases same
  cases final
  exact ⟨st, store, n, run⟩

theorem evaluate_run {e : Expr} {r : Except Failure Term} (done : evaluate e s = .ok (r, s')) :
    ∃ r' s₁, elaborate (e.elaborate none) s = .ok (r', s₁) ∧ s'.env = s₁.env := by
  unfold evaluate at done
  obtain ⟨⟨r', s₁⟩, elaborated, next⟩ := bind_ok done
  refine ⟨r', s₁, elaborated, ?_⟩
  cases r' with
  | error failure =>
      cases next
      rfl
  | ok found =>
      obtain ⟨⟨⟨value, n⟩, _⟩, ran, final⟩ := bind_ok next
      obtain ⟨_, _, same⟩ := bind_ok ran
      cases same
      cases final
      rfl

theorem declare_holeless (holeless : s.env.Holeless) {d : Declaration}
    {r : Except Failure DefId} (done : declare d s = .ok (r, s')) : s'.env.Holeless := by
  obtain ⟨st, store, n, run⟩ := elaborate_run done
  intro x definition found
  exact (d.elaborate_definitions (c := .start s.env) (Ground.fresh_suits holeless)
    (Ground.fresh_open s.env) trivial run x definition found).elim (holeless x definition) id

theorem expression_holeless (holeless : s.env.Holeless) {e : Expr} {expected : Option Expr}
    {r : Except Failure (Term × Term)}
    (done : elaborate (e.elaborate expected) s = .ok (r, s')) :
    s'.env.Holeless ∧ ∀ result, r = .ok result → result.1.holes = [] ∧ result.2.holes = [] := by
  obtain ⟨st, store, n, run⟩ := elaborate_run done
  obtain ⟨found, c₁, n₁, _, suits, later, term, type, settled⟩ :=
    Expr.elaborate_run (c := .start s.env) (Ground.fresh_suits holeless)
      (Ground.fresh_open s.env) run
  obtain ⟨levels, k, _, finishes, zonks⟩ := Expr.settled_run suits settled
  constructor
  · intro x definition found
    unfold Environment.definition? at found
    rw [finishes.definitions, later.grows.definitions] at found
    exact holeless x definition found
  · intro result accepted
    obtain ⟨zonksTerm, zonksType, _⟩ := zonks result accepted
    have carries := finishes.carries trivial
    have term := zonksTerm.allowed carries (term.mono finishes.order)
    have type := zonksType.allowed carries (type.mono finishes.order)
    exact ⟨List.eq_nil_iff_forall_not_mem.mpr fun m => term.hole,
      List.eq_nil_iff_forall_not_mem.mpr fun m => type.hole⟩

end Session

namespace Environment.Holeless

variable {env : Environment} {d : Definition}

theorem add (holeless : env.Holeless) (name : String) (allowed : d.Allowed .holeless) :
    (env.add name d).2.Holeless := by
  intro x definition found
  unfold Environment.definition? Environment.add at found
  rw [Array.getElem?_push] at found
  split at found
  · cases found
    exact allowed
  · exact holeless x definition found

theorem set (holeless : env.Holeless) (id : DefId) (allowed : d.Allowed .holeless) :
    (env.set id d).Holeless := by
  intro x definition found
  rw [Environment.definition?_set] at found
  split at found
  · cases found
    exact allowed
  · exact holeless x definition found

end Environment.Holeless

namespace Session

variable {s s' : Session}

theorem addAll_holeless (holeless : s.env.Holeless) {d : Definition}
    (allowed : d.Allowed .holeless) (names : List String) : (addAll d s names).2.env.Holeless := by
  induction names generalizing s with
  | nil => exact holeless
  | cons name rest ih => exact ih (holeless.add name allowed)

theorem Reached.holeless (reached : Reached s) : s.env.Holeless := by
  have unknown : declared.Allowed .holeless := Term.allowed_note.mpr trivial
  induction reached with
  | start config fuel => exact Library.environment_holeless fuel
  | function _ name ih => exact ih.add name ⟨Telescope.allowed_nil, unknown, nofun⟩
  | data _ name constructors ih =>
      have header : ∀ ids, (Definition.data ⟨[], .set0, ids, false, false⟩).Allowed .holeless :=
        fun ids => ⟨Telescope.allowed_nil, fun _ _ => trivial⟩
      have con : ∀ data, (Definition.constructor ⟨data, [], 0⟩).Allowed .holeless :=
        fun data => ⟨Telescope.allowed_nil, trivial⟩
      exact (addAll_holeless (ih.add name (header [])) (con _) _).set _ (header _)
  | cls _ name fields ih =>
      have header : ∀ ids, (Definition.cls ⟨ids, none, .set0⟩).Allowed .holeless :=
        fun ids _ _ => trivial
      have field : ∀ ofClass this, (Definition.field ⟨ofClass, this, declared⟩).Allowed .holeless :=
        fun ofClass this => ⟨unknown, trivial⟩
      exact (addAll_holeless (ih.add name (header [])) (field _ _) _).set _ (header _)
  | vars _ n ih => exact ih
  | declare _ done ih => exact declare_holeless ih done
  | expression _ done ih => exact (expression_holeless ih done).1
  | evaluate _ done ih =>
      obtain ⟨r', s₁, elaborated, same⟩ := evaluate_run done
      rw [same]
      exact (expression_holeless ih elaborated).1

/-- Equations that are put off in a session are woken once they can go on. -/
theorem Reached.determined (reached : Reached s) : s.env.Determined := reached.holeless.determined

/-- In no session that can be reached does a definition mention a metavariable, and neither does
    an expression that is elaborated there, nor its type. -/
theorem holes_stay_inside (reached : Reached s) :
    (∀ x definition, s.env.definition? x = some definition →
      ∀ t ∈ definition.terms, t.holes = []) ∧
    ∀ e expected term type s',
      elaborate (Expr.elaborate e expected) s = .ok (.ok (term, type), s') →
        term.holes = [] ∧ type.holes = [] := by
  refine ⟨fun x definition found t standing => ?_, fun e expected term type s' done => ?_⟩
  · have holeless := (reached.holeless x definition found).holes t standing
    exact List.eq_nil_iff_forall_not_mem.mpr holeless
  · exact (expression_holeless reached.holeless done).2 (term, type) rfl

/-- The identity applied to a number; the type of its argument is left to inference. -/
def appliedIdentity : Expr :=
  .app .none (.lam .none [⟨.explicit, ⟨29, "x"⟩, none⟩] (.var .none ⟨29, "x"⟩))
    [(.explicit, .number .none 1)]

def one : Surface.FunctionDecl where
  span := .none
  id := ⟨11, "one"⟩
  params := []
  result := some (.const .none Library.nat)
  body := .term appliedIdentity

def reservedOne : Session := { ((start .standard 20).reserveFunction "one").2 with nextVar := 30 }

/-- Both the declaration and the expression by itself are accepted, and metavariables are made. -/
def acceptsOne : Bool :=
  match declare (.function one) reservedOne with
  | .ok (.ok _, s) => match elaborate (appliedIdentity.elaborate none) s with
    | .ok (.ok _, _) => decide (0 < s.env.metas.size)
    | _ => false
  | _ => false

theorem one_without_holes : ∃ id s term type s',
    declare (.function one) reservedOne = .ok (.ok id, s) ∧ 0 < s.env.metas.size ∧
      (∀ x definition, s.env.definition? x = some definition →
        ∀ t ∈ definition.terms, t.holes = []) ∧
      elaborate (appliedIdentity.elaborate none) s = .ok (.ok (term, type), s') ∧
      term.holes = [] ∧ type.holes = [] := by
  have accepted : acceptsOne = true := by
    decide +kernel
  unfold acceptsOne at accepted
  split at accepted
  · rename_i id s declared
    split at accepted
    · rename_i found s' elaborated
      have reached : Reached s :=
        .declare (.vars (.function (.start .standard 20) "one") 30) declared
      obtain ⟨definitions, expressions⟩ := holes_stay_inside reached
      obtain ⟨term, type⟩ := expressions appliedIdentity none found.1 found.2 s' elaborated
      exact ⟨id, s, found.1, found.2, s', declared, of_decide_eq_true accepted, definitions,
        elaborated, term, type⟩
    · cases accepted
  · cases accepted

/-- An expression is accepted, and its term and its type pass the test in the session after it. -/
def elaboratesTo (e : Expr) (s : Session) (test : Term → Term → Session → Bool) : Bool :=
  match elaborate (e.elaborate none) s with
  | .ok (.ok (term, type), s') => test term type s'
  | _ => false

theorem elaboratesTo_run {e : Expr} {test : Term → Term → Session → Bool}
    (passes : elaboratesTo e s test = true) : ∃ term type s',
      elaborate (e.elaborate none) s = .ok (.ok (term, type), s') ∧ test term type s' = true := by
  unfold elaboratesTo at passes
  split at passes
  · rename_i term type s' accepted
    exact ⟨term, type, s', accepted, passes⟩
  · cases passes

namespace Escape

open Surface Library

def y : Var := ⟨29, "y"⟩

/-- A function whose domain is left to inference. -/
def abstracted (x : Var) (body : Expr) : Expr := .lam .none [⟨.explicit, x, none⟩] body

/-- What is said of the variable, said of zero. -/
def atZero (body : Expr) : Expr :=
  .app .none (.lam .none [⟨.explicit, y, some (.const .none nat)⟩] body)
    [(.explicit, .number .none 0)]

/-- The path that stays at the variable, handed through the identity. -/
def constantPath : Expr :=
  let stays : Expr := .app .none (.const .none pathCon)
    [(.implicit, abstracted ⟨31, "i"⟩ (.const .none nat)), (.implicit, .var .none y),
      (.implicit, .var .none y), (.explicit, abstracted ⟨32, "i"⟩ (.var .none y))]
  .app .none (abstracted ⟨30, "x"⟩ (.var .none ⟨30, "x"⟩)) [(.explicit, stays)]

def numbered : Session := { start .standard 20 with nextVar := 33 }

/-- Variables do not stay inside: the domain of the identity is a metavariable when zero is
    substituted in it, and its solution brings the variable back. The type that the term has by
    itself is closed. -/
theorem constantPath_escapes : ∃ term type s' own k,
    elaborate ((atZero constantPath).elaborate none) numbered = .ok (.ok (term, type), s') ∧
    term.freeVars = [] ∧ y ∈ type.freeVars ∧
    (term.typeOf? s'.env []).run s'.nextVar = .ok (some own, k) ∧ own.freeVars = [] := by
  have escapes : elaboratesTo (atZero constantPath) numbered (fun term type s' =>
      decide (term.freeVars = []) && decide (y ∈ type.freeVars) &&
        Unify.endsIn (Unify.reading (term.typeOf? · [])) .empty s'.env s'.nextVar fun own _ _ _ =>
          own.any fun own => decide (own.freeVars = [])) = true := by
    decide +kernel
  obtain ⟨term, type, s', accepted, run⟩ := elaboratesTo_run escapes
  simp only [Bool.and_eq_true, decide_eq_true_eq] at run
  obtain ⟨⟨closed, escaped⟩, run⟩ := run
  obtain ⟨own, _, _, k, isType, run⟩ := Unify.endsIn_run run
  obtain ⟨own, rfl, ownClosed⟩ := (Option.any_eq_true _ _).mp run
  exact ⟨term, type, s', own, k, accepted, closed, escaped,
    (Unify.readEnv_run isType).2.2, of_decide_eq_true ownClosed⟩

def family : DefId := ⟨11, "Q"⟩

def endomap : DefId := ⟨12, "k"⟩

def typeOf : DefId := ⟨13, "typeOf"⟩

def identity : DefId := ⟨14, "id"⟩

def calling (f : DefId) (args : List Expr) : Expr :=
  .app .none (.const .none f) (args.map (Prod.mk .explicit))

/-- A family over the numbers, functions from each of its members to itself that have no body, the
    type of an element, and the identity of a type. -/
def members : List Declaration :=
  let n : Var := ⟨30, "n"⟩
  let type : Var := ⟨31, "A"⟩
  let a : Var := ⟨32, "a"⟩
  let member : Expr := calling family [.var .none n]
  let types : Expr := .univ .none none
  [.data ⟨.none, family, [⟨.explicit, n, .const .none nat⟩], none, false, []⟩,
   .function ⟨.none, endomap, [⟨.explicit, n, .const .none nat⟩],
     some (.pi .none [⟨.explicit, ⟨33, "w"⟩, member⟩] member), .abstract⟩,
   .function ⟨.none, typeOf, [⟨.implicit, type, types⟩, ⟨.explicit, a, .var .none type⟩],
     some types, .term (.var .none type)⟩,
   .function ⟨.none, identity, [⟨.explicit, type, types⟩, ⟨.explicit, a, .var .none type⟩],
     some (.var .none type), .term (.var .none a)⟩]

def reservedMembers : Session :=
  let s := ((start .standard 20).reserveData "Q" []).2.2
  let s := ((s.reserveFunction "k").2.reserveFunction "typeOf").2
  { (s.reserveFunction "id").2 with nextVar := 40 }

/-- The type of the function without a body, at zero. -/
def endomaps : Expr := atZero (calling typeOf [calling endomap [.var .none y]])

def itself : Expr := abstracted ⟨34, "w"⟩ (.var .none ⟨34, "w"⟩)

def saturated : Expr := calling identity [endomaps, itself]

def curried : Expr := .app .none (calling identity [endomaps]) [(.explicit, itself)]

/-- The answer to whether two types are equal, in a store of its own. -/
def equates (s : Session) (left right : Term) (n : Nat) : Checked Bool :=
  (·.1.1.1) <$> Unify.compare left right .eq .none .empty s.env n

/-- Both ways to write the call are accepted after the declarations, and a variable is left in the
    normal form of the second type only. -/
def curriedEscapes : Bool :=
  match load members reservedMembers with
  | .ok (.ok (), s) => elaboratesTo saturated s fun _ whole s₁ =>
      elaboratesTo curried s fun _ parted s₂ =>
        match whole.nf s₁.env s₁.nextVar, parted.nf s₂.env s₂.nextVar with
        | .ok (v, _), .ok (v', _) => decide (v.freeVars = []) && decide (y ∈ v'.freeVars) &&
            decide (equates s₂ whole parted (max s₁.nextVar s₂.nextVar) = .ok false)
        | _, _ => false
  | _ => false

/-- The call with all of its arguments at once has another type than the one that takes the last of
    them later, where the second argument is substituted for a binder. -/
theorem curried_escapes : ∃ s term whole s₁ term' parted s₂ v k v' k',
    load members reservedMembers = .ok (.ok (), s) ∧
    elaborate (saturated.elaborate none) s = .ok (.ok (term, whole), s₁) ∧
    elaborate (curried.elaborate none) s = .ok (.ok (term', parted), s₂) ∧
    whole.nf s₁.env s₁.nextVar = .ok (v, k) ∧ v.freeVars = [] ∧
    parted.nf s₂.env s₂.nextVar = .ok (v', k') ∧ y ∈ v'.freeVars ∧
    equates s₂ whole parted (max s₁.nextVar s₂.nextVar) = .ok false := by
  have escapes : curriedEscapes = true := by
    decide +kernel
  unfold curriedEscapes at escapes
  split at escapes
  · rename_i s loaded
    obtain ⟨term, whole, s₁, accepted, escapes⟩ := elaboratesTo_run escapes
    obtain ⟨term', parted, s₂, accepted', escapes⟩ := elaboratesTo_run escapes
    split at escapes
    · rename_i v k v' k' normal normal'
      simp only [Bool.and_eq_true, decide_eq_true_eq] at escapes
      exact ⟨s, term, whole, s₁, term', parted, s₂, v, k, v', k', loaded, accepted, accepted',
        normal, escapes.1.1, normal', escapes.1.2, escapes.2⟩
    · cases escapes
  · cases escapes

end Escape

end Session

end PathTheory
