import PathTheory.Environment
/-!
Simultaneous substitution of terms for variables and of levels for level variables. A binder
that would capture a variable of the substituted terms gets a new identity; one that shadows a
substituted variable ends its reach. A zonking substitution also replaces solved
metavariables by their solutions.
-/
namespace PathTheory

structure Subst where
  -- the first entry of a variable counts
  terms : List (Var × Term)
  levels : List (LevelVar × Level)
  -- variables that are free in a term substituted here or before
  range : List Var
  zonks : Bool

namespace Subst

def empty : Subst := ⟨[], [], [], false⟩

def zonking : Subst := ⟨[], [], [], true⟩

def get? (s : Subst) (x : Var) : Option Term := s.terms.lookup x

def add (s : Subst) (x : Var) (t : Term) : Subst :=
  { s with terms := (x, t) :: s.terms, range := t.freeVars ++ s.range }

def remove (s : Subst) (x : Var) : Subst :=
  { s with terms := s.terms.filter (·.1 != x) }

def addLevel (s : Subst) (x : LevelVar) (a : Level) : Subst :=
  { s with levels := (x, a) :: s.levels }

/-- The level parameters of a definition become the components of the universe. -/
def addStd (s : Subst) (u : Universe) : Subst :=
  (s.addLevel (.param .predicative) u.p).addLevel (.param .homotopy) u.h

def withLevels (s : Subst) (levels : List (LevelVar × Level)) : Subst :=
  { s with levels := levels ++ s.levels }

def single (x : Var) (t : Term) : Subst := empty.add x t

/-- Bindings and arguments in step; bindings without an argument are left alone. -/
def bind (s : Subst) (params : Telescope) (args : List Term) : Subst :=
  (params.zip args).foldl (fun s (b, arg) => s.add b.var arg) s

def instantiate (params : Telescope) (args : List Term) : Subst := empty.bind params args

def std (u : Universe) : Subst := empty.addStd u

def isEmpty (s : Subst) : Bool := s.terms.isEmpty && s.levels.isEmpty && !s.zonks

def level (s : Subst) (a : Level) : Checked Level :=
  if s.levels.isEmpty then .ok a else a.subst fun x => s.levels.lookup x

def sort (s : Subst) (u : Universe) : Checked Universe :=
  if s.levels.isEmpty then .ok u else u.subst fun x => s.levels.lookup x

def captures (s : Subst) (x : Var) : Bool := s.range.contains x

/-- Passing a binder: its name from here on, and the substitution that holds in its scope. -/
def under (s : Subst) (x : Var) : Fresh (Var × Subst) :=
  if s.captures x then do
    let y ← x.renamed
    return (y, s.add x (.ref y))
  else return (x, if (s.get? x).isSome then s.remove x else s)

end Subst

/-- What becomes of a metavariable under a substitution. -/
abbrev HoleRule := Subst → MetaId → Fresh Term

mutual

def Term.substWith (rule : HoleRule) (s : Subst) (t : Term) : Fresh Term :=
  if s.isEmpty then return t else
  match t with
  | .ref x => return (s.get? x).getD (.ref x)
  | .lam mode x domain body => do
      let domain ← domain.substWith rule s
      let (y, inner) ← s.under x
      return .lam mode y domain (← body.substWith rule inner)
  | .pi mode x domain codomain => do
      let domain ← domain.substWith rule s
      let (y, inner) ← s.under x
      return .pi mode y domain (← codomain.substWith rule inner)
  | .sigma params => do
      let (params, _) ← substTelescope rule s params
      return .sigma params
  | .tuple components type =>
      return .tuple (← substTerms rule s components) (← type.substWith rule s)
  | .proj whole index => return .proj (← whole.substWith rule s) index
  | .univ u => return .univ (← s.sort u)
  | .app fn arg => return .app (← fn.substWith rule s) (← arg.substWith rule s)
  | .call f levels args => return .call f (← s.sort levels) (← substTerms rule s args)
  | .con c levels params args =>
      return .con c (← s.sort levels) (← substTerms rule s params) (← substTerms rule s args)
  | .data d levels args => return .data d (← s.sort levels) (← substTerms rule s args)
  | .record c levels fields => return .record c (← s.sort levels) (← substFields rule s fields)
  | .field f levels arg => return .field f (← s.sort levels) (← arg.substWith rule s)
  | .new r => return .new (← r.substWith rule s)
  | .caseOf args params result tree => do
      let args ← substTerms rule s args
      let (params, inner) ← substTelescope rule s params
      let result ← result.substWith rule inner
      return .caseOf args params result (← tree.substWith rule s)
  | .hole m => rule s m
  | .error message term => return .error message (← substOption rule s term)

def substTerms (rule : HoleRule) (s : Subst) : List Term → Fresh (List Term)
  | [] => return []
  | a :: rest => return (← a.substWith rule s) :: (← substTerms rule s rest)

def substOption (rule : HoleRule) (s : Subst) : Option Term → Fresh (Option Term)
  | none => return none
  | some a => return some (← a.substWith rule s)

def substFields (rule : HoleRule) (s : Subst) :
    List (DefId × Term) → Fresh (List (DefId × Term))
  | [] => return []
  | (f, a) :: rest => return (f, ← a.substWith rule s) :: (← substFields rule s rest)

/-- The second result holds in the scope of the telescope. -/
def substTelescope (rule : HoleRule) (s : Subst) :
    List (Binding Term) → Fresh (List (Binding Term) × Subst)
  | [] => return ([], s)
  | ⟨mode, x, type⟩ :: rest => do
      let type ← type.substWith rule s
      let (y, inner) ← s.under x
      let (rest, scope) ← substTelescope rule inner rest
      return (⟨mode, y, type⟩ :: rest, scope)

def CaseTree.substWith (rule : HoleRule) (s : Subst) : CaseTree → Fresh CaseTree
  | .leaf params body => do
      let (params, inner) ← substTelescope rule s params
      return .leaf params (← body.substWith rule inner)
  | .branch params children => do
      let (params, inner) ← substTelescope rule s params
      return .branch params (← substChildren rule inner children)
  | .interval params ends rest => do
      let (params, inner) ← substTelescope rule s params
      return .interval params (← substEnds rule inner ends) (← substRest rule s rest)

def substChildren (rule : HoleRule) (s : Subst) :
    List (Shape × CaseTree) → Fresh (List (Shape × CaseTree))
  | [] => return []
  | (shape, child) :: others =>
      return (shape, ← child.substWith rule s) :: (← substChildren rule s others)

def substEnds (rule : HoleRule) (s : Subst) : List (Ends Term) → Fresh (List (Ends Term))
  | [] => return []
  | ⟨left, right⟩ :: others =>
      return ⟨← substOption rule s left, ← substOption rule s right⟩ ::
        (← substEnds rule s others)

def substRest (rule : HoleRule) (s : Subst) : Option CaseTree → Fresh (Option CaseTree)
  | none => return none
  | some tree => return some (← tree.substWith rule s)

end

namespace Subst

/-- Solutions lead into one another without a cycle, so the number of metavariables bounds how deep
    they can be nested. -/
def holeRule (env : Environment) : Nat → HoleRule
  | fuel, s, m =>
      if s.zonks then
        match env.solution? m with
        | none => return .hole m
        | some t => match fuel with
          | 0 => throw .outOfFuel
          | fuel + 1 => t.substWith (holeRule env fuel) s
      else return .hole m

def rule (env : Environment) : HoleRule := holeRule env env.metas.size

def apply (env : Environment) (s : Subst) (t : Term) : Fresh Term := t.substWith (rule env) s

def applyTelescope (env : Environment) (s : Subst) (params : Telescope) :
    Fresh (Telescope × Subst) := substTelescope (rule env) s params

def applyTree (env : Environment) (s : Subst) (tree : CaseTree) : Fresh CaseTree :=
  tree.substWith (rule env) s

end Subst

/-- Every solved metavariable replaced by its solution, and the levels put in. -/
def Term.zonk (env : Environment) (levels : List (LevelVar × Level)) (t : Term) : Fresh Term :=
  (Subst.zonking.withLevels levels).apply env t

end PathTheory
