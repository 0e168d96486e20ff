import PathTheory.Term.Basic
/-!
Terms as text, the way a user writes them. A term that could run on into its surroundings is
put in parentheses; hidden arguments (levels, parameters of constructors) are left out.
-/
namespace PathTheory

/-- Terms that need no parentheses as an argument. -/
def Term.isAtomic : Term → Bool
  | .ref _ | .tuple _ _ | .proj _ _ | .hole _ | .error _ _ | .field _ _ _ => true
  | .univ u => u.isClosed
  | .call _ _ args | .data _ _ args | .con _ _ _ args => args.isEmpty
  | .record _ _ fields => fields.isEmpty
  | .lam _ _ _ _ | .pi _ _ _ _ | .sigma _ | .app _ _ | .new _ | .caseOf _ _ _ _ => false

def Term.isApplication : Term → Bool
  | .app _ _ => true
  | _ => false

def enclosed (bare : Bool) (text : String) : String :=
  if bare then text else "(" ++ text ++ ")"

/-- A binder with its type: round brackets if it is explicit, braces if it is implicit. -/
def Mode.bracket : Mode → String → String
  | .explicit, inner => "(" ++ inner ++ ")"
  | .implicit, inner => "\x7b" ++ inner ++ "\x7d"

mutual

def Term.text : Term → Checked String
  | .ref x => .ok x.name
  | .lam mode x domain body => do
      let binder := mode.bracket (x.name ++ " : " ++ (← domain.text))
      return "\\lam " ++ binder ++ " => " ++ (← body.text)
  | .pi mode x domain codomain => do
      let binder := mode.bracket (x.name ++ " : " ++ (← domain.text))
      return "\\Pi " ++ binder ++ " -> " ++ (← codomain.text)
  | .sigma params => return "\\Sigma" ++ (← componentsText params)
  | .tuple components _ => return "(" ++ ", ".intercalate (← termTexts components) ++ ")"
  | .proj whole index => do
      return enclosed whole.isAtomic (← whole.text) ++ "." ++ toString (index + 1)
  | .univ u => u.text
  | .app fn arg => do
      let head ← fn.text
      let tail ← arg.text
      return enclosed (fn.isApplication || fn.isAtomic) head ++ " " ++ enclosed arg.isAtomic tail
  | .call f _ args => return f.name ++ (← argumentsText args)
  | .con c _ _ args => return c.name ++ (← argumentsText args)
  | .data d _ args => return d.name ++ (← argumentsText args)
  | .record c _ fields => do
      if fields.isEmpty then return c.name
      return c.name ++ " \x7b" ++ (← fieldsText fields) ++ " \x7d"
  | .field f _ arg => return enclosed arg.isAtomic (← arg.text) ++ "." ++ f.name
  | .new r => return "\\new " ++ (← r.text)
  | .caseOf args _ result _ => do
      let scrutinees := ",".intercalate ((← termTexts args).map (" " ++ ·))
      return "\\case" ++ scrutinees ++ " \\return " ++ (← result.text) ++ " \\with \x7b..\x7d"
  | .hole m => .ok m.text
  | .error message _ => .ok ("\x7b?error: " ++ message ++ "\x7d")

def termTexts : List Term → Checked (List String)
  | [] => .ok []
  | a :: rest => return (← a.text) :: (← termTexts rest)

def argumentsText : List Term → Checked String
  | [] => .ok ""
  | a :: rest => return " " ++ enclosed a.isAtomic (← a.text) ++ (← argumentsText rest)

def componentsText : List (Binding Term) → Checked String
  | [] => .ok ""
  | ⟨_, x, type⟩ :: rest =>
      return " (" ++ x.name ++ " : " ++ (← type.text) ++ ")" ++ (← componentsText rest)

def fieldsText : List (DefId × Term) → Checked String
  | [] => .ok ""
  | (f, value) :: rest =>
      return " | " ++ f.name ++ " => " ++ (← value.text) ++ (← fieldsText rest)

end

def bindingTexts : List (Binding Term) → Checked (List String)
  | [] => .ok []
  | ⟨mode, x, type⟩ :: rest =>
      return mode.bracket (x.name ++ " : " ++ (← type.text)) :: (← bindingTexts rest)

def Telescope.text (params : Telescope) : Checked String :=
  return " ".intercalate (← bindingTexts params)

def endText : Option Term → Checked String
  | none => .ok "-"
  | some t => t.text

def endsText (pad : String) : List (Ends Term) → Checked String
  | [] => .ok ""
  | ⟨left, right⟩ :: rest =>
      return pad ++ "| left => " ++ (← endText left) ++ ", right => " ++ (← endText right) ++ "\n"
        ++ (← endsText pad rest)

mutual

/-- One line a node; every level is two blanks further in. -/
def CaseTree.indented (pad : String) : CaseTree → Checked String
  | .leaf params body =>
      return pad ++ "[" ++ (← Telescope.text params) ++ "] => " ++ (← body.text) ++ "\n"
  | .branch params children =>
      return pad ++ "[" ++ (← Telescope.text params) ++ "] branch\n"
        ++ (← childrenText pad children)
  | .interval params ends rest =>
      return pad ++ "[" ++ (← Telescope.text params) ++ "] interval\n"
        ++ (← endsText pad ends) ++ (← restText pad rest)

def childrenText (pad : String) : List (Shape × CaseTree) → Checked String
  | [] => .ok ""
  | (shape, child) :: others =>
      return pad ++ "| " ++ shape.text ++ "\n" ++ (← child.indented (pad ++ "  "))
        ++ (← childrenText pad others)

def restText (pad : String) : Option CaseTree → Checked String
  | none => .ok ""
  | some tree => return pad ++ "otherwise\n" ++ (← tree.indented (pad ++ "  "))

end

def CaseTree.text (tree : CaseTree) : Checked String := tree.indented ""

end PathTheory
