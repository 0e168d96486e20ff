import PathTheory.Library
/-!
Terms as text in which the identities of variables do not show. A variable bound inside the text
is written as its place among the enclosing binders, counted from the outside, so two terms that
differ only in the choice of bound variables have the same text up to the names kept at the
binders. A free variable is its name, with a number if another free variable was given that name
before. Nothing is hidden: levels and parameters are written out, and numerals are abbreviated.
-/
namespace PathTheory

/-- The free variables met so far, in the order in which they were met. -/
abbrev Canonical := StateT (List Var) Checked

def Universe.pairText (u : Universe) : Checked String :=
  return "<" ++ (← u.p.text) ++ "," ++ (← u.h.text) ++ ">"

def Mode.letter : Mode → String
  | .explicit => "e"
  | .implicit => "i"

namespace Canonical

def hexDigit (n : Nat) : Char := if n < 10 then Char.ofNat (48 + n) else Char.ofNat (87 + n)

/-- The letter that stands for a control character after a backslash, for those that have one. -/
def escapeLetter? : Char → Option Char
  | '\x08' => some 'b'
  | '\t' => some 't'
  | '\n' => some 'n'
  | '\x0c' => some 'f'
  | '\r' => some 'r'
  | _ => none

/-- Quotes, backslashes and control characters are escaped, everything else stands for itself. -/
def escape (c : Char) : List Char :=
  if c = '"' ∨ c = '\\' then ['\\', c]
  else match escapeLetter? c with
    | some letter => ['\\', letter]
    | none =>
      if c.toNat < 32 then ['\\', 'u', '0', '0', hexDigit (c.toNat / 16), hexDigit (c.toNat % 16)]
      else [c]

def quote (s : String) : String := "\"" ++ String.ofList (s.toList.flatMap escape) ++ "\""

def listed (texts : List String) : String := "[" ++ " ".intercalate texts ++ "]"

/-- The value of a closed numeral without level or parameter arguments of its own. -/
def numeral? : Term → Option Nat
  | .con c levels [] args =>
      if levels != .set0 then none
      else if c == Library.zero && args.isEmpty then some 0
      else if c == Library.suc then match args with
        | [n] => (numeral? n).map (· + 1)
        | _ => none
      else none
  | _ => none

/-- The stack holds the enclosing binders, the innermost one first. -/
def ofVar (stack : List Var) (x : Var) : Canonical String := do
  match stack.findIdx? (· == x) with
  | some i => return "%" ++ toString (stack.length - 1 - i)
  | none => do
      let met ← get
      let met := if met.contains x then met else met ++ [x]
      set met
      match (met.filter (·.name == x.name)).findIdx? (· == x) with
      | some 0 | none => return x.name
      | some k => return x.name ++ "~" ++ toString k

def binder (tag : String) (mode : Mode) (x : Var) (domain body : String) : String :=
  "(" ++ tag ++ " " ++ mode.letter ++ " " ++ x.name ++ " " ++ domain ++ " " ++ body ++ ")"

def applied (tag : String) (d : DefId) (levels : String) (args : List String) : String :=
  "(" ++ tag ++ " " ++ d.name ++ " " ++ levels ++ " " ++ listed args ++ ")"

mutual

def ofTerm (stack : List Var) (t : Term) : Canonical String :=
  match numeral? t with
  | some n => return "#" ++ toString n
  | none => match t with
    | .ref x => ofVar stack x
    | .lam mode x domain body => do
        let domain ← ofTerm stack domain
        return binder "lam" mode x domain (← ofTerm (x :: stack) body)
    | .pi mode x domain codomain => do
        let domain ← ofTerm stack domain
        return binder "pi" mode x domain (← ofTerm (x :: stack) codomain)
    | .sigma params => do
        let (params, _) ← ofBindings stack params
        return "(sigma [" ++ "; ".intercalate params ++ "])"
    | .tuple components type => do
        let components ← ofTerms stack components
        return "(tuple " ++ listed components ++ " " ++ (← ofTerm stack type) ++ ")"
    | .proj whole index => return "(proj " ++ (← ofTerm stack whole) ++ " " ++ toString index ++ ")"
    | .univ u => return "(univ " ++ (← u.pairText) ++ ")"
    | .app fn arg => do
        let fn ← ofTerm stack fn
        return "(app " ++ fn ++ " " ++ (← ofTerm stack arg) ++ ")"
    | .call f levels args => return applied "fun" f (← levels.pairText) (← ofTerms stack args)
    | .con c levels params args => do
        let levels ← levels.pairText
        let params ← ofTerms stack params
        return "(con " ++ c.name ++ " " ++ levels ++ " " ++ listed params ++ " "
          ++ listed (← ofTerms stack args) ++ ")"
    | .data d levels args => return applied "data" d (← levels.pairText) (← ofTerms stack args)
    | .record c levels fields =>
        return applied "class" c (← levels.pairText) (← ofFields stack fields)
    | .field f levels arg => do
        let levels ← levels.pairText
        return "(field " ++ f.name ++ " " ++ levels ++ " " ++ (← ofTerm stack arg) ++ ")"
    | .new r => return "(new " ++ (← ofTerm stack r) ++ ")"
    | .caseOf args params result tree => do
        let args ← ofTerms stack args
        let (params, inner) ← ofBindings stack params
        let result ← ofTerm inner result
        return "(case " ++ listed args ++ " [" ++ "; ".intercalate params ++ "] " ++ result ++ " "
          ++ (← ofTree stack tree) ++ ")"
    | .hole m => return m.text
    | .error message term => return "(err " ++ quote message ++ " " ++ (← ofOption stack term) ++ ")"

def ofTerms (stack : List Var) : List Term → Canonical (List String)
  | [] => return []
  | a :: rest => return (← ofTerm stack a) :: (← ofTerms stack rest)

def ofOption (stack : List Var) : Option Term → Canonical String
  | none => return "-"
  | some a => ofTerm stack a

def ofFields (stack : List Var) : List (DefId × Term) → Canonical (List String)
  | [] => return []
  | (f, a) :: rest => return (f.name ++ "=" ++ (← ofTerm stack a)) :: (← ofFields stack rest)

/-- Also gives the stack in the scope of the bindings. -/
def ofBindings (stack : List Var) : List (Binding Term) → Canonical (List String × List Var)
  | [] => return ([], stack)
  | ⟨mode, x, type⟩ :: rest => do
      let type ← ofTerm stack type
      let (texts, inner) ← ofBindings (x :: stack) rest
      return ((mode.letter ++ " " ++ x.name ++ " " ++ type) :: texts, inner)

def ofTree (stack : List Var) : CaseTree → Canonical String
  | .leaf params body => do
      let (params, inner) ← ofBindings stack params
      return "(leaf [" ++ "; ".intercalate params ++ "] " ++ (← ofTerm inner body) ++ ")"
  | .branch params children => do
      let (params, inner) ← ofBindings stack params
      return "(branch [" ++ "; ".intercalate params ++ "]" ++ (← ofChildren inner children) ++ ")"
  | .interval params ends rest => do
      let (params, inner) ← ofBindings stack params
      let ends ← ofEnds inner ends
      return "(interval [" ++ "; ".intercalate params ++ "]" ++ ends ++ " "
        ++ (← ofRest stack rest) ++ ")"

def ofChildren (stack : List Var) : List (Shape × CaseTree) → Canonical String
  | [] => return ""
  | (shape, child) :: others => do
      let child ← ofTree stack child
      return " " ++ shape.text ++ ":" ++ child ++ (← ofChildren stack others)

def ofEnds (stack : List Var) : List (Ends Term) → Canonical String
  | [] => return ""
  | ⟨left, right⟩ :: others => do
      let left ← ofOption stack left
      let right ← ofOption stack right
      return " " ++ left ++ "|" ++ right ++ (← ofEnds stack others)

def ofRest (stack : List Var) : Option CaseTree → Canonical String
  | none => return "-"
  | some tree => ofTree stack tree

end

end Canonical

/-- The scope lists variables that count as bound, the outermost one first. -/
def Term.canonicalText (t : Term) (scope : List Var) : Checked String :=
  return (← (Canonical.ofTerm scope.reverse t).run []).1

def Telescope.canonicalText (params : Telescope) : Checked String :=
  return "[" ++ "; ".intercalate (← (Canonical.ofBindings [] params).run []).1.1 ++ "]"

def CaseTree.canonicalText (tree : CaseTree) : Checked String :=
  return (← (Canonical.ofTree [] tree).run []).1

end PathTheory
