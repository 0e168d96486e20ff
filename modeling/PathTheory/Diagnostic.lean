import PathTheory.Environment
/-!
Diagnostics: what can be wrong with a definition, where, and how it is said. A redundant clause
is a warning; everything else is an error and keeps a definition from being accepted.
-/
namespace PathTheory

inductive Problem where
  | typeMismatch (expected actual : String)
  | argumentNotInferred (name reason : String)
  | unsolvedEquation (left right : String) (cmp : Cmp)
  | unsolvedLevels (chain : String)
  | levelCycle (chain : String)
  | classConflict (first second : String)
  | missingClauses (examples : List String) (truncated : Bool)
  | notEnoughPatterns (expected : Nat)
  | tooManyPatterns (expected : Nat)
  | eliminationOrder (name : String)
  | severalIntervalPatterns
  | dataAfterInterval (pattern : String)
  | intervalNotAllowed (pattern : String)
  | expectedConstructor (pattern type : String)
  | inhabitedAbsurd (type : String)
  | clauseWithoutBody
  | truncation (data result : String)
  | redundantClause (clause : String)
  | instanceNotFound (ofClass data : String)
deriving DecidableEq, Repr

namespace Problem

def text : Problem → String
  | typeMismatch _ _ => "Type Mismatch"
  | argumentNotInferred name _ => "Cannot infer " ++ name
  | unsolvedEquation _ _ _ => "Unsolved Equation"
  | unsolvedLevels _ => "Unsolved Level Equation"
  | levelCycle _ => "Cycle"
  | classConflict _ _ => "Class Conflict"
  | missingClauses _ _ => "Missing Clauses"
  | notEnoughPatterns _ => "Not Enough Patterns"
  | tooManyPatterns _ => "Too Many Patterns"
  | eliminationOrder _ => "Eliminated parameters must be listed in order"
  | severalIntervalPatterns => "A clause may match only one interval pattern"
  | dataAfterInterval _ => "Data patterns cannot follow interval patterns"
  | intervalNotAllowed _ => "Interval elimination is not allowed here"
  | expectedConstructor _ _ => "Expected Constructor"
  | inhabitedAbsurd _ => "Impossible Empty Pattern"
  | clauseWithoutBody => "Clause Without Body"
  | truncation _ _ => "Truncation"
  | redundantClause _ => "Redundant Clause"
  | instanceNotFound _ _ => "Instance Not Found"

/-- What is written at the place in question. -/
def label : Problem → String
  | typeMismatch expected actual => "expected " ++ expected ++ " but found " ++ actual
  | argumentNotInferred _ _ => "while elaborating this"
  | unsolvedEquation left right cmp => left ++ " " ++ cmp.text ++ " " ++ right
  | unsolvedLevels _ => "universe levels do not fit"
  | levelCycle _ => "level constraints form a cycle"
  | classConflict first second =>
      "lower bounds " ++ first ++ " and " ++ second ++ " cannot be merged"
  | missingClauses _ _ => "patterns are not exhaustive"
  | notEnoughPatterns expected | tooManyPatterns expected =>
      "expected " ++ toString expected ++ " patterns"
  | eliminationOrder name => name ++ " is out of order"
  | severalIntervalPatterns => "other patterns of this clause must be variables"
  | dataAfterInterval pattern | intervalNotAllowed pattern => "matches " ++ pattern
  | expectedConstructor pattern type => pattern ++ " is not a constructor of " ++ type
  | inhabitedAbsurd type => type ++ " has constructors"
  | clauseWithoutBody => "needs a body or an absurd pattern"
  | truncation data _ => data ++ " is truncated"
  | redundantClause _ => "this clause is never reached"
  | instanceNotFound ofClass data => "no instance of " ++ ofClass ++ " for " ++ data

/-- A short name of what is wrong, for programs. -/
def kind : Problem → String
  | typeMismatch _ _ => "TypeMismatch"
  | argumentNotInferred _ _ => "ArgInference"
  | unsolvedEquation _ _ _ => "UnsolvedEquation"
  | unsolvedLevels _ => "LevelEquationUnsolved"
  | levelCycle _ => "Cycle"
  | classConflict _ _ => "ClassConflict"
  | missingClauses _ _ => "MissingClauses"
  | notEnoughPatterns _ => "NotEnoughPatterns"
  | tooManyPatterns _ => "TooManyPatterns"
  | eliminationOrder _ => "ElimOrder"
  | severalIntervalPatterns => "SingleIntervalPattern"
  | dataAfterInterval _ => "DataAfterInterval"
  | intervalNotAllowed _ => "IntervalNotAllowed"
  | expectedConstructor _ _ => "ExpectedConstructor"
  | inhabitedAbsurd _ => "ImpossibleEmptyPattern"
  | clauseWithoutBody => "ClauseWithoutBody"
  | truncation _ _ => "Truncation"
  | redundantClause _ => "RedundantClause"
  | instanceNotFound _ _ => "InstanceNotFound"

def help? : Problem → Option String
  | argumentNotInferred _ reason => some reason
  | unsolvedLevels chain | levelCycle chain => some chain
  | missingClauses examples truncated =>
      some ("missing: " ++ "; ".intercalate examples ++ if truncated then "; ..." else "")
  | truncation _ result => some ("the result lives in " ++ result)
  | _ => none

def isWarning : Problem → Bool
  | redundantClause _ => true
  | _ => false

end Problem

structure Diagnostic where
  span : Span
  problem : Problem
deriving DecidableEq, Repr

namespace Diagnostic

def isWarning (d : Diagnostic) : Bool := d.problem.isWarning

def colored (color text : String) : String := "\x1b[38;2;" ++ color ++ "m" ++ text ++ "\x1b[0m"

def withoutTrailingSpaces (line : String) : String :=
  String.ofList (line.toList.reverse.dropWhile (· == ' ')).reverse

/-- The lines of a text, the first one behind a head and the others behind a margin, an empty line
    too. Spaces at the end of a line of the text are dropped, those of the margin are not. -/
def paragraph (head margin text : String) : String :=
  match (text.splitOn "\n").map withoutTrailingSpaces with
  | [] => head
  | first :: rest => "\n".intercalate ((head ++ first) :: rest.map (margin ++ ·))

/-- The text behind a mark, and the help if there is any. -/
def render (d : Diagnostic) : String :=
  let (color, mark) := if d.isWarning then ("244;191;117", "⚠") else ("255;30;30", "×")
  let behind (mark : String) := "  " ++ colored color mark ++ " "
  "\n" ++ paragraph (behind mark) (behind "│") d.problem.text ++ "\n" ++
    match d.problem.help? with
    | some help => paragraph (colored "106;159;181" "  help: ") "        " help ++ "\n"
    | none => ""

def mismatch (span : Span) (expected actual : Term) : Checked Diagnostic :=
  return ⟨span, .typeMismatch (← expected.text) (← actual.text)⟩

def errorCount (ds : List Diagnostic) : Nat := (ds.filter (!·.isWarning)).length

end Diagnostic

/-- Why a request to a session was turned down. -/
inductive Failure where
  | diagnostic (d : Diagnostic)
  | solving (e : MetaError)
  -- the definition was stored with errors, which were reported one by one
  | definition (name : String) (errors : Nat)
  | several (ds : List Diagnostic)

def Failure.text : Failure → String
  | diagnostic d => d.render
  | solving e => e.text
  | definition name errors => name ++ " has " ++ toString errors ++ " error(s)"
  | several ds => String.join (ds.map (·.render ++ "\n"))

/-- Warnings alone do not make a report fail. -/
def Diagnostic.verdict (ds : List Diagnostic) : Except Failure Unit :=
  if errorCount ds = 0 then .ok () else .error (.several ds)

end PathTheory
