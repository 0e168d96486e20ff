import PathTheory.Term.Text
/-!
Definitions: functions, data types with their constructors, classes with their fields, and the
instances registered for a class.
-/
namespace PathTheory

inductive Status where
  -- the header is known and the body is still to come
  | inProgress
  | done
  | hasErrors
deriving DecidableEq, Repr, Inhabited

def Status.text : Status → String
  | .inProgress => "InProgress"
  | .done => "Done"
  | .hasErrors => "HasErrors"

inductive Body where
  | term (t : Term)
  | tree (t : CaseTree)

structure FunctionDef where
  params : Telescope
  result : Term
  body : Option Body
  -- transports along a constant family reduce to what is transported
  transports : Bool
  status : Status

structure DataDef where
  params : Telescope
  sort : Universe
  constructors : List DefId
  -- elimination only into types of at most the declared homotopy level
  truncated : Bool
  -- the interval; its first two constructors are the left and the right end
  interval : Bool

structure ConstructorDef where
  data : DefId
  -- in scope of the parameters of the data type
  params : Telescope
  -- number of interval dimensions among the last parameters
  intervals : Nat

structure ClassDef where
  fields : List DefId
  classifying : Option DefId
  sort : Universe

structure FieldDef where
  ofClass : DefId
  -- stands for the instance in the type
  this : Var
  type : Term

inductive Definition where
  | function (f : FunctionDef)
  | data (d : DataDef)
  | constructor (c : ConstructorDef)
  | cls (c : ClassDef)
  | field (f : FieldDef)

structure Instance where
  ofClass : DefId
  data : DefId
  value : DefId
deriving DecidableEq

namespace Definition

def function? : Definition → Option FunctionDef
  | function f => some f
  | _ => none

def data? : Definition → Option DataDef
  | data d => some d
  | _ => none

def constructor? : Definition → Option ConstructorDef
  | constructor c => some c
  | _ => none

def cls? : Definition → Option ClassDef
  | cls c => some c
  | _ => none

def field? : Definition → Option FieldDef
  | field f => some f
  | _ => none

/-- What a name with arguments stands for where nothing says at which levels: the lowest ones.
    Parameters of a constructor's data type and fields of a class are left out. -/
def applied (id : DefId) (args : List Term) : Definition → Term
  | function _ => .call id .set0 args
  | data _ => .data id .set0 args
  | constructor _ => .con id .set0 [] args
  | cls _ => .record id .set0 []
  | field _ => .field id .set0 (args.headD (.error "no argument" none))

def text : Definition → Checked String
  | function f => do
      let head := "\\func " ++ (← Telescope.text f.params) ++ " : " ++ (← f.result.text)
      match f.body with
      | some (.term body) => return head ++ " => " ++ (← body.text)
      | some (.tree tree) => return head ++ " \\with\n" ++ (← tree.text)
      | none => return head
  | data d => do
      let truncated := if d.truncated then "\\truncated " else ""
      return truncated ++ "\\data " ++ (← Telescope.text d.params) ++ " : "
        ++ (← d.sort.text) ++ " | " ++ " | ".intercalate (d.constructors.map DefId.name)
  | constructor c => return "\\cons " ++ (← Telescope.text c.params) ++ " of " ++ c.data.name
  | cls c =>
      .ok ("\\class \x7b" ++ String.join (c.fields.map (" | " ++ ·.name)) ++ " \x7d")
  | field f => return "\\field " ++ (← f.type.text) ++ " of " ++ f.ofClass.name

end Definition

end PathTheory
