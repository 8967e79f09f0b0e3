/-
  PathMerge.Statement — three-address statements.

  A statement is addressed by its position in the body it belongs to, and a jump names the position
  it goes to. `text` is the statement as a listing shows it; `defined?` and `used` are the local
  variables it writes and reads.
-/

import PathMerge.ValueSort

namespace PathMerge

inductive ValueType where
  | boolean
  | byte
  | char
  | short
  | int
  | long
  | object (name : String)
  | array (element : ValueType)
  deriving DecidableEq, Repr

namespace ValueType

def sort : ValueType → ValueSort
  | boolean => .bool
  | byte | char | short | int | long => .int
  | object _ | array _ => .object

def text : ValueType → String
  | boolean => "boolean"
  | byte => "byte"
  | char => "char"
  | short => "short"
  | int => "int"
  | long => "long"
  | object name => name
  | array element => element.text ++ "[]"

/-- The type of a result, which may be no value at all. -/
def resultText : Option ValueType → String
  | some t => t.text
  | none => "void"

end ValueType

inductive Operand where
  | var (name : String)
  | int (n : Int)
  | bool (b : Bool)
  | null
  deriving DecidableEq, Repr

namespace Operand

def var? : Operand → Option String
  | .var name => some name
  | _ => none

def text : Operand → String
  | .var name => name
  | .int n => toString n
  | .bool b => if b then "true" else "false"
  | .null => "null"

end Operand

inductive BinaryOp where
  | add | sub | mul | div | rem
  deriving DecidableEq, Repr

inductive Comparison where
  | eq | ne | lt | le | gt | ge
  deriving DecidableEq, Repr

def BinaryOp.text : BinaryOp → String
  | add => "+"
  | sub => "-"
  | mul => "*"
  | div => "/"
  | rem => "%"

def Comparison.text : Comparison → String
  | eq => "=="
  | ne => "!="
  | lt => "<"
  | le => "<="
  | gt => ">"
  | ge => ">="

/-- What an assignment computes. -/
inductive RightSide where
  | use (a : Operand)
  | neg (a : Operand)
  | binary (op : BinaryOp) (a b : Operand)
  | compare (op : Comparison) (a b : Operand)
  deriving DecidableEq, Repr

namespace RightSide

def operands : RightSide → List Operand
  | use a | neg a => [a]
  | binary _ a b | compare _ a b => [a, b]

def text : RightSide → String
  | use a => a.text
  | neg a => "-" ++ a.text
  | binary op a b => a.text ++ " " ++ op.text ++ " " ++ b.text
  | compare op a b => a.text ++ " " ++ op.text ++ " " ++ b.text

end RightSide

structure Condition where
  op : Comparison
  lhs : Operand
  rhs : Operand
  deriving DecidableEq, Repr

def Condition.text (c : Condition) : String := c.lhs.text ++ " " ++ c.op.text ++ " " ++ c.rhs.text

structure FieldRef where
  owner : String
  name : String
  type : ValueType
  deriving DecidableEq, Repr

/-- The field as part of a heap location, e.g. `Node.next`. -/
def FieldRef.id (f : FieldRef) : String := f.owner ++ "." ++ f.name

/-- Result type, name and parameter types, e.g. `int count(int)`. -/
def shortSignature (name : String) (params : List ValueType) (result? : Option ValueType) : String :=
  ValueType.resultText result? ++ " " ++ name ++
    "(" ++ String.intercalate "," (params.map (·.text)) ++ ")"

structure Callee where
  owner : String
  name : String
  params : List ValueType
  result? : Option ValueType
  deriving DecidableEq, Repr

/-- The signature of a method together with its owner, e.g. `<A: int count(int)>`. -/
def Callee.signature (c : Callee) : String :=
  "<" ++ c.owner ++ ": " ++ shortSignature c.name c.params c.result? ++ ">"

inductive Statement where
  | assign (target : String) (value : RightSide)
  | readField (target : String) (base : Operand) (field : FieldRef)
  | writeField (base : Operand) (field : FieldRef) (value : Operand)
  | readArray (target : String) (array index : Operand)
  | writeArray (array index value : Operand)
  | arrayLength (target : String) (array : Operand)
  /-- A call; without a receiver it is a static one. -/
  | call (target? : Option String) (receiver? : Option Operand) (callee : Callee) (args : List Operand)
  | branch (cond : Condition) (goal : Nat)
  | jump (goal : Nat)
  | skip
  | ret (value? : Option Operand)
  | raise (value : Operand)
  /-- A statement known by its text only. -/
  | unmodelled (text : String)
  deriving DecidableEq, Repr

namespace Statement

/-- Whether control leaves the method here. -/
def isTerminal : Statement → Bool
  | ret _ | raise _ => true
  | _ => false

def isJump : Statement → Bool
  | jump _ => true
  | _ => false

/-- Where a branch or jump goes to. -/
def goal? : Statement → Option Nat
  | branch _ goal | jump goal => some goal
  | _ => none

def defined? : Statement → Option String
  | assign target _ | readField target .. | readArray target .. | arrayLength target _ => some target
  | call target? .. => target?
  | _ => none

def operands : Statement → List Operand
  | assign _ value => value.operands
  | readField _ base _ => [base]
  | writeField base _ value => [base, value]
  | readArray _ array index => [array, index]
  | writeArray array index value => [array, index, value]
  | arrayLength _ array => [array]
  | call _ receiver? _ args => receiver?.toList ++ args
  | branch cond _ => [cond.lhs, cond.rhs]
  | ret value? => value?.toList
  | raise value => [value]
  | jump _ | skip | unmodelled _ => []

def used (s : Statement) : List String := s.operands.filterMap (·.var?)

def callText (target? : Option String) (receiver? : Option Operand) (callee : Callee)
    (args : List Operand) : String :=
  let start := match target? with
    | some target => target ++ " = "
    | none => ""
  let mode := match receiver? with
    | some receiver => "virtualinvoke " ++ receiver.text ++ "."
    | none => "staticinvoke "
  start ++ mode ++ callee.signature ++ "(" ++ String.intercalate ", " (args.map (·.text)) ++ ")"

def text : Statement → String
  | assign target value => target ++ " = " ++ value.text
  | readField target base field => target ++ " = " ++ base.text ++ "." ++ field.id
  | writeField base field value => base.text ++ "." ++ field.id ++ " = " ++ value.text
  | readArray target array index => target ++ " = " ++ array.text ++ "[" ++ index.text ++ "]"
  | writeArray array index value => array.text ++ "[" ++ index.text ++ "] = " ++ value.text
  | arrayLength target array => target ++ " = lengthof " ++ array.text
  | call target? receiver? callee args => callText target? receiver? callee args
  | branch cond goal => "if " ++ cond.text ++ " goto " ++ toString goal
  | jump goal => "goto " ++ toString goal
  | skip => "nop"
  | ret (some value) => "return " ++ value.text
  | ret none => "return"
  | raise value => "throw " ++ value.text
  | unmodelled text => text

end Statement

end PathMerge
