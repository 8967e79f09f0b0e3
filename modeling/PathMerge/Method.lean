/-
  PathMerge.Method — methods and programs.

  A method may be analysed when its body is not empty, every jump stays inside it, every variable
  is declared, every return carries a value exactly if the method has a result, and the last
  statement does not run off the end. `validate` names the first statement that is at fault and,
  of several faults in one statement, the first in that order.
-/

import PathMerge.Failure
import PathMerge.Statement

namespace PathMerge

structure Method where
  owner : String
  name : String
  params : List (String × ValueType)
  locals : List (String × ValueType)
  result? : Option ValueType
  body : List Statement
  deriving DecidableEq, Repr

namespace Method

def signature (m : Method) : String := shortSignature m.name (m.params.map (·.2)) m.result?

/-- Parameters, then locals. -/
def declarations (m : Method) : List (String × ValueType) := m.params ++ m.locals

def declared (m : Method) (name : String) : Bool := m.declarations.any (·.1 == name)

def fault? (m : Method) (i : Nat) (s : Statement) : Option Error :=
  let badGoal := s.goal?.filter (m.body.length ≤ ·)
  let undeclared := (s.defined?.toList ++ s.used).find? (!m.declared ·)
  let badReturn := match s with
    | .ret value? => value?.isSome != m.result?.isSome
    | _ => false
  let runsOff := !s.isTerminal && !s.isJump && i + 1 == m.body.length
  match badGoal, undeclared with
  | some goal, _ => some (.invalidJumpTarget i goal)
  | none, some name => some (.undeclaredLocal i name)
  | none, none =>
    if badReturn then some (.returnMismatch i)
    else if runsOff then some (.missingTerminator i)
    else none

def firstFault? (m : Method) : Option Error :=
  if m.body.isEmpty then some .emptyBody else m.body.zipIdx.findSome? fun (s, i) => m.fault? i s

def validate (m : Method) : Except Failure Unit :=
  match m.firstFault? with
  | some e => .error (.error e)
  | none => .ok ()

/-- The method with these parts, if it may be analysed. -/
def build (owner name : String) (params locals : List (String × ValueType))
    (result? : Option ValueType) (body : List Statement) : Except Failure Method := do
  let m : Method := ⟨owner, name, params, locals, result?, body⟩
  m.validate
  return m

end Method

/-- Methods, found by owner and signature. -/
structure Program where
  methods : List Method
  deriving Repr

namespace Program

def empty : Program := ⟨[]⟩

def add (p : Program) (m : Method) : Program := ⟨p.methods ++ [m]⟩

def find (p : Program) (owner signature : String) : Except Failure Method :=
  match p.methods.find? fun m => m.owner == owner && m.signature == signature with
  | some m => .ok m
  | none => .error (.error (.methodNotFound owner signature))

end Program

end PathMerge
