/-
  PathMerge.Rule — what statements do to symbolic states.

  Every statement shape has one rule. A rule merges the states that reach the statement, carries
  the statement out on the merged state and yields one state for each outgoing edge, or a single
  one where there is no edge. A branch yields the state with the condition refuted, for the edge
  that falls through, and then the state with it assumed.

  A pure call whose result is used applies the method, as a function, to the heap, the receiver and
  the arguments. Any other call that is not pure may change the heap and its result to anything:
  both are bound to fresh symbols.
-/

import PathMerge.Purity
import PathMerge.State.Merge
import PathMerge.Statement

namespace PathMerge

inductive Rule where
  | assignment
  | fieldRead
  | fieldWrite
  | arrayRead
  | arrayWrite
  | arrayLength
  | pureStaticCall
  | pureVirtualCall
  | impureCall
  | returnValue
  | returnNothing
  | branch
  /-- Statements without effect. -/
  | dummy
  /-- Statements that are not modelled, treated as if without effect. -/
  | ignored
  deriving DecidableEq, Repr

namespace Rule

def all : List Rule :=
  [assignment, fieldRead, fieldWrite, arrayRead, arrayWrite, arrayLength, pureStaticCall,
    pureVirtualCall, impureCall, returnValue, returnNothing, branch, dummy, ignored]

def name : Rule → String
  | assignment => "Assignment"
  | fieldRead => "FieldRead"
  | fieldWrite => "FieldWrite"
  | arrayRead => "ArrayRead"
  | arrayWrite => "ArrayWrite"
  | arrayLength => "ArrayLength"
  | pureStaticCall => "PureStaticInvoke"
  | pureVirtualCall => "PureVirtualInvoke"
  | impureCall => "ImpureInvoke"
  | returnValue => "ReturnValue"
  | returnNothing => "ReturnVoid"
  | branch => "Branch"
  | dummy => "Dummy"
  | ignored => "IgnoreAndWarn"

def ofName? (s : String) : Option Rule := all.find? (·.name == s)

/-- Whether the rule is for statements like `s`. -/
def covers : Rule → Statement → Bool
  | assignment, .assign .. => true
  | fieldRead, .readField .. => true
  | fieldWrite, .writeField .. => true
  | arrayRead, .readArray .. => true
  | arrayWrite, .writeArray .. => true
  | arrayLength, .arrayLength .. => true
  | pureStaticCall, .call (some _) none callee _ => Purity.isPure callee.signature
  | pureVirtualCall, .call (some _) (some _) callee _ => Purity.isPure callee.signature
  | impureCall, .call _ _ callee _ => !Purity.isPure callee.signature
  | returnValue, .ret (some _) => true
  | returnNothing, .ret none => true
  | branch, .branch .. => true
  | dummy, .jump _ | dummy, .skip => true
  | dummy, .call none _ callee _ => Purity.isPure callee.signature
  | ignored, .raise _ | ignored, .unmodelled _ => true
  | _, _ => false

def accepts (r : Rule) (s : Statement) (inputs : List State) : Bool :=
  !inputs.isEmpty && r.covers s

def accepting (s : Statement) (inputs : List State) : List Rule :=
  all.filter fun r => r.accepts s inputs

def select (s : Statement) (inputs : List State) : Except Failure Rule :=
  match accepting s inputs with
  | [r] => .ok r
  | [] => .error (.defect (.noRule s.text inputs.length))
  | rules => .error (.defect (.severalRules (rules.map (·.name)) s.text))

/-! ## Values -/

def operandValue (s : State) : Operand → ContextM Handle
  | .var name => do s.value (← ContextM.lookup name)
  | .int n => ContextM.integer n
  | .bool b => return .ofBool b
  | .null => ContextM.null

def binaryValue (op : BinaryOp) (a b : Handle) : ContextM Handle :=
  match op with
  | .add => ContextM.arithmetic .plus [a, b]
  | .sub => ContextM.arithmetic .minus [a, b]
  | .mul => ContextM.arithmetic .mul [a, b]
  | .div => ContextM.arithmetic .div [a, b]
  | .rem => ContextM.arithmetic .rem [a, b]

def comparisonValue (op : Comparison) (a b : Handle) : ContextM Handle :=
  match op with
  | .eq => ContextM.equation a b
  | .ne => (- ·) <$> ContextM.equation a b
  | .lt => ContextM.arithmetic .lt [a, b]
  | .le => ContextM.arithmetic .le [a, b]
  | .gt => ContextM.arithmetic .lt [b, a]
  | .ge => ContextM.arithmetic .le [b, a]

def rightSideValue (s : State) : RightSide → ContextM Handle
  | .use a => operandValue s a
  | .neg a => do ContextM.arithmetic .neg [← operandValue s a]
  | .binary op a b => do
    let a ← operandValue s a
    let b ← operandValue s b
    binaryValue op a b
  | .compare op a b => do
    let a ← operandValue s a
    let b ← operandValue s b
    comparisonValue op a b

def conditionValue (s : State) (c : Condition) : ContextM Handle := do
  let a ← operandValue s c.lhs
  let b ← operandValue s c.rhs
  comparisonValue c.op a b

/-! ## Effects on the merged state -/

def heapOf (s : State) : ContextM Handle := s.value Registry.heap

def assignTo (s : State) (target : String) (v : Handle) : ContextM State := do
  return s.assign (← ContextM.lookup target) v

def assign (s : State) (target : String) (value : RightSide) : ContextM State := do
  let v ← rightSideValue s value
  assignTo s target v

def readField (s : State) (target : String) (base : Operand) (field : FieldRef) :
    ContextM State := do
  let heap ← heapOf s
  let object ← operandValue s base
  let v ← ContextM.select heap object (← ContextM.field field.id)
  assignTo s target v

def writeField (s : State) (base : Operand) (field : FieldRef) (value : Operand) :
    ContextM State := do
  let heap ← heapOf s
  let object ← operandValue s base
  let v ← operandValue s value
  return s.assign Registry.heap (← ContextM.store heap object (← ContextM.field field.id) v)

def readArray (s : State) (target : String) (array index : Operand) : ContextM State := do
  let heap ← heapOf s
  let object ← operandValue s array
  let i ← operandValue s index
  let v ← ContextM.select heap object (← ContextM.slot i)
  assignTo s target v

def writeArray (s : State) (array index value : Operand) : ContextM State := do
  let heap ← heapOf s
  let object ← operandValue s array
  let i ← operandValue s index
  let v ← operandValue s value
  return s.assign Registry.heap (← ContextM.store heap object (← ContextM.slot i) v)

def measureArray (s : State) (target : String) (array : Operand) : ContextM State := do
  let object ← operandValue s array
  let x ← ContextM.lookup target
  return s.assign x (← ContextM.length object)

def callPure (s : State) (target : String) (receiver? : Option Operand) (callee : Callee)
    (args : List Operand) : ContextM State := do
  let f ← ContextM.asking (·.symbols.function callee.signature)
  let heap ← heapOf s
  let values ← (receiver?.toList ++ args).mapM (operandValue s)
  let v ← ContextM.apply f (heap :: values)
  assignTo s target v

/-- Bind `x` to a fresh symbol of its sort, named after `base`. -/
def havoc (s : State) (base : String) (x : SymbolId) : ContextM State := do
  let unknown ← ContextM.fresh base (← ContextM.asking (·.symbolSort x))
  return s.assign x (← ContextM.symbol unknown)

def callImpure (s : State) (target? : Option String) : ContextM State := do
  let s ← havoc s Registry.heapName Registry.heap
  match target? with
  | some target => havoc s target (← ContextM.lookup target)
  | none => return s

def returnWith (s : State) (value : Operand) : ContextM State := do
  let v ← operandValue s value
  match (← get).symbols.result? with
  | some result => return s.assign result v
  | none => return s

def replicate (edges : Nat) (s : State) : List State := List.replicate (max edges 1) s

/-- Carry out `stmt` on `s` by the rule `r`, for a statement with `edges` outgoing edges. -/
def run (r : Rule) (stmt : Statement) (edges : Nat) (s : State) : ContextM (List State) :=
  match r, stmt with
  | .assignment, .assign target value => replicate edges <$> assign s target value
  | .fieldRead, .readField target base field => replicate edges <$> readField s target base field
  | .fieldWrite, .writeField base field value => replicate edges <$> writeField s base field value
  | .arrayRead, .readArray target array index => replicate edges <$> readArray s target array index
  | .arrayWrite, .writeArray array index value =>
    replicate edges <$> writeArray s array index value
  | .arrayLength, .arrayLength target array => replicate edges <$> measureArray s target array
  | .pureStaticCall, .call (some target) receiver? callee args
  | .pureVirtualCall, .call (some target) receiver? callee args =>
    replicate edges <$> callPure s target receiver? callee args
  | .impureCall, .call target? _ _ _ => replicate edges <$> callImpure s target?
  | .returnValue, .ret (some value) => return [← returnWith s value]
  | .returnNothing, .ret none => return [s]
  | .branch, .branch cond _ => do
    let guard ← conditionValue s cond
    return [s.constrainNegated guard, s.constrain guard]
  | .dummy, _ | .ignored, _ => return replicate edges s
  | r, stmt => throw (.defect (.ruleMismatch r.name stmt.text))

def apply (r : Rule) (stmt : Statement) (inputs : List State) (edges : Nat) :
    ContextM (List State) := do
  r.run stmt edges (← State.merge inputs)

end Rule

end PathMerge
