/-
  PathMerge.Proofs.Machine — what methods do.

  A machine has a heap and a value for every variable. A statement changes it and says over which of its
  edges control goes on. Integers are unbounded, division truncates, and the heap holds a value for every
  location, also for those of `null`. Division by zero, the length of an array and what pure methods return
  are left to the interpretation. A call that is not pure may leave any heap and any result behind: its
  `Effect`.

  Operators are applied to values of the kind they are made for. A statement that would do otherwise has no
  outcome, so a run comes to a halt there: kinds are checked as a method runs, since a heap that has a
  value for every location may hold one of any kind.
-/

import Mathlib
import PathMerge.Flow
import PathMerge.Method
import PathMerge.Purity
import PathMerge.Proofs.Value

namespace PathMerge

structure Machine where
  heap : Heap
  locals : String → Scalar

def Machine.set (m : Machine) (x : String) (a : Scalar) : Machine :=
  { m with locals := fun y => if y = x then a else m.locals y }

/-! ## Values -/

def Operand.value (m : Machine) : Operand → Scalar
  | .var x => m.locals x
  | .int n => .int n
  | .bool b => .bool b
  | .null => .ref .null

def BinaryOp.value (I : Interpretation) : BinaryOp → Scalar → Scalar → Option Scalar
  | add, .int a, .int b => some (.int (a + b))
  | sub, .int a, .int b => some (.int (a - b))
  | mul, .int a, .int b => some (.int (a * b))
  | div, .int a, .int b => some (.int (I.divide a b))
  | rem, .int a, .int b => some (.int (I.remainder a b))
  | _, _, _ => none

def Scalar.negative? : Scalar → Option Scalar
  | int n => some (int (-n))
  | _ => none

def Scalar.isBool : Scalar → Bool
  | bool _ => true
  | _ => false

/-- Whether two values are equal. A boolean is compared with booleans only. -/
def Scalar.same? (a b : Scalar) : Option Bool := if a.isBool = b.isBool then some (a = b) else none

def Comparison.value : Comparison → Scalar → Scalar → Option Bool
  | eq, a, b => a.same? b
  | ne, a, b => (a.same? b).map (!·)
  | lt, .int a, .int b => some (a < b)
  | le, .int a, .int b => some (a ≤ b)
  | gt, .int a, .int b => some (b < a)
  | ge, .int a, .int b => some (b ≤ a)
  | _, _, _ => none

def RightSide.value (I : Interpretation) (m : Machine) : RightSide → Option Scalar
  | use a => some (a.value m)
  | neg a => (a.value m).negative?
  | binary op a b => op.value I (a.value m) (b.value m)
  | compare op a b => (op.value (a.value m) (b.value m)).map .bool

def Condition.value (m : Machine) (c : Condition) : Option Bool := c.op.value (c.lhs.value m) (c.rhs.value m)

/-! ## Statements -/

/-- What a call that is not pure leaves behind. -/
structure Effect where
  heap : Heap
  result : Scalar

def Machine.pureResult? (I : Interpretation) (m : Machine) (receiver? : Option Operand) (callee : Callee)
    (args : List Operand) : Option Scalar :=
  match I.function callee.signature (.heap m.heap :: (receiver?.toList ++ args).map fun a => .scalar (a.value m)) with
  | .scalar a => some a
  | _ => none

theorem Machine.pureResult?_eq_some {I : Interpretation} {m : Machine} {receiver? : Option Operand} {callee : Callee}
    {args : List Operand} {a : Scalar} : m.pureResult? I receiver? callee args = some a ↔
      I.function callee.signature (.heap m.heap :: (receiver?.toList ++ args).map fun a => .scalar (a.value m)) =
      .scalar a := by
  unfold pureResult?
  split
  · rename_i value
    rw [value]
    simp
  · rename_i other
    simpa using other a

namespace Statement

/-- Whether the statement may change the heap and its result to anything. -/
def isImpure : Statement → Bool
  | call _ _ callee _ => !Purity.isPure callee.signature
  | _ => false

def perform (I : Interpretation) (e : Effect) (m : Machine) : Statement → Option Machine
  | assign x value => (value.value I m).map (m.set x)
  | readField x base field => some (m.set x (m.heap (base.value m) (.field field.id)))
  | writeField base field value =>
    some { m with heap := m.heap.write (base.value m) (.field field.id) (value.value m) }
  | readArray x array index => some (m.set x (m.heap (array.value m) (.element (index.value m))))
  | writeArray array index value =>
    some { m with heap := m.heap.write (array.value m) (.element (index.value m)) (value.value m) }
  | arrayLength x array => some (m.set x (.int (I.length (array.value m))))
  | call (some x) receiver? callee args =>
    if Purity.isPure callee.signature then (m.pureResult? I receiver? callee args).map (m.set x)
    else some ({ m with heap := e.heap }.set x e.result)
  | call none _ callee _ => some (if Purity.isPure callee.signature then m else { m with heap := e.heap })
  | branch cond _ => (cond.value m).map fun _ => m
  | jump _ | skip | unmodelled _ => some m
  | ret _ | raise _ => none

section Calls

variable {I : Interpretation} {e : Effect} {m : Machine} {receiver? : Option Operand} {callee : Callee}
  {args : List Operand}

theorem perform_pureCall {x : String} (pure : Purity.isPure callee.signature = true) :
    (call (some x) receiver? callee args).perform I e m = (m.pureResult? I receiver? callee args).map (m.set x) :=
  if_pos pure

theorem perform_impureCall {x : String} (impure : Purity.isPure callee.signature = false) :
    (call (some x) receiver? callee args).perform I e m = some ({ m with heap := e.heap }.set x e.result) :=
  if_neg (Bool.eq_false_iff.mp impure)

theorem perform_droppedCall :
    (call none receiver? callee args).perform I e m =
      some (if Purity.isPure callee.signature then m else { m with heap := e.heap }) := rfl

end Calls

def edge (m : Machine) : Statement → Nat
  | branch cond _ => if cond.value m = some true then 1 else 0
  | _ => 0

theorem edge_branch {cond : Condition} {goal : Nat} {m : Machine} {b : Bool} (value : cond.value m = some b) :
    (branch cond goal).edge m = if b then 1 else 0 := by
  rw [edge, value]
  cases b <;> rfl

end Statement

/-! ## Runs -/

namespace Method

/-- One step of a method, where the call at a position may have the effects in `allowed`. -/
inductive Step (p : Method) (I : Interpretation) (allowed : Nat → Effect → Prop) :
    Nat × Machine → Nat × Machine → Prop
  | step {i j : Nat} {s : Statement} {e : Effect} {m m' : Machine} (here : p.body[i]? = some s)
      (permitted : allowed i e) (performed : s.perform I e m = some m')
      (next : (s.successors i)[s.edge m]? = some j) : Step p I allowed (i, m) (j, m')

abbrev Runs (p : Method) (I : Interpretation) (allowed : Nat → Effect → Prop) :
    Nat × Machine → Nat × Machine → Prop :=
  Relation.ReflTransGen (p.Step I allowed)

def Ends (p : Method) (c : Nat × Machine) : Prop := ∃ s, p.body[c.1]? = some s ∧ s.isTerminal = true

/-- No run comes to a halt before the method ends. -/
def Safe (p : Method) (I : Interpretation) (allowed : Nat → Effect → Prop) (c : Nat × Machine) : Prop :=
  ∀ c', p.Runs I allowed c c' → p.Ends c' ∨ ∃ c'', p.Step I allowed c' c''

theorem Ends.no_step {p : Method} {I : Interpretation} {allowed : Nat → Effect → Prop} {c c' : Nat × Machine}
    (ends : p.Ends c) : ¬ p.Step I allowed c c' := by
  obtain ⟨s, here, terminal⟩ := ends
  rintro ⟨here', _, performed, _⟩
  have same := here.symm.trans here'
  cases same
  cases s with
  | ret _ | raise _ => cases performed
  | _ => cases terminal

end Method

end PathMerge
