/-
  PathMerge.Theory.Integers — laws of integer arithmetic.

  Applications to literals are computed and neutral operands go away. A division or remainder by
  the literal zero is left alone. Nothing is re-associated: `(x + 1) + 3` stays as it is.
-/

import PathMerge.Context

namespace PathMerge.Theory.Integers

/-- An argument and its value, if it is an integer literal. -/
abbrev Valued := Handle × Option Int

def valued (h : Handle) : ContextM Valued := return (h, ← ContextM.asking (·.intValue? h))

def literal (n : Int) : ContextM (Option Handle) := some <$> ContextM.integer n

/-- `result` if the first two arguments are the same. -/
def whenSame (args : List Valued) (result : ContextM (Option Handle)) : ContextM (Option Handle) :=
  match args with
  | (x, _) :: (y, _) :: _ => if x = y then result else return none
  | _ => throw (.defect .indexOutOfBounds)

def negLaw : List Valued → ContextM (Option Handle)
  | [(_, some a)] => literal (-a)
  | [(x, none)] => do
    match ← ContextM.asking (·.asApp? x IntFunction.neg.decl.name) with
    | some inner => return inner.head?
    | none => return none
  | _ => return none

def plusLaw : List Valued → ContextM (Option Handle)
  | [(_, some a), (_, some b)] => literal (a + b)
  | [(_, some a), (y, none)] => return if a = 0 then some y else none
  | [(x, none), (_, some b)] => return if b = 0 then some x else none
  | _ => return none

def minusLaw : List Valued → ContextM (Option Handle)
  | [(_, some a), (_, some b)] => literal (a - b)
  | [(x, none), (_, some 0)] => return some x
  | args => whenSame args (literal 0)

def mulLaw : List Valued → ContextM (Option Handle)
  | [(_, some a), (_, some b)] => literal (a * b)
  | [(_, some a), (y, none)] => if a = 0 then literal 0 else return if a = 1 then some y else none
  | [(x, none), (_, some b)] => if b = 0 then literal 0 else return if b = 1 then some x else none
  | _ => return none

def divLaw : List Valued → ContextM (Option Handle)
  | [(_, _), (_, some 0)] => return none
  | [(_, some a), (_, some b)] => literal (a.tdiv b)
  | [(x, none), (_, some b)] => return if b = 1 then some x else none
  | _ => return none

def remLaw : List Valued → ContextM (Option Handle)
  | [(_, _), (_, some 0)] => return none
  | [(_, some a), (_, some b)] => literal (a.tmod b)
  | [(_, none), (_, some b)] => if b = 1 then literal 0 else return none
  | _ => return none

def ltLaw : List Valued → ContextM (Option Handle)
  | [(_, some a), (_, some b)] => return some (.ofBool (a < b))
  | args => whenSame args (return some .ff)

def leLaw : List Valued → ContextM (Option Handle)
  | [(_, some a), (_, some b)] => return some (.ofBool (a ≤ b))
  | args => whenSame args (return some .tt)

def law (f : IntFunction) (args : List Handle) : ContextM (Option Handle) := do
  let args ← args.mapM valued
  match f with
  | .plus => plusLaw args
  | .minus => minusLaw args
  | .mul => mulLaw args
  | .div => divLaw args
  | .rem => remLaw args
  | .neg => negLaw args
  | .lt => ltLaw args
  | .le => leLaw args

end PathMerge.Theory.Integers
