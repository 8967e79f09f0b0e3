/-
  PathMerge.PathCondition — what is known on the way to a statement.

  A path condition is a conjunction kept as a sorted list without repetition. `true` is never in
  it. A condition that holds `false`, or a constraint together with its complement, is `{false}`.
  Constraints are looked up by binary search.
-/

import PathMerge.Context.Render
import PathMerge.Simplify

namespace PathMerge

structure PathCondition where
  items : List Handle
  deriving DecidableEq, Repr

namespace PathCondition

def empty : PathCondition := ⟨[]⟩

def ofList (constraints : List Handle) : PathCondition :=
  let items := Handle.sorted (constraints.filter (· ≠ .tt))
  if items.contains .ff || Handle.hasComplements items then ⟨[.ff]⟩ else ⟨items⟩

def add (p : PathCondition) (c : Handle) : PathCondition := ofList (p.items ++ [c])

def addNegated (p : PathCondition) (c : Handle) : PathCondition := p.add (-c)

def contains (p : PathCondition) (c : Handle) : Bool := SortedList.search Handle.lt c p.items

def length (p : PathCondition) : Nat := p.items.length

def isEmpty (p : PathCondition) : Bool := p.items.isEmpty

/-- Whether the condition contradicts itself on its face. -/
def isUnsatisfiable (p : PathCondition) : Bool := p.items = [.ff]

def inter (p q : PathCondition) : PathCondition := ⟨p.items.filter q.items.contains⟩

def diff (p q : PathCondition) : PathCondition := ⟨p.items.filter fun c => !q.items.contains c⟩

def formula (p : PathCondition) : ContextM Handle := ContextM.conj p.items

/-- The simplified form of one constraint, taken apart if it is a conjunction. -/
def simplifiedParts (c : Handle) : ContextM (List Handle) := do
  let c ← ContextM.simplify c
  return (← ContextM.onPool (PoolM.operands? .conj c)).getD [c]

def simplify (p : PathCondition) : ContextM PathCondition :=
  return ofList (← p.items.mapM simplifiedParts).flatten

/-- Whether two conditions are the same once simplified. -/
def equivalent (p q : PathCondition) : ContextM Bool := do
  if p = q then return true
  let p ← p.simplify
  let q ← q.simplify
  return p = q

def render (ctx : Context) (p : PathCondition) : Except Failure String :=
  return "\x7b" ++ String.intercalate ", " (← p.items.mapM ctx.render) ++ "\x7d"

end PathCondition

end PathMerge
