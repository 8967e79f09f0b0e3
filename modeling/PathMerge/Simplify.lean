/-
  PathMerge.Simplify — the simplified form of an expression.

  Operands are simplified first, from left to right, and the node is built again in canonical form.
  An application is then rewritten by the laws of its theory; what a law yields is simplified in
  turn. Results are remembered under the expression and, being simplified already, under
  themselves.

  A law yields less than it was given, if the operands of a junction are not added up but only the
  largest is counted. So the tree size of the expression bounds how deep the recursion goes.
-/

import PathMerge.Theory.Heap
import PathMerge.Theory.Integers
import PathMerge.Theory.Locations

namespace PathMerge

/-- One step by the laws of a theory, if one of them applies to `function` on `args`. -/
def Theory.rewrite : Theory → String → List Handle → ContextM (Option Handle)
  | .integers, function, args =>
    match IntFunction.ofName? function with
    | some f => Integers.law f args
    | none => return none
  | .heap, function, args =>
    match HeapFunction.ofName? function with
    | some f => Heap.law f args
    | none => return none
  | .locations, function, args => Locations.law (LocFunction.ofName? function) args

namespace ContextM

/-- One step by the laws of the theory that owns `f`. -/
def rewrite (f : SymbolId) (args : List Handle) : ContextM (Option Handle) := do
  let name ← asking (·.symbolName f)
  match ← asking (·.theoryOf? f) with
  | some theory => theory.rewrite name args
  | none => return none

/-- A node built again from simplified operands; `simplify` is the recursive call. -/
def rebuild (simplify : Handle → ContextM Handle) (h : Handle) : Node → ContextM Handle
  | .truth | .literal _ | .symbol _ => return h
  | .app f args => do
    let args ← args.mapM simplify
    match ← rewrite f args with
    | some result => simplify result
    | none => apply f args
  | .summary branches => do
    let branches ← branches.mapM fun (g, v) => do
      let g ← simplify g
      let v ← simplify v
      return (g, v)
    choice branches
  | .eq a b => do
    let a ← simplify a
    let b ← simplify b
    equation a b
  | .junction c operands => do
    let operands ← operands.mapM simplify
    onPool (PoolM.join c operands)

def simplifyWithin : Nat → Handle → ContextM Handle
  | 0, _ => throw (.defect .boundExceeded)
  | depth + 1, signed => do
    let h := signed.regular
    let result ← do
      match ← fetch h with
      | some known => pure known
      | none =>
        let result ← rebuild (simplifyWithin depth) h (← asking (·.node h))
        remember h result
        if result ≠ h then remember result.regular result.regular
        pure result
    return result.signed signed.negated

def simplify (h : Handle) : ContextM Handle := do
  simplifyWithin ((← get).pool.treeSize h) h

end ContextM

end PathMerge
