/-
  PathMerge.State — a symbolic state: a path condition and a store.
-/

import PathMerge.PathCondition
import PathMerge.Store

namespace PathMerge

structure State where
  path : PathCondition
  store : Store
  deriving Repr

namespace State

/-- Nothing is known and every symbol holds itself. -/
def initial : State := ⟨.empty, .empty⟩

def value (s : State) (x : SymbolId) : ContextM Handle := s.store.value x

def assign (s : State) (x : SymbolId) (v : Handle) : State := { s with store := s.store.assign x v }

def constrain (s : State) (c : Handle) : State := { s with path := s.path.add c }

def constrainNegated (s : State) (c : Handle) : State := { s with path := s.path.addNegated c }

/-- Equal path conditions and the same bindings, however the stores are built. -/
def same (s t : State) : Bool := s.path = t.path && s.store.same t.store

/-- The binding with its value simplified, unless it then binds a symbol to itself. -/
def simplifyBinding (b : SymbolId × Handle) : ContextM (Option (SymbolId × Handle)) := do
  let v ← ContextM.simplify b.2
  return if (← ContextM.asking (·.asSymbol? v)) = some b.1 then none else some (b.1, v)

/-- Simplify the path condition and then every value, in the order of symbols. The store of the
result is canonical. -/
def simplify (s : State) : ContextM State := do
  let path ← s.path.simplify
  let bindings ← s.store.flatten.mapM simplifyBinding
  return ⟨path, .ofBindings (bindings.filterMap id)⟩

def render (ctx : Context) (s : State) : Except Failure String := do
  let path ← s.path.render ctx
  let store ← s.store.render ctx
  return path ++ " " ++ store

end State

end PathMerge
