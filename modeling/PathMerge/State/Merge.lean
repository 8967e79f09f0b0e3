/-
  PathMerge.State.Merge — one state for several that reach the same statement.

  Constraints that all states share are kept. What is left of a state's constraints is its guard;
  the disjunction of the guards is added unless it is true. A symbol with one value in all states
  keeps it, any other is bound to the choice among its values under the guards.
-/

import PathMerge.State

namespace PathMerge.State

/-- The symbols bound in some of the stores, in order. -/
def boundSymbols (stores : List Bindings) : List SymbolId :=
  SortedList.ofList SymbolId.lt (stores.flatMap fun m => m.map (·.1))

def valueIn (x : SymbolId) (m : Bindings) : ContextM Handle :=
  match m.find? x with
  | some v => return v
  | none => ContextM.symbol x

def mergeSymbol (guards : List Handle) (stores : List Bindings) (x : SymbolId) :
    ContextM (SymbolId × Handle) := do
  let values ← stores.mapM (valueIn x)
  match values with
  | v :: rest =>
    if rest.all (· = v) then return (x, v)
    else return (x, ← ContextM.choice (guards.zip values))
  | [] => throw (.defect .emptyMerge)

def mergeSeveral (first : State) (others : List State) : ContextM State := do
  let states := first :: others
  let common := others.foldl (fun c s => c.inter s.path) first.path
  let guards ← states.mapM fun s => (s.path.diff common).formula
  let reached ← ContextM.simplify (← ContextM.disj guards)
  let path := if reached = .tt then common else common.add reached
  let stores := states.map (·.store.flatten)
  let bindings ← (boundSymbols stores).mapM (mergeSymbol guards stores)
  return ⟨path, .ofBindings bindings⟩

def merge : List State → ContextM State
  | [] => throw (.defect .emptyMerge)
  | [s] => return s
  | first :: others => mergeSeveral first others

end PathMerge.State
