/-
  PathMerge.Store — what the variables hold.

  A store is built from single bindings; of two parts put together the second is the later one and
  wins. `get?` finds the latest binding of a symbol and `flatten` lists all of them by symbol.
  `ofBindings` is the canonical store with given bindings: right-nested, in the order of symbols.
  Two stores are equal as stores when they flatten to the same bindings.
-/

import PathMerge.Context.Render

namespace PathMerge

/-- Bindings with strictly increasing symbols. -/
abbrev Bindings := List (SymbolId × Handle)

namespace Bindings

def insert (x : SymbolId) (v : Handle) : Bindings → Bindings
  | [] => [(x, v)]
  | (y, w) :: rest =>
    if x.number < y.number then (x, v) :: (y, w) :: rest
    else if y.number < x.number then (y, w) :: insert x v rest
    else (x, v) :: rest

/-- Enter bindings one by one; the last one of a symbol stays. -/
def ofList (bs : List (SymbolId × Handle)) : Bindings := bs.foldl (fun m (x, v) => insert x v m) []

def find? (m : Bindings) (x : SymbolId) : Option Handle := m.lookup x

end Bindings

inductive Store where
  | empty
  | single (x : SymbolId) (v : Handle)
  | parallel (first second : Store)
  deriving DecidableEq, Repr

namespace Store

/-- Both parts, the second one later; an empty part is left out. -/
def compose : Store → Store → Store
  | .empty, s => s
  | s, .empty => s
  | a, b => .parallel a b

def assign (s : Store) (x : SymbolId) (v : Handle) : Store := s.compose (.single x v)

def ofBindings (bs : List (SymbolId × Handle)) : Store :=
  (Bindings.ofList bs).foldr (fun (x, v) later => compose (.single x v) later) .empty

def isEmpty : Store → Bool
  | .empty => true
  | .single _ _ => false
  | .parallel a b => a.isEmpty && b.isEmpty

def get? (x : SymbolId) : Store → Option Handle
  | .empty => none
  | .single y v => if y = x then some v else none
  | .parallel a b => (get? x b).or (get? x a)

def flattenOnto : Store → Bindings → Bindings
  | .empty, m => m
  | .single x v, m => m.insert x v
  | .parallel a b, m => flattenOnto b (flattenOnto a m)

def flatten (s : Store) : Bindings := s.flattenOnto []

/-- Whether two stores bind the same symbols to the same values. -/
def same (s t : Store) : Bool := s.flatten = t.flatten

/-- The value of `x`: what it is bound to, or `x` itself. -/
def value (s : Store) (x : SymbolId) : ContextM Handle :=
  match s.get? x with
  | some v => return v
  | none => ContextM.symbol x

def renderBinding (ctx : Context) (b : SymbolId × Handle) : Except Failure String := do
  let name ← ctx.symbolName b.1
  let value ← ctx.render b.2
  return name ++ " := " ++ value

def render (ctx : Context) (s : Store) : Except Failure String :=
  return "[" ++ String.intercalate ", " (← s.flatten.mapM (renderBinding ctx)) ++ "]"

/-- The tree of the store, by symbols: `-` for empty, `(a b)` for two parts. -/
def shape : Store → String
  | .empty => "-"
  | .single x _ => x.text
  | .parallel a b => "(" ++ a.shape ++ " " ++ b.shape ++ ")"

end Store

end PathMerge
