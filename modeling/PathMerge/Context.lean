/-
  PathMerge.Context — everything one analysis builds expressions with.

  A context is a pool of nodes, a registry of symbols, the memory of the simplifier and the
  installed theories. `ContextM` threads it through; a failure leaves behind whatever was interned
  or registered before it.

  A function is applied only to as many arguments as it was registered with. `apply` takes the
  function's symbol, `call` its name.
-/

import PathMerge.Memo
import PathMerge.Pool.Choice
import PathMerge.Theory

namespace PathMerge

structure Context where
  pool : Pool
  symbols : Registry
  memo : Memo
  theories : List Theory

namespace Context

/-- The memory has at most this many bits, however many the pool has. -/
def maxMemoBits : Nat := 16

def declare (symbols : Registry) (theory : Theory) : Except Failure Registry :=
  theory.functions.foldlM (fun r d => return (← r.addFunction theory.name d.name d.arity d.sort).2)
    symbols

def create (bits : Nat) (theories : List Theory) : Except Failure Context := do
  if bits > InternTable.maxBits then throw (.error (.invalidStorageBits bits))
  let symbols ← theories.foldlM declare .initial
  return ⟨.initial bits, symbols, .empty (min bits maxMemoBits), theories⟩

def node (ctx : Context) (h : Handle) : Except Failure Node := ctx.pool.table.value h.index

def symbolName (ctx : Context) (id : SymbolId) : Except Failure String :=
  return (← ctx.symbols.get id).name

def symbolSort (ctx : Context) (id : SymbolId) : Except Failure ValueSort :=
  return (← ctx.symbols.get id).sort

def theory? (ctx : Context) (name : String) : Option Theory :=
  ctx.theories.find? (·.name == name)

/-- The installed theory that owns the symbol `f`, if it is a function of one. -/
def theoryOf? (ctx : Context) (f : SymbolId) : Except Failure (Option Theory) := do
  match (← ctx.symbols.get f).kind with
  | .function _ owner => return ctx.theory? owner
  | _ => return none

def intValue? (ctx : Context) (h : Handle) : Except Failure (Option Int) := do
  if h.negated then return none
  match ← ctx.node h with
  | .literal (.int n) => return some n
  | _ => return none

def isLiteral (ctx : Context) (h : Handle) : Except Failure Bool := do
  if h.negated then return false
  match ← ctx.node h with
  | .literal _ => return true
  | _ => return false

def asSymbol? (ctx : Context) (h : Handle) : Except Failure (Option SymbolId) := do
  if h.negated then return none
  match ← ctx.node h with
  | .symbol id => return some id
  | _ => return none

/-- The arguments of `h` if it is an unnegated application of the function called `name`. -/
def asApp? (ctx : Context) (h : Handle) (name : String) : Except Failure (Option (List Handle)) := do
  if h.negated then return none
  match ← ctx.node h with
  | .app f args => return if (← ctx.symbolName f) = name then some args else none
  | _ => return none

def sortWithin (ctx : Context) : Nat → Handle → Except Failure ValueSort
  | 0, _ => .error (.defect .boundExceeded)
  | depth + 1, h => do
    if h.negated then return .bool
    match ← ctx.node h with
    | .truth | .eq _ _ | .junction _ _ => return .bool
    | .literal (.int _) => return .int
    | .literal .null => return .object
    | .literal (.field _) => return .field
    | .symbol id | .app id _ => ctx.symbolSort id
    | .summary ((_, v) :: _) => sortWithin ctx depth v
    | .summary [] => throw (.defect .indexOutOfBounds)

/-- The sort of an expression; of a summary, the sort of its first value. An operand has a smaller
index than its node, so the index of `h` bounds the depth. -/
def sortOf (ctx : Context) (h : Handle) : Except Failure ValueSort := ctx.sortWithin (h.index + 1) h

end Context

abbrev ContextM := ExceptT Failure (StateM Context)

namespace ContextM

/-- Run an action of the pool. -/
def onPool {α : Type} (x : PoolM α) : ContextM α := ExceptT.mk fun ctx =>
  let ⟨pool, symbols, memo, theories⟩ := ctx
  let (r, pool) := x.run pool
  (r, ⟨pool, symbols, memo, theories⟩)

def ofExcept {α : Type} : Except Failure α → ContextM α
  | .ok a => pure a
  | .error e => throw e

/-- Ask the context a question. -/
def asking {α : Type} (question : Context → Except Failure α) : ContextM α := do
  ofExcept (question (← get))

def register (add : Registry → Except Failure (SymbolId × Registry)) : ContextM SymbolId := do
  let (id, symbols) ← asking fun ctx => add ctx.symbols
  modify fun ctx => { ctx with symbols }
  return id

def fresh (base : String) (sort : ValueSort) : ContextM SymbolId :=
  register fun r => .ok (r.addFresh base sort)

def lookup (name : String) : ContextM SymbolId := asking (·.symbols.lookup name)

/-- The function called `name`, which whoever asks takes to be registered. -/
def builtin (name : String) : ContextM SymbolId := do
  match (← get).symbols.functions.lookup name with
  | some id => return id
  | none => throw (.defect (.unknownBuiltin name))

def fetch (h : Handle) : ContextM (Option Handle) := modifyGet fun ctx =>
  let (found, memo) := ctx.memo.fetch h
  (found, { ctx with memo })

def remember (key value : Handle) : ContextM Unit :=
  modify fun ctx => { ctx with memo := ctx.memo.remember key value }

/-! ## Building expressions -/

def intern (n : Node) : ContextM Handle := onPool (PoolM.intern n)

def integer (n : Int) : ContextM Handle := intern (.literal (.int n))

def null : ContextM Handle := intern (.literal .null)

def field (name : String) : ContextM Handle := intern (.literal (.field name))

def symbol (id : SymbolId) : ContextM Handle := intern (.symbol id)

def apply (f : SymbolId) (args : List Handle) : ContextM Handle := do
  let s ← asking (·.symbols.get f)
  match s.kind with
  | .function arity _ =>
    if arity = args.length then intern (.app f args)
    else throw (.defect (.wrongArity s.name args.length))
  | _ => throw (.defect (.notAFunction s.name))

def call (name : String) (args : List Handle) : ContextM Handle := do
  apply (← builtin name) args

def equation (a b : Handle) : ContextM Handle := onPool (PoolM.equation a b)

def conj (items : List Handle) : ContextM Handle := onPool (PoolM.conj items)

def disj (items : List Handle) : ContextM Handle := onPool (PoolM.disj items)

def choice (branches : List Branch) : ContextM Handle := onPool (PoolM.choice branches)

def arithmetic (f : IntFunction) (args : List Handle) : ContextM Handle := call f.decl.name args

def select (heap object field : Handle) : ContextM Handle :=
  call HeapFunction.select.decl.name [heap, object, field]

def store (heap object field value : Handle) : ContextM Handle :=
  call HeapFunction.store.decl.name [heap, object, field, value]

def slot (index : Handle) : ContextM Handle := call HeapFunction.arr.decl.name [index]

def length (array : Handle) : ContextM Handle := call HeapFunction.length.decl.name [array]

def noLocations : ContextM Handle := call LocFunction.empty.decl.name []

def allLocations : ContextM Handle := call LocFunction.allLocs.decl.name []

def location (object field : Handle) : ContextM Handle :=
  call LocFunction.singleton.decl.name [object, field]

def union (a b : Handle) : ContextM Handle := call LocFunction.union.decl.name [a, b]

def elementOf (object field set : Handle) : ContextM Handle :=
  call LocFunction.elementOf.decl.name [object, field, set]

end ContextM

end PathMerge
