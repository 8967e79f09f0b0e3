/-
  PathMerge.Symbol — the symbols expressions are built from, and their registry.

  Symbols are numbered in order of registration; symbol 0 is the heap. Locals and functions live in
  separate name spaces, so a local may be called like a function, `heap` or `result`. Fresh symbols
  share the name space of locals. The result symbol is found under the name `result` unless a local
  took it; a local of that name and of the result's sort is the result symbol itself.

  Every operation that can be refused returns the new registry only when it succeeds.

  Numbers are natural numbers here, so no two symbols ever share one. With numbers of 32 bits that is so
  for the first `2^32` symbols; what is proved of registries is about those.
-/

import PathMerge.Failure

namespace PathMerge

structure SymbolId where
  number : Nat
  deriving DecidableEq, Repr, Inhabited

def SymbolId.text (id : SymbolId) : String := "s" ++ toString id.number

def SymbolId.lt (a b : SymbolId) : Bool := a.number < b.number

inductive SymbolKind where
  /-- A parameter or local variable. -/
  | localName
  | heap
  | result
  /-- Made up by the analysis: an unknown value. -/
  | fresh
  | function (arity : Nat) (theory : String)
  deriving DecidableEq, Repr

def SymbolKind.text : SymbolKind → String
  | .localName => "local"
  | .heap => "heap"
  | .result => "result"
  | .fresh => "fresh symbol"
  | .function _ theory => s!"function of theory `{theory}`"

structure Symbol where
  name : String
  /-- The sort of its values; of its results, for a function. -/
  sort : ValueSort
  kind : SymbolKind
  deriving DecidableEq, Repr

def Symbol.isFunction (s : Symbol) : Bool :=
  match s.kind with
  | .function .. => true
  | _ => false

structure Registry where
  symbols : Array Symbol
  locals : List (String × SymbolId)
  functions : List (String × SymbolId)
  result? : Option SymbolId
  deriving Repr

namespace Registry

def heapName : String := "heap"

def resultName : String := "result"

def heap : SymbolId := ⟨0⟩

/-- The registry that holds the heap symbol alone. -/
def initial : Registry := ⟨#[⟨heapName, .heap, .heap⟩], [], [], none⟩

def size (r : Registry) : Nat := r.symbols.size

def get? (r : Registry) (id : SymbolId) : Option Symbol := r.symbols[id.number]?

def get (r : Registry) (id : SymbolId) : Except Failure Symbol :=
  match r.get? id with
  | some s => .ok s
  | none => .error (.defect .indexOutOfBounds)

/-- All symbols with their numbers, in order of registration. -/
def entries (r : Registry) : List (SymbolId × Symbol) :=
  r.symbols.toList.zipIdx.map fun (s, i) => (⟨i⟩, s)

def push (r : Registry) (s : Symbol) : SymbolId × Registry :=
  (⟨r.size⟩, { r with symbols := r.symbols.push s })

/-- `id` again, provided its symbol has sort `sort`. -/
def confirmSort (r : Registry) (id : SymbolId) (sort : ValueSort) : Except Failure SymbolId := do
  let s ← r.get id
  if s.sort = sort then return id else throw (.error (.sortMismatch s.name s.sort sort))

def addResult (r : Registry) (sort : ValueSort) : Except Failure (SymbolId × Registry) :=
  match r.result? with
  | some id => return (← r.confirmSort id sort, r)
  | none =>
    let (id, r) := r.push ⟨resultName, sort, .result⟩
    return (id, { r with result? := some id })

/-- The result symbol, if a local `name` of sort `sort` stands for it. -/
def resultAlias? (r : Registry) (name : String) (sort : ValueSort) : Option SymbolId :=
  r.result?.filter fun id => name == resultName && (r.get? id).any (·.sort = sort)

def addLocal (r : Registry) (name : String) (sort : ValueSort) :
    Except Failure (SymbolId × Registry) :=
  match r.locals.lookup name with
  | some id => return (← r.confirmSort id sort, r)
  | none =>
    let (id, r) := match r.resultAlias? name sort with
      | some id => (id, r)
      | none => r.push ⟨name, sort, .localName⟩
    return (id, { r with locals := (name, id) :: r.locals })

def addFunction (r : Registry) (theory name : String) (arity : Nat) (sort : ValueSort) :
    Except Failure (SymbolId × Registry) :=
  match r.functions.lookup name with
  | some _ => throw (.error (.functionNameClash name theory))
  | none =>
    let (id, r) := r.push ⟨name, sort, .function arity theory⟩
    return (id, { r with functions := (name, id) :: r.functions })

/-- The name `base_k` for the smallest `k ≥ 1` that no local or fresh symbol has. Among one more
candidate than there are names, some candidate is free. -/
def freshName (r : Registry) (base : String) : String :=
  let name (k : Nat) : String := base ++ "_" ++ toString k
  let free (k : Nat) : Bool := (r.locals.lookup (name k)).isNone
  name (((List.range' 1 (r.locals.length + 1)).find? free).getD 0)

def addFresh (r : Registry) (base : String) (sort : ValueSort) : SymbolId × Registry :=
  let name := r.freshName base
  let (id, r) := r.push ⟨name, sort, .fresh⟩
  (id, { r with locals := (name, id) :: r.locals })

def lookup (r : Registry) (name : String) : Except Failure SymbolId :=
  let found := (r.locals.lookup name).or <|
    if name == heapName then some heap else if name == resultName then r.result? else none
  match found with
  | some id => .ok id
  | none => .error (.error (.symbolNotFound name))

def function (r : Registry) (name : String) : Except Failure SymbolId :=
  match r.functions.lookup name with
  | some id => .ok id
  | none => .error (.error (.functionNotFound name))

end Registry

end PathMerge
