/-
  PathMerge.Theory — the theories expressions are interpreted in, and their functions.

  Integers are unbounded; division and remainder truncate toward zero. The heap is a value, read
  with `select` and written with `store`; array elements live under `arr index` and an array's
  length is a function of the array. Location sets say which heap locations a loop may write.

  Each function has a name, an arity and a result sort; the operators of the integers are also
  printed between (or before) their arguments. The laws of the theories are in
  `PathMerge.Theory.Integers`, `PathMerge.Theory.Heap` and `PathMerge.Theory.Locations`.
-/

import PathMerge.ValueSort

namespace PathMerge

structure FunctionDecl where
  name : String
  arity : Nat
  sort : ValueSort
  deriving DecidableEq, Repr

inductive IntFunction where
  | plus | minus | mul | div | rem | neg | lt | le
  deriving DecidableEq, Repr

inductive HeapFunction where
  | select | store | arr | length
  deriving DecidableEq, Repr

inductive LocFunction where
  | empty | allLocs | singleton | union | elementOf
  deriving DecidableEq, Repr

namespace IntFunction

def decl : IntFunction → FunctionDecl
  | plus => ⟨"plus", 2, .int⟩
  | minus => ⟨"minus", 2, .int⟩
  | mul => ⟨"mul", 2, .int⟩
  | div => ⟨"div", 2, .int⟩
  | rem => ⟨"rem", 2, .int⟩
  | neg => ⟨"neg", 1, .int⟩
  | lt => ⟨"lt", 2, .bool⟩
  | le => ⟨"le", 2, .bool⟩

def all : List IntFunction := [plus, minus, mul, div, rem, neg, lt, le]

def ofName? (name : String) : Option IntFunction := all.find? (·.decl.name == name)

def operator : IntFunction → String
  | plus => "+"
  | minus => "-"
  | mul => "*"
  | div => "/"
  | rem => "%"
  | neg => "-"
  | lt => "<"
  | le => "<="

end IntFunction

namespace HeapFunction

def decl : HeapFunction → FunctionDecl
  | select => ⟨"select", 3, .any⟩
  | store => ⟨"store", 4, .heap⟩
  | arr => ⟨"arr", 1, .field⟩
  | length => ⟨"length", 1, .int⟩

def all : List HeapFunction := [select, store, arr, length]

def ofName? (name : String) : Option HeapFunction := all.find? (·.decl.name == name)

end HeapFunction

namespace LocFunction

def decl : LocFunction → FunctionDecl
  | empty => ⟨"empty", 0, .locset⟩
  | allLocs => ⟨"allLocs", 0, .locset⟩
  | singleton => ⟨"singleton", 2, .locset⟩
  | union => ⟨"union", 2, .locset⟩
  | elementOf => ⟨"elementOf", 3, .bool⟩

def all : List LocFunction := [empty, allLocs, singleton, union, elementOf]

def ofName? (name : String) : Option LocFunction := all.find? (·.decl.name == name)

end LocFunction

inductive Theory where
  | integers
  | heap
  | locations
  deriving DecidableEq, Repr

namespace Theory

def name : Theory → String
  | integers => "int"
  | heap => "heap"
  | locations => "locset"

/-- All theories, in the order in which their functions are registered. -/
def all : List Theory := [integers, heap, locations]

def ofName? (s : String) : Option Theory := all.find? (·.name == s)

def functions : Theory → List FunctionDecl
  | integers => IntFunction.all.map (·.decl)
  | heap => HeapFunction.all.map (·.decl)
  | locations => LocFunction.all.map (·.decl)

/-- The sign a function is printed with, if it is an operator. -/
def operator? : Theory → String → Option String
  | integers, function => (IntFunction.ofName? function).map (·.operator)
  | _, _ => none

end Theory

end PathMerge
