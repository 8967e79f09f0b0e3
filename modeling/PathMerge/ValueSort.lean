/-
  PathMerge.ValueSort — what kind of value an expression stands for.
-/

namespace PathMerge

inductive ValueSort where
  | bool
  | int
  /-- An object or array reference. -/
  | object
  | heap
  | field
  | locset
  /-- The result of a function whose results are of several sorts. -/
  | any
  deriving DecidableEq, Repr, Inhabited

namespace ValueSort

def name : ValueSort → String
  | bool => "bool"
  | int => "int"
  | object => "object"
  | heap => "heap"
  | field => "field"
  | locset => "locset"
  | any => "any"

def all : List ValueSort := [bool, int, object, heap, field, locset, any]

def ofName? (s : String) : Option ValueSort := all.find? (·.name == s)

end ValueSort

end PathMerge
