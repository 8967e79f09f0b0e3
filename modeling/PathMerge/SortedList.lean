/-
  PathMerge.SortedList — strictly increasing lists under a key.

  Sets of handles, of branches, of locations and of symbols are all kept as lists whose keys
  strictly increase. `insert` keeps that shape and drops an element whose key is already there;
  `ofList` inserts one by one, so order and repetitions in its argument do not matter. `search` looks
  an element up by halving.
-/

namespace PathMerge.SortedList

variable {α : Type}

def insert (lt : α → α → Bool) (a : α) : List α → List α
  | [] => [a]
  | b :: bs => if lt a b then a :: b :: bs else if lt b a then b :: insert lt a bs else b :: bs

def ofList (lt : α → α → Bool) (as : List α) : List α := as.foldr (insert lt) []

/-- Whether `a` is found when it is compared with the element in the middle and looked up in one half. -/
def search (lt : α → α → Bool) (a : α) (as : List α) : Bool :=
  match h : as.drop (as.length / 2) with
  | [] => false
  | b :: after =>
    if lt a b then search lt a (as.take (as.length / 2))
    else if lt b a then search lt a after
    else true
termination_by as.length
decreasing_by
  all_goals
    have := congrArg List.length h
    simp only [List.length_drop, List.length_take, List.length_cons] at *
    omega

end PathMerge.SortedList
