/-
  PathMerge.Marks — sets of positions.

  A set holds positions below a bound, with one mark for each. A position beyond the bound is never
  in the set, and inserting it changes nothing. `missing` counts the positions below the bound that
  are not in the set; inserting one of them makes the count smaller (`missing_insert_lt`), so a
  search that inserts whatever it meets comes to an end.
-/

namespace PathMerge

structure Marks where
  marks : Array Bool

namespace Marks

/-- The empty set with bound `n`. -/
def empty (n : Nat) : Marks := ⟨.replicate n false⟩

def contains (m : Marks) (i : Nat) : Bool := m.marks[i]?.getD false

/-- Whether `i` could be inserted: below the bound, and not in the set. -/
def lacks (m : Marks) (i : Nat) : Bool := m.marks[i]? = some false

def insert (m : Marks) (i : Nat) : Marks := ⟨m.marks.setIfInBounds i true⟩

/-- The positions in the set, in increasing order. -/
def toList (m : Marks) : List Nat := (List.range m.marks.size).filter m.contains

def missing (m : Marks) : Nat := m.marks.count false

theorem missing_insert_lt {m : Marks} {i : Nat} (h : m.lacks i) :
    (m.insert i).missing < m.missing := by
  obtain ⟨hi, off⟩ := Array.getElem?_eq_some_iff.mp (of_decide_eq_true h)
  have some_off : 0 < m.marks.count false := Array.count_pos_iff.mpr (off ▸ Array.getElem_mem hi)
  rw [missing, missing, insert, Array.setIfInBounds, dif_pos hi, Array.count_set hi, off]
  show m.marks.count false - 1 + 0 < m.marks.count false
  omega

end Marks

end PathMerge
