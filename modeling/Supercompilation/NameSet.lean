import Std.Data.TreeSet

/-!
# Sets of names

A set of names keeps the order in which its names were put in first. Beside the names it holds a
search tree of them, so that looking for a name is fast in large sets; the type says that both hold
the same names.
-/

namespace Supercompilation

/-- Names in the order in which they were put in. -/
structure NameSet where
  /-- The names, the one put in last first. -/
  reversed : List String
  /-- The names, for looking them up. -/
  tree : Std.TreeSet String
  /-- Both hold the same names. -/
  mem_tree : ∀ x, x ∈ tree ↔ x ∈ reversed

namespace NameSet

/-- The set without names. -/
def empty : NameSet := ⟨[], ∅, fun _ => by simp⟩

/-- Whether a name is in the set. -/
def contains (names : NameSet) (x : String) : Bool := names.tree.contains x

/-- Put a name in, unless it is there. -/
def insert (names : NameSet) (x : String) : NameSet :=
  if names.contains x then names
  else
    { reversed := x :: names.reversed
      tree := names.tree.insert x
      mem_tree := fun y => by
        rw [Std.TreeSet.mem_insert, Std.LawfulEqCmp.compare_eq_iff_eq, List.mem_cons,
          names.mem_tree y, eq_comm] }

/-- Put names in, one after another. -/
def insertAll (names : NameSet) (xs : List String) : NameSet := xs.foldl insert names

/-- The names in the order in which they were put in. -/
def toList (names : NameSet) : List String := names.reversed.reverse

/-- The number of names. -/
def size (names : NameSet) : Nat := names.reversed.length

@[simp]
theorem toList_empty : empty.toList = [] := rfl

/-- Looking a name up tells whether it is among the names. -/
theorem contains_iff_mem_toList (names : NameSet) (x : String) :
    names.contains x = true ↔ x ∈ names.toList := by
  rw [contains, Std.TreeSet.contains_iff_mem, names.mem_tree x, toList, List.mem_reverse]

/-- A new name comes last. -/
theorem toList_insert (names : NameSet) (x : String) :
    (names.insert x).toList =
      if x ∈ names.toList then names.toList else names.toList ++ [x] := by
  by_cases held : x ∈ names.toList
  · rw [insert, if_pos ((names.contains_iff_mem_toList x).mpr held), if_pos held]
  · rw [insert, if_neg fun found => held ((names.contains_iff_mem_toList x).mp found),
      if_neg held]
    simp [toList]

end NameSet

end Supercompilation
