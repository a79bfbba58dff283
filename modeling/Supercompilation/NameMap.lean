/-!
# Finite maps from names

A map is the list of its entries in the order in which their names were first put. Putting a name
again keeps its place and takes the new value.
-/

namespace Supercompilation

/-- Entries in the order in which their names were first put. -/
abbrev NameMap (α : Type) := List (String × α)

namespace NameMap

variable {α : Type}

/-- The value of a name. -/
def value? : NameMap α → String → Option α
  | [], _ => none
  | (name, value) :: rest, x => if x = name then some value else value? rest x

/-- Give a name a value: at its old place, or at the end if it is new. -/
def put : NameMap α → String → α → NameMap α
  | [], x, v => [(x, v)]
  | (name, value) :: rest, x, v =>
    if x = name then (name, v) :: rest else (name, value) :: put rest x v

/-- Put the pairs one after another. -/
def ofPairs (pairs : List (String × α)) : NameMap α :=
  pairs.foldl (fun entries pair => put entries pair.1 pair.2) []

/-- The names, in order. -/
def names (entries : NameMap α) : List String := entries.map Prod.fst

/-- The values, in the order of their names. -/
def values (entries : NameMap α) : List α := entries.map Prod.snd

/-- Whether a name has a value. -/
def binds (entries : NameMap α) (x : String) : Bool := (value? entries x).isSome

end NameMap

end Supercompilation
