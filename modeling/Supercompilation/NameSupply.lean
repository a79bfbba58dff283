import Supercompilation.NameSet
import Supercompilation.Text.Quoted

/-!
# Fresh names

A supply issues names made of a stem and a number that only grows. Reserved names are skipped. Among
the numbers after the last one, at most as many are taken as there are reserved names, so the
search for a free number is short.
-/

namespace Supercompilation

/-- A supply of names. -/
structure NameSupply where
  /-- What every issued name starts with. -/
  stem : String := "v_"
  /-- The number of the name issued last. -/
  last : Int := 0
  /-- Names that are never issued. -/
  reserved : NameSet := .empty

namespace NameSupply

/-- The name with a number. -/
def nameAt (supply : NameSupply) (k : Int) : String := supply.stem ++ toString k

/-- Never issue any of the names. -/
def reserve (supply : NameSupply) (names : List String) : NameSupply :=
  { supply with reserved := supply.reserved.insertAll names }

/-- The first number from `k` on whose name is not reserved, looked for in `tries` places. -/
def firstFree (supply : NameSupply) : Nat → Int → Int
  | 0, k => k
  | tries + 1, k =>
    if supply.reserved.contains (supply.nameAt k) then firstFree supply tries (k + 1) else k

/-- Issue the next name. -/
def fresh (supply : NameSupply) : String × NameSupply :=
  let k := supply.firstFree supply.reserved.size (supply.last + 1)
  (supply.nameAt k, { supply with last := k })

/-- Issue some names one after another. -/
def freshMany : Nat → NameSupply → List String × NameSupply
  | 0, supply => ([], supply)
  | count + 1, supply =>
    let (name, supply) := supply.fresh
    let (names, supply) := freshMany count supply
    (name :: names, supply)

/-- The stem and the last number. -/
def inspect (supply : NameSupply) : String :=
  "FreshNames(prefix=" ++ Text.quoted supply.stem ++ ", issued=" ++ toString supply.last ++ ")"

end NameSupply

end Supercompilation
