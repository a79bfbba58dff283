/-!
# Sets of code points as ascending ranges

Character classes that reach beyond ASCII are tables of closed ranges. Every table is in ascending
order, so a search may stop at the first range that starts behind the code point.
-/

namespace Supercompilation.Text

/-- Whether a code point lies in one of the ranges, which are listed in ascending order. -/
def inRanges (code : Nat) : List (Nat × Nat) → Bool
  | [] => false
  | (first, last) :: rest =>
    if code < first then false else if code ≤ last then true else inRanges code rest

/-- Ranges are listed in ascending order and do not touch. -/
def ascending : List (Nat × Nat) → Bool
  | [] => true
  | [(first, last)] => decide (first ≤ last)
  | (first, last) :: (next, last') :: rest =>
    decide (first ≤ last) && decide (last + 1 < next) && ascending ((next, last') :: rest)

end Supercompilation.Text
