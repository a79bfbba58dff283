import Supercompilation.Text.Blank

/-!
# Decimal integers

A typed integer may be surrounded by blanks, may have a sign, is written with the decimal digits of
any script, and may have single low lines between its digits. The information separators U+001C to
U+001F, which are blanks elsewhere, do not count as blanks around an integer.
-/

namespace Supercompilation.Text

/-- The decimal digits of every script, as ranges of code points. A range is made of whole runs of
the ten digits from zero to nine. -/
def digitRanges : List (Nat × Nat) :=
  [(0x30, 0x39), (0x660, 0x669), (0x6f0, 0x6f9), (0x7c0, 0x7c9), (0x966, 0x96f), (0x9e6, 0x9ef),
   (0xa66, 0xa6f), (0xae6, 0xaef), (0xb66, 0xb6f), (0xbe6, 0xbef), (0xc66, 0xc6f), (0xce6, 0xcef),
   (0xd66, 0xd6f), (0xde6, 0xdef), (0xe50, 0xe59), (0xed0, 0xed9), (0xf20, 0xf29),
   (0x1040, 0x1049), (0x1090, 0x1099), (0x17e0, 0x17e9), (0x1810, 0x1819), (0x1946, 0x194f),
   (0x19d0, 0x19d9), (0x1a80, 0x1a89), (0x1a90, 0x1a99), (0x1b50, 0x1b59), (0x1bb0, 0x1bb9),
   (0x1c40, 0x1c49), (0x1c50, 0x1c59), (0xa620, 0xa629), (0xa8d0, 0xa8d9), (0xa900, 0xa909),
   (0xa9d0, 0xa9d9), (0xa9f0, 0xa9f9), (0xaa50, 0xaa59), (0xabf0, 0xabf9), (0xff10, 0xff19),
   (0x104a0, 0x104a9), (0x10d30, 0x10d39), (0x11066, 0x1106f), (0x110f0, 0x110f9),
   (0x11136, 0x1113f), (0x111d0, 0x111d9), (0x112f0, 0x112f9), (0x11450, 0x11459),
   (0x114d0, 0x114d9), (0x11650, 0x11659), (0x116c0, 0x116c9), (0x11730, 0x11739),
   (0x118e0, 0x118e9), (0x11950, 0x11959), (0x11c50, 0x11c59), (0x11d50, 0x11d59),
   (0x11da0, 0x11da9), (0x16a60, 0x16a69), (0x16ac0, 0x16ac9), (0x16b50, 0x16b59),
   (0x1d7ce, 0x1d7ff), (0x1e140, 0x1e149), (0x1e2f0, 0x1e2f9), (0x1e950, 0x1e959),
   (0x1fbf0, 0x1fbf9)]

/-- The value of a decimal digit by the ranges, which are in ascending order. -/
def digitIn (code : Nat) : List (Nat × Nat) → Option Nat
  | [] => none
  | (first, last) :: rest =>
    if code < first then none
    else if code ≤ last then some ((code - first) % 10) else digitIn code rest

/-- The value of a decimal digit. -/
def digitValue (c : Char) : Option Nat := digitIn c.toNat digitRanges

/-- A blank that may stand around an integer. -/
def isIntegerBlank (c : Char) : Bool :=
  isBlank c && !(0x1c ≤ c.toNat && c.toNat ≤ 0x1f)

/-- The digits of a numeral: at least one, with at most one low line between neighbours. -/
def digits : List Char → Option (List Nat)
  | [] => none
  | [c] => (digitValue c).map fun d => [d]
  | c :: c' :: rest => do
    let d ← digitValue c
    let ds ← if c' = '_' then digits rest else digits (c' :: rest)
    some (d :: ds)

/-- The longest numeral that is read, in digits. -/
def maxDigits : Nat := 4300

/-- The number that a numeral stands for. -/
def natural? (cs : List Char) : Option Nat := do
  let ds ← digits cs
  if ds.length ≤ maxDigits then some (ds.foldl (fun n d => 10 * n + d) 0) else none

/-- The integer that a text stands for. -/
def integer? (text : String) : Option Int :=
  match trimmed isIntegerBlank text.toList with
  | '-' :: rest => (natural? rest).map fun n => -(n : Int)
  | '+' :: rest => (natural? rest).map Int.ofNat
  | rest => (natural? rest).map Int.ofNat

end Supercompilation.Text
