import FiberStacks.Size

/-!
# Numbers in settings

A size is written in decimal, with an optional plus sign, and may stand between blanks.
-/

namespace FiberStacks.Text

/-- Whether a character is blank: the 25 characters with the Unicode property White_Space. -/
def isBlank (c : Char) : Bool :=
  let n := c.toNat
  (0x9 ≤ n && n ≤ 0xd) || n == 0x20 || n == 0x85 || n == 0xa0 || n == 0x1680 ||
    (0x2000 ≤ n && n ≤ 0x200a) || n == 0x2028 || n == 0x2029 || n == 0x202f || n == 0x205f ||
    n == 0x3000

/-- A text without the blanks at its ends. -/
def trimBlanks (cs : List Char) : List Char :=
  ((cs.dropWhile isBlank).reverse.dropWhile isBlank).reverse

def digitValue? (c : Char) : Option Nat :=
  if '0' ≤ c ∧ c ≤ '9' then some (c.toNat - '0'.toNat) else none

/-- The number that digits denote after a number that was read before them. -/
def digitsValue? (before : Nat) : List Char → Option Nat
  | [] => some before
  | c :: rest => do digitsValue? (before * 10 + (← digitValue? c)) rest

/-- A decimal number of at least one digit, behind an optional plus sign. -/
def unsignedValue? : List Char → Option Nat
  | [] => none
  | '+' :: c :: rest => digitsValue? 0 (c :: rest)
  | c :: rest => digitsValue? 0 (c :: rest)

def parseSize? (text : String) : Option Nat := do
  let n ← unsignedValue? (trimBlanks text.toList)
  if n < Size.limit then some n else none

end FiberStacks.Text
