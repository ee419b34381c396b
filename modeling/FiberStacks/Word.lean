import FiberStacks.Size

/-!
# Words

A word of stack or heap memory is 64 bits. An odd word is an immediate integer, an even one other
than zero is the address of the first field of a block, and zero is the null word, which is never a
live reference.
-/

namespace FiberStacks

open Text

abbrev Word := UInt64

namespace Word

/-- The word that holds a number, reduced to 64 bits. -/
def ofNat (n : Nat) : Word :=
  UInt64.ofNat n

/-- The immediate for an integer; bits that do not fit are dropped. -/
def ofInt (n : Int) : Word :=
  ofNat ((2 * n + 1) % Size.limit).toNat

def null : Word := 0

/-- The immediate zero, which stands for "no value". -/
def unit : Word := 1

def isImmediate (w : Word) : Bool :=
  w.toNat % 2 == 1

def isBlock (w : Word) : Bool :=
  w.toNat % 2 == 0 && w.toNat != 0

/-- The integer of an immediate: the signed word halved, rounding down. -/
def toInt (w : Word) : Int :=
  Int.fdiv (Offset.ofSize w.toNat) 2

/-- The address of the header of a block, one word below its first field. -/
def headerAddress (w : Word) : Except Abort Nat :=
  Size.sub w.toNat wordBytes

def describe (w : Word) : String :=
  if w.isImmediate then s!"Int({w.toInt})" else s!"Block({hex w.toNat})"

end Word

end FiberStacks
