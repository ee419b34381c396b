import FiberStacks.Size

/-!
# Local arenas

An arena is a stretch of memory that fills from its upper end downwards. Positions in it are offsets
from that end, zero or negative. A list of arenas, oldest first, together with the offset of the
last allocation is what a scan needs to know of a region.
-/

namespace FiberStacks

structure Arena where
  base : Nat
  length : Nat
  deriving DecidableEq

namespace Arena

def top (a : Arena) : Except Abort Nat := Size.add a.base a.length

def contains (a : Arena) (address : Nat) : Except Abort Bool := do
  if a.base ≤ address then
    return address < (← a.top)
  else
    return false

/-- The address at an offset from the upper end, reduced to 64 bits. -/
def addressAt (a : Arena) (offset : Int) : Except Abort Nat := do
  return ((← a.top) + offset) % Size.limit |>.toNat

end Arena

structure Arenas where
  /-- The arenas, oldest first. -/
  arenas : List Arena
  /-- The offset of the last allocation. -/
  savedSp : Int
  deriving DecidableEq

namespace Arenas

def isEmpty (v : Arenas) : Bool := v.arenas.isEmpty

/-- The index of the newest of the first `n` arenas that contains an address. -/
def newestContaining (arenas : List Arena) (address : Nat) : Nat → Except Abort (Option Nat)
  | 0 => return none
  | n + 1 => do
    match arenas[n]? with
    | none => newestContaining arenas address n
    | some a => if ← a.contains address then return some n else newestContaining arenas address n

/-- The index of the newest arena that contains an address. -/
def indexOf? (v : Arenas) (address : Nat) : Except Abort (Option Nat) :=
  newestContaining v.arenas address v.arenas.length

end Arenas

end FiberStacks
