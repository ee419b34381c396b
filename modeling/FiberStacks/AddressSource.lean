import FiberStacks.Size

/-!
# Where addresses come from

The operating system and the general allocator pick the addresses of what they hand out, and how
they pick is their own affair. What is relied on is that a range lies where no other does, on the
boundary that was asked for, and neither at address 0 nor past the end of the address space.
-/

namespace FiberStacks

def pageBytes : Nat := 4096

/-- One more than the largest address that may be handed out. -/
def AddressSpace.limit : Nat := 0x800000000000

/-- Addresses that were handed out together. -/
structure MemoryRange where
  start : Nat
  bytes : Nat

namespace MemoryRange

def Holds (r : MemoryRange) (a : Nat) : Prop := r.start ≤ a ∧ a < r.start + r.bytes

/-- The range may be handed out where others are taken. No boundary lies further apart than pages
do. -/
structure Admissible (r : MemoryRange) (taken : List MemoryRange) (align : Nat) : Prop where
  pos : 0 < r.start
  aligned : align ∣ pageBytes → align ∣ r.start
  within : r.start + r.bytes ≤ AddressSpace.limit
  apart : ∀ t ∈ taken, ∀ a, t.Holds a → ¬ r.Holds a

end MemoryRange

/-- A source picks the start of a range of `bytes` bytes at a multiple of `align`, where some ranges
are taken. -/
structure AddressSource where
  pick? : List MemoryRange → (align bytes : Nat) → Option Nat
  admissible {taken : List MemoryRange} {align bytes start : Nat} :
    pick? taken align bytes = some start → MemoryRange.Admissible ⟨start, bytes⟩ taken align

end FiberStacks
