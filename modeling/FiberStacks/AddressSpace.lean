import FiberStacks.AddressSource
import FiberStacks.Memory

/-!
# Address space

Memory blocks come from a source of addresses, as whole pages or by way of the general allocator. No
address is handed out twice.
-/

namespace FiberStacks

inductive Policy where
  /-- From the general allocator, with no rounding. -/
  | heap
  | mapped
  | guarded
  deriving DecidableEq

namespace Policy

def all : List Policy := [heap, mapped, guarded]

def standard : Policy := guarded

def name : Policy → String
  | heap => "heap"
  | mapped => "mapped"
  | guarded => "guarded"

end Policy

inductive AllocationError where
  | emptyBlock
  | invalidLayout
  /-- The general allocator is exhausted, or the size in bytes is no machine size. -/
  | outOfMemory
  | noPages
  deriving DecidableEq

def AllocationError.message : AllocationError → String
  | emptyBlock => "empty segment block"
  | invalidLayout => "invalid parameters to Layout::from_size_align"
  | outOfMemory => "out of memory"
  | noPages => "Cannot allocate memory (os error 12)"

structure MemoryBlock where
  start : Nat
  /-- Bytes reserved, guard page included. -/
  length : Nat
  /-- Bytes of the guard page at the low end, or 0. -/
  guardLength : Nat
  policy : Policy
  deriving DecidableEq

namespace MemoryBlock

def usableStart (b : MemoryBlock) : Nat := b.start + b.guardLength

def usableLength (b : MemoryBlock) : Nat := b.length - b.guardLength

/-- The bounds of the guard page, if there is one. -/
def guardRange? (b : MemoryBlock) : Option (Nat × Nat) :=
  if b.guardLength = 0 then none else some (b.start, b.start + b.guardLength)

end MemoryBlock

structure Footprint where
  /-- The lowest address, guard page included. -/
  low : Nat
  base : Nat
  high : Nat
  deriving DecidableEq

/-- What has been handed out so far, and where more comes from. -/
structure AddressSpace where
  source : AddressSource
  taken : List MemoryRange
  /-- Every segment memory ever obtained, newest first. -/
  segments : List Footprint

namespace AddressSpace

/-- Nothing has been handed out yet. -/
def unused (source : AddressSource) : AddressSpace := ⟨source, [], []⟩

/-- The address has been handed out. -/
def Taken (s : AddressSpace) (a : Nat) : Prop := ∃ r ∈ s.taken, r.Holds a

/-- Hand out `bytes` bytes at a multiple of `align`. -/
def reserve? (s : AddressSpace) (align bytes : Nat) : Option (Nat × AddressSpace) :=
  match s.source.pick? s.taken align bytes with
  | some start => some (start, { s with taken := ⟨start, bytes⟩ :: s.taken })
  | none => none

/-- Memory of the general allocator. It keeps a word of its own behind each block, so two blocks do
not touch. -/
def reserveHeap? (s : AddressSpace) (align bytes : Nat) : Option (Nat × AddressSpace) :=
  s.reserve? align (bytes + wordBytes)

/-- A block of the general allocator. Its size must be describable with 16-byte alignment. -/
def allocateHeap (s : AddressSpace) (bytes : Nat) :
    Except AllocationError (MemoryBlock × AddressSpace) :=
  if 0x7ffffffffffffff0 < bytes then
    .error .invalidLayout
  else
    match s.reserveHeap? 16 bytes with
    | some (start, s) => .ok (⟨start, bytes, 0, .heap⟩, s)
    | none => .error .outOfMemory

/-- A block of whole pages, with a guard page below them if `policy` asks for it. -/
def allocatePages (s : AddressSpace) (policy : Policy) (bytes : Nat) :
    Except Abort (Except AllocationError (MemoryBlock × AddressSpace)) := do
  let guardLength := if policy = .guarded then pageBytes else 0
  let body ← Size.mul (Size.ceilDiv bytes pageBytes) pageBytes
  let length ← Size.add guardLength body
  match s.reserve? pageBytes length with
  | some (start, s) => return .ok (⟨start, length, guardLength, policy⟩, s)
  | none => return .error .noPages

def allocate (s : AddressSpace) (policy : Policy) (bytes : Nat) :
    Except Abort (Except AllocationError (MemoryBlock × AddressSpace)) :=
  if bytes = 0 then
    .ok (.error .emptyBlock)
  else
    match policy with
    | .heap => .ok (s.allocateHeap bytes)
    | .mapped | .guarded => s.allocatePages policy bytes

def recordSegment (s : AddressSpace) (footprint : Footprint) : AddressSpace :=
  { s with segments := footprint :: s.segments }

end AddressSpace

end FiberStacks
