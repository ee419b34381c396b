import FiberStacks.Size
import Std.Data.TreeMap

/-!
# Frame descriptors

For every call site the compiler publishes the size of the frame and where its live values are: at
byte offsets from the stack pointer, or in numbered registers. Locations are packed into 32 bits. An
odd number is a register, an even one a stack offset.
-/

namespace FiberStacks

inductive LiveLocation where
  /-- Byte offset from the stack pointer of the frame. -/
  | stack (offset : Nat)
  | register (index : Nat)
  deriving DecidableEq

namespace LiveLocation

def decode (packed : UInt32) : LiveLocation :=
  if packed.toNat % 2 = 1 then .register (packed.toNat / 2) else .stack packed.toNat

/-- The packed number of a location; bits that do not fit are dropped. -/
def encode : LiveLocation → UInt32
  | stack offset => UInt32.ofNat offset
  | register index => UInt32.ofNat (2 * index + 1)

end LiveLocation

structure FrameDescriptor where
  /-- Bytes of the frame, the return address included. -/
  frameSize : Nat
  liveOffsets : List UInt32
  returnsToNative : Bool
  deriving DecidableEq

namespace FrameDescriptor

def compiled (frameSize : Nat) (live : List LiveLocation) : FrameDescriptor :=
  ⟨frameSize, live.map LiveLocation.encode, false⟩

/-- The descriptor of a call from native code into compiled code. -/
def nativeBoundary : FrameDescriptor := ⟨0, [], true⟩

def frameWords (d : FrameDescriptor) : Nat := d.frameSize / wordBytes

def liveSlots (d : FrameDescriptor) : List LiveLocation := d.liveOffsets.map LiveLocation.decode

end FrameDescriptor

structure FrameTable where
  descriptors : Std.TreeMap Nat FrameDescriptor

namespace FrameTable

def empty : FrameTable := ⟨∅⟩

def find? (t : FrameTable) (returnAddress : Nat) : Option FrameDescriptor :=
  t.descriptors[returnAddress]?

/-- Set the descriptor of a call site, and return the one it replaces. -/
def insert (t : FrameTable) (returnAddress : Nat) (d : FrameDescriptor) :
    Option FrameDescriptor × FrameTable :=
  (t.find? returnAddress, ⟨t.descriptors.insert returnAddress d⟩)

/-- Remove the descriptor of a call site, and return it. -/
def remove (t : FrameTable) (returnAddress : Nat) : Option FrameDescriptor × FrameTable :=
  (t.find? returnAddress, ⟨t.descriptors.erase returnAddress⟩)

def size (t : FrameTable) : Nat := t.descriptors.size

def isEmpty (t : FrameTable) : Bool := t.descriptors.isEmpty

end FrameTable

end FiberStacks
