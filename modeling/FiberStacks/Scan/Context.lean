import FiberStacks.Block.Header
import FiberStacks.Domain
import FiberStacks.Frame

/-!
# Scan context

What a scan needs to know besides the stacks: how to read them, which colors are in use, where the
frames of compiled code are described, which blocks are young, and where code lies.
-/

namespace FiberStacks

open Text

structure AddressRange where
  low : Nat
  high : Nat
  deriving DecidableEq

namespace AddressRange

def contains (r : AddressRange) (address : Nat) : Bool :=
  r.low ≤ address && address < r.high

def holdsBlock (r : AddressRange) (w : Word) : Bool :=
  w.isBlock && r.contains w.toNat

end AddressRange

def codeIn (ranges : List AddressRange) (address : Nat) : Bool :=
  ranges.any fun r => r.contains address

/-- Whether an address is code where no code is known. -/
def noCode (_ : Nat) : Bool := false

/-- Whether a block is young where there is no young generation. -/
def noYoung (_ : Word) : Bool := false

def noFrames (_ : Nat) : Option FrameDescriptor := none

structure ScanOptions where
  bits : UInt32
  deriving DecidableEq

namespace ScanOptions

def empty : ScanOptions := ⟨0⟩

/-- The collector ignores whatever is not young, so nothing has to be filtered out for it. -/
def onlyYoung : ScanOptions := ⟨1⟩

def contains (flags other : ScanOptions) : Bool :=
  flags.bits &&& other.bits == other.bits

def union (flags other : ScanOptions) : ScanOptions :=
  ⟨flags.bits ||| other.bits⟩

def describe (flags : ScanOptions) : String := s!"ScanFlags({flags.bits})"

end ScanOptions

structure ScanContext where
  mode : ScanMode
  colors : HeapColors
  frames : Nat → Option FrameDescriptor
  young : Word → Bool
  code : Nat → Bool
  /-- Whether a saved frame pointer lies on top of each chunk of compiled frames. -/
  framePointers : Bool
  /-- Whether local memory that is not reached is overwritten. -/
  poison : Bool

namespace ScanContext

def native (frames : Nat → Option FrameDescriptor) : ScanContext :=
  { mode := .native, colors := HeapColors.initial, frames, young := noYoung, code := noCode,
    framePointers := false, poison := true }

/-- A context for flat stacks, on which addresses in code are no references. -/
def flat (code : Nat → Bool) : ScanContext :=
  { native noFrames with mode := .flat, code }

/-- The context in which the stacks of a domain are to be read. -/
def forDomain (d : Domain) (frames : Nat → Option FrameDescriptor) (code : Nat → Bool) :
    ScanContext :=
  { native frames with mode := d.scanMode, framePointers := d.framePointers, code }

def describe (ctx : ScanContext) : String :=
  record "ScanContext"
    [("mode", ctx.mode.name), ("colors", ctx.colors.describe),
      ("frame_pointers", toString ctx.framePointers), ("poison", toString ctx.poison)]

end ScanContext

end FiberStacks
