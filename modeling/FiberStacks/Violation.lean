import FiberStacks.Text.Hex
import FiberStacks.Text.Record

/-!
# Invariant violations

A violation is corrupted state found while freeing a segment, storing a continuation or scanning for
roots. It is never handed back to the program that runs on the stacks: it is logged and the process
stops.
-/

namespace FiberStacks

open Text

inductive Violation where
  /-- A local block points at a block allocated after it. -/
  | backwardsLocalPointer (field : Nat) (sp target : Int)
  | continuationNotEmpty
  | badSegmentMagic (found : Nat)
  /-- A return address on the stack has no frame descriptor. -/
  | missingFrameDescriptor (returnAddress : Nat)
  | frameOutOfBounds (sp : Nat)
  /-- A live register where no register save area is known. -/
  | missingRegisterArea
  /-- A local arena holds an impossible header, or the walk an impossible offset. -/
  | corruptLocalArena (sp : Int)
  | localsInFlatMode
  deriving DecidableEq

namespace Violation

def kind : Violation → String
  | backwardsLocalPointer .. => "BackwardsLocalPointer"
  | continuationNotEmpty => "ContinuationNotEmpty"
  | badSegmentMagic .. => "BadSegmentMagic"
  | missingFrameDescriptor .. => "MissingFrameDescriptor"
  | frameOutOfBounds .. => "FrameOutOfBounds"
  | missingRegisterArea => "MissingRegisterArea"
  | corruptLocalArena .. => "CorruptLocalArena"
  | localsInFlatMode => "LocalsInFlatMode"

def message : Violation → String
  | backwardsLocalPointer field sp target =>
    s!"backwards local pointer at {hex field} (scan offset {sp}, target offset {target})"
  | continuationNotEmpty => "replacing a continuation that is not empty"
  | badSegmentMagic found => s!"freeing a segment with bad magic {found}"
  | missingFrameDescriptor returnAddress =>
    s!"no frame descriptor for return address {hex returnAddress}"
  | frameOutOfBounds sp => s!"frame walk left its segment at {hex sp}"
  | missingRegisterArea => "live register slot without a register save area"
  | corruptLocalArena sp => s!"corrupt local arena at offset {sp}"
  | localsInFlatMode => "local arenas outside native code"

def report (violation : Violation) : String := "Fatal error: " ++ violation.message

/-- The diagnostic text: kind and fields, all numbers in decimal. -/
def describe (violation : Violation) : String :=
  record violation.kind <| match violation with
    | backwardsLocalPointer field sp target =>
      [("field", toString field), ("sp", toString sp), ("target", toString target)]
    | badSegmentMagic found => [("found", toString found)]
    | missingFrameDescriptor returnAddress => [("return_address", toString returnAddress)]
    | frameOutOfBounds sp => [("sp", toString sp)]
    | corruptLocalArena sp => [("sp", toString sp)]
    | continuationNotEmpty | missingRegisterArea | localsInFlatMode => []

end Violation

end FiberStacks
