import FiberStacks.Text.Hex

/-!
# Faults

A fault is a failed check that stops the process with a message: an arithmetic result that does not
fit a machine word, or an assertion on an address or an offset.
-/

namespace FiberStacks

open Text

inductive Arithmetic where
  | add
  | subtract
  | multiply
  deriving DecidableEq

inductive Fault where
  /-- The result of the operation does not fit a machine word. -/
  | overflow (operation : Arithmetic)
  /-- A stack pointer that is not a word of the body or its upper end. -/
  | stackPointerOutside (sp base high : Nat)
  /-- A word access outside a segment body, or off the word grid. -/
  | wordOutside (address base high : Nat)
  /-- More live words than the body of a segment holds. -/
  | liveWordsExceedBody
  | pooledWithParent
  | regionEndAbove (saved sp : Int)
  deriving DecidableEq

def Arithmetic.verb : Arithmetic → String
  | .add => "add"
  | .subtract => "subtract"
  | .multiply => "multiply"

def Fault.message : Fault → String
  | .overflow operation => s!"attempt to {operation.verb} with overflow"
  | .stackPointerOutside sp base high =>
    s!"stack pointer {hex sp} outside segment {hex base}..={hex high}"
  | .wordOutside address base high =>
    s!"word address {hex address} outside segment {hex base}..{hex high}"
  | .liveWordsExceedBody => "live words exceed segment body"
  | .pooledWithParent => "cached segment still owns a parent"
  | .regionEndAbove saved sp => s!"region end {saved} above allocation offset {sp}"

end FiberStacks
