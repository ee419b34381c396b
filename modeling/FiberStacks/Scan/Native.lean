import FiberStacks.Scan.Progress

/-!
# Walk over compiled frames

The live words of a segment under compiled code are chunks, one on top of the other. A chunk begins
with a saved frame pointer, if the code keeps them, and a return address. Frames follow, each ending
in the return address of its caller, until a return address belongs to native code. Three words
after it comes the address of the register save area for the next chunk.

Every step moves the position towards the upper end of the segment, so the walk ends, whatever the
words on the stack are.
-/

namespace FiberStacks

/-- Bytes between the return address into native code and the register save area address: a trap
frame of two words and the unwind pointer. -/
def chunkHeaderBytes : Nat := 3 * wordBytes

/-- Where a walk stands. The register save area is unknown if its address is zero. -/
inductive WalkPosition where
  /-- At the first word of a chunk. -/
  | chunk (sp : Nat) (registers : Option Nat)
  /-- In a frame, above the return address that identifies it. -/
  | frame (sp : Nat) (registers : Option Nat) (returnAddress : Nat)
  deriving DecidableEq

namespace WalkPosition

def sp : WalkPosition → Nat
  | chunk sp _ => sp
  | frame sp _ _ => sp

end WalkPosition

/-- The register save area at an address, if it is not zero. -/
def registerArea (address : Word) : Option Nat :=
  if address = 0 then none else some address.toNat

namespace Scanner

/-- The return address word of the chunk at `sp`: the word above the saved frame pointer, if the
context has them and the chunk is not empty. -/
def chunkTop (sc : Scanner) (high sp : Nat) : Nat :=
  if sc.ctx.framePointers ∧ sp < high then sp + wordBytes else sp

theorem le_chunkTop (sc : Scanner) (high sp : Nat) : sp ≤ sc.chunkTop high sp := by
  unfold chunkTop
  split <;> omega

def visitLive (sc : Scanner) (high sp : Nat) (registers : Option Nat) : LiveLocation → ScanM Unit
  | .register index =>
    match registers with
    | none => throw (.violation .missingRegisterArea)
    | some area => discard (sc.classify (area + index * wordBytes))
  | .stack offset => do
    let address ← Size.add sp offset
    if high ≤ address then
      throw (.violation (.frameOutOfBounds address))
    else
      discard (sc.classify address)

def walk (sc : Scanner) (high : Nat) : WalkPosition → ScanM Unit
  | .chunk sp registers =>
    if sc.chunkTop high sp = high then
      pure ()
    else if high < sc.chunkTop high sp then
      throw (.violation (.frameOutOfBounds (sc.chunkTop high sp)))
    else do
      let returnAddress ← Scan.steer (sc.chunkTop high sp)
      sc.walk high (.frame (sc.chunkTop high sp + wordBytes) registers returnAddress.toNat)
  | .frame sp registers returnAddress => do
    match ← sc.lookup returnAddress sp with
    | none => throw (.violation (.missingFrameDescriptor returnAddress))
    | some d =>
      if d.returnsToNative then
        if high ≤ sp + chunkHeaderBytes then
          throw (.violation (.frameOutOfBounds (sp + chunkHeaderBytes)))
        else
          let area ← Scan.steer (sp + chunkHeaderBytes)
          sc.walk high (.chunk (sp + chunkHeaderBytes + wordBytes) (registerArea area))
      else
        d.liveSlots.forM (sc.visitLive high sp registers)
        if d.frameSize = 0 then
          throw (.violation (.frameOutOfBounds sp))
        else if Size.limit ≤ sp + d.frameSize then
          throw (.fault (.overflow .add))
        else if high < sp + d.frameSize then
          throw (.violation (.frameOutOfBounds (sp + d.frameSize)))
        else
          let caller ← Scan.steer (sp + d.frameSize - wordBytes)
          sc.walk high (.frame (sp + d.frameSize) registers caller.toNat)
termination_by position => high - position.sp
decreasing_by
  · have above := sc.le_chunkTop high sp
    simp only [WalkPosition.sp, wordBytes]
    omega
  · simp only [WalkPosition.sp, wordBytes]
    omega
  · simp only [WalkPosition.sp]
    omega

def scanFrames (sc : Scanner) (s : Segment) (registers : Option Nat) : ScanM Unit :=
  sc.walk s.high (.chunk s.sp registers)

/-- Report the three handlers of a segment, whatever they are. -/
def visitHandlers (sc : Scanner) (s : Segment) : ScanM Unit :=
  s.handlerSlots.forM fun slot => do
    sc.visit (← Scan.slotWord slot) slot

def scanNative (sc : Scanner) (registers : Option Nat) (s : Segment) : ScanM Unit := do
  sc.scanFrames s registers
  sc.visitHandlers s

end Scanner

end FiberStacks
