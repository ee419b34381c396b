import FiberStacks.Scan.Progress

/-!
# Scan of flat stacks

Every live word of a segment is a candidate, and so are its handlers. A candidate is reported if it
is a block outside all code, or in any case if the collector sorts out young values by itself.
-/

namespace FiberStacks.Scanner

def isCandidate (sc : Scanner) (value : Word) : Bool :=
  sc.flags.contains ScanOptions.onlyYoung || (value.isBlock && !sc.ctx.code value.toNat)

/-- Report a location if its word is worth it. -/
def visitCandidate (sc : Scanner) (slot : Nat) : ScanM Unit := do
  let value ← Scan.slotWord slot
  if sc.isCandidate value then
    sc.visit value slot

def scanFlat (sc : Scanner) (s : Segment) : ScanM Unit :=
  (s.liveSlots ++ s.handlerSlots).forM sc.visitCandidate

end FiberStacks.Scanner
