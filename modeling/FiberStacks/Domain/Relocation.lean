import FiberStacks.Domain

/-!
# Relocation

When a segment is replaced by a larger one its live words keep their distance from the upper end, so
a body address `p` moves to `newHigh - (oldHigh - p)`. Three kinds of address have to follow: the
chain of exception handlers, where each trap frame holds the address of the next in its first word;
the chain of saved base pointers, which may leave the segment and come back; and the native links.
-/

namespace FiberStacks

structure Relocation where
  oldBase : Nat
  oldHigh : Nat
  newHigh : Nat
  deriving DecidableEq

namespace Relocation

def between (old new : Segment) : Relocation :=
  ⟨old.base, old.high, new.high⟩

def inOld (r : Relocation) (address : Nat) : Bool :=
  r.oldBase ≤ address && address < r.oldHigh

def newAddress (r : Relocation) (address : Nat) : Except Abort Nat := do
  Size.sub r.newHigh (← Size.sub r.oldHigh address)

end Relocation

/-! ### Exception handlers -/

structure TrapWalk where
  memory : Memory
  exnHandler : Nat
  asyncExnHandler : Nat
  link : Nat
  /-- The new address of the trap frame that holds the link, or nothing at the head. -/
  cell : Option Nat

namespace TrapWalk

def start (m : Memory) (exnHandler asyncExnHandler : Nat) : TrapWalk :=
  ⟨m, exnHandler, asyncExnHandler, exnHandler, none⟩

/-- Move the trap frame that the link names: whoever holds the link, and the asynchronous handler if
it names the same frame, get the new address, and the next link is read from the copied frame. -/
def step (r : Relocation) (new : Segment) (w : TrapWalk) : Except Abort TrapWalk := do
  let moved ← r.newAddress w.link
  let asyncExn := if w.link = w.asyncExnHandler then moved else w.asyncExnHandler
  let (exn, m) ← match w.cell with
    | none => pure (moved, w.memory)
    | some address => do
      let m ← new.write w.memory address (Word.ofNat moved)
      pure (w.exnHandler, m)
  let next ← new.read m moved
  return ⟨m, exn, asyncExn, next.toNat, some moved⟩

/-- Follow the links until one leaves the old segment. -/
def run (r : Relocation) (new : Segment) : Nat → TrapWalk → Except Abort TrapWalk
  | 0, w => if r.inOld w.link then .error .endless else .ok w
  | steps + 1, w => do if r.inOld w.link then run r new steps (← w.step r new) else .ok w

/-- Relocate the chain of exception handlers. Every step but the first overwrites one link into the
old segment, so there are no more steps than words in the new body and one. -/
def relocate (r : Relocation) (new : Segment) (w : TrapWalk) : Except Abort TrapWalk :=
  run r new (new.bodyWords + 1) w

end TrapWalk

/-! ### Saved base pointers -/

namespace BasePointers

/-- Words between the outermost frame record of a fiber and the upper end of its segment. -/
def topRecordWords : Nat := 6

/-- Relocate the links of the frame records from `record` on. Links of records in the old segment
are read there and written in the new one, all others are changed in place. The walk ends at 0 or at
the outermost record of the old segment. -/
def run (r : Relocation) (old new : Segment) : Nat → Nat → Memory → Except Abort Memory
  | 0, _, _ => .error .endless
  | steps + 1, record, m => do
    if record = 0 then
      return m
    let inside := r.inOld record
    if inside ∧ record + topRecordWords * wordBytes = r.oldHigh then
      return m
    let saved ← if inside then old.read m record else pure (m.read record)
    let saved := saved.toNat
    let m ← if r.inOld saved then do
        let moved ← r.newAddress saved
        if inside then
          new.write m (← r.newAddress record) (Word.ofNat moved)
        else
          pure (m.write record (Word.ofNat moved))
      else
        pure m
    run r old new steps saved m

/-- More steps than there are addresses, so a chain of distinct records comes to its end. -/
def maxSteps : Nat := Size.limit + 1

def relocate (r : Relocation) (old new : Segment) (framePointer : Nat) (m : Memory) :
    Except Abort (Nat × Memory) := do
  let head ← if r.inOld framePointer then r.newAddress framePointer else pure framePointer
  return (head, ← run r old new maxSteps framePointer m)

end BasePointers

/-! ### Native links -/

/-- Retarget a link that names the old segment, and its asynchronous handler if it lies there. -/
def NativeLink.relocate (r : Relocation) (link : NativeLink) : Except Abort NativeLink := do
  let link ← if link.stackHigh = r.oldHigh then do
      let sp ← r.newAddress link.sp
      pure { link with stackHigh := r.newHigh, sp := sp }
    else
      pure link
  if r.inOld link.asyncExn then
    return { link with asyncExn := ← r.newAddress link.asyncExn }
  else
    return link

end FiberStacks
