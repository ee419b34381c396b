import FiberStacks.Arena
import FiberStacks.Block
import FiberStacks.Machine

/-!
# Local regions

A region allocates blocks by moving one offset downwards, and releases all blocks above an offset by
moving it back up. When a block does not fit into the newest arena a larger one is added. Offsets
that were in use before belong to older arenas, and the words of the new arena at those offsets are
filled with a marker: a walk upwards from the last allocation that meets the marker goes on at the
same offset of the arena before.

```text
 newest arena                      arena before
 free | new blocks | markers       free | old blocks
        ^ sp         ^ switch             ^ switch
```
-/

namespace FiberStacks

structure Region where
  /-- The arenas, oldest first. -/
  arenas : List Arena
  /-- The offset of the last allocation. -/
  sp : Int
  /-- The length of the newest arena ever asked for. -/
  nextLength : Nat
  deriving DecidableEq

namespace Region

def firstArenaBytes : Nat := 4096

/-- The most arenas in a region. -/
def maxArenas : Nat := 64

def empty : Region := ⟨[], 0, 0⟩

/-- The lowest offset of the newest arena. -/
def lowest (r : Region) : Int :=
  match r.arenas.getLast? with
  | some a => -(a.length : Int)
  | none => 0

def view (r : Region) : Arenas := ⟨r.arenas, r.sp⟩

def beginRegion (r : Region) : Int := r.sp

/-- Release every block allocated since the offset was `saved`. -/
def endRegion (r : Region) (saved : Int) : Except Abort Region :=
  if r.sp ≤ saved ∧ saved ≤ 0 then
    .ok { r with sp := saved }
  else
    .error (.fault (.regionEndAbove saved r.sp))

/-- The first length in the doubling sequence after `length` at which an arena reaches down to
`sp`. `steps` bounds the number of doublings; 64 of them leave the range of sizes. -/
def nextArenaLength (sp : Int) : Nat → Nat → Except Abort Nat
  | 0, _ => .error .endless
  | steps + 1, length => do
    let length ← if length = 0 then pure firstArenaBytes else Size.mul length 2
    let reach ← Offset.add sp (Offset.ofSize length)
    if 0 ≤ reach then return length else nextArenaLength sp steps length

/-- Add an arena that reaches down to `newSp`. Its words at offsets in use are markers. -/
def addArena (r : Region) (newSp : Int) : Machine (Except StackError Region) := do
  if r.arenas.length = maxArenas then
    return .error (.outOfMemory (newSp.natAbs / wordBytes))
  else
    let length ← (nextArenaLength newSp 65 r.nextLength : Except Abort Nat)
    match (← get).space.reserveHeap? wordBytes length with
    | none => throw .exhausted
    | some (base, space) =>
      modify fun s => { s with space := space }
      let used := r.sp.natAbs / wordBytes
      Machine.modifyMemory fun m =>
        m.fill (base + length - used * wordBytes) used Header.localSwitch.toWord
      Machine.log .debug .stack s!"Growing local stack to {length / 1024} kB"
      return .ok { r with arenas := r.arenas ++ [⟨base, length⟩], nextLength := length }

/-- The region with room for an allocation down to `newSp`. -/
def makeRoom (r : Region) (newSp : Int) : Machine (Except StackError Region) :=
  if newSp < r.lowest then r.addArena newSp else return .ok r

/-- Allocate a block whose fields are all unit. -/
def alloc (r : Region) (wosize tag : Nat) : Machine (Except StackError Word × Region) := do
  let bytes ← Size.mul (← Size.add wosize 1) wordBytes
  let newSp ← Offset.sub r.sp (Offset.ofSize bytes)
  match ← r.makeRoom newSp with
  | .error error => return (.error error, r)
  | .ok r =>
    let r := { r with sp := newSp }
    match r.arenas.getLast? with
    | none => throw (.fault (.overflow .subtract))
    | some arena =>
      if Offset.limit ≤ bytes then
        -- The offset went up. No memory holds that many fields, so writing them does not end well.
        throw .exhausted
      else
        let headerAddress ← arena.addressAt newSp
        let block := headerAddress + wordBytes
        Machine.modifyMemory fun m =>
          (m.write headerAddress (Header.make wosize Color.notMarkable tag).toWord).fill block
            wosize Word.unit
        return (.ok (Word.ofNat block), r)

end Region

end FiberStacks
