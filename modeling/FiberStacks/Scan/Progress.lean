import FiberStacks.Arena
import FiberStacks.Block
import FiberStacks.Scan.Context

/-!
# Progress of a scan

A scan reports locations to the collector one after the other, and the collector may overwrite a
location when it is told of it. The scan reads and writes memory only through the operations of this
module, each of which notes what it does. So the notes are all that a scan did to memory.
-/

namespace FiberStacks

/-- A location reported to the collector, with the word it held. -/
structure Visit where
  value : Word
  slot : Nat
  deriving DecidableEq

/-- What the collector leaves in a location, given the visits before this one, newest first, and the
visit. Without an answer the location keeps its word. -/
abbrev Visitor := List Visit → Visit → Option Word

namespace Visitor

/-- A collector that only looks. -/
def observe : Visitor := fun _ _ => none

end Visitor

inductive Access where
  /-- A word read to decide where to go on. -/
  | steer (address : Nat)
  /-- The search for the frame that returns to an address, with the base of its stack offsets. -/
  | lookup (returnAddress base : Nat)
  | classify (slot : Nat)
  /-- The header of a block that a classified word refers to. -/
  | inspect (address : Nat)
  /-- A header that is overwritten. -/
  | mark (address : Nat)
  /-- Words that are overwritten because nothing reaches them. -/
  | poison (address words : Nat)
  deriving DecidableEq

structure Progress where
  memory : Memory
  /-- The visits so far, newest first. -/
  visits : List Visit
  /-- The accesses so far, newest first. -/
  accesses : List Access
  segments : Nat

abbrev ScanM := EStateM Abort Progress

/-- A check that fails ends the scan. -/
instance : MonadLift (Except Abort) ScanM where
  monadLift
    | .ok a => pure a
    | .error e => throw e

namespace Progress

def start (m : Memory) : Progress := ⟨m, [], [], 0⟩

end Progress

/-- A scan: context, collector, options, and the local arenas if there are any. -/
structure Scanner where
  ctx : ScanContext
  visitor : Visitor
  flags : ScanOptions
  locals : Option Arenas

namespace Scan

def note (a : Access) : ScanM Unit :=
  modify fun p => { p with accesses := a :: p.accesses }

/-- Read a word to decide where to go on. -/
def steer (address : Nat) : ScanM Word := do
  note (.steer address)
  return (← get).memory.read address

def slotWord (slot : Nat) : ScanM Word := do
  note (.classify slot)
  return (← get).memory.read slot

/-- The header of a block that a classified word refers to. -/
def inspect (block : Word) : ScanM Header := do
  note (.inspect (← block.headerAddress))
  Block.header (← get).memory block

def mark (address : Nat) (h : Header) : ScanM Unit := do
  note (.mark address)
  modify fun p => { p with memory := p.memory.write address h.toWord }

/-- Overwrite words that nothing reaches. -/
def poison (address words : Nat) : ScanM Unit := do
  note (.poison address words)
  modify fun p => { p with memory := p.memory.fill address words Word.deadLocal }

def segmentDone : ScanM Unit :=
  modify fun p => { p with segments := p.segments + 1 }

end Scan

namespace Scanner

def visit (sc : Scanner) (value : Word) (slot : Nat) : ScanM Unit :=
  modify fun p =>
    let v := ⟨value, slot⟩
    { p with
      visits := v :: p.visits
      memory :=
        match sc.visitor p.visits v with
        | some w => p.memory.write slot w
        | none => p.memory }

def lookup (sc : Scanner) (returnAddress base : Nat) : ScanM (Option FrameDescriptor) := do
  Scan.note (.lookup returnAddress base)
  return sc.ctx.frames returnAddress

def enclosing (value : Word) : ScanM Word := do
  let h ← Scan.inspect value
  if h.tag = Tag.interior then
    return Word.ofNat (← Size.sub value.toNat (h.wosize * wordBytes))
  else
    return value

/-- Decide what to do about the word in a location. Young blocks and blocks of the major heap that
are not garbage are reported. A local block that is not marked yet is marked with the garbage color,
and the index of its arena is returned. Anything else is passed over. -/
def classify (sc : Scanner) (slot : Nat) : ScanM (Option Nat) := do
  let value ← Scan.slotWord slot
  if !value.isBlock then
    return none
  else if sc.ctx.young value then
    sc.visit value slot
    return none
  else
    let block ← enclosing value
    let h ← Scan.inspect block
    if h.color = sc.ctx.colors.garbage then
      return none
    else if h.color = Color.notMarkable then
      match sc.locals with
      | none => return none
      | some locals =>
        match ← locals.indexOf? block.toNat with
        | none => return none
        | some index =>
          Scan.mark (← block.headerAddress) (h.withColor sc.ctx.colors.garbage)
          return some index
    else
      sc.visit value slot
      return none

end Scanner

end FiberStacks
