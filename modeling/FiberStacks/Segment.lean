import FiberStacks.AddressSpace
import FiberStacks.Fiber
import FiberStacks.Pool.SizeClass
import FiberStacks.StackError
import FiberStacks.Text.Record

/-!
# Stack segments

A segment is one contiguous stack: a body of words that fills from its upper end downwards, below a
handler block.

```text
 low                                                      high
 guard page | free words            | live words          | handler block
            base                    sp                    high
```

The live words are those in `[sp, high)`. The handler block holds the three handlers of the fiber
and the address of the handler block of the parent segment, or 0. Which segment is the parent is
decided by the chain that the segment stands in; the address in the handler block repeats it for
readers of raw memory.
-/

namespace FiberStacks

open Text

/-- Free words that interpreted code may use between two stack checks. -/
def stackThresholdWords : Nat := 32

/-- The tag of a segment that is in use. -/
def segmentMagic : Nat := 42

def handlerBlockBytes : Nat := 32

/-- The byte that is written over the bodies of pooled segments. -/
def wipeByte : Nat := 0x42

/-- A word of wipe bytes. -/
def Word.wiped : Word := 0x4242424242424242

structure Handlers where
  value : Word
  exn : Word
  effect : Word
  deriving DecidableEq

namespace Handlers

/-- The handlers of main segments, which are never called. -/
def unit : Handlers := ⟨Word.unit, Word.unit, Word.unit⟩

end Handlers

structure Segment where
  memory : MemoryBlock
  base : Nat
  /-- The end of the body and address of the handler block. -/
  high : Nat
  /-- The address of the innermost live word, or `high` if there is none. -/
  sp : Nat
  poolClass : Option SizeClass
  id : FiberId
  /-- The domain that obtained the segment. -/
  owner : DomainId
  /-- The exception handler address saved when the segment stopped running. -/
  savedExn : Nat
  magic : Nat
  deriving DecidableEq

namespace Segment

/-! ### Geometry -/

def bodyWords (s : Segment) : Nat := (s.high - s.base) / wordBytes

def usedWords (s : Segment) : Nat := (s.high - s.sp) / wordBytes

def availableWords (s : Segment) : Nat := (s.sp - s.base) / wordBytes

def contains (s : Segment) (address : Nat) : Bool :=
  s.base ≤ address && address < s.high

def isGuardFault (s : Segment) (address : Nat) : Bool :=
  match s.memory.guardRange? with
  | some (low, high) => low ≤ address && address < high
  | none => false

def fromTop (s : Segment) (words : Nat) : Except Abort Nat := do
  Size.sub s.high (← Size.mul words wordBytes)

def footprint (s : Segment) : Footprint :=
  ⟨s.memory.start, s.base, s.high⟩

/-- Whether the tag is that of a segment in use. -/
def checkMagic (s : Segment) : Except Violation Unit :=
  if s.magic = segmentMagic then .ok () else .error (.badSegmentMagic s.magic)

/-- Move the stack pointer to a word of the body or to its upper end. -/
def setSp (s : Segment) (sp : Nat) : Except Abort Segment :=
  if s.base ≤ sp ∧ sp ≤ s.high ∧ sp % wordBytes = 0 then
    .ok { s with sp := sp }
  else
    .error (.fault (.stackPointerOutside sp s.base s.high))

/-! ### Handler block -/

def handlerSlots (s : Segment) : List Nat := Memory.span s.high 3

def parentSlot (s : Segment) : Nat := s.high + 3 * wordBytes

def handlers (s : Segment) (m : Memory) : Handlers :=
  ⟨m.read s.high, m.read (s.high + wordBytes), m.read (s.high + 2 * wordBytes)⟩

def setHandlers (s : Segment) (m : Memory) (h : Handlers) : Memory :=
  m.store s.high [h.value, h.exn, h.effect]

/-- The recorded address of the handler block of the parent, or 0. -/
def recordedParent (s : Segment) (m : Memory) : Nat := (m.read s.parentSlot).toNat

/-- Memory in which the recorded parent is at `address`. -/
def recordParent (s : Segment) (m : Memory) (address : Nat) : Memory :=
  m.write s.parentSlot (Word.ofNat address)

/-- Ready for a fiber: no live words, given handlers, no parent, no saved exception handler. -/
def reinit (s : Segment) (m : Memory) (h : Handlers) (id : FiberId) : Segment × Memory :=
  let s := { s with sp := s.high, savedExn := 0, id := id, magic := segmentMagic }
  (s, s.recordParent (s.setHandlers m h) 0)

/-! ### Allocation -/

/-- The segment with `words` body words in a block, with the handler block on a 16-byte boundary. -/
def place (memory : MemoryBlock) (words : Nat) (poolClass : Option SizeClass) (owner : DomainId)
    (id : FiberId) : Segment :=
  let base := memory.usableStart
  let high := (base + words * wordBytes + wordBytes) / 16 * 16
  { memory, base, high, sp := high, poolClass, id, owner, savedExn := 0, magic := segmentMagic }

/-- Obtain memory for a segment with `words` body words and install `h`. The request covers the
body, one word of alignment and the handler block. -/
def allocate (m : Memory) (space : AddressSpace) (policy : Policy) (words : Nat)
    (poolClass : Option SizeClass) (owner : DomainId) (h : Handlers) (id : FiberId) :
    Except Abort (Except AllocationError (Segment × Memory × AddressSpace)) := do
  match Size.mul? words wordBytes with
  | none => return .error .outOfMemory
  | some bodyBytes =>
    let total ← Size.add (← Size.add bodyBytes wordBytes) handlerBlockBytes
    match ← space.allocate policy total with
    | .error error => return .error error
    | .ok (block, space) =>
      let s := place block words poolClass owner id
      let (s, m) := s.reinit m h id
      return .ok (s, m, space.recordSegment s.footprint)

/-! ### Words -/

/-- A body access must be to a word of the body. -/
def checkWord (s : Segment) (address : Nat) : Except Abort Unit :=
  if s.contains address ∧ address % wordBytes = 0 then
    .ok ()
  else
    .error (.fault (.wordOutside address s.base s.high))

def read (s : Segment) (m : Memory) (address : Nat) : Except Abort Word := do
  s.checkWord address
  return m.read address

def write (s : Segment) (m : Memory) (address : Nat) (w : Word) : Except Abort Memory := do
  s.checkWord address
  return m.write address w

/-- Push a word, if the body has room. -/
def push (s : Segment) (m : Memory) (w : Word) : Except StackError (Segment × Memory) :=
  if s.sp - s.base < wordBytes then
    .error (.stackOverflow 1 s.bodyWords)
  else
    let s := { s with sp := s.sp - wordBytes }
    .ok (s, m.write s.sp w)

/-- Pop the innermost live word, if there is one. -/
def pop? (s : Segment) (m : Memory) : Option (Word × Segment) :=
  if s.sp = s.high then none else some (m.read s.sp, { s with sp := s.sp + wordBytes })

def peek? (s : Segment) (m : Memory) (n : Nat) : Option Word := do
  let address ← Size.add? s.sp (← Size.mul? n wordBytes)
  if address < s.high then some (m.read address) else none

/-- The live words, innermost first. -/
def liveWords (s : Segment) (m : Memory) : List Word := m.load s.sp s.usedWords

/-- The addresses of the live words, innermost first. -/
def liveSlots (s : Segment) : List Nat := Memory.span s.sp s.usedWords

/-- All words of the body, lowest address first. -/
def body (s : Segment) (m : Memory) : List Word := m.load s.base s.bodyWords

/-- Overwrite the innermost live words with `ws`, as far as there are live words. -/
def overwriteLive (s : Segment) (m : Memory) (ws : List Word) : Memory :=
  m.store s.sp (ws.take s.usedWords)

def loadLive (s : Segment) (m : Memory) (ws : List Word) : Except Abort (Segment × Memory) :=
  let bytes := ws.length * wordBytes
  if bytes ≤ s.high - s.base then
    let s := { s with sp := s.high - bytes }
    .ok (s, m.store s.sp ws)
  else
    .error (.fault .liveWordsExceedBody)

/-- Stack pointer and return address of the innermost compiled frame. A saved frame pointer on top
of it is skipped. -/
def spPc? (s : Segment) (m : Memory) (framePointers : Bool) : Option (Nat × Word) := do
  let depth := framePointers.toNat
  let returnAddress ← s.peek? m depth
  return (s.sp + (depth + 1) * wordBytes, returnAddress)

/-- Overwrite the whole body with wipe bytes. -/
def wipe (s : Segment) (m : Memory) : Memory :=
  m.fill s.base s.bodyWords Word.wiped

/-- The diagnostic text of a segment that has a parent or not. -/
def describe (s : Segment) (hasParent : Bool) : String :=
  record "Segment"
    [("id", s.id.describe), ("base", hex s.base), ("high", hex s.high),
      ("used_words", toString s.usedWords),
      ("pool_class", optional (s.poolClass.map SizeClass.describe)),
      ("owner", s.owner.describe), ("has_parent", toString hasParent)]

end Segment

end FiberStacks
