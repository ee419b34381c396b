import FiberStacks.Domain.Relocation

/-!
# Stack growth

A running segment that is too small is replaced by a larger one with the same fiber, handlers,
parents and live words, and every address that pointed into it is relocated. Growth is refused where
it would exceed the maximum or there is no memory.
-/

namespace FiberStacks

/-- Words that native code needs beyond the words used between two checks. -/
def nativeSlackWords : Nat := 10

inductive GrowthTarget where
  /-- A body of this many words has room for what is needed. -/
  | words (n : Nat)
  /-- The maximum is reached before there is room, or doubling leaves the range of sizes. -/
  | refused
  /-- The size is zero and doubling never changes it. -/
  | endless
  deriving DecidableEq

namespace GrowthTarget

/-- Double `size` at least once, until `needed` words fit. A size is not doubled once it is at the
maximum or above. -/
def find (size max needed : Nat) : GrowthTarget :=
  if hmax : max ≤ size then
    .refused
  else if Size.limit ≤ size * 2 then
    .refused
  else if needed ≤ size * 2 then
    .words (size * 2)
  else if hzero : size = 0 then
    .endless
  else
    find (size * 2) max needed
termination_by max - size

end GrowthTarget

namespace Domain

/-- Log the size that a stack grows to, in kilobytes if it is more than a page. -/
def logGrowth (words : Nat) : Machine Unit := do
  if ← Machine.wouldLog .info then
    let bytes ← Size.mul words wordBytes
    if pageBytes < bytes then
      Machine.log .info .stack s!"Growing stack to {bytes / 1024}k bytes"
    else
      Machine.log .info .stack s!"Growing stack to {bytes} bytes"

/-- Move the running segment `old` with its parents `outer` into `new`, and free `old`. -/
def moveTo (d : Domain) (old : Segment) (outer : Chain) (new : Segment) : Machine Domain := do
  let m ← Machine.memory
  let (new, m) ← new.loadLive m (old.liveWords m)
  let new := { new with savedExn := old.savedExn }
  let m := old.recordParent m 0
  let (chain, m) := Chain.attach m new outer
  let r := Relocation.between old new
  let traps ← TrapWalk.relocate r new (TrapWalk.start m d.exnHandler d.asyncExnHandler)
  let (framePointer, m) ← if d.framePointers then
      BasePointers.relocate r old new d.framePointer traps.memory
    else
      pure (d.framePointer, traps.memory)
  let links ← (d.links.mapM (NativeLink.relocate r) : Except Abort (List NativeLink))
  Machine.setMemory m
  let d ← d.freeSegment old
  return { d with
    running := chain
    exnHandler := traps.exnHandler
    asyncExnHandler := traps.asyncExnHandler
    framePointer := framePointer
    links := links }

/-- Replace the running segment by one with at least `required` free words, and tell whether that
was possible. -/
def tryRealloc (d : Domain) (required : Nat) : Machine (Bool × Domain) := do
  match d.running with
  | [] => return (false, d)
  | old :: outer =>
    match Size.add? old.usedWords required with
    | none => return (false, d)
    | some needed =>
      match GrowthTarget.find old.bodyWords d.maxWords needed with
      | .refused => return (false, d)
      | .endless => throw .endless
      | .words words =>
        logGrowth words
        let h := old.handlers (← Machine.memory)
        let (s?, d) ← d.allocNoExc words h old.id
        match s? with
        | none => return (false, d)
        | some new => return (true, ← d.moveTo old outer new)

def ensureCapacity (d : Domain) (required : Nat) : Machine (Except StackError Unit × Domain) := do
  if required ≤ d.availableWords then
    return (.ok (), d)
  else
    match ← d.tryRealloc required with
    | (true, d) => return (.ok (), d)
    | (false, d) => return (.error (.stackOverflow required d.maxWords), d)

/-- The check on entry to native code: room for the words used between two checks and for the
slack. -/
def maybeExpand (d : Domain) : Machine (Except StackError Unit × Domain) :=
  d.ensureCapacity (stackThresholdWords + nativeSlackWords)

/-! ### Access of the interpreter -/

/-- Push a word onto the running segment, which grows if it is full. -/
def push (d : Domain) (w : Word) : Machine (Except StackError Unit × Domain) := do
  match ← d.ensureCapacity 1 with
  | (.error error, d) => return (.error error, d)
  | (.ok (), d) =>
    match d.running with
    | [] => return (.error (.stackOverflow 1 d.maxWords), d)
    | s :: _ =>
      match s.push (← Machine.memory) w with
      | .error error => return (.error error, d)
      | .ok (s, m) =>
        Machine.setMemory m
        return (.ok (), d.setCurrent s)

def pop (d : Domain) : Machine (Option Word × Domain) := do
  match d.current? with
  | none => return (none, d)
  | some s =>
    match s.pop? (← Machine.memory) with
    | none => return (none, d)
    | some (w, s) => return (some w, d.setCurrent s)

def peek? (d : Domain) (m : Memory) (n : Nat) : Option Word := do
  (← d.current?).peek? m n

end Domain

end FiberStacks
