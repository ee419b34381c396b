import FiberStacks.Domain

/-!
# Fiber switching

Running a fiber puts its segment on the head of the running chain, returning from it takes the
segment off again, capturing cuts the innermost fibers off as a continuation, and resuming puts them
back. The exception handler of the domain is saved in the segment that stops running and restored
from the segment that starts to.
-/

namespace FiberStacks.Domain

/-- The running chain with the exception handler saved in its head. -/
def suspended (d : Domain) : Chain :=
  match d.running with
  | [] => []
  | s :: outer => { s with savedExn := d.exnHandler } :: outer

/-- The exception handler saved in the head of a chain. -/
def savedExn (chain : Chain) : Nat :=
  match chain with
  | [] => 0
  | s :: _ => s.savedExn

def run (d : Domain) (chain : Chain) : Domain :=
  { d with running := chain, exnHandler := savedExn chain }

/-- Run a segment on top of the running chain. Parents it had are let go. -/
def runFiber (d : Domain) (s : Segment) : Machine Domain := do
  let (chain, m) := Chain.attach (← Machine.memory) s d.suspended
  Machine.setMemory m
  return d.run chain

/-- End the running fiber: its parent runs, its segment is freed, and its handlers are returned.
Nothing happens if it has no parent. -/
def returnFromFiber (d : Domain) : Machine (Option Handlers × Domain) := do
  match d.running with
  | finished :: parent :: outer =>
    Machine.modifyMemory fun m => finished.recordParent m 0
    let h := finished.handlers (← Machine.memory)
    let d ← (d.run (parent :: outer)).freeSegment finished
    return (some h, d)
  | [only] =>
    Machine.modifyMemory fun m => only.recordParent m 0
    return (none, d)
  | [] => return (none, d)

/-- Cut the innermost `depth` segments off as a continuation and run the next one outward. Nothing
happens at depth 0 or if no segment would be left to run. -/
def capture (d : Domain) (depth : Nat) : Machine (Option Continuation × Domain) := do
  if depth = 0 ∨ d.running.length ≤ depth then
    return (none, d)
  else
    let (captured, rest, m) := Chain.splitAfter (← Machine.memory) d.suspended depth
    Machine.setMemory m
    match captured.head? with
    | some s =>
      Machine.log .trace .continuation s!"captured {s.id.name} at depth {depth}"
    | none => pure ()
    return (some (Continuation.ofChain captured), d.run rest)

/-- Take the chain of a continuation, install handlers on its outermost segment and run it on top of
the running chain. -/
def resume (d : Domain) (k : Continuation) (h : Handlers) :
    Machine (Except StackError Unit × Domain × Continuation) := do
  match ← k.takeRebound h with
  | (.error error, k) => return (.error error, d, k)
  | (.ok captured, k) =>
    let (chain, m) := Chain.append (← Machine.memory) captured d.suspended
    Machine.setMemory m
    return (.ok (), d.run chain, k)

/-- Discard a continuation: its segments are freed. -/
def dropContinuation (d : Domain) (k : Continuation) :
    Machine (Except StackError Unit × Domain × Continuation) := do
  match ← k.take with
  | (.error error, k) => return (.error error, d, k)
  | (.ok chain, k) => return (.ok (), ← d.free chain, k)

end FiberStacks.Domain
