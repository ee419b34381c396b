import FiberStacks.Session.Places

/-!
# Outcomes

What can be seen of an operation of a session from outside: its answer or what interrupted it, what
it put into the journal, and what it wrote to standard error.
-/

namespace FiberStacks

namespace Interruption

/-- The address that a scan stopped at, as a place relative to the segment that it was scanning. -/
def place? (s : Session) : Interruption → Option (Nat × Place)
  | scanAborted (.violation (.frameOutOfBounds sp)) _ (some scanned) => do
    return (sp, .segment (← s.segmentIndex? scanned) (sp - scanned.high))
  | _ => none

def message (s : Session) (i : Interruption) : String :=
  match i with
  | aborted cause | scanAborted cause _ _ => s.relabel (i.place? s) cause.message
  | failed error => error.message
  | failedAfter error pushed => s!"{error.message} [after {pushed}]"
  | unallocated error => error.message
  | refused error => error.message
  | missing what => what

/-- Whether the session can go on: it can after an error, but not after an abort. -/
def isRecoverable : Interruption → Bool
  | failed _ | failedAfter .. | unallocated _ | refused _ => true
  | aborted _ | scanAborted .. | missing _ => false

end Interruption

structure Outcome (α : Type) where
  answer : Except Interruption α
  /-- What was recorded, if the operation ran under a capture. -/
  entries : List Entry
  lines : List String
  session : Session

namespace Session

/-- Run an operation, under a capture of its own or with its log going to standard error. -/
def observe {α : Type} (captured : Bool) (x : SessionM α) (s : Session) : Outcome α :=
  let start := s.machine.journal
  let (c, recording) := start.capture
  let during (s : Session) (j : Journal) : Session :=
    { s with machine := { s.machine with journal := { j with lines := #[] } } }
  let (answer, s) : Except Interruption α × Session :=
    match x { during s (if captured then recording else start) with rootTables := [] } with
    | .ok a s => (.ok a, s)
    | .error i s => (.error i, s)
  let j := s.machine.journal
  { answer
    entries := if captured then j.entries c else []
    lines := j.lines.toList
    session := during s (if captured then j.release c else j) }

end Session

end FiberStacks
