import FiberStacks.Domain.Growth
import FiberStacks.Domain.Switch
import FiberStacks.Frame
import FiberStacks.Place
import FiberStacks.Region
import FiberStacks.Registry
import FiberStacks.Scan

/-!
# Sessions

A session is a process together with everything that a user of it holds: domains by number, and
loose chains, continuations, pools, frame tables and exceptions by name. Each segment is held once:
by a domain, by a loose chain, by a continuation or by a pool.
-/

namespace FiberStacks

/-- Consecutive words of memory. -/
structure Stretch where
  base : Nat
  words : Nat
  deriving DecidableEq

namespace Stretch

/-- The addresses of the words. -/
def slots (s : Stretch) : List Nat := Memory.span s.base s.words

def contents (s : Stretch) (m : Memory) : List Word := m.load s.base s.words

end Stretch

/-- A local region with every block that was ever allocated in it, oldest first. -/
structure LocalStore where
  region : Region
  blocks : Array Word

structure Session where
  machine : MachineState
  heap : Stretch
  /-- The domains in the order of their creation, without those that were dropped. -/
  domains : List (Option Domain)
  /-- Chains that no domain runs and no continuation holds. -/
  chains : Registry Chain
  continuations : Registry Continuation
  pools : Registry Pool
  tables : Registry FrameTable
  exceptions : Registry NamedException
  locals : List LocalStore
  blocks : Nat
  /-- The captures in the order in which they were started, without those that were released. -/
  captures : List (Option Capture)
  rootTables : List Stretch

inductive Interruption where
  | aborted (cause : Abort)
  /-- A scan aborted; the segment is the one that was being scanned. -/
  | scanAborted (cause : Abort) (visits : List Visit) (scanned : Option Segment)
  | failed (error : StackError)
  /-- A recoverable error after some words were pushed. -/
  | failedAfter (error : StackError) (pushed : Nat)
  | unallocated (error : AllocationError)
  | refused (error : SettingsError)
  | missing (what : String)

abbrev SessionM := EStateM Interruption Session

instance : MonadLift Machine SessionM where
  monadLift x := fun s =>
    match x s.machine with
    | .ok a r => .ok a { s with machine := r }
    | .error cause r => .error (.aborted cause) { s with machine := r }

/-- A check that fails ends the operation. -/
instance : MonadLift (Except Abort) SessionM where
  monadLift
    | .ok a => pure a
    | .error cause => throw (.aborted cause)

namespace Session

def ofMachine (r : MachineState) : Session :=
  { machine := r, heap := ⟨0, 0⟩, domains := [], chains := Registry.empty,
    continuations := Registry.empty, pools := Registry.empty, tables := Registry.empty,
    exceptions := Registry.empty, locals := [], blocks := 0, captures := [], rootTables := [] }

def recover {α : Type} : Except StackError α → SessionM α
  | .ok a => pure a
  | .error error => throw (.failed error)

def require {α : Type} (what : String) : Option α → SessionM α
  | some a => pure a
  | none => throw (.missing what)

def memory : SessionM Memory := return (← get).machine.memory

def modifyMemory (f : Memory → Memory) : SessionM Unit :=
  modify fun s => { s with machine := { s.machine with memory := f s.machine.memory } }

def reserve (ws : List Word) : SessionM Stretch := do
  let (base, space) ← require "memory"
    ((← get).machine.space.reserveHeap? wordBytes (wordBytes * ws.length))
  modify fun s => { s with machine := { s.machine with space := space } }
  modifyMemory fun m => m.store base ws
  return ⟨base, ws.length⟩

/-- Obtain a memory block that belongs to no segment. -/
def allocateBlock (policy : Policy) (bytes : Nat) : SessionM MemoryBlock := do
  match ← (← get).machine.space.allocate policy bytes with
  | .error error => throw (.unallocated error)
  | .ok (block, space) =>
    modify fun s =>
      { s with machine := { s.machine with space := space }, blocks := s.blocks + 1 }
    return block

/-- Release a memory block that belongs to no segment, and say whether there was one. -/
def releaseBlock : SessionM Bool :=
  modifyGet fun s => (s.blocks != 0, { s with blocks := s.blocks - 1 })

/-! ### Domains -/

def domain? (s : Session) (i : Nat) : Option Domain := s.domains[i]?.join

def domain (i : Nat) : SessionM Domain := do
  require "domain" ((← get).domain? i)

def setDomain (i : Nat) (d : Domain) : SessionM Unit :=
  modify fun s => { s with domains := s.domains.set i (some d) }

/-- Add a domain with given settings, or else with those of the process. -/
def addDomain (settings : Option Settings) : SessionM Domain := do
  let d ← match settings with
    | some settings => pure (← Domain.create settings)
    | none => pure (← Domain.createDefault)
  modify fun s => { s with domains := s.domains ++ [some d] }
  return d

/-- Drop a domain with everything it holds, and say whether it existed. -/
def dropDomain (i : Nat) : SessionM Bool :=
  modifyGet fun s => ((s.domain? i).isSome, { s with domains := s.domains.set i none })

def onDomain {α : Type} (i : Nat) (f : Domain → Machine (α × Domain)) : SessionM α := do
  let (a, d) ← f (← domain i)
  setDomain i d
  return a

def modifyDomain (i : Nat) (f : Domain → Machine Domain) : SessionM Unit := do
  setDomain i (← f (← domain i))

/-! ### Captures -/

def startCapture : SessionM Nat :=
  modifyGet fun s =>
    let (c, j) := s.machine.journal.capture
    (s.captures.length,
      { s with machine := { s.machine with journal := j }, captures := s.captures ++ [some c] })

/-- The capture of a number, unless it was released. -/
def capture? (s : Session) (i : Nat) : Option Capture := s.captures[i]?.join

/-- Release a capture, and say whether it was active or past until now. -/
def releaseCapture (i : Nat) : SessionM Bool :=
  modifyGet fun s =>
    match s.capture? i with
    | none => (false, s)
    | some c =>
      (true,
        { s with
          machine := { s.machine with journal := s.machine.journal.release c }
          captures := s.captures.set i none })

end Session

/-! ### Objects by name -/

structure Shelf (α : Type) where
  contents : Session → Registry α
  replace : Session → Registry α → Session

namespace Shelf

variable {α : Type}

def chains : Shelf Chain := ⟨Session.chains, fun s r => { s with chains := r }⟩

def continuations : Shelf Continuation :=
  ⟨Session.continuations, fun s r => { s with continuations := r }⟩

def pools : Shelf Pool := ⟨Session.pools, fun s r => { s with pools := r }⟩

def tables : Shelf FrameTable := ⟨Session.tables, fun s r => { s with tables := r }⟩

def exceptions : Shelf NamedException :=
  ⟨Session.exceptions, fun s r => { s with exceptions := r }⟩

def find (shelf : Shelf α) (name : String) : SessionM α := do
  Session.require name ((shelf.contents (← get)).find? name)

def put (shelf : Shelf α) (name : String) (a : α) : SessionM Unit :=
  modify fun s => shelf.replace s ((shelf.contents s).insert name a)

/-- Drop the object of a name, and say whether it existed. -/
def drop (shelf : Shelf α) (name : String) : SessionM Bool :=
  modifyGet fun s =>
    let r := shelf.contents s
    ((r.find? name).isSome, shelf.replace s (r.erase name))

def take (shelf : Shelf α) (name : String) : SessionM α := do
  let a ← shelf.find name
  discard (shelf.drop name)
  return a

def update {β : Type} (shelf : Shelf α) (name : String) (f : α → Machine (β × α)) : SessionM β := do
  let (b, a) ← f (← shelf.find name)
  shelf.put name a
  return b

end Shelf

end FiberStacks
