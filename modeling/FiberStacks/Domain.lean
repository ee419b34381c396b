import FiberStacks.Continuation
import FiberStacks.Pool.Exchange

/-!
# Domains

A domain is the stack state of one thread: the chain it runs, its pool, and the registers that
compiled code keeps pointing into the running segment. The running chain is empty until a main stack
is started.
-/

namespace FiberStacks

open Text

/-- What a call into native code remembers of the segment it left. -/
structure NativeLink where
  stackHigh : Nat
  sp : Nat
  asyncExn : Nat
  deriving DecidableEq

structure Domain where
  id : DomainId
  pool : Pool
  running : Chain
  /-- The head of the chain of exception handlers. -/
  exnHandler : Nat
  asyncExnHandler : Nat
  /-- The head of the chain of saved base pointers. -/
  framePointer : Nat
  /-- Whether growth keeps saved base pointers right. -/
  framePointers : Bool
  /-- The native calls in progress, oldest first. -/
  links : List NativeLink
  fiberWords : Nat
  mainWords : Nat
  threadWords : Nat
  maxWords : Nat
  policy : Policy
  scanMode : ScanMode

namespace Domain

def ofSettings (id : DomainId) (s : Settings) : Domain :=
  { id, pool := Pool.empty id s.fiberWords s.wipe, running := [], exnHandler := 0,
    asyncExnHandler := 0, framePointer := 0, framePointers := s.framePointers, links := [],
    fiberWords := s.fiberWords, mainWords := s.mainWords, threadWords := s.threadWords,
    maxWords := s.maxWords, policy := .standard, scanMode := s.scanMode }

def create (s : Settings) : Machine Domain := do
  let d := ofSettings (← Machine.freshDomain) s
  Machine.logFields .debug .domain "domain created"
    [("id", .integer (Offset.ofSize d.id.number)), ("policy", .text d.policy.name)]
  return d

/-- Create a domain with the settings of the process, or the standard ones. -/
def createDefault : Machine Domain := do
  create ((← get).settings.getD Settings.standard)

def current? (d : Domain) : Option Segment := d.running.head?

def usedWords (d : Domain) : Nat := (d.current?.map Segment.usedWords).getD 0

def availableWords (d : Domain) : Nat := (d.current?.map Segment.availableWords).getD 0

def setCurrent (d : Domain) (s : Segment) : Domain :=
  { d with running := s :: d.running.tail }

def pushLink (d : Domain) (link : NativeLink) : Domain :=
  { d with links := d.links ++ [link] }

def popLink (d : Domain) : Option NativeLink × Domain :=
  (d.links.getLast?, { d with links := d.links.dropLast })

def describe (d : Domain) : String :=
  let current := d.current?.map fun s => s.describe (1 < d.running.length)
  record "Domain"
    [("id", d.id.describe), ("current", optional current), ("exn_handler", hex d.exnHandler),
      ("c_stack", toString d.links.length), ("max_stack_wsize", toString d.maxWords),
      ("scan_mode", d.scanMode.name)]

/-- End a domain, with the segments that go with it: those of the running chain, and those that the
pool releases when it is cleared. -/
def drop (d : Domain) : List Segment × Domain :=
  let (_, pool) := d.pool.clear
  (d.running ++ d.pool.segments, { d with running := [], pool })

/-! ### Sizes -/

/-- Body words to start with for the main segment (`none`), or for a thread whose creator asks for
a number of words. -/
def initialWords (d : Domain) (requested : Option Nat) : Nat :=
  let words := match requested with
    | none => d.mainWords
    | some n => if 0 < d.threadWords then d.threadWords else n
  min words d.maxWords

/-- Change the maximum, but not below what is in use and the words used between two checks. A change
is logged in kilobytes, and so has to be a number of bytes. -/
def changeMax (d : Domain) (words : Nat) : Machine Domain := do
  let words := max words (← Size.add d.usedWords stackThresholdWords)
  if words ≠ d.maxWords then
    if ← Machine.wouldLog .info then
      let bytes ← Size.mul words wordBytes
      Machine.log .info .domain s!"Changing stack limit to {bytes / 1024}k bytes"
  return { d with maxWords := words }

/-! ### Allocation -/

/-- A new segment of `words` body words, for the class if there is one. Nothing is returned if there
is no memory. -/
def allocFresh (d : Domain) (words : Nat) (k? : Option SizeClass) (h : Handlers) (id : FiberId) :
    Machine (Option Segment × Domain) := do
  let r ← get
  match ← Segment.allocate r.memory r.space d.policy words k? d.id h id with
  | .ok (s, m, space) =>
    modify fun r => { r with memory := m, space := space }
    Machine.logFields .debug .stack "segment allocated"
      [("wsize", .integer (Offset.ofSize words)), ("fiber", .integer (Offset.ofSize id.number)),
        ("pooled", .boolean k?.isSome)]
    return (some s, d)
  | .error error =>
    Machine.log .debug .stack s!"segment allocation of {words} words failed: {error.message}"
    return (none, d)

/-- A segment of `words` body words: a pooled one of that size, or a new one. -/
def allocNoExc (d : Domain) (words : Nat) (h : Handlers) (id : FiberId) :
    Machine (Option Segment × Domain) := do
  let k? := d.pool.classFor? words
  let (pooled, pool) ← d.pool.reuse? k?
  let d := { d with pool := pool }
  match pooled with
  | some s =>
    let (s, m) := s.reinit (← Machine.memory) h id
    Machine.setMemory m
    return (some s, d)
  | none => d.allocFresh words k? h id

/-- A fiber segment with an identity of its own. -/
def alloc (d : Domain) (h : Handlers) : Machine (Except StackError Segment × Domain) := do
  let (s?, d) ← d.allocNoExc d.fiberWords h (← Machine.freshFiber)
  match s? with
  | some s => return (.ok s, d)
  | none => return (.error (.outOfMemory d.fiberWords), d)

/-- A main segment, with handlers that are never called. -/
def allocMain (d : Domain) (words : Nat) : Machine (Option Segment × Domain) :=
  d.allocNoExc words Handlers.unit FiberId.main

/-- Allocate the main segment and run it, in place of whatever ran. -/
def startMain (d : Domain) : Machine (Except StackError Unit × Domain) := do
  let words := d.initialWords none
  let (s?, d) ← d.allocMain words
  match s? with
  | some s => return (.ok (), { d with running := [s], exnHandler := 0 })
  | none => return (.error (.outOfMemory words), d)

/-- Free a segment without its parents. -/
def freeSegment (d : Domain) (s : Segment) : Machine Domain := do
  match s.checkMagic with
  | .error v => Machine.fatal v
  | .ok () =>
    Machine.modifyMemory fun m => s.recordParent m 0
    let (disposition, pool) ← d.pool.recycle s []
    match disposition with
    | .recycled k => Machine.log .trace .cache s!"{s.id.name} segment cached in class {k.val}"
    | .released => Machine.log .debug .stack s!"{s.id.name} segment released"
    return { d with pool := pool }

/-- Free all segments of a chain, innermost first. -/
def free (d : Domain) (chain : Chain) : Machine Domain :=
  chain.foldlM freeSegment d

end Domain

end FiberStacks
