import FiberStacks.Scan.Flat
import FiberStacks.Scan.LocalSweep
import FiberStacks.Scan.Native

/-!
# Root scans

A scan reports every location that holds a live reference: first the entries of root tables, then
the stacks from the innermost segment outwards, then the local blocks that these refer to.
-/

namespace FiberStacks

structure ScanReport where
  /-- The visits, in order. -/
  visits : List Visit
  /-- What the scan did to memory besides, in order. -/
  accesses : List Access
  segments : Nat
  /-- How it ended. A violation is in the journal already. -/
  ending : Except Abort Unit

namespace Scanner

/-- A scan that takes no notice of an empty list of arenas. -/
def make (ctx : ScanContext) (visitor : Visitor) (flags : ScanOptions) (locals : Option Arenas) :
    Scanner :=
  { ctx, visitor, flags, locals := locals.filter fun v => !v.isEmpty }

/-- Deal with an entry of a root table. Null entries are not in use. -/
def scanEntry (sc : Scanner) (slot : Nat) : ScanM Unit := do
  let value ← Scan.slotWord slot
  if value = Word.null then
    return ()
  else
    match sc.ctx.mode with
    | .native => discard (sc.classify slot)
    | .flat => sc.visit value slot

def scanSegment (sc : Scanner) (registers : Option Nat) (s : Segment) : ScanM Unit := do
  match sc.ctx.mode with
  | .native => sc.scanNative registers s
  | .flat => sc.scanFlat s
  Scan.segmentDone

/-- Scan a chain from its head outwards. Register locations of the first chunk of a segment are in
the save area given. -/
def scanChain (sc : Scanner) (registers : Option Nat) (chain : Chain) : ScanM Unit :=
  chain.forM (sc.scanSegment registers)

def scanStacks (sc : Scanner) (tables : List (List Nat)) (registers : Option Nat) (chain : Chain) :
    ScanM Unit := do
  tables.forM fun table => table.forM sc.scanEntry
  sc.scanChain registers chain

end Scanner

namespace Progress

/-- The state after an operation and how the operation ended. -/
def advance (p : Progress) (x : ScanM Unit) : Except Abort Unit × Progress :=
  match x p with
  | .ok () p => (.ok (), p)
  | .error e p => (.error e, p)

def report (p : Progress) (ending : Except Abort Unit) : ScanReport :=
  ⟨p.visits.reverse, p.accesses.reverse, p.segments, ending⟩

end Progress

namespace Machine

def endScan (p : Progress) (ending : Except Abort Unit) : Machine ScanReport := do
  setMemory p.memory
  match ending with
  | .error (.violation v) => logViolation v
  | _ => pure ()
  return p.report ending

/-- Scan root tables, a chain, and the local blocks that they refer to. -/
def scanRoots (sc : Scanner) (tables : List (List Nat)) (registers : Option Nat) (chain : Chain) :
    Machine ScanReport := do
  let (ending, p) := (Progress.start (← memory)).advance (sc.scanStacks tables registers chain)
  match ending with
  | .error e => endScan p (.error e)
  | .ok () =>
    log .trace .scan s!"scanned {p.segments} segments"
    let (ending, p) := p.advance sc.sweepLocals
    endScan p ending

end Machine

namespace Domain

/-- Scan the running chain of a domain, if there is one. -/
def scanRoots (d : Domain) (sc : Scanner) (registers : Option Nat) : Machine ScanReport :=
  match d.running with
  | [] => return ⟨[], [], 0, .ok ()⟩
  | chain => Machine.scanRoots sc [] registers chain

end Domain

end FiberStacks
