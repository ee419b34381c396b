import FiberStacks.Session

/-!
# Chains of a session

Moving chains in and out of a session, and work on the segments of a chain where it stands.
-/

namespace FiberStacks

/-- A segment of a session: of the chain with a name or of the running chain of a domain, so many
parents outward. -/
structure ChainRef where
  name : Option String
  domain : Nat
  depth : Nat

namespace Session

/-- Take the chain of a name out of the session, as its head and the parents of that. -/
def takeHead (name : String) : SessionM (Segment × Chain) := do
  match ← Shelf.chains.take name with
  | [] => throw (.missing name)
  | s :: outer => return (s, outer)

/-- Put a chain under a name, unless it is empty or no name is given. -/
def keep (name : Option String) (chain : Chain) : SessionM Unit :=
  match name, chain with
  | some name, _ :: _ => Shelf.chains.put name chain
  | _, _ => pure ()

def wholeChain (r : ChainRef) : SessionM Chain :=
  match r.name with
  | some name => Shelf.chains.find name
  | none => return (← domain r.domain).running

/-- The chain from a segment outwards, empty if there is no such segment. -/
def chainAt (r : ChainRef) : SessionM Chain :=
  return (← wholeChain r).drop r.depth

def setChainAt (r : ChainRef) (chain : Chain) : SessionM Unit := do
  let chain := (← wholeChain r).take r.depth ++ chain
  match r.name with
  | some name => Shelf.chains.put name chain
  | none => setDomain r.domain { ← domain r.domain with running := chain }

/-- Work on the chain from a segment outwards. Nothing happens if there is no such segment. -/
def onChain {α : Type} (r : ChainRef)
    (f : Memory → Segment → Chain → Except Abort (α × Chain × Memory)) : SessionM (Option α) := do
  match ← chainAt r with
  | [] => return none
  | s :: outer =>
    let (a, chain, m) ← (f (← memory) s outer : Except Abort _)
    modifyMemory fun _ => m
    setChainAt r chain
    return some a

def onSegment {α : Type} (r : ChainRef)
    (f : Memory → Segment → Except Abort (α × Segment × Memory)) : SessionM (Option α) :=
  onChain r fun m s outer => do
    let (a, s, m) ← f m s
    return (a, s :: outer, m)

def askSegment {α : Type} (r : ChainRef) (f : Memory → Segment → Except Abort α) :
    SessionM (Option α) := do
  match ← chainAt r with
  | [] => return none
  | s :: _ => return some (← (f (← memory) s : Except Abort _))

/-- Make a chain the parents of a segment, and return the parents it had. -/
def replaceParents (r : ChainRef) (parents : Chain) : SessionM (Option Chain) :=
  onChain r fun m s outer =>
    let (chain, m) := Chain.attach m s parents
    .ok (outer, chain, m)

/-- Cut the chain that starts at a segment, and return what is outward of the cut. -/
def splitAfter (r : ChainRef) (depth : Nat) : SessionM (Option Chain) :=
  onChain r fun m s outer =>
    let (kept, rest, m) := Chain.splitAfter m (s :: outer) depth
    .ok (rest, kept, m)

/-- Make a segment ready for another fiber. It loses its parents. -/
def reinit (r : ChainRef) (h : Handlers) (id : FiberId) : SessionM (Option Unit) :=
  onChain r fun m s _ =>
    let (s, m) := s.reinit m h id
    .ok ((), [s], m)

/-- Obtain a segment that belongs to no chain. -/
def allocate (policy : Policy) (words : Nat) (k : Option SizeClass) (owner : DomainId)
    (h : Handlers) (id : FiberId) : SessionM Segment := do
  let r := (← get).machine
  match ← Segment.allocate r.memory r.space policy words k owner h id with
  | .error error => throw (.unallocated error)
  | .ok (segment, m, space) =>
    modify fun s => { s with machine := { s.machine with memory := m, space := space } }
    return segment

/-- Push one word after the other on top of `pushed` earlier ones, and return how many there are. -/
def pushAll (push : Word → SessionM (Except StackError Unit)) : List Word → Nat → SessionM Nat
  | [], pushed => return pushed
  | w :: rest, pushed => do
    match ← push w with
    | .ok () => pushAll push rest (pushed + 1)
    | .error error => throw (.failedAfter error pushed)

/-- Push a list of words a number of times on top of `pushed` earlier ones, and return how many
words there are. -/
def pushTimes (push : Word → SessionM (Except StackError Unit)) (words : List Word) :
    Nat → Nat → SessionM Nat
  | 0, pushed => return pushed
  | n + 1, pushed => do pushTimes push words n (← pushAll push words pushed)

/-- Push a word on the running segment of a domain, which grows if it has to. -/
def pushRunning (i : Nat) (w : Word) : SessionM (Except StackError Unit) :=
  onDomain i fun d => d.push w

/-- Push a word on a segment, which does not grow. -/
def pushOn (r : ChainRef) (w : Word) : SessionM (Except StackError Unit) := do
  let pushed ← onSegment r fun m s =>
    match s.push m w with
    | .ok (s, m) => .ok (.ok (), s, m)
    | .error error => .ok (.error error, s, m)
  require "segment" pushed

def popOf (r : ChainRef) : SessionM (Option Word) := do
  let popped ← onSegment r fun m s =>
    match s.pop? m with
    | some (w, s) => .ok (some w, s, m)
    | none => .ok (none, s, m)
  require "segment" popped

/-- Repeat an operation, and return the answers in order. -/
def times {α : Type} (x : SessionM α) : Nat → SessionM (List α)
  | 0 => return []
  | n + 1 => return (← x) :: (← times x n)

end Session

end FiberStacks
