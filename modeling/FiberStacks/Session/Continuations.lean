import FiberStacks.Session

/-!
# Continuations of a session

Chains move between loose names, continuations and domains.
-/

namespace FiberStacks.Session

/-- Cut the innermost fibers of a domain off as a continuation, and put it under a name. -/
def capture (i depth : Nat) (name : Option String) : SessionM (Option Continuation) := do
  let k? ← onDomain i fun d => d.capture depth
  match name, k? with
  | some name, some k => Shelf.continuations.put name k
  | _, _ => pure ()
  return k?

/-- Use a continuation up on a domain, by resuming or dropping it. -/
def useContinuation (i : Nat) (name : String)
    (f : Domain → Continuation → Machine (Except StackError Unit × Domain × Continuation)) :
    SessionM Unit := do
  let d ← domain i
  let (r, d) ← Shelf.continuations.update name fun k => do
    let (r, d, k) ← f d k
    return ((r, d), k)
  setDomain i d
  recover r

def takeStored (name : String)
    (f : Continuation → Machine (Except StackError Chain × Continuation)) : SessionM Chain := do
  recover (← Shelf.continuations.update name f)

/-- Put a loose chain into a continuation, which has to be empty. -/
def storeInto (name chain : String) : SessionM Unit := do
  discard (Shelf.continuations.find name)
  let chain ← Shelf.chains.take chain
  Shelf.continuations.update name fun k => return ((), ← k.replace chain)

end FiberStacks.Session
