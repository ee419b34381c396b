import FiberStacks.Chain
import FiberStacks.Machine

/-!
# One-shot continuations

A continuation holds a suspended chain until it is used, and can be used once. It also remembers the
fiber at the head of the chain stored last, even after the chain was taken. Absence of such a fiber
is a fiber number that is never drawn, so the fiber of that number is not told apart from absence.
-/

namespace FiberStacks

structure Continuation where
  /-- The chain, empty once it was taken. -/
  stored : Chain
  /-- The number of the fiber at the head of the chain stored last. -/
  fiber : Nat
  deriving DecidableEq

namespace Continuation

/-- The fiber number that stands for "no chain was ever stored". -/
def noFiber : Nat := 0xffffffffffffffff

def fiberOf (chain : Chain) : Nat :=
  match chain with
  | [] => noFiber
  | head :: _ => head.id.number

def ofChain (chain : Chain) : Continuation := ⟨chain, fiberOf chain⟩

def empty : Continuation := ⟨[], noFiber⟩

def isEmpty (k : Continuation) : Bool := k.stored.isEmpty

/-- The fiber at the head of the chain stored last. -/
def fiberId? (k : Continuation) : Option FiberId :=
  if k.fiber = noFiber then none else some ⟨k.fiber⟩

def take? (k : Continuation) : Option Chain × Continuation :=
  match k.stored with
  | [] => (none, k)
  | chain => (some chain, { k with stored := [] })

/-- End a continuation, with the chain that goes with it. -/
def drop (k : Continuation) : Chain × Continuation :=
  let (chain?, k) := k.take?
  (chain?.getD [], k)

def store (k : Continuation) (chain : Chain) : Except Violation Continuation :=
  if k.isEmpty then .ok (ofChain chain) else .error .continuationNotEmpty

/-- Take the chain out, or report that it was taken before. -/
def take (k : Continuation) : Machine (Except StackError Chain × Continuation) := do
  match k.take? with
  | (some chain, k) => return (.ok chain, k)
  | (none, k) =>
    Machine.log .debug .continuation "continuation already resumed"
    return (.error .continuationAlreadyResumed, k)

/-- Take the chain out with other handlers on its outermost segment. -/
def takeRebound (k : Continuation) (h : Handlers) :
    Machine (Except StackError Chain × Continuation) := do
  match ← k.take with
  | (.ok chain, k) =>
    Machine.modifyMemory fun m => Chain.rebind m chain h
    return (.ok chain, k)
  | (.error error, k) => return (.error error, k)

/-- Store a chain. The process stops if the continuation still holds one. -/
def replace (k : Continuation) (chain : Chain) : Machine Continuation := do
  match k.store chain with
  | .ok k => return k
  | .error v => Machine.fatal v

end Continuation

end FiberStacks
