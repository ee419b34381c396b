import FiberStacks.Pool
import FiberStacks.Machine

/-!
# Exchange with a pool

Taking from a pool and giving back to it as operations of the process, which note reuse in the
journal and refuse a segment that still owns a parent.
-/

namespace FiberStacks.Pool

/-- Take the segment of a class that was freed last. -/
def reuse (p : Pool) (k : SizeClass) : Machine (Option Segment × Pool) := do
  match p.take k with
  | (some s, p) =>
    Machine.log .trace .cache s!"reusing class {k.val} segment at {Text.hex s.base}"
    return (some s, p)
  | (none, p) => return (none, p)

/-- Take a segment of a class, if a class is asked for. -/
def reuse? (p : Pool) : Option SizeClass → Machine (Option Segment × Pool)
  | some k => p.reuse k
  | none => return (none, p)

/-- Give the head of a chain back. It must not have a parent. -/
def recycle (p : Pool) (s : Segment) (outer : Chain) : Machine (Disposition × Pool) := do
  if outer.isEmpty then
    let (disposition, p, m) := p.giveBack (← Machine.memory) s
    Machine.setMemory m
    return (disposition, p)
  else
    throw (.fault .pooledWithParent)

end FiberStacks.Pool
