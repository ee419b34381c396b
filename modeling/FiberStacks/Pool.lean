import FiberStacks.Chain

/-!
# Segment pools

Each domain keeps the segments it no longer needs in one list per class, and takes the one freed
last first. Only segments that the domain itself obtained, and that have a class, are kept; any
other is released for good.
-/

namespace FiberStacks

/-- How often each kind of event happened to a pool. The counters have no bound here: counters of 64
bits have the same values as long as each kind happened fewer than `2 ^ 64` times. -/
structure PoolStats where
  hits : Nat
  misses : Nat
  recycled : Nat
  released : Nat
  deriving DecidableEq

inductive Disposition where
  | recycled (k : SizeClass)
  | released
  deriving DecidableEq

structure Pool where
  owner : DomainId
  baseWords : Nat
  free : Vector (List Segment) 5
  /-- Whether bodies are wiped when a segment is put on a list. -/
  wipe : Bool
  stats : PoolStats

namespace Pool

def empty (owner : DomainId) (baseWords : Nat) (wipe : Bool) : Pool :=
  { owner, baseWords, free := Vector.replicate 5 [], wipe, stats := ⟨0, 0, 0, 0⟩ }

def classFor? (p : Pool) (wsize : Nat) : Option SizeClass :=
  SizeClass.forSize? wsize p.baseWords

def list (p : Pool) (k : SizeClass) : List Segment := p.free[k]

def setList (p : Pool) (k : SizeClass) (segments : List Segment) : Pool :=
  { p with free := p.free.set k segments }

/-- Take the segment of a class that was freed last. -/
def take (p : Pool) (k : SizeClass) : Option Segment × Pool :=
  match p.list k with
  | s :: rest =>
    (some s, { p.setList k rest with stats := { p.stats with hits := p.stats.hits + 1 } })
  | [] => (none, { p with stats := { p.stats with misses := p.stats.misses + 1 } })

def giveBack (p : Pool) (m : Memory) (s : Segment) : Disposition × Pool × Memory :=
  match if s.owner = p.owner then s.poolClass else none with
  | some k =>
    (.recycled k,
      { p.setList k (s :: p.list k) with
        stats := { p.stats with recycled := p.stats.recycled + 1 } },
      if p.wipe then s.wipe m else m)
  | none =>
    (.released, { p with stats := { p.stats with released := p.stats.released + 1 } }, m)

def cached (p : Pool) (k : SizeClass) : Nat := (p.list k).length

def totalCached (p : Pool) : Nat :=
  (List.finRange 5).foldl (fun n k => n + p.cached k) 0

/-- All segments on the lists. -/
def segments (p : Pool) : List Segment := (List.finRange 5).flatMap p.list

/-- Release what is on the lists, and tell how many segments that were. -/
def clear (p : Pool) : Nat × Pool :=
  let n := p.totalCached
  (n,
    { p with
      free := Vector.replicate 5 []
      stats := { p.stats with released := p.stats.released + n } })

@[simp]
theorem list_setList (p : Pool) (k l : SizeClass) (segments : List Segment) :
    (p.setList k segments).list l = if k = l then segments else p.list l := by
  by_cases h : k = l
  · subst h
    simp [setList, list]
  · have hval : k.val ≠ l.val := fun e => h (Fin.ext e)
    simp [setList, list, h, hval]

end Pool

end FiberStacks
