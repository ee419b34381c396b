import FiberStacks.Segment

/-!
# Chains

A chain is a list of segments, innermost first: the head is the segment that runs, and each next one
is the parent of the one before. The empty chain is no segment at all. Operations that change who is
whose parent also keep the recorded parent in the handler block of the child.
-/

namespace FiberStacks

/-- Segments linked through their parents, innermost first. -/
abbrev Chain := List Segment

namespace Chain

/-- The address that a child of this chain records: the handler block of the head, or 0. -/
def link (chain : Chain) : Nat :=
  match chain with
  | [] => 0
  | head :: _ => head.high

/-- Make `outer` the parents of one segment. -/
def attach (m : Memory) (s : Segment) (outer : Chain) : Chain × Memory :=
  (s :: outer, s.recordParent m (link outer))

/-- Put `outer` outward of the last segment of a chain. -/
def append (m : Memory) (chain outer : Chain) : Chain × Memory :=
  match chain.getLast? with
  | none => (outer, m)
  | some last => (chain ++ outer, last.recordParent m (link outer))

/-- Cut a chain after its first `depth` segments. Nothing is cut at depth 0 or beyond the end, and
the segment before the cut then records no parent. -/
def splitAfter (m : Memory) (chain : Chain) (depth : Nat) : Chain × Chain × Memory :=
  if depth = 0 then
    (chain, [], m)
  else
    match chain[depth - 1]? with
    | none => (chain, [], m)
    | some last => (chain.take depth, chain.drop depth, last.recordParent m 0)

def rebind (m : Memory) (chain : Chain) (h : Handlers) : Memory :=
  match chain.getLast? with
  | none => m
  | some last => last.setHandlers m h

end Chain

end FiberStacks
