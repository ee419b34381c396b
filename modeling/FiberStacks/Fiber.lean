import FiberStacks.Size

/-!
# Identities

Fibers and domains are numbered from 1 in the order of their creation. Number 0 is the fiber of
every main segment. The counters that numbers are drawn from have no bound here: a counter of 64
bits draws the same numbers until it has drawn `2 ^ 64 - 1` of them, and then starts again from 0.
-/

namespace FiberStacks

/-- A number without a bound, drawn for the fiber or made up by a caller. -/
structure FiberId where
  number : Nat
  deriving DecidableEq

namespace FiberId

/-- The identity that all main segments share. -/
def main : FiberId := ⟨0⟩

def name (id : FiberId) : String := s!"Fiber({id.number})"

def describe (id : FiberId) : String := s!"FiberId({id.number})"

end FiberId

/-- A number without a bound, drawn for the domain or made up by a caller. -/
structure DomainId where
  number : Nat
  deriving DecidableEq

namespace DomainId

def name (id : DomainId) : String := s!"Domain({id.number})"

def describe (id : DomainId) : String := s!"DomainId({id.number})"

end DomainId

end FiberStacks
