import FiberStacks.Fault
import FiberStacks.Violation

/-!
# Aborts

Everything that ends an operation without an answer. Failures that the caller can handle are not
among them: those are values, see `StackError`.
-/

namespace FiberStacks

inductive Abort where
  | fault (fault : Fault)
  | violation (violation : Violation)
  | exit (status : Nat)
  /-- There is no memory where its absence cannot be reported. -/
  | exhausted
  | endless
  deriving DecidableEq

def Abort.message : Abort → String
  | fault f => f.message
  | violation v => v.report
  | exit status => s!"status {status}"
  | exhausted => "out of memory"
  | endless => "no end"

end FiberStacks
