import FiberStacks.Abort

/-!
# Machine sizes

Sizes and addresses are natural numbers below `2 ^ 64`, offsets are integers in the range of a
signed word. The operations here give the exact result or a fault, so arithmetic never wraps unseen.
-/

namespace FiberStacks

def wordBytes : Nat := 8

namespace Size

def limit : Nat := 1 <<< 64

/-- The sum, if it is a size. -/
def add (a b : Nat) : Except Abort Nat :=
  if a + b < limit then .ok (a + b) else .error (.fault (.overflow .add))

/-- The difference, if it is a size. -/
def sub (a b : Nat) : Except Abort Nat :=
  if b ≤ a then .ok (a - b) else .error (.fault (.overflow .subtract))

/-- The product, if it is a size. -/
def mul (a b : Nat) : Except Abort Nat :=
  if a * b < limit then .ok (a * b) else .error (.fault (.overflow .multiply))

def mul? (a b : Nat) : Option Nat :=
  if a * b < limit then some (a * b) else none

def add? (a b : Nat) : Option Nat :=
  if a + b < limit then some (a + b) else none

/-- How many units cover `n`. -/
def ceilDiv (n unit : Nat) : Nat :=
  (n + unit - 1) / unit

/-- The least multiple of `unit` that is not below `n`, as an exact number. -/
def roundUp (n unit : Nat) : Nat :=
  ceilDiv n unit * unit

theorem le_roundUp {unit : Nat} (h : 0 < unit) (n : Nat) : n ≤ roundUp n unit := by
  have hdiv := Nat.div_add_mod (n + unit - 1) unit
  have hmod := Nat.mod_lt (n + unit - 1) h
  unfold roundUp ceilDiv
  rw [Nat.mul_comm]
  omega

end Size

namespace Offset

/-- One more than the largest offset. -/
def limit : Int := 0x8000000000000000

/-- The signed reading of the 64 bits of a number. -/
def ofSize (n : Nat) : Int :=
  if n % Size.limit < Size.limit / 2 then (n % Size.limit : Nat)
  else (n % Size.limit : Nat) - limit * 2

/-- The sum, if it is an offset. -/
def add (a b : Int) : Except Abort Int :=
  if -limit ≤ a + b ∧ a + b < limit then .ok (a + b) else .error (.fault (.overflow .add))

/-- The difference, if it is an offset. -/
def sub (a b : Int) : Except Abort Int :=
  if -limit ≤ a - b ∧ a - b < limit then .ok (a - b) else .error (.fault (.overflow .subtract))

end Offset

end FiberStacks
