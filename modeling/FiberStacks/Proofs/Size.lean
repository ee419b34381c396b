import FiberStacks.Proofs.Run
import FiberStacks.Size

/-!
# Laws of machine sizes

Results that are no fault are exact.
-/

namespace FiberStacks

namespace Size

theorem limit_eq : limit = 0x10000000000000000 := rfl

theorem roundUp_lt {unit : Nat} (h : 0 < unit) (n : Nat) : roundUp n unit < n + unit := by
  have hdiv := Nat.div_mul_le_self (n + unit - 1) unit
  unfold roundUp ceilDiv
  omega

theorem roundUp_mod (n unit : Nat) : roundUp n unit % unit = 0 := by
  rw [roundUp, Nat.mul_mod_left]

theorem eq_of_add?_eq_some {a b c : Nat} (h : add? a b = some c) : c = a + b := by
  unfold add? at h
  split at h
  · cases h
    rfl
  · cases h

theorem add?_eq_some_iff {a b c : Nat} : add? a b = some c ↔ a + b < limit ∧ c = a + b := by
  unfold add?
  rw [Option.ite_none_right_eq_some, Option.some.injEq, eq_comm (a := a + b)]

theorem eq_of_mul?_eq_some {a b c : Nat} (h : mul? a b = some c) : c = a * b := by
  unfold mul? at h
  split at h
  · cases h
    rfl
  · cases h

theorem checked_add {a b : Nat} :
    Run.Checked (a + b < limit) (fun c => c = a + b ∧ a + b < limit) (add a b) := by
  unfold add
  split
  · exact .answer ⟨rfl, ‹_›⟩
  · exact .fault _ ‹_›

theorem checked_sub {a b : Nat} :
    Run.Checked (b ≤ a) (fun c => c = a - b ∧ b ≤ a) (sub a b) := by
  unfold sub
  split
  · exact .answer ⟨rfl, ‹_›⟩
  · exact .fault _ ‹_›

theorem checked_mul {a b : Nat} :
    Run.Checked (a * b < limit) (fun c => c = a * b ∧ a * b < limit) (mul a b) := by
  unfold mul
  split
  · exact .answer ⟨rfl, ‹_›⟩
  · exact .fault _ ‹_›

theorem eq_of_add_eq_ok {a b c : Nat} (h : add a b = .ok c) : c = a + b :=
  (checked_add.of_eq_ok h).1

theorem eq_of_mul_eq_ok {a b c : Nat} (h : mul a b = .ok c) : c = a * b :=
  (checked_mul.of_eq_ok h).1

theorem add_eq {a b : Nat} (h : a + b < limit) : add a b = .ok (a + b) := if_pos h

theorem mul_eq {a b : Nat} (h : a * b < limit) : mul a b = .ok (a * b) := if_pos h

end Size

namespace Offset

theorem ofSize_le (n : Nat) : ofSize n ≤ n := by
  unfold ofSize limit
  have hmod := Nat.mod_le n Size.limit
  split <;> omega

theorem ofSize_eq {n : Nat} (h : (n : Int) < limit) : ofSize n = n := by
  unfold limit at h
  unfold ofSize
  rw [Size.limit_eq, Nat.mod_eq_of_lt (by omega), if_pos (by omega)]

theorem eq_of_sub_eq_ok {offset result : Int} {n : Nat} (hn : (n : Int) < limit)
    (h : sub offset (ofSize n) = .ok result) : result = offset - n := by
  rw [ofSize_eq hn] at h
  unfold sub at h
  split at h
  · cases h
    rfl
  · cases h

end Offset

end FiberStacks
