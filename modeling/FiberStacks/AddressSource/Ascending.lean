import FiberStacks.AddressSource

/-!
# Ascending addresses

The source that hands out pages from low to high addresses, with at least one page between
neighbours. A request that does not fit below the end of the address space is refused.
-/

namespace FiberStacks

namespace MemoryRange

/-- The lowest page boundary with a page between it and each of the ranges below. -/
def above : List MemoryRange → Nat
  | [] => 0x10000000
  | r :: rest => max (above rest) (Size.roundUp (r.start + r.bytes) pageBytes + pageBytes)

theorem above_page (taken : List MemoryRange) : pageBytes ∣ above taken := by
  induction taken with
  | nil => exact ⟨0x10000, rfl⟩
  | cons r rest ih =>
      rw [above]
      have hround : pageBytes ∣ Size.roundUp (r.start + r.bytes) pageBytes + pageBytes :=
        Nat.dvd_add (Nat.dvd_mul_left _ _) (Nat.dvd_refl _)
      rcases Nat.le_total (above rest) (Size.roundUp (r.start + r.bytes) pageBytes + pageBytes)
        with hle | hle
      · rwa [Nat.max_eq_right hle]
      · rwa [Nat.max_eq_left hle]

theorem above_pos (taken : List MemoryRange) : 0 < above taken := by
  cases taken with
  | nil => exact Nat.succ_pos _
  | cons r rest =>
      rw [above]
      exact Nat.lt_of_lt_of_le (Nat.lt_add_left _ (Nat.succ_pos _)) (Nat.le_max_right _ _)

theorem end_le_above {taken : List MemoryRange} {r : MemoryRange} (hr : r ∈ taken) :
    r.start + r.bytes ≤ above taken := by
  induction taken with
  | nil => cases hr
  | cons t rest ih =>
      rw [above]
      rcases List.mem_cons.mp hr with rfl | hmem
      · have hround := Size.le_roundUp (show 0 < pageBytes by decide) (r.start + r.bytes)
        exact Nat.le_trans (Nat.le_add_right_of_le hround) (Nat.le_max_right _ _)
      · exact Nat.le_trans (ih hmem) (Nat.le_max_left _ _)

end MemoryRange

def AddressSource.ascending : AddressSource where
  pick? taken _ bytes :=
    let start := MemoryRange.above taken
    if start + Size.roundUp bytes pageBytes + pageBytes ≤ AddressSpace.limit then some start
    else none
  admissible := by
    intro taken align bytes start h
    obtain ⟨hfits, heq⟩ := Option.ite_none_right_eq_some.mp h
    obtain rfl := Option.some.inj heq
    have hbytes := Size.le_roundUp (show 0 < pageBytes by decide) bytes
    refine ⟨MemoryRange.above_pos taken, fun halign => ?_, ?_, fun r hr a ha => ?_⟩
    · exact Nat.dvd_trans halign (MemoryRange.above_page taken)
    · exact Nat.le_trans (Nat.le_add_right_of_le (Nat.add_le_add_left hbytes _)) hfits
    · have hend := MemoryRange.end_le_above hr
      exact fun hheld => Nat.not_lt.mpr hheld.1 (Nat.lt_of_lt_of_le ha.2 hend)

end FiberStacks
