import FiberStacks.AddressSpace
import FiberStacks.Proofs.Size

/-!
# Memory that is handed out

What is handed out was free before and is not free again. So it is apart from whatever was handed
out before, wherever the source of addresses puts it.
-/

namespace FiberStacks

namespace AddressSpace

variable {s s' s'' : AddressSpace} {low high align start bytes : Nat}

/-- What was handed out stays so. -/
def Grows (s s' : AddressSpace) : Prop := ∀ a, s.Taken a → s'.Taken a

theorem Grows.refl (s : AddressSpace) : s.Grows s := fun _ ha => ha

theorem Grows.trans (h : s.Grows s') (h' : s'.Grows s'') : s.Grows s'' :=
  fun a ha => h' a (h a ha)

theorem grows_recordSegment (s : AddressSpace) (footprint : Footprint) :
    s.Grows (s.recordSegment footprint) :=
  fun _ ha => ha

/-- The addresses from `low` up to `high` were free and are handed out. -/
structure Grants (s : AddressSpace) (low high : Nat) (s' : AddressSpace) : Prop where
  free : ∀ a, low ≤ a → a < high → ¬ s.Taken a
  taken : ∀ a, low ≤ a → a < high → s'.Taken a
  grows : s.Grows s'

theorem Grants.mono {low' high' : Nat} (h : s.Grants low high s') (hlow : low ≤ low')
    (hhigh : high' ≤ high) : s.Grants low' high' s' where
  free := fun a hle hlt => h.free a (Nat.le_trans hlow hle) (Nat.lt_of_lt_of_le hlt hhigh)
  taken := fun a hle hlt => h.taken a (Nat.le_trans hlow hle) (Nat.lt_of_lt_of_le hlt hhigh)
  grows := h.grows

theorem Grants.of_grows (h : s.Grants low high s') (hgrows : s'.Grows s'') :
    s.Grants low high s'' where
  free := h.free
  taken := fun a hle hlt => hgrows a (h.taken a hle hlt)
  grows := h.grows.trans hgrows

theorem reserve?_eq_some (h : s.reserve? align bytes = some (start, s')) :
    MemoryRange.Admissible ⟨start, bytes⟩ s.taken align ∧
      s' = { s with taken := ⟨start, bytes⟩ :: s.taken } := by
  unfold reserve? at h
  cases hpick : s.source.pick? s.taken align bytes with
  | none =>
      rw [hpick] at h
      cases h
  | some picked =>
      rw [hpick] at h
      cases h
      exact ⟨s.source.admissible hpick, rfl⟩

theorem grants_of_reserve? (h : s.reserve? align bytes = some (start, s')) :
    s.Grants start (start + bytes) s' := by
  obtain ⟨hadmissible, rfl⟩ := reserve?_eq_some h
  refine ⟨fun a hle hlt => ?_, fun a hle hlt => ?_, fun a => ?_⟩
  · rintro ⟨r, hr, ha⟩
    exact hadmissible.apart r hr a ha ⟨hle, hlt⟩
  · exact ⟨⟨start, bytes⟩, List.mem_cons_self, hle, hlt⟩
  · rintro ⟨r, hr, ha⟩
    exact ⟨r, List.mem_cons_of_mem _ hr, ha⟩

end AddressSpace

/-! ### Blocks -/

/-- The boundary on which blocks begin. -/
def Policy.align : Policy → Nat
  | heap => 16
  | mapped | guarded => pageBytes

theorem Policy.align_dvd_pageBytes (policy : Policy) : policy.align ∣ pageBytes := by
  cases policy <;> decide

theorem Policy.dvd_of_align {policy : Policy} {start : Nat} (h : policy.align ∣ start) :
    16 ∣ start :=
  Nat.dvd_trans (by cases policy <;> decide) h

namespace MemoryBlock

/-- The block that a request for `bytes` bytes gets at an address. -/
def sized (policy : Policy) (bytes start : Nat) : MemoryBlock :=
  match policy with
  | .heap => ⟨start, bytes, 0, .heap⟩
  | .mapped => ⟨start, Size.roundUp bytes pageBytes, 0, .mapped⟩
  | .guarded => ⟨start, pageBytes + Size.roundUp bytes pageBytes, pageBytes, .guarded⟩

theorem usableStart_sized {policy : Policy} {start : Nat} (hstart : policy.align ∣ start)
    (bytes : Nat) : (sized policy bytes start).usableStart % 16 = 0 := by
  have haligned := Policy.dvd_of_align hstart
  unfold sized usableStart
  simp only [pageBytes]
  split <;> simp only <;> omega

theorem le_usableStart_sized (policy : Policy) (bytes start : Nat) :
    start ≤ (sized policy bytes start).usableStart := by
  cases policy <;> exact Nat.le_add_right _ _

theorem usableLength_sized (policy : Policy) (bytes start : Nat) :
    bytes ≤ (sized policy bytes start).usableLength := by
  have hround := Size.le_roundUp (show 0 < pageBytes by decide) bytes
  cases policy with
  | heap => exact Nat.le_refl _
  | mapped => exact hround
  | guarded =>
      change bytes ≤ pageBytes + Size.roundUp bytes pageBytes - pageBytes
      omega

theorem usable_end_sized (policy : Policy) (bytes start : Nat) :
    (sized policy bytes start).usableStart + (sized policy bytes start).usableLength =
      start + (sized policy bytes start).length := by
  unfold usableStart usableLength
  cases policy with
  | heap => rfl
  | mapped => rfl
  | guarded =>
      change start + pageBytes + (pageBytes + Size.roundUp bytes pageBytes - pageBytes) =
        start + (pageBytes + Size.roundUp bytes pageBytes)
      omega

end MemoryBlock

namespace AddressSpace

variable {s s' : AddressSpace} {policy : Policy} {bytes : Nat} {b : MemoryBlock}

theorem reserve?_of_allocatePages (hpolicy : policy ≠ .heap)
    (h : s.allocatePages policy bytes = .ok (.ok (b, s'))) :
    ∃ start, s.reserve? policy.align b.length = some (start, s') ∧
      b = .sized policy bytes start := by
  unfold allocatePages at h
  obtain ⟨body, hbody, h⟩ := Run.except_bind_eq_ok_iff.mp h
  obtain ⟨length, hlength, h⟩ := Run.except_bind_eq_ok_iff.mp h
  have hbody := Size.eq_of_mul_eq_ok hbody
  have hlength := Size.eq_of_add_eq_ok hlength
  cases hreserve : s.reserve? pageBytes length with
  | none =>
      rw [hreserve] at h
      cases h
  | some result =>
      rw [hreserve] at h
      obtain ⟨start, after⟩ := result
      cases h
      refine ⟨start, ?_, ?_⟩
      · cases policy with
        | heap => exact absurd rfl hpolicy
        | mapped => exact hreserve
        | guarded => exact hreserve
      · cases policy with
        | heap => exact absurd rfl hpolicy
        | mapped => simp [MemoryBlock.sized, hlength, hbody, Size.roundUp]
        | guarded => simp [MemoryBlock.sized, hlength, hbody, Size.roundUp]

/-- Blocks of one policy and size differ in their address only. More than the block may be
reserved. -/
theorem reserve?_of_allocate (h : s.allocate policy bytes = .ok (.ok (b, s'))) :
    ∃ start reserved, s.reserve? policy.align reserved = some (start, s') ∧
      b = .sized policy bytes start ∧ b.length ≤ reserved := by
  have hpages : policy ≠ .heap → s.allocatePages policy bytes = .ok (.ok (b, s')) →
      ∃ start reserved, s.reserve? policy.align reserved = some (start, s') ∧
        b = .sized policy bytes start ∧ b.length ≤ reserved := by
    intro hpolicy hallocate
    obtain ⟨start, hreserve, hblock⟩ := reserve?_of_allocatePages hpolicy hallocate
    exact ⟨start, _, hreserve, hblock, Nat.le_refl _⟩
  unfold allocate at h
  split at h
  · cases h
  · cases policy with
    | heap =>
        have h : s.allocateHeap bytes = .ok (b, s') := by simpa using h
        unfold allocateHeap at h
        split at h
        · cases h
        · cases hreserve : s.reserveHeap? 16 bytes with
          | none =>
              rw [hreserve] at h
              cases h
          | some result =>
              rw [hreserve] at h
              obtain ⟨start, after⟩ := result
              cases h
              exact ⟨start, _, hreserve, rfl, Nat.le_add_right _ _⟩
    | mapped => exact hpages nofun h
    | guarded => exact hpages nofun h

theorem sized_of_allocate (h : s.allocate policy bytes = .ok (.ok (b, s'))) :
    s'.segments = s.segments ∧ ∃ start, policy.align ∣ start ∧ b = .sized policy bytes start := by
  obtain ⟨start, reserved, hreserve, hblock, -⟩ := reserve?_of_allocate h
  obtain ⟨hadmissible, rfl⟩ := reserve?_eq_some hreserve
  exact ⟨rfl, start, hadmissible.aligned policy.align_dvd_pageBytes, hblock⟩

/-- A block has a usable part of `bytes` bytes that was free, on a 16-byte boundary. -/
structure Provides (s : AddressSpace) (bytes : Nat) (b : MemoryBlock) (s' : AddressSpace) :
    Prop where
  pos : 0 < b.usableStart
  aligned : b.usableStart % 16 = 0
  within : b.usableStart + bytes ≤ limit
  grants : s.Grants b.usableStart (b.usableStart + bytes) s'

theorem provides_of_allocate (h : s.allocate policy bytes = .ok (.ok (b, s'))) :
    s.Provides bytes b s' := by
  obtain ⟨start, reserved, hreserve, rfl, hlength⟩ := reserve?_of_allocate h
  obtain ⟨hpos, haligned, hwithin, -⟩ := (reserve?_eq_some hreserve).1
  have hlow := MemoryBlock.le_usableStart_sized policy bytes start
  have hend : (MemoryBlock.sized policy bytes start).usableStart + bytes ≤ start + reserved := by
    have husable := MemoryBlock.usableLength_sized policy bytes start
    have hsized := MemoryBlock.usable_end_sized policy bytes start
    omega
  exact ⟨Nat.lt_of_lt_of_le hpos hlow,
    MemoryBlock.usableStart_sized (haligned policy.align_dvd_pageBytes) bytes,
    Nat.le_trans hend hwithin, (grants_of_reserve? hreserve).mono hlow hend⟩

end AddressSpace

end FiberStacks
