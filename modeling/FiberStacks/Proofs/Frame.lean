import FiberStacks.Frame
import Mathlib.Algebra.Group.Nat.Defs
import Mathlib.Data.List.Basic

/-!
# Packed locations

A packed number stands for one location, and no other number stands for the same one. Packing
drops what does not fit, so a location comes back from its packed number only if there is room for
it: 32 bits for a stack offset, of which the lowest is clear, and 31 bits for a register.
-/

namespace FiberStacks

namespace LiveLocation

/-- There is a packed number for the location. -/
def Packable : LiveLocation → Prop
  | stack offset => offset % 2 = 0 ∧ offset < 2 ^ 32
  | register index => index < 2 ^ 31

instance : DecidablePred Packable
  | stack offset => inferInstanceAs (Decidable (offset % 2 = 0 ∧ offset < 2 ^ 32))
  | register index => inferInstanceAs (Decidable (index < 2 ^ 31))

theorem encode_decode (packed : UInt32) : (decode packed).encode = packed := by
  unfold decode
  split
  · have hodd : 2 * (packed.toNat / 2) + 1 = packed.toNat := by omega
    rw [encode, hodd, UInt32.ofNat_toNat]
  · rw [encode, UInt32.ofNat_toNat]

theorem decode_encode_eq_iff (l : LiveLocation) : decode l.encode = l ↔ l.Packable := by
  cases l with
  | stack offset =>
      have hpacked : (stack offset).encode.toNat = offset % 2 ^ 32 := UInt32.toNat_ofNat'
      unfold decode Packable
      rw [hpacked]
      split
      · exact iff_of_false nofun (by omega)
      · rw [stack.injEq]
        omega
  | register index =>
      have hpacked : (register index).encode.toNat = (2 * index + 1) % 2 ^ 32 :=
        UInt32.toNat_ofNat'
      unfold decode Packable
      rw [hpacked, if_pos (by omega), register.injEq]
      omega

end LiveLocation

namespace FrameDescriptor

open LiveLocation (decode encode)

theorem liveSlots_compiled (frameSize : Nat) (live : List LiveLocation) :
    (compiled frameSize live).liveSlots = live ↔ ∀ l ∈ live, l.Packable := by
  have hslots : (compiled frameSize live).liveSlots = live.map (decode ∘ encode) := by
    rw [liveSlots, compiled, List.map_map]
  have hsame : live.map (decode ∘ encode) = live.map id ↔ ∀ l ∈ live, decode l.encode = l :=
    List.map_inj_left
  rw [List.map_id] at hsame
  simp only [hslots, hsame, LiveLocation.decode_encode_eq_iff]

theorem map_encode_liveSlots (d : FrameDescriptor) : d.liveSlots.map encode = d.liveOffsets :=
  Function.LeftInverse.list_map LiveLocation.encode_decode d.liveOffsets

/-- The locations of a compiled frame are read back as they were published exactly if each of them
can be packed. Locations that are read from any packed numbers are packed into these numbers again,
so descriptors with different packed numbers have different locations. -/
theorem liveSlots_faithful (frameSize : Nat) (live : List LiveLocation) (d d' : FrameDescriptor) :
    ((compiled frameSize live).liveSlots = live ↔ ∀ l ∈ live, l.Packable) ∧
      d.liveSlots.map encode = d.liveOffsets ∧
      (d.liveSlots = d'.liveSlots ↔ d.liveOffsets = d'.liveOffsets) := by
  refine ⟨liveSlots_compiled frameSize live, d.map_encode_liveSlots, fun hslots => ?_, fun h => ?_⟩
  · rw [← d.map_encode_liveSlots, hslots, d'.map_encode_liveSlots]
  · rw [liveSlots, liveSlots, h]

/-- An odd offset is taken for a register, and one of 33 bits for the offset in its low bits. -/
example : (compiled 32 [.stack 5, .stack (2 ^ 32 + 8), .register 3]).liveSlots =
    [.register 2, .stack 8, .register 3] := by
  decide

end FrameDescriptor

end FiberStacks
