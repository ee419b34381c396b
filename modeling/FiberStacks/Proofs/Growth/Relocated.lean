import FiberStacks.Proofs.Growth.BasePointers
import FiberStacks.Proofs.Growth.TrapTurns

/-!
# What growth has to relocate

The walk over the trap frames ends whatever they hold, so relocation ends if the chain of saved base
pointers does. All of its checks pass if the trap frames are live words, the frame records stand on
the word grid, and the native calls left the segment at one of its words.
-/

namespace FiberStacks

open Run

/-! ### Native calls -/

theorem NativeLink.checked_relocate {old new : Segment} (link : NativeLink) :
    Checked (old.high - old.base ≤ new.high - new.base ∧
        (link.stackHigh = old.high → old.base ≤ link.sp ∧ link.sp ≤ old.high))
      (fun _ => True) (link.relocate (.between old new)) := by
  have hdepth : ∀ a, old.base ≤ a → a ≤ old.high →
      old.high - old.base ≤ new.high - new.base →
      a ≤ (Relocation.between old new).oldHigh ∧
        (Relocation.between old new).oldHigh - a ≤ (Relocation.between old new).newHigh := by
    intro a hlow hhigh hdeep
    simp only [Relocation.between]
    omega
  have hretargeted : ∀ link' : NativeLink, Checked (old.high - old.base ≤ new.high - new.base)
      (fun _ => True)
      (if (Relocation.between old new).inOld link'.asyncExn then do
        let asyncExn ← (Relocation.between old new).newAddress link'.asyncExn
        return { link' with asyncExn }
      else return link' : Except Abort NativeLink) := by
    intro link'
    split
    · rename_i hin
      exact (Relocation.checked_newAddress.of_imp (BasePointers.depth_of_inOld hin)).bind
        fun _ _ => .answer trivial
    · exact .answer trivial
  unfold relocate
  split
  · rename_i hsame
    refine (Relocation.checked_newAddress.of_imp fun h => ?_).bind fun sp _ => ?_
    · exact hdepth _ (h.2 hsame).1 (h.2 hsame).2 h.1
    · exact (hretargeted _).of_imp And.left
  · exact (hretargeted link).of_imp And.left

/-! ### Moves -/

namespace Domain

/-- The exception handler, the frame records and the native calls can be followed from `old` to a
larger segment. -/
structure Followable (d : Domain) (m : Memory) (old : Segment) (rs : List Nat) : Prop where
  traps : ∃ frames last, TrapChain m.linkAt d.exnHandler frames last ∧ frames.Nodup ∧
    (∀ f ∈ frames, f ∈ old.liveSlots) ∧ old.contains last = false
  records : ∀ f ∈ rs, old.contains f = true → f % wordBytes = 0
  links : ∀ link ∈ d.links, link.stackHigh = old.high → old.base ≤ link.sp ∧ link.sp ≤ old.high

variable {d : Domain} {old new : Segment} {outer : Chain} {m : Memory} {p : Nat → Prop}
  {rs : List Nat}

/-- Whether all can be followed does not depend on other words than the live ones. -/
theorem Followable.congr {m' : Memory} (h : d.Followable m old rs)
    (heq : ∀ a ∈ old.liveSlots, m'.read a = m.read a) : d.Followable m' old rs where
  traps := by
    obtain ⟨frames, last, hchain, hdistinct, hlive, hlast⟩ := h.traps
    refine ⟨frames, last, hchain.congr fun f hf => ?_, hdistinct, hlive, hlast⟩
    rw [Memory.linkAt, Memory.linkAt, heq f (hlive f hf)]
  records := h.records
  links := h.links

/-- Relocation ends, and succeeds if all can be followed and the new segment is as deep. -/
theorem checked_relocated (hold : old.Formed) (hnew : new.Formed)
    (hsp : new.sp + wordBytes * old.usedWords = new.high) (hapart : new.Apart old)
    (hlists : d.Lists m p old rs) (hp : ∀ a, new.Owns a → p a) :
    Checked (d.Followable m old rs ∧ old.high - old.base ≤ new.high - new.base) (fun _ => True)
      (d.relocated old new outer m) := by
  have htraps : Checked (d.Followable m old rs ∧ old.high - old.base ≤ new.high - new.base)
      (fun _ => True) (TrapWalk.relocate (.between old new) new
        (.start (Segment.copied m old new outer) d.exnHandler d.asyncExnHandler)) := by
    by_cases hfollow : d.Followable m old rs
    · obtain ⟨frames, last, hchain, hdistinct, hlive, hlast⟩ := hfollow.traps
      obtain ⟨w, hrelocate, -⟩ := TrapWalk.relocate_copied outer d.asyncExnHandler hold hnew hapart
        hsp hchain hdistinct hlive hlast
      rw [hrelocate]
      exact .answer trivial
    · exact (TrapWalk.checked_relocate hnew hapart.disjoint _ _ _).of_imp fun h => hfollow h.1
  refine htraps.and_eq_ok.bind fun traps htraps => ?_
  have hrecords := checked_relocatedRecords hold hnew hsp hapart htraps.2 hlists hp
  refine (hrecords.of_imp fun h => ⟨h.2, h.1.records⟩).bind fun records _ => ?_
  refine (Checked.mapM fun link hlink => ?_).bind fun _ _ => .answer trivial
  exact link.checked_relocate.of_imp fun h => ⟨h.2, h.1.links link hlink⟩

end Domain

end FiberStacks
