import FiberStacks.Proofs.Growth.Moved

/-!
# The exception handler under growth

The walk over the trap frames tells the domain of the new address of the first one and then leaves
the exception handler alone. So the exception handler follows its segment, whatever the chain of
trap frames and that of saved base pointers look like.
-/

namespace FiberStacks

namespace Relocation

/-- Where an address is after the move. Addresses in the old segment keep their distance from the
upper end. -/
def follow (r : Relocation) (a : Nat) : Nat := if r.inOld a then r.target a else a

end Relocation

namespace TrapWalk

variable {r : Relocation} {new : Segment} {w w' : TrapWalk}

theorem exnHandler_of_step (h : w.step r new = .ok w') :
    w'.exnHandler = (if w.cell = none then r.target w.link else w.exnHandler) ∧ w'.cell ≠ none := by
  obtain ⟨rfl, -⟩ := w.checked_step.of_eq_ok h
  exact ⟨rfl, nofun⟩

theorem exnHandler_of_run {steps : Nat} (hcell : w.cell ≠ none) (h : run r new steps w = .ok w') :
    w'.exnHandler = w.exnHandler := by
  -- Induction on the steps: once the link is held by a trap frame it always is.
  induction steps generalizing w with
  | zero =>
      rw [run] at h
      split at h <;> cases h
      rfl
  | succ steps ih =>
      rw [run] at h
      split at h
      · obtain ⟨w₁, hstep, hrest⟩ := Run.except_bind_eq_ok_iff.mp h
        obtain ⟨hexn, hcell₁⟩ := exnHandler_of_step hstep
        rw [ih hcell₁ hrest, hexn, if_neg hcell]
      · cases h
        rfl

/-- The walk over the trap frames moves the exception handler. -/
theorem exnHandler_of_relocate {m : Memory} {exnHandler asyncExnHandler : Nat}
    (h : relocate r new (.start m exnHandler asyncExnHandler) = .ok w') :
    w'.exnHandler = r.follow exnHandler := by
  rw [relocate, run] at h
  cases hin : r.inOld exnHandler with
  | true =>
      simp only [start, hin, if_true] at h
      obtain ⟨w₁, hstep, hrest⟩ := Run.except_bind_eq_ok_iff.mp h
      obtain ⟨hexn, hcell⟩ := exnHandler_of_step hstep
      rw [exnHandler_of_run hcell hrest, hexn, if_pos rfl, Relocation.follow, if_pos hin]
  | false =>
      simp only [start, hin, Bool.false_eq_true, if_false] at h
      cases h
      rw [Relocation.follow, hin, if_neg Bool.false_ne_true]

end TrapWalk

namespace Domain

variable {d d' : Domain} {old : Segment} {outer : Chain} {others : List Segment} {required : Nat}
  {st st' : MachineState}

/-- The running segment is replaced by one that is apart from all others, and the exception handler
follows. -/
theorem replaced_of_tryRealloc (hrunning : d.running = old :: outer)
    (hsep : Segment.Separate st.space (old :: (others ++ d.pool.segments)))
    (hrun : d.tryRealloc required st = .ok (true, d') st') :
    ∃ new, d'.running = new :: outer ∧
      d'.exnHandler = (Relocation.between old new).follow d.exnHandler ∧
      Segment.Separate st'.space (new :: (others ++ d'.pool.segments)) := by
  obtain ⟨words, new, d₁, journal, st₁, halloc, hmove⟩ := tryRealloc_eq_ok hrunning hrun
  have hamong : Segment.Separate { st with journal }.space ((old :: others) ++ d.pool.segments) :=
    hsep
  obtain ⟨hobtained, hpool, hseparate⟩ := allocated_among_of_allocNoExc hamong halloc
  have hexn : d₁.exnHandler = d.exnHandler := by rw [hpool]
  obtain ⟨traps, framePointer, m, links, d₂, hroom, hrelocate, -, -, hfree, rfl⟩ :=
    moveTo_eq_ok hmove
  obtain ⟨hfilled, -⟩ := Segment.filled_formed hobtained.formed hroom
  have hold : old.Formed := hsep.formed old List.mem_cons_self
  obtain ⟨-, hspace', hpools, -⟩ := freeSegment_eq_ok hold hfree
  refine ⟨Segment.filled old new, rfl, ?_, ?_⟩
  · rw [← hexn]
    exact TrapWalk.exnHandler_of_relocate hrelocate
  -- The new segment is apart from the old one too, so it does not matter whether that is pooled.
  · have hreplaced := hseparate.replace hfilled rfl rfl
    rw [hspace']
    rcases hpools with hpooled | hgone
    · exact hreplaced.perm (by grind)
    · exact hreplaced.sublist (by grind)

end Domain

end FiberStacks
