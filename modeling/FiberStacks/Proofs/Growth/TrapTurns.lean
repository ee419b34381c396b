import FiberStacks.Proofs.Growth.Moved
import Mathlib.Data.Finset.Card

/-!
# Turns of the walk over the trap frames

Trap frames may hold anything: a frame can name itself, frames can lead to each other in a ring, and
a link can lead into the free words of the old body. The walk follows the links in memory that it
changes, so the chain of frames is no measure for it. But each turn after the first puts a link to
the new body where one to the old body was. So there is at most one turn more than the new body has
words, and then the walk answers or has come to a frame that is off the word grid.
-/

namespace FiberStacks

open Run

theorem Segment.Formed.mem_bodyWords_iff {s : Segment} {a : Nat} (h : s.Formed) :
    a ∈ Memory.span (s.high - wordBytes * s.bodyWords) s.bodyWords ↔ s.IsWord a := by
  have hle := Nat.le_trans h.base_le_sp h.sp_le_high
  have hhigh := h.high_aligned
  rw [Memory.mem_span_iff]
  simp only [IsWord, bodyWords, wordBytes] at *
  constructor
  · rintro ⟨i, hi, rfl⟩
    omega
  · rintro ⟨hbase, hbelow, haligned⟩
    exact ⟨(a - (s.high - 8 * ((s.high - s.base) / 8))) / 8, by omega, by omega⟩

/-- No address is in the bodies of both segments. -/
def Segment.Disjoint (s t : Segment) : Prop := ∀ a, s.contains a = true → t.contains a = false

theorem Segment.Apart.disjoint {s t : Segment} (h : s.Apart t) : s.Disjoint t := fun a ha =>
  Bool.eq_false_iff.mpr fun hcontains => h a (owns_of_contains ha) (owns_of_contains hcontains)

namespace TrapWalk

variable {old new : Segment} {r : Relocation} {m : Memory} {w w' : TrapWalk} {a c n k : Nat}

/-! ### Links into the old body -/

/-- The words of the body of `new` that hold a link into the old segment. -/
def backlinks (r : Relocation) (new : Segment) (m : Memory) : Finset Nat :=
  {a ∈ (Memory.span (new.high - wordBytes * new.bodyWords) new.bodyWords).toFinset |
    r.inOld (m.linkAt a) = true}

theorem mem_backlinks_iff (hnew : new.Formed) :
    a ∈ backlinks r new m ↔ new.IsWord a ∧ r.inOld (m.linkAt a) = true := by
  rw [backlinks, Finset.mem_filter, List.mem_toFinset, hnew.mem_bodyWords_iff]

theorem card_backlinks_le : (backlinks r new m).card ≤ new.bodyWords :=
  calc (backlinks r new m).card ≤
        (Memory.span (new.high - wordBytes * new.bodyWords) new.bodyWords).toFinset.card :=
          Finset.card_filter_le _ _
    _ ≤ (Memory.span (new.high - wordBytes * new.bodyWords) new.bodyWords).length :=
          List.toFinset_card_le _
    _ = new.bodyWords := Memory.length_span _ _

/-- A step puts a link to the new segment where one to the old segment was. -/
theorem backlinks_after (hnew : new.Formed) (hdisjoint : new.Disjoint old) (hcell : w.cell = some c)
    (hword : new.IsWord c) (hlink : w.memory.linkAt c = w.link)
    (hin : (Relocation.between old new).inOld w.link = true)
    (htarget : new.IsWord ((Relocation.between old new).target w.link)) :
    (backlinks (.between old new) new (w.after (.between old new)).memory).card <
      (backlinks (.between old new) new w.memory).card := by
  have htold : (w.after (.between old new)).memory.linkAt c =
      (Relocation.between old new).target w.link :=
    linkAt_told hcell (Nat.lt_trans htarget.2.1 hnew.high_lt)
  have hout : (Relocation.between old new).inOld
      ((w.after (.between old new)).memory.linkAt c) = false := by
    rw [htold, Relocation.inOld_between]
    exact hdisjoint _ htarget.contains
  refine Finset.card_lt_card ((Finset.ssubset_iff_of_subset fun a ha => ?_).mpr ⟨c, ?_, ?_⟩)
  · rw [mem_backlinks_iff hnew] at ha ⊢
    refine ⟨ha.1, ?_⟩
    have hne : a ∉ w.cell := by
      rw [hcell]
      rintro ⟨rfl⟩
      exact Bool.false_ne_true (hout.symm.trans ha.2)
    rw [← ha.2]
    simp only [TrapWalk.after, Memory.linkAt]
    rw [read_told hne]
  · rw [mem_backlinks_iff hnew, hlink]
    exact ⟨hword, hin⟩
  · rw [mem_backlinks_iff hnew, hout]
    exact fun h => Bool.false_ne_true h.2

/-! ### Turns -/

/-- From `w` the walk makes `n` turns, however often it may turn, and then is at `w'`. -/
inductive Turns (r : Relocation) (new : Segment) : Nat → TrapWalk → TrapWalk → Prop
  | rest {w : TrapWalk} : Turns r new 0 w w
  | turn {n : Nat} {w w₁ w' : TrapWalk} : r.inOld w.link = true → w.step r new = .ok w₁ →
      Turns r new n w₁ w' → Turns r new (n + 1) w w'

/-- What holds after `n` turns: whoever holds the link is a word of the new body, and the turns with
the links that still lead back are no more than the words of the new body and one. -/
structure Steady (r : Relocation) (new : Segment) (n : Nat) (w : TrapWalk) : Prop where
  holder : ∀ c ∈ w.cell, new.IsWord c ∧ w.memory.linkAt c = w.link
  first : w.cell = none → n = 0
  turns : n + (backlinks r new w.memory).card ≤ new.bodyWords + 1

theorem steady_start (exnHandler asyncExnHandler : Nat) :
    Steady r new 0 (start m exnHandler asyncExnHandler) where
  holder := nofun
  first := fun _ => rfl
  turns := by
    have hcard : (backlinks r new m).card ≤ new.bodyWords := card_backlinks_le
    simp only [start]
    omega

theorem Steady.after (h : Steady (.between old new) new n w) (hnew : new.Formed)
    (hdisjoint : new.Disjoint old) (hin : (Relocation.between old new).inOld w.link = true)
    (htarget : new.IsWord ((Relocation.between old new).target w.link)) :
    Steady (.between old new) new (n + 1) (w.after (.between old new)) where
  holder := by
    intro c hc
    cases hc
    exact ⟨htarget, rfl⟩
  first := nofun
  turns := by
    cases hcell : w.cell with
    | none =>
        rw [h.first hcell]
        have hcard : (backlinks (.between old new) new
          (w.after (.between old new)).memory).card ≤ new.bodyWords := card_backlinks_le
        omega
    | some c =>
        obtain ⟨hword, hlink⟩ := h.holder c hcell
        have hfewer := backlinks_after hnew hdisjoint hcell hword hlink hin htarget
        have hturns := h.turns
        omega

/-- Before a turn there is a link that leads back, or it is the first turn. -/
theorem Steady.lt_of_inOld (h : Steady r new n w) (hnew : new.Formed)
    (hin : r.inOld w.link = true) : n < new.bodyWords + 1 := by
  cases hcell : w.cell with
  | none =>
      rw [h.first hcell]
      exact Nat.succ_pos _
  | some c =>
      obtain ⟨hword, hlink⟩ := h.holder c hcell
      have hmem : c ∈ backlinks r new w.memory := by
        rw [mem_backlinks_iff hnew, hlink]
        exact ⟨hword, hin⟩
      have hpos := Finset.card_pos.mpr ⟨c, hmem⟩
      have hturns := h.turns
      omega

theorem Steady.of_step (h : Steady (.between old new) new n w) (hnew : new.Formed)
    (hdisjoint : new.Disjoint old) (hin : (Relocation.between old new).inOld w.link = true)
    (hstep : w.step (.between old new) new = .ok w') :
    Steady (.between old new) new (n + 1) w' := by
  obtain ⟨rfl, htarget, -⟩ := w.checked_step.of_eq_ok hstep
  exact h.after hnew hdisjoint hin htarget

theorem Turns.steady (h : Turns (.between old new) new k w w')
    (hw : Steady (.between old new) new n w) (hnew : new.Formed) (hdisjoint : new.Disjoint old) :
    Steady (.between old new) new (n + k) w' := by
  induction h generalizing n with
  | rest => exact hw
  | @turn k w w₁ w' hin hstep _ ih =>
      rw [Nat.add_comm k 1, ← Nat.add_assoc]
      exact ih (hw.of_step hnew hdisjoint hin hstep)

/-- The walk writes on words of the new body. -/
theorem Turns.read_eq (h : Turns r new n w w') (ha : ¬ new.IsWord a) :
    w'.memory.read a = w.memory.read a := by
  induction h with
  | rest => rfl
  | @turn n w w₁ w' _ hstep _ ih =>
      obtain ⟨rfl, -, hcell⟩ := w.checked_step.of_eq_ok hstep
      rw [ih]
      exact read_told (fun hmem => ha (hcell a hmem)) _

/-- The walk turns until its link leads out of the old body, or a turn fails. -/
theorem exists_turns_of_run {steps : Nat} (hw : Steady (.between old new) new n w)
    (hnew : new.Formed) (hdisjoint : new.Disjoint old) (hsteps : n + steps = new.bodyWords + 1) :
    ∃ k w', Turns (.between old new) new k w w' ∧
      (old.contains w'.link = false ∧ run (.between old new) new steps w = .ok w' ∨
        old.contains w'.link = true ∧ ∃ e, w'.step (.between old new) new = .error e ∧
          run (.between old new) new steps w = .error e) := by
  induction steps generalizing n w with
  | zero =>
      have hout : (Relocation.between old new).inOld w.link = false := by
        rw [← Bool.not_eq_true]
        intro hin
        have hlt := hw.lt_of_inOld hnew hin
        omega
      refine ⟨0, w, .rest, .inl ⟨hout, ?_⟩⟩
      rw [run, hout]
      rfl
  | succ steps ih =>
      cases hin : (Relocation.between old new).inOld w.link with
      | false =>
          refine ⟨0, w, .rest, .inl ⟨hin, ?_⟩⟩
          rw [run, hin]
          rfl
      | true =>
          cases hstep : w.step (.between old new) new with
          | error e =>
              refine ⟨0, w, .rest, .inr ⟨hin, e, hstep, ?_⟩⟩
              rw [run, if_pos hin, hstep]
              rfl
          | ok w₁ =>
              obtain ⟨k, w', hturns, hends⟩ :=
                ih (hw.of_step hnew hdisjoint hin hstep) (by omega)
              refine ⟨k + 1, w', .turn hin hstep hturns, ?_⟩
              rw [run, if_pos hin, hstep]
              exact hends

theorem checked_relocate (hnew : new.Formed) (hdisjoint : new.Disjoint old) (m : Memory)
    (exnHandler asyncExnHandler : Nat) :
    Checked False (fun _ => True)
      (relocate (.between old new) new (start m exnHandler asyncExnHandler)) := by
  obtain ⟨n, w, -, ⟨-, hrun⟩ | ⟨-, e, hstep, hrun⟩⟩ := exists_turns_of_run
    (steady_start (m := m) exnHandler asyncExnHandler) hnew hdisjoint (Nat.zero_add _)
  · rw [relocate, hrun]
    exact .answer trivial
  · have hfault : Checked _ _ (w.step (.between old new) new) := w.checked_step
    rw [hstep] at hfault
    rw [relocate, hrun]
    cases hfault with
    | fault f => exact .fault f id

/-! ### Where a turn can fail -/

/-- A body that is as deep has a place for every address of the old one. -/
theorem contains_target (hdeep : old.high - old.base ≤ new.high - new.base)
    (ha : old.contains a = true) :
    new.contains ((Relocation.between old new).target a) = true := by
  obtain ⟨hbase, hhigh⟩ := Segment.contains_eq_true_iff.mp ha
  rw [Segment.contains_eq_true_iff]
  simp only [Relocation.target, Relocation.between]
  omega

/-- The failed check on the frame that the link names. -/
def offGrid (r : Relocation) (new : Segment) (w : TrapWalk) : Abort :=
  .fault (.wordOutside (r.target w.link) new.base new.high)

/-- A turn fails at a frame off the word grid, and nowhere else. -/
theorem Steady.step_eq (h : Steady (.between old new) new n w)
    (hdeep : old.high - old.base ≤ new.high - new.base) (hin : old.contains w.link = true) :
    w.step (.between old new) new =
      if (Relocation.between old new).target w.link % wordBytes = 0 then
        .ok (w.after (.between old new))
      else
        .error (w.offGrid (.between old new) new) := by
  have hcontains := contains_target hdeep hin
  have hdepth : w.link ≤ (Relocation.between old new).oldHigh ∧
      (Relocation.between old new).oldHigh - w.link ≤ (Relocation.between old new).newHigh := by
    obtain ⟨hbase, hhigh⟩ := Segment.contains_eq_true_iff.mp hin
    simp only [Relocation.between]
    omega
  have hcell : ∀ c ∈ w.cell, new.IsWord c := fun c hc => (h.holder c hc).1
  split
  · rename_i haligned
    obtain ⟨hbase, hhigh⟩ := Segment.contains_eq_true_iff.mp hcontains
    obtain ⟨_, hstep, rfl, -⟩ := w.checked_step.exists_ok
      ⟨hdepth, ⟨hbase, hhigh, haligned⟩, hcell⟩
    exact hstep
  · rename_i hmisaligned
    obtain ⟨_, hmoved, rfl⟩ := Relocation.checked_newAddress.exists_ok hdepth
    have hread : ∀ m, new.read m ((Relocation.between old new).target w.link) =
        .error (w.offGrid (.between old new) new) := by
      intro m
      rw [Segment.read, Segment.checkWord, if_neg fun hword => hmisaligned hword.2]
      rfl
    unfold step
    rw [hmoved, ok_bind]
    cases hc : w.cell with
    | none =>
        simp only [pure_bind, hread]
        rfl
    | some c =>
        have hwrite : ∀ x, new.write w.memory c x = .ok (w.memory.write c x) := fun x => by
          rw [Segment.write, Segment.checkWord_eq (hcell c hc)]
          rfl
        simp only [hwrite, ok_bind, pure_bind, hread]
        rfl

/-- Whatever the words in both bodies are, the walk over the trap frames makes at most one turn more
than the new body has words. Then it answers, or it has come to a frame off the word grid. Each turn
writes on the word that holds its link and reads the first word of the frame in its new place, both
in the new body. -/
theorem relocate_bounded (hnew : new.Formed) (hdisjoint : new.Disjoint old)
    (hdeep : old.high - old.base ≤ new.high - new.base) (m : Memory)
    (exnHandler asyncExnHandler : Nat) :
    (∀ n w, Turns (.between old new) new n (start m exnHandler asyncExnHandler) w →
      n ≤ new.bodyWords + 1 ∧ (∀ a, ¬ new.IsWord a → w.memory.read a = m.read a) ∧
      (old.contains w.link = true →
        n + 1 ≤ new.bodyWords + 1 ∧ (∀ c ∈ w.cell, new.IsWord c) ∧
        new.contains ((Relocation.between old new).target w.link) = true ∧
        w.step (.between old new) new =
          if (Relocation.between old new).target w.link % wordBytes = 0 then
            .ok (w.after (.between old new))
          else
            .error (w.offGrid (.between old new) new))) ∧
    ∃ n w, Turns (.between old new) new n (start m exnHandler asyncExnHandler) w ∧
      (old.contains w.link = false ∧
          relocate (.between old new) new (start m exnHandler asyncExnHandler) = .ok w ∨
        old.contains w.link = true ∧
          (Relocation.between old new).target w.link % wordBytes ≠ 0 ∧
          relocate (.between old new) new (start m exnHandler asyncExnHandler) =
            .error (w.offGrid (.between old new) new)) := by
  have hstart : Steady (.between old new) new 0 (start m exnHandler asyncExnHandler) :=
    steady_start exnHandler asyncExnHandler
  constructor
  · intro n w hturns
    have hsteady := hturns.steady hstart hnew hdisjoint
    rw [Nat.zero_add] at hsteady
    refine ⟨Nat.le_trans (Nat.le_add_right _ _) hsteady.turns, fun a => hturns.read_eq, ?_⟩
    exact fun hin => ⟨hsteady.lt_of_inOld hnew hin, fun c hc => (hsteady.holder c hc).1,
      contains_target hdeep hin, hsteady.step_eq hdeep hin⟩
  · obtain ⟨n, w, hturns, hends⟩ := exists_turns_of_run hstart hnew hdisjoint (Nat.zero_add _)
    refine ⟨n, w, hturns, hends.imp id ?_⟩
    rintro ⟨hin, e, hstep, hrun⟩
    rw [(hturns.steady hstart hnew hdisjoint).step_eq hdeep hin] at hstep
    split at hstep
    · cases hstep
    · cases hstep
      exact ⟨hin, ‹_›, hrun⟩

end TrapWalk

/-! ### A ring of trap frames

Two trap frames in a segment of eight words hold the addresses of each other. Their copies stand in
a segment of sixteen words. -/

namespace TrapRing

def old : Segment :=
  { memory := ⟨0x1000, 0x60, 0, .heap⟩, base := 0x1000, high := 0x1040, sp := 0x1010,
    poolClass := none, id := ⟨1⟩, owner := ⟨1⟩, savedExn := 0, magic := segmentMagic }

def new : Segment :=
  { old with memory := ⟨0x2000, 0xa0, 0, .heap⟩, base := 0x2000, high := 0x2080, sp := 0x2050 }

def memory : Memory := Memory.blank.store 0x2050 [0x1028, 7, 9, 0x1010, 11, 13]

/-- The walk goes around once, and then finds the new address of the frame that it began with. -/
theorem ring_relocated : new.Formed ∧ new.Disjoint old ∧
    old.high - old.base ≤ new.high - new.base ∧
    ∃ n w, TrapWalk.Turns (.between old new) new n (.start memory 0x1010 0x1028) w ∧
      n ≤ new.bodyWords + 1 ∧
      TrapWalk.relocate (.between old new) new (.start memory 0x1010 0x1028) = .ok w ∧
      w.exnHandler = 0x2050 ∧ w.asyncExnHandler = 0x2068 ∧ w.memory.linkAt 0x2050 = 0x2068 ∧
      w.memory.linkAt 0x2068 = 0x2050 := by
  have hnew : new.Formed := ⟨by decide, by decide, by decide, by decide, by decide⟩
  have hdisjoint : new.Disjoint old := by
    intro a ha
    obtain ⟨hbase, -⟩ := Segment.contains_eq_true_iff.mp ha
    rw [← Bool.not_eq_true, Segment.contains_eq_true_iff]
    simp only [new, old] at hbase ⊢
    omega
  have hdeep : old.high - old.base ≤ new.high - new.base := by decide
  have hring : (match TrapWalk.relocate (.between old new) new (.start memory 0x1010 0x1028) with
      | .ok w => decide (w.exnHandler = 0x2050 ∧ w.asyncExnHandler = 0x2068 ∧
          w.memory.linkAt 0x2050 = 0x2068 ∧ w.memory.linkAt 0x2068 = 0x2050)
      | .error _ => false) = true := by decide +kernel
  obtain ⟨hbounds, n, w, hturns, ⟨-, hrun⟩ | ⟨-, -, hrun⟩⟩ :=
    TrapWalk.relocate_bounded hnew hdisjoint hdeep memory 0x1010 0x1028
  · rw [hrun] at hring
    exact ⟨hnew, hdisjoint, hdeep, n, w, hturns, (hbounds n w hturns).1, hrun,
      of_decide_eq_true hring⟩
  · rw [hrun] at hring
    cases hring

end TrapRing

end FiberStacks
