import FiberStacks.Domain.Relocation
import FiberStacks.Proofs.Segment

/-!
# Trap frames under a move

A chain of trap frames is a list of addresses, each of which holds the next one. When the frames are
copied to where a relocation takes them, the copies still hold the old addresses. The walk over the
copies replaces these, and its outcome is told here for the chain as a whole: the copies form the
moved chain, and no word but theirs has changed.
-/

namespace FiberStacks

/-- The link from the word at an address. -/
def Memory.linkAt (m : Memory) (a : Nat) : Nat := (m.read a).toNat

/-- From `link` on the links lead through `frames` and then to `last`, where `next` is the link that
a frame holds. -/
def TrapChain (next : Nat → Nat) : Nat → List Nat → Nat → Prop
  | link, [], last => link = last
  | link, f :: fs, last => link = f ∧ TrapChain next (next f) fs last

theorem TrapChain.congr {next next' : Nat → Nat} {link last : Nat} {fs : List Nat}
    (h : TrapChain next link fs last) (heq : ∀ f ∈ fs, next f = next' f) :
    TrapChain next' link fs last := by
  induction fs generalizing link with
  | nil => exact h
  | cons f fs ih =>
      refine ⟨h.1, ?_⟩
      rw [← heq f List.mem_cons_self]
      exact ih h.2 fun g hg => heq g (List.mem_cons_of_mem f hg)

namespace Relocation

def target (r : Relocation) (p : Nat) : Nat := r.newHigh - (r.oldHigh - p)

/-- The address lies in the old segment, and the relocation takes it to a word of the new one. -/
structure Moves (r : Relocation) (new : Segment) (f : Nat) : Prop where
  inOld : r.oldBase ≤ f ∧ f < r.oldHigh
  depth : r.oldHigh - f ≤ r.newHigh
  word : new.IsWord (r.target f)

variable {r : Relocation} {new : Segment} {f g : Nat}

theorem checked_newAddress : Run.Checked (f ≤ r.oldHigh ∧ r.oldHigh - f ≤ r.newHigh)
    (· = r.target f) (r.newAddress f) := by
  refine (Size.checked_sub.of_imp And.left).bind fun depth hdepth => ?_
  rw [hdepth.1]
  exact (Size.checked_sub.of_imp And.right).mono fun _ h => h.1

theorem Moves.inOld_eq_true (h : r.Moves new f) : r.inOld f = true := by
  simp [Relocation.inOld, h.inOld]

theorem target_injective (hf : r.Moves new f) (hg : r.Moves new g) (h : r.target f = r.target g) :
    f = g := by
  have hfold := hf.inOld
  have hgold := hg.inOld
  have hfdepth := hf.depth
  have hgdepth := hg.depth
  unfold target at h
  omega

end Relocation

namespace TrapWalk

variable {r : Relocation} {new : Segment}

/-- Memory after the holder of the link was told of the new address. -/
def told (w : TrapWalk) (moved : Nat) : Memory :=
  match w.cell with
  | none => w.memory
  | some c => w.memory.write c (Word.ofNat moved)

theorem read_told {w : TrapWalk} {a : Nat} (ha : a ∉ w.cell) (moved : Nat) :
    (w.told moved).read a = w.memory.read a := by
  unfold told
  cases hcell : w.cell with
  | none => rfl
  | some c =>
      rw [hcell] at ha
      have hne : c ≠ a := fun heq => ha (congrArg some heq)
      exact Memory.read_write_of_ne _ _ hne

theorem linkAt_told {w : TrapWalk} {c moved : Nat} (hc : c ∈ w.cell) (hmoved : moved < Size.limit) :
    (w.told moved).linkAt c = moved := by
  unfold told
  rw [Option.mem_def.mp hc]
  simp only [Memory.linkAt, Memory.read_write_same, Word.ofNat, UInt64.toNat_ofNat']
  exact Nat.mod_eq_of_lt hmoved

/-- The walk after the step over the frame that its link names. -/
def after (r : Relocation) (w : TrapWalk) : TrapWalk :=
  { memory := w.told (r.target w.link)
    exnHandler := if w.cell = none then r.target w.link else w.exnHandler
    asyncExnHandler := if w.link = w.asyncExnHandler then r.target w.link else w.asyncExnHandler
    link := (w.told (r.target w.link)).linkAt (r.target w.link)
    cell := some (r.target w.link) }

/-- A step over whatever is at the end of the link. It stays in the words of the new segment. -/
theorem checked_step (w : TrapWalk) :
    Run.Checked ((w.link ≤ r.oldHigh ∧ r.oldHigh - w.link ≤ r.newHigh) ∧
        new.IsWord (r.target w.link) ∧ ∀ c ∈ w.cell, new.IsWord c)
      (fun w' => w' = w.after r ∧ new.IsWord (r.target w.link) ∧ ∀ c ∈ w.cell, new.IsWord c)
      (w.step r new) := by
  obtain ⟨m, exn, asyncExn, link, cell⟩ := w
  refine (Relocation.checked_newAddress.of_imp And.left).bind ?_
  rintro _ rfl
  cases cell with
  | none =>
      refine (Segment.checked_read.of_imp fun h => h.2.1).bind ?_
      rintro _ ⟨rfl, hword⟩
      exact .answer ⟨rfl, hword, nofun⟩
  | some c =>
      refine (Segment.checked_write.of_imp fun h => h.2.2 c rfl).bind ?_
      rintro _ ⟨rfl, hcell⟩
      refine (Segment.checked_read.of_imp fun h => h.2.1).bind ?_
      rintro _ ⟨rfl, hword⟩
      refine .answer ⟨rfl, hword, fun c' hc' => ?_⟩
      cases hc'
      exact hcell

theorem step_eq {w : TrapWalk} (hmoves : r.Moves new w.link) (hcell : ∀ c ∈ w.cell, new.IsWord c) :
    w.step r new = .ok (w.after r) := by
  obtain ⟨w', hstep, rfl, -⟩ := w.checked_step.exists_ok
    ⟨⟨Nat.le_of_lt hmoves.inOld.2, hmoves.depth⟩, hmoves.word, hcell⟩
  exact hstep

/-- The frames have not been moved yet, their copies are in place and hold the old links, and
whoever holds the link of the walk is no copy. -/
structure Ready (r : Relocation) (new : Segment) (frames : List Nat) (last : Nat) (w : TrapWalk) :
    Prop where
  moves : ∀ f ∈ frames, r.Moves new f
  distinct : frames.Nodup
  apart : ∀ f ∈ frames, r.inOld (r.target f) = false
  chain : TrapChain (fun f => w.memory.linkAt (r.target f)) w.link frames last
  head : w.cell = none → w.exnHandler = w.link
  holder : ∀ c ∈ w.cell, new.IsWord c ∧ c ∉ frames.map r.target ∧ w.memory.linkAt c = w.link

/-- The outcome of the walk over the rest `frames` of a chain. Whoever holds the link at the start,
and the copies of the frames, form the moved chain. -/
structure Relocated (r : Relocation) (frames : List Nat) (last : Nat) (w w' : TrapWalk) : Prop where
  head : w'.exnHandler =
    if w.cell = none then (frames.map r.target).headD last else w.exnHandler
  holder : ∀ c ∈ w.cell, w'.memory.linkAt c = (frames.map r.target).headD last
  chain : TrapChain w'.memory.linkAt ((frames.map r.target).headD last) (frames.map r.target) last
  asyncExn : w'.asyncExnHandler =
    if w.asyncExnHandler ∈ frames then r.target w.asyncExnHandler else w.asyncExnHandler
  kept : ∀ a, a ∉ frames.map r.target → a ∉ w.cell → w'.memory.read a = w.memory.read a

variable {frames : List Nat} {last f : Nat} {w w' : TrapWalk}

theorem Ready.target_not_mem (h : Ready r new (f :: frames) last w) :
    r.target f ∉ frames.map r.target := by
  intro hmem
  obtain ⟨g, hg, heq⟩ := List.mem_map.mp hmem
  have hsame := Relocation.target_injective (h.moves g (List.mem_cons_of_mem f hg))
    (h.moves f List.mem_cons_self) heq
  exact (List.nodup_cons.mp h.distinct).1 (hsame ▸ hg)

/-- The walk reads copies of frames, and writes where it read a link before. -/
theorem Ready.read_copy (h : Ready r new frames last w) {g moved : Nat} (hg : g ∈ frames) :
    (w.told moved).read (r.target g) = w.memory.read (r.target g) :=
  read_told (fun hc => (h.holder _ hc).2.1 (List.mem_map_of_mem hg)) moved

theorem Ready.after (h : Ready r new (f :: frames) last w) :
    Ready r new frames last (w.after r) := by
  obtain ⟨hlink, hnext⟩ := h.chain
  have hmem : ∀ g ∈ frames, g ∈ f :: frames := fun g hg => List.mem_cons_of_mem f hg
  refine ⟨fun g hg => h.moves g (hmem g hg), (List.nodup_cons.mp h.distinct).2,
    fun g hg => h.apart g (hmem g hg), ?_, ?_, ?_⟩
  · have heq : (w.after r).link = w.memory.linkAt (r.target f) := by
      simp only [TrapWalk.after, Memory.linkAt, hlink]
      rw [h.read_copy List.mem_cons_self]
    rw [heq]
    refine hnext.congr fun g hg => ?_
    simp only [TrapWalk.after, Memory.linkAt]
    rw [h.read_copy (hmem g hg)]
  · intro hnone
    cases hnone
  · intro c hc
    cases hc
    rw [hlink]
    refine ⟨(h.moves f List.mem_cons_self).word, h.target_not_mem, ?_⟩
    simp only [TrapWalk.after, hlink]

/-- A step and the walk over the other frames make the walk over all. -/
theorem Relocated.cons (hready : Ready r new (f :: frames) last w) (hhigh : r.newHigh < Size.limit)
    (h : Relocated r frames last (w.after r) w') : Relocated r (f :: frames) last w w' := by
  have hlink : w.link = f := hready.chain.1
  have htarget : r.target f < Size.limit := by
    unfold Relocation.target
    omega
  have hcell : (w.after r).cell = some (r.target f) := by rw [← hlink]; rfl
  constructor
  · rw [h.head, hcell]
    simp only [TrapWalk.after, hlink, reduceCtorEq, if_false]
    rfl
  · intro c hc
    have hcopy := (hready.holder c hc).2.1
    have hkept := h.kept c (fun hmem => hcopy (List.mem_cons_of_mem _ hmem)) fun heq => by
      rw [hcell] at heq
      exact hcopy (Option.some.inj heq ▸ List.mem_cons_self)
    unfold Memory.linkAt
    rw [hkept]
    simp only [TrapWalk.after, hlink]
    exact linkAt_told hc htarget
  · refine ⟨rfl, ?_⟩
    rw [h.holder (r.target f) hcell]
    exact h.chain
  · rw [h.asyncExn]
    simp only [TrapWalk.after, hlink]
    by_cases hasync : f = w.asyncExnHandler
    · have hout : r.target f ∉ frames := by
        intro hmem
        have hold := (hready.moves _ (List.mem_cons_of_mem f hmem)).inOld_eq_true
        rw [hready.apart f List.mem_cons_self] at hold
        cases hold
      rw [if_pos hasync, if_neg hout, ← hasync, if_pos List.mem_cons_self]
    · have hmem : w.asyncExnHandler ∈ f :: frames ↔ w.asyncExnHandler ∈ frames := by
        rw [List.mem_cons, or_iff_right fun heq => hasync heq.symm]
      rw [if_neg hasync]
      simp only [hmem]
  · intro a ha hac
    rw [List.map_cons, List.mem_cons, not_or] at ha
    rw [h.kept a ha.2 fun heq => ha.1 (Option.some.inj (hcell.symm.trans heq)).symm]
    exact read_told hac _

theorem run_relocated (hhigh : r.newHigh < Size.limit) (hlast : r.inOld last = false) (steps : Nat)
    (hsteps : frames.length ≤ steps) (h : Ready r new frames last w) :
    ∃ w', run r new steps w = .ok w' ∧ Relocated r frames last w w' := by
  induction frames generalizing w steps with
  | nil =>
      have hlink : w.link = last := h.chain
      have hout : r.inOld w.link = false := by rwa [hlink]
      refine ⟨w, ?_, ?_, ?_, rfl, rfl, fun _ _ _ => rfl⟩
      · cases steps <;> simp [run, hout]
      · split
        · rename_i hnone
          rw [h.head hnone, hlink]
          rfl
        · rfl
      · intro c hc
        rw [(h.holder c hc).2.2, hlink]
        rfl
  | cons f frames ih =>
      cases steps with
      | zero => cases hsteps
      | succ steps =>
          have hmoves : r.Moves new w.link := by
            rw [h.chain.1]
            exact h.moves f List.mem_cons_self
          obtain ⟨w', hrun, hw'⟩ := ih steps (Nat.le_of_succ_le_succ hsteps) h.after
          refine ⟨w', ?_, Relocated.cons h hhigh hw'⟩
          rw [run, if_pos hmoves.inOld_eq_true, step_eq hmoves fun c hc => (h.holder c hc).1]
          exact hrun

end TrapWalk

end FiberStacks
