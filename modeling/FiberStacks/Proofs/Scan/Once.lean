import FiberStacks.Proofs.Memory
import FiberStacks.Proofs.Scan.Walked
import Mathlib.Data.List.Nodup

/-!
# Locations reported once

Where a location is tells who owns it: a frame of a stack, a handler block, or a register save area.
If the frames of compiled code name their locations in order and memory is divided among stacks and
save areas, the scan of a chain meets every location once, with one exception. The save area handed
to the scan serves the first chunk of each segment, so its locations may be met once for each
segment, and nothing else may.
-/

namespace FiberStacks

theorem pairwise_of_tail {α : Type} {P : α → Prop} {l : List α} (h : ∀ b ∈ l.tail, P b) :
    l.Pairwise fun _ b => P b := by
  cases l with
  | nil => exact List.Pairwise.nil
  | cons a l =>
      refine List.pairwise_cons.mpr ⟨h, ?_⟩
      exact List.pairwise_of_forall_mem_list fun _ _ b hb => h b hb

/-- The locations of a register save area of `width` registers. -/
def registerSlots (width : Nat) : Option Nat → List Nat
  | none => []
  | some area => Memory.span area width

/-- The live locations of a call site are distinct, in its own frame or among `width` registers. -/
structure FrameDescriptor.Orderly (width : Nat) (d : FrameDescriptor) : Prop where
  distinct : d.liveSlots.Nodup
  inside : ∀ offset, .stack offset ∈ d.liveSlots → offset < d.frameSize
  counted : ∀ index, .register index ∈ d.liveSlots → index < width

/-- The address is on the stack or in its handler block. -/
def Segment.Occupies (s : Segment) (a : Nat) : Prop :=
  s.sp ≤ a ∧ a < s.high + handlerBlockBytes

namespace MetFrame

def Covers (f : MetFrame) (a : Nat) : Prop :=
  f.base ≤ a ∧ a < f.base + f.descriptor.frameSize

/-- The frame ends where the other begins, or below. -/
def Below (f g : MetFrame) : Prop :=
  f.base + f.descriptor.frameSize ≤ g.base

/-- No live location of the frame is a register. -/
def RegisterFree (f : MetFrame) : Prop :=
  ∀ index, .register index ∉ f.descriptor.liveSlots

variable {f g : MetFrame} {registers : Option Nat} {width : Nat}

theorem Below.not_covers (h : f.Below g) {a : Nat} (hf : f.Covers a) : ¬ g.Covers a := by
  intro hg
  unfold Below at h
  unfold Covers at hf hg
  omega

theorem covers_or_mem (hf : f.descriptor.Orderly width) {a : Nat} (ha : a ∈ f.slots registers) :
    f.Covers a ∨ a ∈ registerSlots width registers ∧ ¬ f.RegisterFree := by
  obtain ⟨l, hl, hplace⟩ := List.mem_filterMap.mp ha
  cases l with
  | stack offset =>
      have hoffset := hf.inside offset hl
      cases hplace
      exact .inl ⟨by omega, by omega⟩
  | register index =>
      obtain ⟨area, rfl, rfl⟩ := Option.map_eq_some_iff.mp hplace
      refine .inr ⟨?_, fun hfree => hfree index hl⟩
      exact Memory.mem_span_iff.mpr ⟨index, hf.counted index hl, by rw [Nat.mul_comm]⟩

/-- The locations of a frame are distinct, but for stack locations that are in the save area too. -/
theorem nodup_filter_slots (hf : f.descriptor.Orderly width) {keep : Nat → Bool}
    (haside : ∀ a ∈ registerSlots width registers, keep a → ¬ f.Covers a) :
    ((f.slots registers).filter keep).Nodup := by
  have hstack : ∀ offset index b, .stack offset ∈ f.descriptor.liveSlots →
      .register index ∈ f.descriptor.liveSlots →
      LiveLocation.place? f.base registers (.stack offset) = some b →
      LiveLocation.place? f.base registers (.register index) = some b → keep b → False := by
    intro offset index b ho hi hplace hplace' hkeep
    have hoffset := hf.inside offset ho
    cases hplace
    obtain ⟨area, rfl, harea⟩ := Option.map_eq_some_iff.mp hplace'
    refine haside _ ?_ hkeep ⟨by omega, by omega⟩
    exact Memory.mem_span_iff.mpr ⟨index, hf.counted index hi, by rw [← harea, Nat.mul_comm]⟩
  unfold slots
  rw [List.Nodup, List.pairwise_filter, List.pairwise_filterMap]
  refine hf.distinct.imp_of_mem fun {l l'} hl hl' hne b hb b' hb' hkeep hkeep' heq => ?_
  subst heq
  cases l with
  | stack offset =>
      cases l' with
      | stack offset' =>
          apply hne
          have heq := Option.some.inj (hb.trans hb'.symm)
          rw [Nat.add_left_cancel heq]
      | register index => exact hstack offset index b hl hl' hb hb' hkeep
  | register index =>
      cases l' with
      | stack offset => exact hstack offset index b hl' hl hb' hb hkeep
      | register index' =>
          apply hne
          obtain ⟨area, hsome, hplace⟩ := Option.map_eq_some_iff.mp hb
          obtain ⟨area', hsome', hplace'⟩ := Option.map_eq_some_iff.mp hb'
          cases hsome.symm.trans hsome'
          have heq := Nat.add_left_cancel (hplace.trans hplace'.symm)
          rw [Nat.eq_of_mul_eq_mul_right (by decide) heq]

end MetFrame

namespace MetChunk

/-- The address is in a frame of the chunk. -/
def Covers (c : MetChunk) (a : Nat) : Prop := ∃ f ∈ c.frames, f.Covers a

variable {c : MetChunk} {width : Nat}

theorem covers_or_mem (hc : ∀ f ∈ c.frames, f.descriptor.Orderly width) {a : Nat}
    (ha : a ∈ c.slots) : c.Covers a ∨ a ∈ registerSlots width c.registers := by
  obtain ⟨f, hf, hslot⟩ := List.mem_flatMap.mp ha
  rcases MetFrame.covers_or_mem (hc f hf) hslot with hcovers | ⟨hmem, -⟩
  · exact .inl ⟨f, hf, hcovers⟩
  · exact .inr hmem

theorem nodup_filter_slots (hc : ∀ f ∈ c.frames, f.descriptor.Orderly width)
    (hbelow : c.frames.Pairwise MetFrame.Below)
    (hfree : ∀ f ∈ c.frames.tail, f.RegisterFree) {keep : Nat → Bool}
    (haside : ∀ a ∈ registerSlots width c.registers, keep a → ¬ c.Covers a) :
    (c.slots.filter keep).Nodup := by
  have hasideFrame : ∀ f ∈ c.frames, ∀ a ∈ registerSlots width c.registers, keep a →
      ¬ f.Covers a := fun f hf a ha hkeep hcovers => haside a ha hkeep ⟨f, hf, hcovers⟩
  have hlater : c.frames.Pairwise fun _ g => g.RegisterFree := pairwise_of_tail hfree
  unfold slots
  rw [List.filter_flatMap, List.nodup_flatMap]
  refine ⟨fun f hf => MetFrame.nodup_filter_slots (hc f hf) (hasideFrame f hf), ?_⟩
  refine (hbelow.and hlater).imp_of_mem fun {f g} hf hg h a haf hag => ?_
  obtain ⟨hfslot, hkeep⟩ := List.mem_filter.mp haf
  obtain ⟨hgslot, -⟩ := List.mem_filter.mp hag
  -- The later frame names no register, so the location is its own.
  have hgcovers : g.Covers a := by
    rcases MetFrame.covers_or_mem (hc g hg) hgslot with hcovers | ⟨-, hnot⟩
    · exact hcovers
    · exact absurd h.2 hnot
  rcases MetFrame.covers_or_mem (hc f hf) hfslot with hcovers | ⟨hmem, -⟩
  · exact h.1.not_covers hcovers hgcovers
  · exact hasideFrame g hg a hmem hkeep hgcovers

end MetChunk

namespace MetStack

def frames (s : MetStack) : List MetFrame := s.chunks.flatMap MetChunk.frames

/-- The register save areas that chunks of the stack left for the next chunk. -/
def savedAreas (s : MetStack) : List (Option Nat) := s.chunks.tail.map MetChunk.registers

/-- What a scan finds out about a stack: its frames lie in it one above the other, their call sites
are orderly, and the first chunk has the save area handed to the scan. -/
structure Fits (width : Nat) (registers : Option Nat) (s : MetStack) : Prop where
  sp_le_high : s.segment.sp ≤ s.segment.high
  below : s.frames.Pairwise MetFrame.Below
  inside : ∀ f ∈ s.frames, s.segment.sp ≤ f.base ∧
    f.base + f.descriptor.frameSize ≤ s.segment.high
  orderly : ∀ f ∈ s.frames, f.descriptor.Orderly width
  head : ∀ c ∈ s.chunks.head?, c.registers = registers
  told : (s.visits.map Visit.slot).Sublist s.slots

/-- Stacks and register save areas share no memory, and only the first frame of a chunk has live
registers. Nothing is asked of the save area handed to the scan but that the saved ones are apart
from it. -/
structure Apart (width : Nat) (registers : Option Nat) (met : List MetStack) : Prop where
  territories : met.Pairwise fun s t => ∀ a, s.segment.Occupies a → ¬ t.segment.Occupies a
  free : ∀ s ∈ met, ∀ c ∈ s.chunks, ∀ f ∈ c.frames.tail, f.RegisterFree
  areas : (met.flatMap savedAreas).Pairwise fun r r' =>
    (registerSlots width r).Disjoint (registerSlots width r')
  given : ∀ r ∈ met.flatMap savedAreas,
    (registerSlots width registers).Disjoint (registerSlots width r)
  aside : ∀ r ∈ met.flatMap savedAreas, ∀ s ∈ met, ∀ a ∈ registerSlots width r,
    ¬ s.segment.Occupies a

variable {s t : MetStack} {width : Nat} {registers : Option Nat}

theorem Fits.occupies_of_covers (hs : s.Fits width registers) {c : MetChunk} (hc : c ∈ s.chunks)
    {a : Nat} (ha : c.Covers a) : s.segment.Occupies a ∧ a < s.segment.high := by
  obtain ⟨f, hf, hcovers⟩ := ha
  have hinside := hs.inside f (List.mem_flatMap.mpr ⟨c, hc, hf⟩)
  unfold MetFrame.Covers at hcovers
  unfold Segment.Occupies
  omega

theorem Fits.occupies_handler (hs : s.Fits width registers) {a : Nat}
    (ha : a ∈ s.segment.handlerSlots) : s.segment.Occupies a ∧ s.segment.high ≤ a := by
  obtain ⟨i, hi, rfl⟩ := Memory.mem_span_iff.mp ha
  have hle := hs.sp_le_high
  simp only [Segment.Occupies, handlerBlockBytes, wordBytes]
  omega

theorem Fits.orderly_of_mem (hs : s.Fits width registers) {c : MetChunk} (hc : c ∈ s.chunks) :
    ∀ f ∈ c.frames, f.descriptor.Orderly width :=
  fun f hf => hs.orderly f (List.mem_flatMap.mpr ⟨c, hc, hf⟩)

/-- A chunk has the save area handed to the scan or one that another chunk left. -/
theorem Fits.area (hs : s.Fits width registers) {c : MetChunk} (hc : c ∈ s.chunks) :
    c.registers = registers ∨ c.registers ∈ s.savedAreas := by
  have hhead := hs.head
  unfold savedAreas
  cases hchunks : s.chunks with
  | nil =>
      rw [hchunks] at hc
      cases hc
  | cons first later =>
      rw [hchunks] at hc hhead
      rcases List.mem_cons.mp hc with rfl | hc
      · exact .inl (hhead c rfl)
      · exact .inr (List.mem_map_of_mem hc)

/-- Each location of a stack is on the stack, in the save area handed to the scan, or in one that a
chunk left. -/
theorem Fits.location (hs : s.Fits width registers) {a : Nat} (ha : a ∈ s.slots) :
    s.segment.Occupies a ∨ a ∈ registerSlots width registers ∨
      ∃ r ∈ s.savedAreas, a ∈ registerSlots width r := by
  rcases List.mem_append.mp ha with ha | ha
  · obtain ⟨c, hc, hslot⟩ := List.mem_flatMap.mp ha
    rcases MetChunk.covers_or_mem (hs.orderly_of_mem hc) hslot with hcovers | hmem
    · exact .inl (hs.occupies_of_covers hc hcovers).1
    · rcases hs.area hc with hgiven | hsaved
      · exact .inr (.inl (hgiven ▸ hmem))
      · exact .inr (.inr ⟨c.registers, hsaved, hmem⟩)
  · exact .inl (hs.occupies_handler ha).1

theorem Fits.pairwise_areas (hs : s.Fits width registers)
    (hgiven : ∀ r ∈ s.savedAreas, (registerSlots width registers).Disjoint (registerSlots width r))
    (hareas : s.savedAreas.Pairwise fun r r' =>
      (registerSlots width r).Disjoint (registerSlots width r')) :
    s.chunks.Pairwise fun c d =>
      (registerSlots width c.registers).Disjoint (registerSlots width d.registers) := by
  have hhead := hs.head
  unfold savedAreas at hgiven hareas
  cases hchunks : s.chunks with
  | nil => exact List.Pairwise.nil
  | cons c cs =>
      rw [hchunks] at hhead hgiven hareas
      have hlater := List.pairwise_map.mp hareas
      refine List.pairwise_cons.mpr ⟨fun d hd => ?_, hlater⟩
      rw [hhead c rfl]
      exact hgiven _ (List.mem_map_of_mem hd)

section Kept

variable {keep : Nat → Bool} {c d : MetChunk} {a : Nat}

/-- Whatever the save area of a chunk, what is kept of it is not on the stack. -/
theorem Fits.not_occupies (hs : s.Fits width registers)
    (haside : ∀ r ∈ s.savedAreas, ∀ a ∈ registerSlots width r, ¬ s.segment.Occupies a)
    (hkeep : ∀ a ∈ registerSlots width registers, keep a → ¬ s.segment.Occupies a)
    (hc : c ∈ s.chunks) (ha : a ∈ registerSlots width c.registers) (hka : keep a) :
    ¬ s.segment.Occupies a := by
  rcases hs.area hc with hgiven | hsaved
  · exact hkeep a (hgiven ▸ ha) hka
  · exact haside c.registers hsaved a ha

/-- Two chunks with frames and save areas apart share no location that is kept. -/
theorem Fits.disjoint_chunks (hs : s.Fits width registers) (hc : c ∈ s.chunks) (hd : d ∈ s.chunks)
    (hoff : ∀ e ∈ s.chunks, a ∈ registerSlots width e.registers → ¬ s.segment.Occupies a)
    (hframes : ∀ f ∈ c.frames, ∀ g ∈ d.frames, f.Below g)
    (hareas : (registerSlots width c.registers).Disjoint (registerSlots width d.registers))
    (hac : a ∈ c.slots) (had : a ∈ d.slots) : False := by
  rcases MetChunk.covers_or_mem (hs.orderly_of_mem hc) hac with hcovers | hmem
  · rcases MetChunk.covers_or_mem (hs.orderly_of_mem hd) had with hcovers' | hmem'
    · obtain ⟨f, hf, hfa⟩ := hcovers
      obtain ⟨g, hg, hga⟩ := hcovers'
      exact (hframes f hf g hg).not_covers hfa hga
    · exact hoff d hd hmem' (hs.occupies_of_covers hc hcovers).1
  · rcases MetChunk.covers_or_mem (hs.orderly_of_mem hd) had with hcovers' | hmem'
    · exact hoff c hc hmem (hs.occupies_of_covers hd hcovers').1
    · exact hareas hmem hmem'

theorem Fits.not_mem_handlerSlots (hs : s.Fits width registers) (hc : c ∈ s.chunks)
    (hoff : a ∈ registerSlots width c.registers → ¬ s.segment.Occupies a) (hac : a ∈ c.slots) :
    a ∉ s.segment.handlerSlots := by
  intro hhandler
  obtain ⟨hoccupies, hhigh⟩ := hs.occupies_handler hhandler
  rcases MetChunk.covers_or_mem (hs.orderly_of_mem hc) hac with hcovers | hmem
  · have hlow := (hs.occupies_of_covers hc hcovers).2
    omega
  · exact hoff hmem hoccupies

/-- The locations of one stack are distinct, but for those on the stack that are in the save area
handed to the scan too. -/
theorem Fits.nodup_filter_slots (hs : s.Fits width registers)
    (hfree : ∀ c ∈ s.chunks, ∀ f ∈ c.frames.tail, f.RegisterFree)
    (hgiven : ∀ r ∈ s.savedAreas, (registerSlots width registers).Disjoint (registerSlots width r))
    (hareas : s.savedAreas.Pairwise fun r r' =>
      (registerSlots width r).Disjoint (registerSlots width r'))
    (haside : ∀ r ∈ s.savedAreas, ∀ a ∈ registerSlots width r, ¬ s.segment.Occupies a)
    (hkeep : ∀ a ∈ registerSlots width registers, keep a → ¬ s.segment.Occupies a) :
    (s.slots.filter keep).Nodup := by
  have hbelow := List.pairwise_flatMap.mp hs.below
  have hoff : ∀ a, keep a → ∀ c ∈ s.chunks, a ∈ registerSlots width c.registers →
      ¬ s.segment.Occupies a := fun a hka c hc ha => hs.not_occupies haside hkeep hc ha hka
  unfold slots
  rw [List.filter_append, List.filter_flatMap, List.nodup_append, List.nodup_flatMap]
  refine ⟨⟨fun c hc => ?_, ?_⟩, ?_, ?_⟩
  · apply MetChunk.nodup_filter_slots (hs.orderly_of_mem hc) (hbelow.1 c hc) (hfree c hc)
    intro a ha hka hcovers
    exact hoff a hka c hc ha (hs.occupies_of_covers hc hcovers).1
  · refine (hbelow.2.and (hs.pairwise_areas hgiven hareas)).imp_of_mem
      fun {c d} hc hd h a hac had => ?_
    obtain ⟨hcslot, hka⟩ := List.mem_filter.mp hac
    exact hs.disjoint_chunks hc hd (hoff a hka) h.1 h.2 hcslot (List.mem_of_mem_filter had)
  · apply List.Nodup.filter _
    simp [Segment.handlerSlots, Memory.span, List.range_succ, wordBytes]
  · intro a ha b hb heq
    subst heq
    obtain ⟨c, hc, hac⟩ := List.mem_flatMap.mp ha
    obtain ⟨hslot, hka⟩ := List.mem_filter.mp hac
    exact hs.not_mem_handlerSlots hc (hoff a hka c hc) hslot (List.mem_of_mem_filter hb)

end Kept

/-- A location of two stacks is in the save area handed to the scan. -/
theorem mem_registerSlots_of_mem_slots (hs : s.Fits width registers) (ht : t.Fits width registers)
    (hstacks : ∀ a, s.segment.Occupies a → ¬ t.segment.Occupies a)
    (hareas : ∀ r ∈ s.savedAreas, ∀ r' ∈ t.savedAreas,
      (registerSlots width r).Disjoint (registerSlots width r'))
    (hs' : ∀ r ∈ s.savedAreas, ∀ a ∈ registerSlots width r, ¬ t.segment.Occupies a)
    (ht' : ∀ r ∈ t.savedAreas, ∀ a ∈ registerSlots width r, ¬ s.segment.Occupies a)
    {a : Nat} (has : a ∈ s.slots) (hat : a ∈ t.slots) : a ∈ registerSlots width registers := by
  rcases hs.location has with hstack | hgiven | ⟨r, hr, har⟩
  · rcases ht.location hat with hstack' | hgiven | ⟨r', hr', har'⟩
    · exact absurd hstack' (hstacks a hstack)
    · exact hgiven
    · exact absurd hstack (ht' r' hr' a har')
  · exact hgiven
  · rcases ht.location hat with hstack' | hgiven | ⟨r', hr', har'⟩
    · exact absurd hstack' (hs' r hr a har)
    · exact hgiven
    · exact absurd har' (hareas r hr r' hr' har)

theorem Apart.nodup_filter_slots {met : List MetStack} (h : Apart width registers met)
    (hfits : ∀ s ∈ met, s.Fits width registers) (hs : s ∈ met) {keep : Nat → Bool}
    (hkeep : ∀ a ∈ registerSlots width registers, keep a → ¬ s.segment.Occupies a) :
    (s.slots.filter keep).Nodup := by
  have hsaved : ∀ r ∈ s.savedAreas, r ∈ met.flatMap savedAreas :=
    fun r hr => List.mem_flatMap.mpr ⟨s, hs, hr⟩
  refine (hfits s hs).nodup_filter_slots (h.free s hs) (fun r hr => h.given r (hsaved r hr)) ?_
    (fun r hr => h.aside r (hsaved r hr) s hs) hkeep
  exact (List.pairwise_flatMap.mp h.areas).1 s hs

/-- Only locations of the save area handed to the scan are reported for two stacks. -/
theorem Apart.pairwise_shared {met : List MetStack} (h : Apart width registers met)
    (hfits : ∀ s ∈ met, s.Fits width registers) :
    met.Pairwise fun s t => ∀ a, a ∈ s.visits.map Visit.slot → a ∈ t.visits.map Visit.slot →
      a ∈ registerSlots width registers := by
  have hareas := (List.pairwise_flatMap.mp h.areas).2
  refine (h.territories.and hareas).imp_of_mem fun {s t} hs ht hst a has hat => ?_
  refine mem_registerSlots_of_mem_slots (hfits s hs) (hfits t ht) hst.1 hst.2 ?_ ?_
    ((hfits s hs).told.subset has) ((hfits t ht).told.subset hat)
  · exact fun r hr => h.aside r (List.mem_flatMap.mpr ⟨s, hs, hr⟩) t ht
  · exact fun r hr => h.aside r (List.mem_flatMap.mpr ⟨t, ht, hr⟩) s hs

end MetStack

namespace Scanner

variable {sc : Scanner} {high width : Nat} {position : WalkPosition} {p q : Progress}
  {frames : List MetFrame} {chunks : List MetChunk}

theorem Walked.sp_le_high (h : Walked sc high position p frames chunks q) : position.sp ≤ high := by
  cases h with
  | finish top =>
      rw [← top]
      exact sc.le_chunkTop high _
  | enter top rest => exact Nat.le_of_lt (Nat.lt_of_le_of_lt (sc.le_chunkTop high _) top)
  | boundary found native inside rest =>
      simp only [WalkPosition.sp]
      omega
  | frame found compiled reaches visited positive sized inside rest =>
      simp only [WalkPosition.sp]
      omega

/-- A walk comes by frames that lie one above the other, up to the end of the stack. -/
theorem Walked.frames_below (h : Walked sc high position p frames chunks q) :
    (frames ++ chunks.flatMap MetChunk.frames).Pairwise MetFrame.Below ∧
      ∀ f ∈ frames ++ chunks.flatMap MetChunk.frames,
        position.sp ≤ f.base ∧ f.base + f.descriptor.frameSize ≤ high := by
  induction h with
  | finish top => exact ⟨List.Pairwise.nil, fun f hf => absurd hf List.not_mem_nil⟩
  | @enter sp registers p q frames later top _ ih =>
      refine ⟨ih.1, fun f hf => ?_⟩
      have hf := ih.2 f hf
      have habove := sc.le_chunkTop high sp
      simp only [WalkPosition.sp] at hf ⊢
      omega
  | boundary found native inside _ ih =>
      refine ⟨ih.1, fun f hf => ?_⟩
      have hf := ih.2 f hf
      simp only [WalkPosition.sp] at hf ⊢
      omega
  | frame found compiled reaches visited positive sized inside _ ih =>
      rw [List.cons_append]
      refine ⟨List.pairwise_cons.mpr ⟨fun f hf => (ih.2 f hf).1, ih.1⟩, fun f hf => ?_⟩
      rcases List.mem_cons.mp hf with rfl | hf
      · exact ⟨Nat.le_refl _, inside⟩
      · have hf := ih.2 f hf
        simp only [WalkPosition.sp] at hf ⊢
        omega

theorem Walked.head_registers {sp : Nat} {registers : Option Nat}
    (h : Walked sc high (.chunk sp registers) p [] chunks q) :
    ∀ c ∈ chunks.head?, c.registers = registers := by
  intro c hc
  cases h with
  | finish top => cases hc
  | enter top rest =>
      cases hc
      rfl

theorem Scanned.fits {registers : Option Nat} {chain : Chain} {met : List MetStack}
    (htable : ∀ a d, sc.ctx.frames a = some d → d.returnsToNative = false → d.Orderly width)
    (h : Scanned sc registers chain p met q) : ∀ s ∈ met, s.Fits width registers := by
  induction h with
  | nil => exact fun s hs => absurd hs List.not_mem_nil
  | @cons s outer p u v q chunks visits met walked handled told _ ih =>
      intro t ht
      rcases List.mem_cons.mp ht with rfl | ht
      · obtain ⟨hbelow, hinside⟩ := walked.frames_below
        refine ⟨walked.sp_le_high, hbelow, hinside, ?_, walked.head_registers, ?_⟩
        · intro f hf
          obtain ⟨hcompiled, a, hfound⟩ := walked.frames_described f hf
          exact htable a _ hfound hcompiled
        · obtain ⟨visits', hvisits, hslots⟩ := exists_stack_visits walked handled
          have heq := List.append_cancel_right (hvisits.symm.trans told)
          rw [List.reverse_injective heq] at hslots
          exact hslots
      · exact ih t ht

/-- The visits of a scan are those for the stacks it meets. -/
theorem Scanned.visits_eq {registers : Option Nat} {chain : Chain} {met : List MetStack}
    (h : Scanned sc registers chain p met q) :
    q.visits = (met.flatMap MetStack.visits).reverse ++ p.visits := by
  induction h with
  | nil => rfl
  | cons walked handled told _ ih =>
      rw [ih, List.flatMap_cons, List.reverse_append, List.append_assoc, ← told]
      rfl

/-- Outside of the save area handed to the scan no location is reported twice. -/
theorem nodup_filter_reported {registers : Option Nat} {met : List MetStack}
    (hfits : ∀ s ∈ met, s.Fits width registers) (hapart : MetStack.Apart width registers met) :
    (((met.flatMap MetStack.visits).map Visit.slot).filter
      fun a => a ∉ registerSlots width registers).Nodup := by
  rw [List.map_flatMap, List.filter_flatMap, List.nodup_flatMap]
  refine ⟨fun s hs => ?_, ?_⟩
  · refine ((hfits s hs).told.filter _).nodup ?_
    refine hapart.nodup_filter_slots hfits hs fun a ha hkeep => ?_
    exact absurd ha (of_decide_eq_true hkeep)
  · refine (hapart.pairwise_shared hfits).imp fun {s t} h a has hat => ?_
    obtain ⟨has, hkeep⟩ := List.mem_filter.mp has
    obtain ⟨hat, -⟩ := List.mem_filter.mp hat
    exact of_decide_eq_true hkeep (h a has hat)

/-- The scan of a chain over orderly frames, with memory divided among stacks and save areas,
reports every location once exactly if it does so for those in the save area handed to it. If that
save area is not on a stack, this is the case exactly if no two segments report the same location
of it. -/
theorem Scanned.nodup_slots_iff {registers : Option Nat} {chain : Chain} {met : List MetStack}
    (hnative : sc.ctx.mode = .native)
    (htable : ∀ a d, sc.ctx.frames a = some d → d.returnsToNative = false → d.Orderly width)
    (hscan : Scanned sc registers chain p met q) (hapart : MetStack.Apart width registers met) :
    sc.scanChain registers chain p = .ok () q ∧
      q.visits = (met.flatMap MetStack.visits).reverse ++ p.visits ∧
      (((met.flatMap MetStack.visits).map Visit.slot).Nodup ↔
        (((met.flatMap MetStack.visits).map Visit.slot).filter
          fun a => a ∈ registerSlots width registers).Nodup) ∧
      ((∀ s ∈ met, ∀ a ∈ registerSlots width registers, ¬ s.segment.Occupies a) →
        (((met.flatMap MetStack.visits).map Visit.slot).Nodup ↔
          met.Pairwise fun s t => ∀ a ∈ registerSlots width registers,
            a ∈ s.visits.map Visit.slot → a ∉ t.visits.map Visit.slot)) := by
  have hfits := hscan.fits htable
  refine ⟨(scanChain_eq_ok_iff hnative).mpr ⟨met, hscan⟩, hscan.visits_eq, ⟨?_, ?_⟩, ?_⟩
  · exact fun h => h.filter _
  · intro hgiven
    have hother := nodup_filter_reported hfits hapart
    have hperm := List.filter_append_perm (fun a => decide (a ∈ registerSlots width registers))
      ((met.flatMap MetStack.visits).map Visit.slot)
    rw [← hperm.nodup_iff, List.nodup_append]
    refine ⟨hgiven, ?_, ?_⟩
    · simpa using hother
    · intro a ha b hb heq
      subst heq
      have hin := (List.mem_filter.mp ha).2
      have hout := (List.mem_filter.mp hb).2
      rw [hin] at hout
      cases hout
  · intro haside
    rw [List.map_flatMap, List.nodup_flatMap]
    constructor
    · intro h
      exact h.2.imp fun hdisjoint a _ has hat => hdisjoint has hat
    · intro hgiven
      refine ⟨fun s hs => ?_, ?_⟩
      · refine (hfits s hs).told.nodup ?_
        have h : (s.slots.filter fun _ => true).Nodup :=
          hapart.nodup_filter_slots hfits hs fun a ha _ => haside s hs a ha
        rwa [List.filter_true] at h
      · exact (hgiven.and (hapart.pairwise_shared hfits)).imp
          fun h a has hat => h.1 a (h.2 a has hat) has hat

end Scanner

/-! ### One save area for two segments

The frames of two stacks both have register 0 live. The third stack has no frames. -/

namespace SharedRegisters

def frame : FrameDescriptor := ⟨8, [1], false⟩

def frames (returnAddress : Nat) : Option FrameDescriptor :=
  if returnAddress = 0x4000 then some frame
  else if returnAddress = 0x5000 then some .nativeBoundary
  else none

def scanner : Scanner := ⟨ScanContext.native frames, Visitor.observe, .empty, none⟩

def start : Progress :=
  .start ((((Memory.blank.store 0x1000 [0x4000, 0x5000, 1, 1, 1, 0, 9, 11, 13]).store
    0x2000 [0x4000, 0x5000, 1, 1, 1, 0, 3, 5, 7]).store
    0x3000 [0x5000, 1, 1, 1, 0, 3, 5, 7]).store 0x6000 [0x400, 11, 0x6008])

def segment (sp high : Nat) : Segment :=
  { memory := ⟨sp, 0x60, 0, .heap⟩, base := sp, high, sp, poolClass := none, id := ⟨1⟩,
    owner := ⟨1⟩, savedExn := 0, magic := segmentMagic }

/-- The visits to handlers of a stack. -/
def handlerVisits (high : Nat) (h : Handlers) : List Visit :=
  [⟨h.value, high⟩, ⟨h.exn, high + 8⟩, ⟨h.effect, high + 16⟩]

def inner : MetStack :=
  ⟨segment 0x1000 0x1030, [⟨some 0x6010, [⟨0x1008, frame⟩]⟩],
    ⟨0x6008, 0x6010⟩ :: handlerVisits 0x1030 ⟨9, 11, 13⟩⟩

def outer : MetStack :=
  ⟨segment 0x2000 0x2030, [⟨some 0x6010, [⟨0x2008, frame⟩]⟩],
    ⟨0x6008, 0x6010⟩ :: handlerVisits 0x2030 ⟨3, 5, 7⟩⟩

def bare : MetStack :=
  ⟨segment 0x3000 0x3028, [⟨some 0x6010, []⟩], handlerVisits 0x3028 ⟨3, 5, 7⟩⟩

theorem mem_liveSlots {l : LiveLocation} (h : l ∈ frame.liveSlots) : l = .register 0 :=
  List.mem_singleton.mp h

theorem orderly (a : Nat) (d : FrameDescriptor) (hfound : frames a = some d)
    (hcompiled : d.returnsToNative = false) : d.Orderly 1 := by
  unfold frames at hfound
  split at hfound
  · cases hfound
    refine ⟨by decide, ?_, ?_⟩
    · intro offset hoffset
      cases mem_liveSlots hoffset
    · intro index hindex
      cases mem_liveSlots hindex
      decide
  · split at hfound
    · cases hfound
      cases hcompiled
    · cases hfound

theorem reaches {high base : Nat} : ∀ l ∈ frame.liveSlots, l.InReach high base (some 0x6010) := by
  intro l hl
  rw [mem_liveSlots hl]
  rfl

theorem classified {p : Progress} (hp : p.memory = start.memory) :
    ∃ u, scanner.classifyAll [0x6010] p = .ok () u ∧ u.memory = start.memory ∧
      u.visits = ⟨0x6008, 0x6010⟩ :: p.visits := by
  have hsound : scanner.Sound := by
    intro v hv
    cases hv
  have hverdict : scanner.verdict start.memory (start.memory.read 0x6010) = .reported := by decide
  have hword : scanner.Classifiable p.memory (p.memory.read 0x6010) := by
    rw [hp]
    decide
  obtain ⟨log, hrun⟩ := Scanner.classify_observe rfl hsound hword
  rw [hp, hverdict] at hrun
  exact ⟨_, Run.forM_cons_eq_ok_iff.mpr ⟨_, Run.discard_of_ok hrun, rfl⟩, hp, rfl⟩

theorem handled (s : Segment) {p : Progress} (hp : p.memory = start.memory) :
    ∃ u, scanner.visitHandlers s p = .ok () u ∧ u.memory = start.memory ∧
      u.visits = (handlerVisits s.high (s.handlers start.memory)).reverse ++ p.visits := by
  obtain ⟨m, visits, accesses, segments⟩ := p
  cases hp
  refine ⟨_, rfl, ?_, ?_⟩
  · rfl
  · rfl

theorem walked_frame (sp : Nat) {p : Progress} (hp : p.memory = start.memory)
    (hframe : frames (start.memory.read sp).toNat = some frame)
    (hboundary : frames (start.memory.read (sp + 8)).toNat = some .nativeBoundary)
    (hlimit : sp + 0x30 < Size.limit) :
    ∃ u, Scanner.Walked scanner (sp + 0x30) (.chunk sp (some 0x6010)) p []
        [⟨some 0x6010, [⟨sp + 8, frame⟩]⟩] u ∧
      u.memory = start.memory ∧ u.visits = ⟨0x6008, 0x6010⟩ :: p.visits := by
  obtain ⟨u, hvisited, hu, hvisits⟩ := classified
    (p := (p.logging [.steer sp]).logging [.lookup (p.memory.read sp).toNat (sp + 8)]) hp
  rw [← hp] at hframe
  rw [← hu] at hboundary
  have hsize : sp + 8 + 8 < Size.limit := by omega
  exact ⟨_, .enter (show sp < sp + 0x30 by omega) (.frame hframe rfl reaches hvisited (by decide)
    hsize (show sp + 8 + 8 ≤ sp + 0x30 by omega) (.boundary hboundary rfl
      (show sp + 8 + 8 + 24 < sp + 0x30 by omega) (.finish rfl))), hu, hvisits⟩

theorem scanned_inner_outer :
    ∃ q, Scanner.Scanned scanner (some 0x6010) [inner.segment, outer.segment] start
      [inner, outer] q := by
  obtain ⟨u, hwalked, hu, huvisits⟩ :=
    walked_frame 0x1000 (p := start) rfl (by decide) (by decide) (by decide)
  obtain ⟨v, hhandled, hv, hvvisits⟩ := handled inner.segment hu
  obtain ⟨u', hwalked', hu', huvisits'⟩ :=
    walked_frame 0x2000 (p := v.finishing) hv (by decide) (by decide) (by decide)
  obtain ⟨v', hhandled', -, hvvisits'⟩ := handled outer.segment hu'
  refine ⟨_, .cons hwalked hhandled ?_ (.cons hwalked' hhandled' ?_ .nil)⟩
  · rw [hvvisits, huvisits]
    rfl
  · rw [hvvisits', huvisits']
    rfl

theorem scanned_inner_bare :
    ∃ q, Scanner.Scanned scanner (some 0x6010) [inner.segment, bare.segment] start
      [inner, bare] q := by
  obtain ⟨u, hwalked, hu, huvisits⟩ :=
    walked_frame 0x1000 (p := start) rfl (by decide) (by decide) (by decide)
  obtain ⟨v, hhandled, hv, hvvisits⟩ := handled inner.segment hu
  have hboundary : frames (v.finishing.memory.read 0x3000).toNat = some .nativeBoundary := by
    have hmemory : v.finishing.memory = start.memory := hv
    rw [hmemory]
    decide
  obtain ⟨v', hhandled', -, hvvisits'⟩ := handled bare.segment
    (p := (v.finishing.logging [.steer 0x3000]).logging [.steer 0x3020, .lookup
      (v.finishing.memory.read 0x3000).toNat 0x3008]) hv
  refine ⟨_, .cons hwalked hhandled ?_ (.cons (.enter (by decide) (.boundary hboundary rfl
    (by decide) (.finish rfl))) hhandled' ?_ .nil)⟩
  · rw [hvvisits, huvisits]
    rfl
  · rw [hvvisits']
    rfl

theorem apart_inner {t : MetStack} (ht : t = outer ∨ t = bare) :
    MetStack.Apart 1 (some 0x6010) [inner, t] := by
  have hsaved : [inner, t].flatMap MetStack.savedAreas = [] := by
    rcases ht with rfl | rfl <;> rfl
  constructor
  · apply List.pairwise_pair.mpr
    intro a hinner hother
    have hlow : 0x2000 ≤ t.segment.sp := by
      rcases ht with rfl | rfl <;> decide
    have hhigh : a < 0x1050 := hinner.2
    have hbelow := hother.1
    omega
  · intro s hs c hc f hf
    have hnil : c.frames.tail = [] := by
      rcases List.mem_pair.mp hs with rfl | rfl
      · rw [List.mem_singleton.mp hc]
        rfl
      · rcases ht with rfl | rfl <;>
        · rw [List.mem_singleton.mp hc]
          rfl
    rw [hnil] at hf
    cases hf
  · rw [hsaved]
    exact List.Pairwise.nil
  · rw [hsaved]
    exact fun r hr => absurd hr List.not_mem_nil
  · rw [hsaved]
    exact fun r hr => absurd hr List.not_mem_nil

/-- Two segments with a live register each: the location of the register is reported twice. -/
theorem register_reported_twice :
    (∀ a d, frames a = some d → d.returnsToNative = false → d.Orderly 1) ∧
      MetStack.Apart 1 (some 0x6010) [inner, outer] ∧
      ∃ q, Scanner.Scanned scanner (some 0x6010) [inner.segment, outer.segment] start
          [inner, outer] q ∧
        scanner.scanChain (some 0x6010) [inner.segment, outer.segment] start = .ok () q ∧
        ¬ (q.visits.map Visit.slot).Nodup := by
  obtain ⟨q, hscanned⟩ := scanned_inner_outer
  refine ⟨orderly, apart_inner (.inl rfl), q, hscanned, ?_, ?_⟩
  · exact (Scanner.scanChain_eq_ok_iff rfl).mpr ⟨_, hscanned⟩
  · rw [hscanned.visits_eq]
    decide

/-- A register that only one of two segments has live is reported once. -/
theorem register_reported_once :
    (∀ a d, frames a = some d → d.returnsToNative = false → d.Orderly 1) ∧
      MetStack.Apart 1 (some 0x6010) [inner, bare] ∧
      ∃ q, Scanner.Scanned scanner (some 0x6010) [inner.segment, bare.segment] start
          [inner, bare] q ∧
        scanner.scanChain (some 0x6010) [inner.segment, bare.segment] start = .ok () q ∧
        (([inner, bare].flatMap MetStack.visits).map Visit.slot).Nodup := by
  obtain ⟨q, hscanned⟩ := scanned_inner_bare
  refine ⟨orderly, apart_inner (.inr rfl), q, hscanned, ?_⟩
  obtain ⟨hrun, -, hiff, -⟩ :=
    Scanner.Scanned.nodup_slots_iff rfl orderly hscanned (apart_inner (.inr rfl))
  exact ⟨hrun, hiff.mpr (by decide)⟩

end SharedRegisters

end FiberStacks
