import FiberStacks.Domain.Growth
import FiberStacks.Proofs.Domain.Exchange
import FiberStacks.Proofs.Growth.TrapChain
import Mathlib.Data.List.Perm.Subperm

/-!
# A running segment that has grown

Growth copies the live words of the running segment to the upper end of a larger one. The chain of
trap frames follows its frames, and so does the asynchronous exception handler if it names one of
them. Whatever else was on the stack keeps its value and its distance from the upper end, and memory
outside of the two segments stays as it was.
-/

namespace FiberStacks

namespace Relocation

variable {old new : Segment}

theorem inOld_between (old new : Segment) (a : Nat) :
    (between old new).inOld a = old.contains a := rfl

theorem target_liveSlot (hold : old.Formed) (hsp : new.sp + wordBytes * old.usedWords = new.high)
    {i : Nat} (hi : i < old.usedWords) :
    (between old new).target (old.sp + wordBytes * i) = new.sp + wordBytes * i := by
  have hbytes := hold.used_bytes
  simp only [target, between, wordBytes] at *
  omega

theorem exists_of_mem_liveSlots {p : Nat} (hp : p ∈ old.liveSlots) :
    ∃ i < old.usedWords, p = old.sp + wordBytes * i :=
  Memory.mem_span_iff.mp hp

theorem moves_of_mem_liveSlots (hold : old.Formed) (hnew : new.Formed)
    (hsp : new.sp + wordBytes * old.usedWords = new.high) {p : Nat} (hp : p ∈ old.liveSlots) :
    (between old new).Moves new p := by
  obtain ⟨hbase, hhigh, -⟩ := hold.isWord_of_mem_liveSlots hp
  obtain ⟨i, hi, rfl⟩ := exists_of_mem_liveSlots hp
  have htarget := target_liveSlot hold hsp hi
  have hbytes := hold.used_bytes
  have hnewBase := hnew.base_le_sp
  have haligned := hnew.sp_aligned
  refine ⟨⟨hbase, hhigh⟩, ?_, ?_⟩
  · simp only [between, wordBytes] at *
    omega
  · rw [htarget]
    simp only [Segment.IsWord, wordBytes] at *
    omega

end Relocation

/-! ### Copies of live words -/

/-- Memory after the live words of `old` were copied to the upper end of `new`, and `new` took over
its parents. -/
def Segment.copied (m : Memory) (old new : Segment) (outer : Chain) : Memory :=
  new.recordParent (old.recordParent (m.store new.sp (old.liveWords m)) 0) outer.link

namespace Segment

variable {m : Memory} {old new : Segment} {outer : Chain} {a : Nat}

theorem owns_of_lt_high (h : new.Formed) (hlow : new.sp ≤ a) (hhigh : a < new.high) : new.Owns a :=
  ⟨Nat.le_trans h.base_le_sp hlow, Nat.lt_of_lt_of_le hhigh (Nat.le_add_right _ _)⟩

theorem read_copied_of_ne (hslot : a ≠ new.parentSlot) (hold : ¬ old.Owns a)
    (hformed : old.Formed) :
    (copied m old new outer).read a = (m.store new.sp (old.liveWords m)).read a := by
  have hne : a ≠ old.parentSlot := by
    rintro rfl
    exact hold (owns_parentSlot hformed)
  rw [copied, read_recordParent hslot, read_recordParent hne]

theorem read_copied (hold : old.Formed) (hnew : new.Formed) (hapart : new.Apart old)
    (hsp : new.sp + wordBytes * old.usedWords = new.high) {i : Nat} (hi : i < old.usedWords) :
    (copied m old new outer).read (new.sp + wordBytes * i) = m.read (old.sp + wordBytes * i) := by
  have hhigh : new.sp + wordBytes * i < new.high := by
    simp only [wordBytes] at hsp ⊢
    omega
  have howns := owns_of_lt_high hnew (Nat.le_add_right new.sp _) hhigh
  rw [read_copied_of_ne ?_ (hapart _ howns) hold]
  · exact Memory.read_store_load m m new.sp old.sp hi
  · simp only [parentSlot]
    omega

/-- The copying stays in the two segments, and out of the handlers of the new one. -/
theorem read_copied_elsewhere (hold : old.Formed)
    (hsp : new.sp + wordBytes * old.usedWords = new.high)
    (hslot : a ≠ new.parentSlot) (houtside : a < new.sp ∨ new.high ≤ a) (ha : ¬ old.Owns a) :
    (copied m old new outer).read a = m.read a := by
  rw [read_copied_of_ne hslot ha hold]
  refine Memory.read_store_of_not_mem _ _ fun hmem => ?_
  obtain ⟨i, hi, rfl⟩ := Memory.mem_span_iff.mp hmem
  rw [liveWords, Memory.length_load] at hi
  simp only [wordBytes] at *
  omega

/-- The new segment with as many live words as the old one. -/
def filled (old new : Segment) : Segment :=
  { new with sp := new.high - old.usedWords * wordBytes, savedExn := old.savedExn }

theorem filled_formed (hnew : new.Formed)
    (hroom : old.usedWords * wordBytes ≤ new.high - new.base) :
    (filled old new).Formed ∧
      (filled old new).sp + wordBytes * old.usedWords = (filled old new).high := by
  have hle := Nat.le_trans hnew.base_le_sp hnew.sp_le_high
  have haligned := hnew.high_aligned
  refine ⟨⟨?_, ?_, ?_, haligned, hnew.high_le⟩, ?_⟩ <;>
    simp only [filled, wordBytes] at * <;> omega

theorem loadLive_liveWords (hroom : old.usedWords * wordBytes ≤ new.high - new.base) (m : Memory) :
    new.loadLive m (old.liveWords m) =
      .ok ({ new with sp := (filled old new).sp },
        m.store (filled old new).sp (old.liveWords m)) := by
  unfold loadLive
  simp only [liveWords, Memory.length_load]
  exact if_pos hroom

/-- Memory `m'` is the outcome of the move of a segment in `m`: the copy, but for the new places of
the trap frames. What became of the old segment is left open. -/
structure Moved (m : Memory) (old new : Segment) (outer : Chain) (frames : List Nat)
    (m' : Memory) : Prop where
  source : old.Formed
  target : new.Formed
  apart : new.Apart old
  size : new.sp + wordBytes * old.usedWords = new.high
  live : ∀ f ∈ frames, f ∈ old.liveSlots
  copy : ∀ a, ¬ old.Owns a → a ∉ frames.map (Relocation.between old new).target →
    m'.read a = (copied m old new outer).read a

namespace Moved

variable {m' : Memory} {frames : List Nat} {p : Nat}

theorem contains_of_mem (h : Moved m old new outer frames m')
    (ha : a ∈ frames.map (Relocation.between old new).target) : new.contains a = true := by
  obtain ⟨f, hf, rfl⟩ := List.mem_map.mp ha
  exact (Relocation.moves_of_mem_liveSlots h.source h.target h.size (h.live f hf)).word.contains

theorem not_owns_of_mem (h : Moved m old new outer frames m')
    (ha : a ∈ frames.map (Relocation.between old new).target) : ¬ old.Owns a :=
  h.apart a (owns_of_contains (h.contains_of_mem ha))

theorem not_mem_of_high_le (h : Moved m old new outer frames m') (ha : new.high ≤ a) :
    a ∉ frames.map (Relocation.between old new).target := by
  intro hmem
  have hbelow := (contains_eq_true_iff.mp (h.contains_of_mem hmem)).2
  exact absurd ha (Nat.not_le.mpr hbelow)

/-- A live word that is no trap frame keeps its value. -/
theorem read_target (h : Moved m old new outer frames m') (hp : p ∈ old.liveSlots)
    (hnot : p ∉ frames) : m'.read ((Relocation.between old new).target p) = m.read p := by
  have hmoves : ∀ g ∈ old.liveSlots, (Relocation.between old new).Moves new g := fun g hg =>
    Relocation.moves_of_mem_liveSlots h.source h.target h.size hg
  have hfresh : (Relocation.between old new).target p ∉
      frames.map (Relocation.between old new).target := by
    intro hmem
    obtain ⟨f, hf, heq⟩ := List.mem_map.mp hmem
    exact hnot (Relocation.target_injective (hmoves f (h.live f hf)) (hmoves p hp) heq ▸ hf)
  have howns := h.apart _ (owns_of_contains (hmoves p hp).word.contains)
  obtain ⟨i, hi, rfl⟩ := Relocation.exists_of_mem_liveSlots hp
  calc
    m'.read ((Relocation.between old new).target (old.sp + wordBytes * i)) =
        (copied m old new outer).read
          ((Relocation.between old new).target (old.sp + wordBytes * i)) := h.copy _ howns hfresh
    _ = (copied m old new outer).read (new.sp + wordBytes * i) := by
      rw [Relocation.target_liveSlot h.source h.size hi]
    _ = m.read (old.sp + wordBytes * i) := read_copied h.source h.target h.apart h.size hi

theorem usedWords (h : Moved m old new outer frames m') : new.usedWords = old.usedWords := by
  have hbytes := h.target.used_bytes
  have hsize := h.size
  simp only [wordBytes] at hbytes hsize
  omega

/-- Without trap frames the live words are copied as they are. -/
theorem liveWords (h : Moved m old new outer [] m') : new.liveWords m' = old.liveWords m := by
  rw [Segment.liveWords, Segment.liveWords, h.usedWords]
  simp only [Memory.load, Memory.span, List.map_map]
  refine List.map_congr_left fun i hi => ?_
  have hslot : old.sp + wordBytes * i ∈ old.liveSlots := List.mem_map_of_mem hi
  have hword := h.read_target hslot List.not_mem_nil
  rwa [Relocation.target_liveSlot h.source h.size (List.mem_range.mp hi)] at hword

theorem handlers (h : Moved m old new outer frames m') : new.handlers m' = new.handlers m := by
  refine handlers_congr fun a hlow hhigh => ?_
  have hbaseHigh := Nat.le_trans h.target.base_le_sp h.target.sp_le_high
  have howns : ¬ old.Owns a := by
    refine h.apart a ⟨Nat.le_trans hbaseHigh hlow, ?_⟩
    simp only [wordBytes] at hhigh
    simp only [handlerBlockBytes]
    omega
  rw [h.copy a howns (h.not_mem_of_high_le hlow)]
  exact read_copied_elsewhere h.source h.size (Nat.ne_of_lt hhigh) (.inr hlow) howns

theorem recordedParent (h : Moved m old new outer frames m') (hlink : outer.link < Size.limit) :
    new.recordedParent m' = outer.link := by
  have hslot := h.apart _ (owns_parentSlot h.target)
  rw [Segment.recordedParent, h.copy _ hslot (h.not_mem_of_high_le (Nat.le_add_right _ _))]
  exact recordedParent_recordParent hlink

theorem elsewhere (h : Moved m old new outer frames m') (hold : ¬ old.Owns a)
    (hnew : ¬ new.Owns a) : m'.read a = m.read a := by
  have hframe : a ∉ frames.map (Relocation.between old new).target := fun hmem =>
    hnew (owns_of_contains (h.contains_of_mem hmem))
  have hslot : a ≠ new.parentSlot := by
    rintro rfl
    exact hnew (owns_parentSlot h.target)
  have hbase := h.target.base_le_sp
  rw [h.copy a hold hframe]
  refine read_copied_elsewhere h.source h.size hslot ?_ hold
  unfold Owns at hnew
  omega

end Moved

end Segment

namespace Domain

variable {d d' : Domain} {old new : Segment} {outer : Chain} {st st' : MachineState}

theorem logGrowth_eq_ok {words : Nat} (h : logGrowth words st = .ok () st') :
    ∃ journal, st' = { st with journal } := by
  unfold logGrowth at h
  obtain ⟨would, st₁, hwould, hlog⟩ := Run.bind_eq_ok_iff.mp h
  cases hwould
  split at hlog
  · obtain ⟨bytes, st₂, hbytes, hwrite⟩ := Run.bind_eq_ok_iff.mp hlog
    obtain ⟨-, rfl⟩ := Run.lift_eq_ok_iff.mp hbytes
    split at hwrite <;> cases hwrite <;> exact ⟨_, rfl⟩
  · cases hlog
    exact ⟨_, rfl⟩

/-- The saved base pointers, relocated where they are kept right. -/
def relocatedRecords (d : Domain) (old new : Segment) (m : Memory) : Except Abort (Nat × Memory) :=
  if d.framePointers then
    BasePointers.relocate (.between old new) old new d.framePointer m
  else
    .ok (d.framePointer, m)

/-- All that a move to `new` relocates, when the live words have been copied in `m`. -/
def relocated (d : Domain) (old new : Segment) (outer : Chain) (m : Memory) :
    Except Abort (TrapWalk × (Nat × Memory) × List NativeLink) := do
  let traps ← TrapWalk.relocate (.between old new) new
    (.start (Segment.copied m old new outer) d.exnHandler d.asyncExnHandler)
  let records ← d.relocatedRecords old new traps.memory
  let links ← d.links.mapM (NativeLink.relocate (.between old new))
  return (traps, records, links)

/-- A move to a segment with room relocates, and then frees the old segment. -/
theorem moveTo_run (hroom : old.usedWords * wordBytes ≤ new.high - new.base) (st : MachineState) :
    d.moveTo old outer new st = (do
      let (traps, (framePointer, m), links) ←
        d.relocated old (Segment.filled old new) outer st.memory
      Machine.setMemory m
      let d₁ ← d.freeSegment old
      return { d₁ with
        running := Segment.filled old new :: outer, exnHandler := traps.exnHandler,
        asyncExnHandler := traps.asyncExnHandler, framePointer, links } : Machine Domain) st := by
  unfold moveTo relocated relocatedRecords
  rw [Run.bind_of_ok (Machine.memory_run st),
    Run.bind_lift_of_ok (Segment.loadLive_liveWords hroom _)]
  cases d.framePointers with
  | false =>
      simp only [Bool.false_eq_true, if_false, pure_bind, Run.lift_bind, bind_assoc]
      rfl
  | true =>
      simp only [if_true, Run.lift_bind, bind_assoc]
      rfl

theorem room_of_moveTo (hrun : d.moveTo old outer new st = .ok d' st') :
    old.usedWords * wordBytes ≤ new.high - new.base := by
  unfold moveTo at hrun
  obtain ⟨m, st₁, hm, hload⟩ := Run.bind_eq_ok_iff.mp hrun
  cases hm
  obtain ⟨loaded, st₁, hlift, -⟩ := Run.bind_eq_ok_iff.mp hload
  obtain ⟨hloaded, rfl⟩ := Run.lift_eq_ok_iff.mp hlift
  unfold Segment.loadLive at hloaded
  simp only [Segment.liveWords, Memory.length_load] at hloaded
  split at hloaded
  · assumption
  · cases hloaded

theorem moveTo_eq_ok (hrun : d.moveTo old outer new st = .ok d' st') :
    ∃ traps framePointer m links d₁,
      old.usedWords * wordBytes ≤ new.high - new.base ∧
      TrapWalk.relocate (.between old new) (Segment.filled old new)
        (.start (Segment.copied st.memory old (Segment.filled old new) outer) d.exnHandler
          d.asyncExnHandler) = .ok traps ∧
      d.relocatedRecords old (Segment.filled old new) traps.memory = .ok (framePointer, m) ∧
      d.links.mapM (NativeLink.relocate (.between old new)) = .ok links ∧
      d.freeSegment old { st with memory := m } = .ok d₁ st' ∧
      d' = { d₁ with
        running := Segment.filled old new :: outer, exnHandler := traps.exnHandler,
        asyncExnHandler := traps.asyncExnHandler, framePointer, links } := by
  have hroom := room_of_moveTo hrun
  rw [moveTo_run hroom] at hrun
  obtain ⟨⟨traps, ⟨framePointer, m⟩, links⟩, st₁, hlift, hset⟩ := Run.bind_eq_ok_iff.mp hrun
  obtain ⟨hrelocated, rfl⟩ := Run.lift_eq_ok_iff.mp hlift
  obtain ⟨_, htraps, hwalk⟩ := Run.except_bind_eq_ok_iff.mp hrelocated
  obtain ⟨_, hrecords, hlinks⟩ := Run.except_bind_eq_ok_iff.mp hwalk
  obtain ⟨_, hretargeted, hpure⟩ := Run.except_bind_eq_ok_iff.mp hlinks
  cases hpure
  obtain ⟨_, st₁, hmemory, hfree⟩ := Run.bind_eq_ok_iff.mp hset
  cases hmemory
  obtain ⟨d₁, st₁, hfreed, hpure⟩ := Run.bind_eq_ok_iff.mp hfree
  cases hpure
  exact ⟨traps, framePointer, m, links, d₁, hroom, htraps, hrecords, hretargeted, hfreed, rfl⟩

end Domain

/-! ### The chain of trap frames -/

namespace TrapWalk

variable {m : Memory} {old new : Segment} {outer : Chain} {frames : List Nat}
  {exnHandler last : Nat}

/-- Once the live words are copied the walk over the trap frames can begin. -/
theorem ready_copied (asyncExnHandler : Nat) (hold : old.Formed) (hnew : new.Formed)
    (hapart : new.Apart old) (hsp : new.sp + wordBytes * old.usedWords = new.high)
    (hchain : TrapChain m.linkAt exnHandler frames last) (hdistinct : frames.Nodup)
    (hlive : ∀ f ∈ frames, f ∈ old.liveSlots) :
    Ready (.between old new) new frames last
      (.start (Segment.copied m old new outer) exnHandler asyncExnHandler) where
  moves := fun f hf => Relocation.moves_of_mem_liveSlots hold hnew hsp (hlive f hf)
  distinct := hdistinct
  apart := by
    intro f hf
    have hword := (Relocation.moves_of_mem_liveSlots hold hnew hsp (hlive f hf)).word
    have howns := hapart _ (Segment.owns_of_contains hword.contains)
    rw [Relocation.inOld_between, Bool.eq_false_iff]
    exact fun hin => howns (Segment.owns_of_contains hin)
  chain := by
    refine hchain.congr fun f hf => ?_
    obtain ⟨i, hi, rfl⟩ := Relocation.exists_of_mem_liveSlots (hlive f hf)
    change _ = (Segment.copied m old new outer).linkAt _
    rw [Relocation.target_liveSlot hold hsp hi, Memory.linkAt, Memory.linkAt,
      Segment.read_copied hold hnew hapart hsp hi]
  head := fun _ => rfl
  holder := fun c hc => by cases hc

theorem length_le_of_live (hnew : new.Formed) (hsp : new.sp + wordBytes * old.usedWords = new.high)
    (hdistinct : frames.Nodup) (hlive : ∀ f ∈ frames, f ∈ old.liveSlots) :
    frames.length ≤ new.bodyWords + 1 := by
  have hlength := (List.subperm_of_subset hdistinct hlive).length_le
  have hbase := hnew.base_le_sp
  rw [Segment.liveSlots, Memory.length_span] at hlength
  simp only [Segment.bodyWords, wordBytes] at *
  omega

/-- The walk over the copied trap frames ends, and moves the chain. -/
theorem relocate_copied (outer : Chain) (asyncExnHandler : Nat) (hold : old.Formed)
    (hnew : new.Formed) (hapart : new.Apart old)
    (hsp : new.sp + wordBytes * old.usedWords = new.high)
    (hchain : TrapChain m.linkAt exnHandler frames last) (hdistinct : frames.Nodup)
    (hlive : ∀ f ∈ frames, f ∈ old.liveSlots) (hlast : old.contains last = false) :
    ∃ w, relocate (.between old new) new
        (.start (Segment.copied m old new outer) exnHandler asyncExnHandler) = .ok w ∧
      Relocated (.between old new) frames last
        (.start (Segment.copied m old new outer) exnHandler asyncExnHandler) w :=
  run_relocated hnew.high_lt (Relocation.inOld_between old new last ▸ hlast) _
    (length_le_of_live hnew hsp hdistinct hlive)
    (ready_copied asyncExnHandler hold hnew hapart hsp hchain hdistinct hlive)

/-- A chain that leaves the old segment at once has no frame to move. -/
theorem relocate_of_outside {r : Relocation} {w : TrapWalk} (h : r.inOld w.link = false)
    (new : Segment) : relocate r new w = .ok w := by
  unfold relocate run
  simp [h]

end TrapWalk

namespace Domain

/-- Growth of the running segment `old` to `new`. Addresses below are taken to where they are at the
same distance from the upper end. -/
structure Grown (d : Domain) (m : Memory) (old : Segment) (outer : Chain) (frames : List Nat)
    (last : Nat) (d' : Domain) (m' : Memory) (new : Segment) : Prop where
  running : d'.running = new :: outer
  chain : TrapChain m'.linkAt d'.exnHandler
    (frames.map fun f => new.high - (old.high - f)) last
  asyncExn : d'.asyncExnHandler =
    if d.asyncExnHandler ∈ frames then new.high - (old.high - d.asyncExnHandler)
    else d.asyncExnHandler
  words : ∀ p ∈ old.liveSlots, p ∉ frames → m'.read (new.high - (old.high - p)) = m.read p
  usedWords : new.usedWords = old.usedWords
  identity : new.id = old.id
  handlers : new.handlers m' = old.handlers m
  recordedParent : new.recordedParent m' = old.recordedParent m
  elsewhere : ∀ a, ¬ old.Owns a → ¬ new.Owns a → m'.read a = m.read a

variable {d d' : Domain} {old new : Segment} {outer : Chain} {m : Memory} {st st' : MachineState}
  {frames : List Nat} {last : Nat}

theorem Grown.of_pool {pool : Pool}
    (h : { d with pool := pool }.Grown m old outer frames last d' st'.memory new) :
    d.Grown m old outer frames last d' st'.memory new :=
  ⟨h.running, h.chain, h.asyncExn, h.words, h.usedWords, h.identity, h.handlers, h.recordedParent,
    h.elsewhere⟩

/-- A move to a segment that was obtained for it. The memory `m` is that before the segment was
obtained. -/
theorem grown_of_moveTo (hframes : d.framePointers = false) (hold : old.Formed)
    (hapart : new.Apart old) (hnew : new.Obtained m st.memory (old.handlers m) old.id)
    (hlink : outer.link < Size.limit) (hrecorded : old.recordedParent m = outer.link)
    (hchain : TrapChain m.linkAt d.exnHandler frames last) (hdistinct : frames.Nodup)
    (hlive : ∀ f ∈ frames, f ∈ old.liveSlots) (hlast : old.contains last = false)
    (hrun : d.moveTo old outer new st = .ok d' st') :
    d.Grown m old outer frames last d' st'.memory (Segment.filled old new) ∧
      (Segment.filled old new).Formed ∧ st'.space = st.space ∧
      (d'.pool.segments.Perm (old :: d.pool.segments) ∨ d'.pool.segments = d.pool.segments) := by
  obtain ⟨traps, framePointer, m₁, links, d₁, hroom, hrelocate, hwalk, -, hfree, rfl⟩ :=
    moveTo_eq_ok hrun
  rw [relocatedRecords, hframes] at hwalk
  cases hwalk
  obtain ⟨hfilled, hsp⟩ := Segment.filled_formed hnew.formed hroom
  have hfilledApart : (Segment.filled old new).Apart old := hapart
  obtain ⟨hpool, hspace, hpools, hfreed⟩ := freeSegment_eq_ok hold hfree
  have hbefore : ∀ p ∈ old.liveSlots, st.memory.read p = m.read p := fun p hp =>
    hnew.read_of_apart hapart
      (Segment.owns_of_contains (hold.isWord_of_mem_liveSlots hp).contains)
  have hchainNow : TrapChain st.memory.linkAt d.exnHandler frames last :=
    hchain.congr fun f hf => by rw [Memory.linkAt, Memory.linkAt, hbefore f (hlive f hf)]
  obtain ⟨w, hwalk, hrelocated⟩ := TrapWalk.relocate_copied outer d.asyncExnHandler hold
    hfilled hfilledApart hsp hchainNow hdistinct hlive hlast
  cases hwalk.symm.trans hrelocate
  have hmoved : Segment.Moved st.memory old (Segment.filled old new) outer frames st'.memory := by
    refine ⟨hold, hfilled, hfilledApart, hsp, hlive, fun a ha hframe => ?_⟩
    rw [hfreed a ha]
    exact hrelocated.kept a hframe fun hc => by cases hc
  refine ⟨⟨rfl, ?_, hrelocated.asyncExn, ?_, ?_, hnew.identity, ?_, ?_, ?_⟩, hfilled, hspace,
    hpools⟩
  · change TrapChain _ traps.exnHandler _ last
    rw [hrelocated.head]
    refine hrelocated.chain.congr fun a ha => ?_
    rw [Memory.linkAt, Memory.linkAt, hfreed a (hmoved.not_owns_of_mem ha)]
  · intro p hp hnot
    exact (hmoved.read_target hp hnot).trans (hbefore p hp)
  · exact hmoved.usedWords
  · exact hmoved.handlers.trans hnew.handlers
  · rw [hrecorded]
    exact hmoved.recordedParent hlink
  · intro a ha hnot
    rw [hmoved.elsewhere ha hnot]
    exact hnew.read_of_not_owns hnot

/-- A move where no trap frame and no frame record is followed. Registers and the rest of the domain
stay as they are. -/
theorem moved_of_moveTo (hpointers : d.framePointers = false)
    (hexn : old.contains d.exnHandler = false) (hold : old.Formed) (hnew : new.Formed)
    (hapart : new.Apart old) (hrun : d.moveTo old outer new st = .ok d' st') :
    (Segment.filled old new).Formed ∧
      Segment.Moved st.memory old (Segment.filled old new) outer [] st'.memory ∧
      d.links.mapM (NativeLink.relocate (.between old new)) = .ok d'.links ∧
      d' = { d with
        pool := d'.pool, running := Segment.filled old new :: outer, links := d'.links } := by
  obtain ⟨traps, framePointer, m, links, d₁, hroom, hrelocate, hwalk, hlinks, hfree, rfl⟩ :=
    moveTo_eq_ok hrun
  rw [relocatedRecords, hpointers] at hwalk
  cases hwalk
  cases (TrapWalk.relocate_of_outside (by exact hexn) _).symm.trans hrelocate
  obtain ⟨hfilled, hsp⟩ := Segment.filled_formed hnew hroom
  obtain ⟨hpool, -, -, hfreed⟩ := freeSegment_eq_ok hold hfree
  refine ⟨hfilled, ⟨hold, hfilled, hapart, hsp, by simp, fun a ha _ => hfreed a ha⟩, hlinks, ?_⟩
  rw [hpool]
  rfl

/-- What growth can do: nothing that lasts, or it obtains a segment of the size that it looks for
and moves there. -/
theorem tryRealloc_cases {required : Nat} {grown : Bool}
    (hrun : d.tryRealloc required st = .ok (grown, d') st') :
    (grown = false ∧ d.Quiet st d' st') ∨
      ∃ old outer needed words new d₁ journal st₁, grown = true ∧ d.running = old :: outer ∧
        Size.add? old.usedWords required = some needed ∧
        GrowthTarget.find old.bodyWords d.maxWords needed = .words words ∧
        d.allocNoExc words (old.handlers st.memory) old.id { st with journal } =
          .ok (some new, d₁) st₁ ∧
        d₁.moveTo old outer new st₁ = .ok d' st' := by
  unfold tryRealloc at hrun
  cases hrunning : d.running with
  | nil =>
      rw [hrunning] at hrun
      cases hrun
      exact .inl ⟨rfl, .refl d st⟩
  | cons old outer =>
      rw [hrunning] at hrun
      simp only at hrun
      cases hneeded : Size.add? old.usedWords required with
      | none =>
          rw [hneeded] at hrun
          cases hrun
          exact .inl ⟨rfl, .refl d st⟩
      | some needed =>
          rw [hneeded] at hrun
          simp only at hrun
          cases hfind : GrowthTarget.find old.bodyWords d.maxWords needed with
          | refused =>
              rw [hfind] at hrun
              cases hrun
              exact .inl ⟨rfl, .refl d st⟩
          | endless =>
              rw [hfind] at hrun
              cases hrun
          | words words =>
              rw [hfind] at hrun
              obtain ⟨_, st₁, hlog, hget⟩ := Run.bind_eq_ok_iff.mp hrun
              obtain ⟨journal, rfl⟩ := logGrowth_eq_ok hlog
              obtain ⟨m, st₂, hmemory, halloc⟩ := Run.bind_eq_ok_iff.mp hget
              cases hmemory
              obtain ⟨⟨s?, d₁⟩, st₃, hallocated, hmove⟩ := Run.bind_eq_ok_iff.mp halloc
              cases s? with
              | none =>
                  cases hmove
                  obtain ⟨stats, journal, hd, hst⟩ := quiet_of_allocNoExc hallocated
                  exact .inl ⟨rfl, stats, journal, hd, hst⟩
              | some new =>
                  obtain ⟨d₂, st₄, hmoved, hpure⟩ := Run.bind_eq_ok_iff.mp hmove
                  cases hpure
                  exact .inr ⟨old, outer, needed, words, new, d₁, journal, st₃, rfl, rfl, hneeded,
                    hfind, hallocated, hmoved⟩

/-- Growth has no say in the maximum. -/
theorem maxWords_of_tryRealloc {required : Nat} {grown : Bool}
    (hrun : d.tryRealloc required st = .ok (grown, d') st') : d'.maxWords = d.maxWords := by
  rcases tryRealloc_cases hrun with ⟨-, stats, journal, rfl, -⟩ | ⟨old, outer, needed, words, new,
    d₁, journal, st₁, -, -, -, -, halloc, hmove⟩
  · rfl
  · obtain ⟨traps, framePointer, m, links, d₂, -, -, -, -, hfree, rfl⟩ := moveTo_eq_ok hmove
    have hfreed : d₂.maxWords = d₁.maxWords := by rw [(frees_of_freeSegment hfree).eq.1]
    have hallocated : d₁.maxWords = d.maxWords := by rw [eq_of_allocNoExc halloc]
    exact hfreed.trans hallocated

theorem tryRealloc_eq_ok {required : Nat} (hrunning : d.running = old :: outer)
    (hrun : d.tryRealloc required st = .ok (true, d') st') :
    ∃ words new d₁ journal st₁,
      d.allocNoExc words (old.handlers st.memory) old.id { st with journal } =
        .ok (some new, d₁) st₁ ∧
      d₁.moveTo old outer new st₁ = .ok d' st' := by
  rcases tryRealloc_cases hrun with ⟨hfalse, -⟩ | ⟨s, chain, needed, words, new, d₁, journal, st₁,
    -, hchain, -, -, halloc, hmove⟩
  · cases hfalse
  · cases hrunning.symm.trans hchain
    exact ⟨words, new, d₁, journal, st₁, halloc, hmove⟩

/-- Growth that succeeds has obtained a segment apart from all others, and moved there. -/
theorem obtained_of_tryRealloc {required : Nat} (hrunning : d.running = old :: outer)
    (hseparate : Segment.Separate st.space d.segments)
    (hrun : d.tryRealloc required st = .ok (true, d') st') :
    ∃ new pool st₁, new.Obtained st.memory st₁.memory (old.handlers st.memory) old.id ∧
      Segment.Separate st₁.space (new :: { d with pool := pool }.segments) ∧
      { d with pool := pool }.moveTo old outer new st₁ = .ok d' st' := by
  obtain ⟨words, new, d₁, journal, st₁, halloc, hmove⟩ := tryRealloc_eq_ok hrunning hrun
  obtain ⟨hobtained, hpool, hapart⟩ := allocated_of_allocNoExc (by exact hseparate) halloc
  obtain ⟨pool, rfl⟩ : ∃ pool, d₁ = { d with pool := pool } := ⟨_, hpool⟩
  exact ⟨new, pool, st₁, hobtained, hapart, hmove⟩

/-- The segments of a domain stay apart when the running one is replaced. -/
theorem kept_of_grown {pool : Pool} (hseparate : Segment.Separate st.space
      (new :: { d with pool := pool }.segments)) (hrunning : d.running = old :: outer)
    (hrecorded : Chain.Recorded m (old :: outer)) (hspace : st'.space = st.space)
    (hfilled : (Segment.filled old new).Formed)
    (hgrown : d.Grown m old outer frames last d' st'.memory (Segment.filled old new))
    (hpools : d'.pool.segments.Perm (old :: pool.segments) ∨ d'.pool.segments = pool.segments) :
    d'.Kept st' := by
  have hsegments : { d with pool := pool }.segments = old :: (outer ++ pool.segments) :=
    congrArg (· ++ pool.segments) hrunning
  rw [hsegments] at hseparate
  have hreplaced := hseparate.replace hfilled rfl rfl
  constructor
  · rw [segments, hgrown.running, hspace, List.cons_append]
    rcases hpools with hpooled | hgone
    · refine hreplaced.perm (List.Perm.cons _ ?_)
      exact List.perm_middle.symm.trans (hpooled.symm.append_left outer)
    · rw [hgone]
      exact hreplaced.sublist ((List.sublist_cons_self old _).cons_cons _)
  · rw [hgrown.running]
    refine ⟨hgrown.recordedParent.trans hrecorded.1, ?_⟩
    refine hrecorded.2.congr fun s hs => ?_
    have hmem : s ∈ outer ++ pool.segments := List.mem_append_left _ hs
    have hformed := hseparate.formed s (List.mem_cons_of_mem _ (List.mem_cons_of_mem _ hmem))
    have hslot := Segment.owns_parentSlot hformed
    obtain ⟨hnewApart, hrest⟩ := List.pairwise_cons.mp hseparate.apart
    refine hgrown.elsewhere _ ?_ ?_
    · exact fun hold => (List.pairwise_cons.mp hrest).1 s hmem _ hold hslot
    · exact fun hnew => hnewApart s (List.mem_cons_of_mem old hmem) _ hnew hslot

/-- Growth relocates the chain of trap frames and nothing else, and keeps segments apart. -/
theorem grown_of_tryRealloc {required : Nat} (hrunning : d.running = old :: outer)
    (hframes : d.framePointers = false) (hkept : d.Kept st)
    (hchain : TrapChain st.memory.linkAt d.exnHandler frames last) (hdistinct : frames.Nodup)
    (hlive : ∀ f ∈ frames, f ∈ old.liveSlots) (hlast : old.contains last = false)
    (hrun : d.tryRealloc required st = .ok (true, d') st') :
    ∃ new, d.Grown st.memory old outer frames last d' st'.memory new ∧ d'.Kept st' := by
  obtain ⟨words, new, d₁, journal, st₁, halloc, hmove⟩ := tryRealloc_eq_ok hrunning hrun
  obtain ⟨hobtained, hpool, hseparate⟩ :=
    allocated_of_allocNoExc (by exact hkept.separate) halloc
  obtain ⟨pool, rfl⟩ : ∃ pool, d₁ = { d with pool := pool } := ⟨_, hpool⟩
  have hrecorded := hkept.recorded
  rw [hrunning] at hrecorded
  have hsegments : d.segments = old :: (outer ++ d.pool.segments) :=
    congrArg (· ++ d.pool.segments) hrunning
  have hformed := hkept.separate.formed
  rw [hsegments] at hformed
  have hold := hformed old List.mem_cons_self
  have hhead : old ∈ d.running := by
    rw [hrunning]
    exact List.mem_cons_self
  have hapart : new.Apart old :=
    (List.pairwise_cons.mp hseparate.apart).1 old (List.mem_append_left _ hhead)
  have hlink : Chain.link outer < Size.limit := by
    cases outer with
    | nil => decide
    | cons parent rest => exact (hformed parent (by simp)).high_lt
  obtain ⟨hgrown, hfilled, hspaces, hpools⟩ :=
    grown_of_moveTo (d := { d with pool := pool }) hframes hold hapart hobtained hlink hrecorded.1
      hchain hdistinct hlive hlast hmove
  have hgrown := hgrown.of_pool
  exact ⟨_, hgrown, kept_of_grown hseparate hrunning hrecorded hspaces hfilled hgrown hpools⟩

end Domain

/-! ### Two trap frames

A segment of eight words with six live ones, among them two trap frames. The asynchronous exception
handler names the outer one. -/

namespace TwoTraps

def segment : Segment :=
  { memory := ⟨0x1000, 0x60, 0, .heap⟩, base := 0x1000, high := 0x1040, sp := 0x1010,
    poolClass := none, id := ⟨1⟩, owner := ⟨1⟩, savedExn := 0, magic := segmentMagic }

def domain : Domain :=
  { Domain.ofSettings ⟨1⟩ Settings.standard with
    running := [segment], exnHandler := 0x1010, asyncExnHandler := 0x1028 }

def state : MachineState :=
  { MachineState.initial with
    space := { AddressSpace.unused .ascending with taken := [⟨0x1000, 0x60⟩] }
    memory := Memory.blank.store 0x1010 [0x1028, 7, 9, 0, 11, 13, 1, 3, 5, 0] }

theorem kept : domain.Kept state where
  separate := by
    have hone : domain.segments = [segment] := by decide
    rw [hone]
    refine ⟨List.forall_mem_singleton.mpr ?_, List.forall_mem_singleton.mpr fun a ha => ?_,
      List.pairwise_singleton _ _⟩
    · exact ⟨by decide, by decide, by decide, by decide, by decide⟩
    · exact ha.taken List.mem_cons_self (by decide) (by decide)
  recorded := ⟨by decide, trivial⟩

theorem chain : TrapChain state.memory.linkAt domain.exnHandler [0x1010, 0x1028] 0 := by
  have hlast : state.memory.linkAt 0x1028 = 0 := by decide
  exact ⟨rfl, by decide, hlast⟩

theorem grows : ∃ d' st', domain.tryRealloc 3 state = .ok (true, d') st' := by
  have h : Run.answers (domain.tryRealloc 3) state (fun r _ => r.1) = true := by decide +kernel
  obtain ⟨⟨_, d'⟩, st', hrun, rfl⟩ := Run.exists_of_answers h
  exact ⟨d', st', hrun⟩

theorem grown_two_traps :
    domain.Kept state ∧ TrapChain state.memory.linkAt domain.exnHandler [0x1010, 0x1028] 0 ∧
      ∃ d' st' new, domain.tryRealloc 3 state = .ok (true, d') st' ∧
        domain.Grown state.memory segment [] [0x1010, 0x1028] 0 d' st'.memory new ∧
        d'.asyncExnHandler = new.high - 0x18 ∧ d'.Kept st' := by
  obtain ⟨d', st', hrun⟩ := grows
  refine ⟨kept, chain, d', st', ?_⟩
  obtain ⟨new, hgrown, hkept⟩ :=
    Domain.grown_of_tryRealloc rfl rfl kept chain (by decide) (by decide) (by decide) hrun
  exact ⟨new, hrun, hgrown, hgrown.asyncExn, hkept⟩

end TwoTraps

end FiberStacks
