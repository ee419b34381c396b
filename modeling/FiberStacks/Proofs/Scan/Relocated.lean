import FiberStacks.Proofs.Scan.Layout
import FiberStacks.Proofs.Scan.Observed
import FiberStacks.Proofs.Segment
import Mathlib.Data.List.Forall2

/-!
# Scans of relocated stacks

The words of a stack may stand in another place, each at the same distance from the upper end. Every
step of a scan depends on the words it reads and on how far it is from the upper end, so a scan of
the stack in its new place takes the same steps. It reports the same values, at the locations that
the old ones were taken to.
-/

namespace FiberStacks

/-- The visit with its location taken elsewhere. -/
def Visit.relocated (f : Nat → Nat) (v : Visit) : Visit := ⟨v.value, f v.slot⟩

theorem Memory.map_span {f : Nat → Nat} {a b n : Nat}
    (h : ∀ i < n, f (a + wordBytes * i) = b + wordBytes * i) : (span a n).map f = span b n := by
  unfold span
  rw [List.map_map]
  exact List.map_congr_left fun i hi => h i (List.mem_range.mp hi)

namespace Memory

/-- The visits to the locations with a word that is wanted. -/
def visitsTo (m : Memory) (wanted : Word → Bool) (slots : List Nat) : List Visit :=
  (slots.filter fun a => wanted (m.read a)).map fun a => ⟨m.read a, a⟩

theorem visitsTo_map {m m' : Memory} {f : Nat → Nat} {wanted wanted' : Word → Bool}
    {slots : List Nat} (hread : ∀ a ∈ slots, m'.read (f a) = m.read a)
    (hwanted : ∀ a ∈ slots, wanted' (m.read a) = wanted (m.read a)) :
    m'.visitsTo wanted' (slots.map f) = (m.visitsTo wanted slots).map (Visit.relocated f) := by
  have hkept : ∀ a ∈ slots, wanted' (m'.read (f a)) = wanted (m.read a) := by
    intro a ha
    rw [hread a ha, hwanted a ha]
  calc
    m'.visitsTo wanted' (slots.map f) =
        (slots.filter fun a => wanted' (m'.read (f a))).map fun a => ⟨m'.read (f a), f a⟩ := by
      rw [visitsTo, List.filter_map, List.map_map]
      rfl
    _ = (slots.filter fun a => wanted (m.read a)).map fun a => ⟨m'.read (f a), f a⟩ := by
      rw [List.filter_congr hkept]
    _ = (slots.filter fun a => wanted (m.read a)).map fun a => ⟨m.read a, f a⟩ := by
      apply List.map_congr_left
      intro a ha
      rw [hread a (List.mem_filter.mp ha).1]
    _ = (m.visitsTo wanted slots).map (Visit.relocated f) := by
      rw [visitsTo, List.map_map]
      rfl

end Memory

/-- The segment `s'` in `m'` has the live words and handlers of `s` in `m`, in the locations that
`f` takes theirs to. -/
structure Segment.Twin (f : Nat → Nat) (m m' : Memory) (s s' : Segment) : Prop where
  source : s.Formed
  target : s'.Formed
  sp : s.sp + s'.high = s'.sp + s.high
  place : ∀ a, s.sp ≤ a → a < s.high + 3 * wordBytes → f a + s.high = a + s'.high
  word : ∀ a, s.sp ≤ a → a < s.high + 3 * wordBytes → a % wordBytes = 0 →
    m'.read (f a) = m.read a

namespace Segment.Twin

variable {f : Nat → Nat} {m m' : Memory} {s s' : Segment} {a : Nat}

theorem liveSlots (h : s.Twin f m m' s') : s.liveSlots.map f = s'.liveSlots := by
  have hbytes := h.source.used_bytes
  have hbytes' := h.target.used_bytes
  have hsp := h.sp
  have hused : s'.usedWords = s.usedWords := by
    simp only [wordBytes] at hbytes hbytes'
    omega
  rw [Segment.liveSlots, Segment.liveSlots, hused]
  refine Memory.map_span fun i hi => ?_
  have hplace := h.place (s.sp + wordBytes * i) (Nat.le_add_right _ _)
  simp only [wordBytes] at hbytes hplace ⊢
  omega

theorem handlerSlots (h : s.Twin f m m' s') : s.handlerSlots.map f = s'.handlerSlots := by
  have hle := h.source.sp_le_high
  refine Memory.map_span fun i hi => ?_
  have hplace := h.place (s.high + wordBytes * i)
  simp only [wordBytes] at hplace ⊢
  omega

theorem read_at (h : s.Twin f m m' s') {a' : Nat} (hlow : s.sp ≤ a)
    (hbelow : a < s.high + 3 * wordBytes) (haligned : a % wordBytes = 0)
    (ha' : a + s'.high = a' + s.high) : m'.read a' = m.read a := by
  have hplace := h.place a hlow hbelow
  have heq : f a = a' := by omega
  rw [← heq]
  exact h.word a hlow hbelow haligned

theorem read_liveSlots (h : s.Twin f m m' s') (ha : a ∈ s.liveSlots) :
    m'.read (f a) = m.read a := by
  obtain ⟨hlow, hhigh, haligned⟩ := h.source.mem_liveSlots_iff.mp ha
  exact h.word a hlow (Nat.lt_of_lt_of_le hhigh (Nat.le_add_right _ _)) haligned

theorem read_handlerSlots (h : s.Twin f m m' s') (ha : a ∈ s.handlerSlots) :
    m'.read (f a) = m.read a := by
  obtain ⟨i, hi, rfl⟩ := Memory.mem_span_iff.mp ha
  have hle := h.source.sp_le_high
  have haligned := h.source.high_aligned
  apply h.word <;> simp only [wordBytes] at * <;> omega

end Segment.Twin

/-! ### Registers -/

/-- The registers among the live locations of a frame. -/
def MetFrame.registerSlots (registers : Option Nat) (f : MetFrame) : List Nat :=
  f.descriptor.liveSlots.filterMap fun
    | .stack _ => none
    | .register index => registers.map fun area => area + index * wordBytes

def MetChunk.registerSlots (c : MetChunk) : List Nat :=
  c.frames.flatMap (MetFrame.registerSlots c.registers)

def MetStack.registerSlots (s : MetStack) : List Nat :=
  s.chunks.flatMap MetChunk.registerSlots

theorem MetFrame.map_slots {f : Nat → Nat} {base base' : Nat} {registers : Option Nat}
    {d : FrameDescriptor}
    (hstack : ∀ offset, .stack offset ∈ d.liveSlots → f (base + offset) = base' + offset)
    (hregister : ∀ a ∈ registerSlots registers ⟨base, d⟩, f a = a) :
    (slots registers ⟨base, d⟩).map f = slots registers ⟨base', d⟩ := by
  unfold slots
  rw [List.map_filterMap]
  refine List.filterMap_congr fun l hl => ?_
  cases l with
  | stack offset => exact congrArg some (hstack offset hl)
  | register index =>
      cases registers with
      | none => rfl
      | some area =>
          exact congrArg some (hregister _ (List.mem_filterMap.mpr ⟨_, hl, rfl⟩))

theorem MetFrame.mem_slots_cases {base a : Nat} {registers : Option Nat} {d : FrameDescriptor}
    (ha : a ∈ slots registers ⟨base, d⟩) :
    (∃ offset, .stack offset ∈ d.liveSlots ∧ a = base + offset) ∨
      a ∈ registerSlots registers ⟨base, d⟩ := by
  obtain ⟨l, hl, hplace⟩ := List.mem_filterMap.mp ha
  cases l with
  | stack offset =>
      cases hplace
      exact .inl ⟨offset, hl, rfl⟩
  | register index => exact .inr (List.mem_filterMap.mpr ⟨_, hl, hplace⟩)

theorem MetFrame.registerSlots_eq_nil {registers : Option Nat} {f : MetFrame}
    (h : ∀ index, .register index ∉ f.descriptor.liveSlots) : f.registerSlots registers = [] := by
  refine List.filterMap_eq_nil_iff.mpr fun l hl => ?_
  cases l with
  | stack offset => rfl
  | register index => exact absurd hl (h index)

namespace WalkPosition

/-- The position with the stack pointer elsewhere. -/
def withSp (sp : Nat) : WalkPosition → WalkPosition
  | chunk _ registers => chunk sp registers
  | frame _ registers returnAddress => frame sp registers returnAddress

/-- The next return address, or the one that was read last, is not below `low`. -/
def AtLeast (low : Nat) : WalkPosition → Prop
  | chunk sp _ => low ≤ sp
  | frame sp _ _ => low + wordBytes ≤ sp

end WalkPosition

namespace Scanner

variable {sc : Scanner} {m m' : Memory} {f : Nat → Nat} {log : List Access}

/-- What the scan of a location noted reads the same in `m'` as in `m`. -/
structure Agrees (m m' : Memory) (log : List Access) : Prop where
  aligned : ∀ a, .steer a ∈ log ∨ .classify a ∈ log → a % wordBytes = 0
  header : ∀ a, .inspect a ∈ log → m'.read a = m.read a

/-! ### Locations -/

theorem reportsOf_map {slots : List Nat} (hagrees : Agrees m m' log)
    (hlooked : ∀ a ∈ slots, sc.LookedAt m log a)
    (hread : ∀ a ∈ slots, m'.read (f a) = m.read a) :
    sc.reportsOf m' (slots.map f) = (sc.reportsOf m slots).map (Visit.relocated f) :=
  Memory.visitsTo_map hread fun a ha =>
    isWanted_congr fun h hh => hagrees.header h ((hlooked a ha).headers h hh)

/-! ### Flat stacks -/

theorem makes_scanFlat (hobserve : sc.visitor = Visitor.observe) (hlocals : sc.locals = none)
    (m : Memory) (s : Segment) :
    sc.Makes m (sc.scanFlat s) (m.visitsTo sc.isCandidate (s.liveSlots ++ s.handlerSlots)) := by
  unfold scanFlat
  rw [List.forM_eq_forM]
  generalize s.liveSlots ++ s.handlerSlots = slots
  induction slots with
  | nil => exact makes_pure
  | cons a slots ih =>
      have hsplit : m.visitsTo sc.isCandidate (a :: slots) =
          m.visitsTo sc.isCandidate [a] ++ m.visitsTo sc.isCandidate slots := by
        rw [Memory.visitsTo, ← List.singleton_append, List.filter_append, List.map_append]
        rfl
      rw [List.forM_cons, hsplit]
      refine Makes.bind ?_ ih
      intro ws p hp
      unfold visitCandidate
      rw [Run.bind_of_ok (Scan.slotWord_run a p), hp.read_of_spares (spares_of_none hlocals a)]
      cases hcandidate : sc.isCandidate (m.read a) with
      | false =>
          refine ⟨ws, p.logging [.classify a], rfl, hp, ?_⟩
          simp [Memory.visitsTo, hcandidate]
      | true =>
          refine ⟨ws, (p.logging [.classify a]).reporting ⟨m.read a, a⟩,
            visit_observe hobserve _ _ _, hp, ?_⟩
          simp [Memory.visitsTo, hcandidate, Progress.reporting]

/-! ### Walks -/

theorem chunkTop_relocated (sc : Scanner) {high high' sp sp' : Nat}
    (hsp : sp + high' = sp' + high) :
    sc.chunkTop high sp + high' = sc.chunkTop high' sp' + high := by
  unfold chunkTop
  by_cases hbelow : sp < high
  · have hbelow' : sp' < high' := by omega
    simp only [hbelow, hbelow', and_true]
    split <;> omega
  · have hbelow' : ¬ sp' < high' := by omega
    simp only [hbelow, hbelow', and_false, if_false]
    exact hsp

section Walks

variable {s s' : Segment} {position : WalkPosition} {p q : Progress} {frames : List MetFrame}
  {chunks : List MetChunk} {base sp' : Nat} {registers : Option Nat} {d : FrameDescriptor}

/-- The live locations of a frame can be read in the new stack, and call for the same reports. -/
theorem admits_of_twin (htwin : s.Twin f m m' s') (hagrees : Agrees m m' log)
    (hlocals : sc.locals = none)
    (hregisters : ∀ a ∈ MetFrame.registerSlots registers ⟨base, d⟩, f a = a ∧ m'.read a = m.read a)
    (hreaches : ∀ l ∈ d.liveSlots, l.InReach s.high base registers) (hlow : s.sp ≤ base)
    (hsp : base + s'.high = sp' + s.high)
    (hlooked : ∀ a ∈ MetFrame.slots registers ⟨base, d⟩, sc.LookedAt m log a) :
    (∀ l ∈ d.liveSlots, sc.Admits m' s'.high ⟨sp', registers, l⟩) ∧
      sc.reportsOf m' ((d.liveSlots.map (LiveSlot.mk sp' registers)).filterMap LiveSlot.place?) =
        (sc.reportsOf m (MetFrame.slots registers ⟨base, d⟩)).map (Visit.relocated f) := by
  have hslots : (d.liveSlots.map (LiveSlot.mk sp' registers)).filterMap LiveSlot.place? =
      (MetFrame.slots registers ⟨base, d⟩).map f := by
    rw [List.filterMap_map,
      MetFrame.map_slots (fun offset hl => ?_) fun a ha => (hregisters a ha).1]
    · rfl
    · obtain ⟨-, hbelow⟩ := hreaches _ hl
      have hplace := htwin.place (base + offset) (by omega) (by omega)
      omega
  have hread : ∀ a ∈ MetFrame.slots registers ⟨base, d⟩, m'.read (f a) = m.read a := by
    intro a ha
    rcases MetFrame.mem_slots_cases ha with ⟨offset, hl, rfl⟩ | hregister
    · obtain ⟨-, hbelow⟩ := hreaches _ hl
      exact htwin.word _ (by omega) (by omega) (hagrees.aligned _ (.inr (hlooked _ ha).noted))
    · obtain ⟨hplace, hread⟩ := hregisters a hregister
      rw [hplace, hread]
  refine ⟨fun l hl => ⟨?_, fun a _ => spares_of_none hlocals a, fun a ha => ?_⟩, ?_⟩
  · have hreach := hreaches l hl
    cases l with
    | register index => exact hreach
    | stack offset =>
        have hbelow := hreach.2
        change sp' + offset < s'.high
        omega
  · have hmem : a ∈ (d.liveSlots.map (LiveSlot.mk sp' registers)).filterMap LiveSlot.place? :=
      List.mem_filterMap.mpr ⟨_, List.mem_map_of_mem hl, ha⟩
    rw [hslots] at hmem
    obtain ⟨b, hb, rfl⟩ := List.mem_map.mp hmem
    rw [hread b hb]
    exact (hlooked b hb).classifiable.congr fun h hh =>
      hagrees.header h ((hlooked b hb).headers h hh)
  · rw [hslots]
    exact reportsOf_map hagrees hlooked hread

/-- A walk over the old stack that succeeds takes the same steps over the new one. -/
theorem Walked.makes_twin (hobserve : sc.visitor = Visitor.observe) (hlocals : sc.locals = none)
    (htwin : s.Twin f m m' s') (hagrees : Agrees m m' log)
    (h : Walked sc s.high position p frames chunks q) (hmemory : p.memory = m)
    (hlog : q.accesses ⊆ log)
    (hregisters : ∀ a ∈ frames.flatMap (MetFrame.registerSlots position.registers) ++
      chunks.flatMap MetChunk.registerSlots, f a = a ∧ m'.read a = m.read a)
    (hlow : position.AtLeast s.sp) (hsp : position.sp + s'.high = sp' + s.high) :
    ∃ visits : List Visit, q.visits = visits.reverse ++ p.visits ∧
      sc.Makes m' (sc.walk s'.high (position.withSp sp')) (visits.map (Visit.relocated f)) := by
  -- Both walks are at the same distance from the tops of their stacks, and that decides each step.
  induction h generalizing sp' with
  | @finish sp registers p top =>
      change sp + s'.high = sp' + s.high at hsp
      have htop := sc.chunkTop_relocated hsp
      refine ⟨[], rfl, ?_⟩
      rw [WalkPosition.withSp, walk, if_pos (by omega)]
      exact makes_pure
  | @enter sp registers p q frames later top rest ih =>
      change sp + s'.high = sp' + s.high at hsp
      have htop := sc.chunkTop_relocated hsp
      have habove := sc.le_chunkTop s.high sp
      have hnoted := (rest.onward hobserve hlocals).noted
      have hread : m'.read (sc.chunkTop s'.high sp') = m.read (sc.chunkTop s.high sp) := by
        refine htwin.read_at (Nat.le_trans hlow habove) (by omega) ?_ htop
        exact hagrees.aligned _ (.inl (hlog (hnoted (by simp [Progress.logging]))))
      have hnext : sc.chunkTop s.high sp + wordBytes + s'.high =
          sc.chunkTop s'.high sp' + wordBytes + s.high := by omega
      obtain ⟨visits, hvisits, hmakes⟩ := ih hmemory hlog hregisters
        (Nat.add_le_add_right (Nat.le_trans hlow habove) wordBytes) hnext
      refine ⟨visits, hvisits, makes_walk_chunk (by omega) (spares_of_none hlocals _) ?_⟩
      rw [hread]
      rwa [hmemory] at hmakes
  | @boundary sp returnAddress registers p q d chunks found native inside rest ih =>
      have hnoted := (rest.onward hobserve hlocals).noted
      change sp + s'.high = sp' + s.high at hsp
      change s.sp + wordBytes ≤ sp at hlow
      have hread : m'.read (sp' + chunkHeaderBytes) = m.read (sp + chunkHeaderBytes) := by
        refine htwin.read_at (by omega) (by omega) ?_ (by omega)
        exact hagrees.aligned _ (.inl (hlog (hnoted (by simp [Progress.logging]))))
      have hlower : s.sp ≤ sp + chunkHeaderBytes + wordBytes := by omega
      have hnext : sp + chunkHeaderBytes + wordBytes + s'.high =
          sp' + chunkHeaderBytes + wordBytes + s.high := by omega
      obtain ⟨visits, hvisits, hmakes⟩ := ih hmemory hlog hregisters hlower hnext
      refine ⟨visits, hvisits, makes_walk_boundary ⟨d, found, native⟩ (by omega)
        (spares_of_none hlocals _) ?_⟩
      rw [hread]
      rwa [hmemory] at hmakes
  | @frame sp returnAddress registers p u q d frames later found compiled reaches visited positive
      sized inside rest ih =>
      change sp + s'.high = sp' + s.high at hsp
      change s.sp + wordBytes ≤ sp at hlow
      simp only [WalkPosition.registers, List.flatMap_cons, List.append_assoc] at hregisters
      obtain ⟨hframe, hlater⟩ := List.forall_mem_append.mp hregisters
      have hfirst := visits_of_classifyAll hobserve hlocals visited
      obtain ⟨honward, hlooked⟩ := lookedAt_of_classifyAll hobserve hlocals visited
      rw [Progress.memory_logging, hmemory] at hfirst hlooked
      have hafter := rest.onward hobserve hlocals
      have hu : u.memory = m := honward.memory.trans hmemory
      have hnoted : u.accesses ⊆ log :=
        List.Subset.trans (((Progress.Onward.refl u).logging _).trans hafter).noted hlog
      obtain ⟨hadmits, hreports⟩ := admits_of_twin htwin hagrees hlocals hframe reaches
        (Nat.le_trans (Nat.le_add_right _ _) hlow) hsp fun a ha => (hlooked a ha).mono hnoted
      have hcaller : m'.read (sp' + d.frameSize - wordBytes) =
          m.read (sp + d.frameSize - wordBytes) := by
        have hsp' := htwin.sp
        have hword : 0 < wordBytes := by decide
        refine htwin.read_at (by omega) (by omega) ?_ (by omega)
        exact hagrees.aligned _ (.inl (hlog (hafter.noted (by simp [Progress.logging]))))
      have hlower : s.sp + wordBytes ≤ sp + d.frameSize := by omega
      have hnext : sp + d.frameSize + s'.high = sp' + d.frameSize + s.high := by omega
      obtain ⟨visits, hvisits, hmakes⟩ := ih hu hlog hlater hlower hnext
      refine ⟨sc.reportsOf m (MetFrame.slots registers ⟨sp, d⟩) ++ visits, ?_, ?_⟩
      · rw [hvisits, Progress.visits_logging, hfirst, List.reverse_append, List.append_assoc]
        rfl
      · rw [List.map_append, ← hreports]
        refine makes_walk_frame hobserve (sound_of_none hlocals) htwin.target.high_lt found compiled
          positive (by omega) hadmits (spares_of_none hlocals _) ?_
        rw [hcaller]
        rwa [hu] at hmakes

end Walks

/-! ### Chains -/

variable {chain chain' : Chain} {registers : Option Nat} {p q : Progress}

theorem visits_handlers_of_twin {s s' : Segment} (htwin : s.Twin f m m' s') :
    (s'.handlerSlots.map fun a => (⟨m'.read a, a⟩ : Visit)) =
      (s.handlerSlots.map fun a => ⟨m.read a, a⟩).map (Visit.relocated f) := by
  rw [← htwin.handlerSlots, List.map_map, List.map_map]
  apply List.map_congr_left
  intro a ha
  simp only [Function.comp_apply, htwin.read_handlerSlots ha, Visit.relocated]

/-- A scan of the old chain under compiled code that succeeds takes the same steps over the new
one. -/
theorem Scanned.makes_twins (hobserve : sc.visitor = Visitor.observe) (hlocals : sc.locals = none)
    (hnative : sc.ctx.mode = .native) {met : List MetStack}
    (h : Scanned sc registers chain p met q) (hagrees : Agrees m m' log) (hmemory : p.memory = m)
    (hlog : q.accesses ⊆ log) (htwins : List.Forall₂ (Segment.Twin f m m') chain chain')
    (hregisters : ∀ a ∈ met.flatMap MetStack.registerSlots, f a = a ∧ m'.read a = m.read a) :
    ∃ visits : List Visit, q.visits = visits.reverse ++ p.visits ∧
      sc.Makes m' (forM chain' (sc.scanSegment registers)) (visits.map (Visit.relocated f)) := by
  induction h generalizing chain' with
  | nil =>
      cases htwins
      exact ⟨[], rfl, makes_pure⟩
  | @cons s outer p u v q chunks visits met walked handled told rest ih =>
      obtain ⟨s', outer', htwin, houter, rfl⟩ := List.forall₂_cons_left_iff.mp htwins
      rw [List.flatMap_cons] at hregisters
      obtain ⟨hhead, htail⟩ := List.forall_mem_append.mp hregisters
      have hwalked := walked.onward hobserve hlocals
      have hhandled := onward_of_visitHandlers hobserve handled
      have hlater := rest.onward hobserve hlocals
      have hspares : ∀ t : Segment, ∀ a ∈ t.handlerSlots, sc.Spares a :=
        fun t a _ => spares_of_none hlocals a
      have hvisited := (makes_visitHandlers hobserve s (hspares s)).visits_eq handled
      rw [hwalked.memory, hmemory] at hvisited
      obtain ⟨xs, hxs, hstack⟩ := walked.makes_twin hobserve hlocals htwin hagrees hmemory
        (List.Subset.trans (hhandled.finishing.trans hlater).noted hlog) hhead (Nat.le_refl _)
        htwin.sp
      obtain ⟨ys, hys, hchain⟩ := ih (hhandled.memory.trans (hwalked.memory.trans hmemory)) hlog
        houter htail
      -- The walk is first, then the handlers, then the outer stacks.
      refine ⟨xs ++ (s.handlerSlots.map fun a => ⟨m.read a, a⟩) ++ ys, ?_, ?_⟩
      · rw [hys]
        change _ ++ v.visits = _
        rw [hvisited, hxs]
        simp only [List.reverse_append, List.append_assoc]
      · rw [List.forM_cons, List.map_append, List.map_append, scanSegment_of_native hnative,
          ← visits_handlers_of_twin htwin]
        exact (hstack.bind (makes_visitHandlers hobserve s' (hspares s'))).segmentDone.bind hchain

/-- Code that keeps no live values in registers has none scanned. -/
theorem Scanned.registerSlots_eq_nil {met : List MetStack}
    (hstack : ∀ a d, sc.ctx.frames a = some d → ∀ index, .register index ∉ d.liveSlots)
    (h : Scanned sc registers chain p met q) : met.flatMap MetStack.registerSlots = [] := by
  induction h with
  | nil => rfl
  | @cons s outer p u v q chunks visits met walked handled told rest ih =>
      rw [List.flatMap_cons, ih, List.append_nil]
      refine List.flatMap_eq_nil_iff.mpr fun c hc => List.flatMap_eq_nil_iff.mpr fun f hf => ?_
      obtain ⟨-, a, hfound⟩ := walked.frames_described f
        (List.mem_append_right _ (List.mem_flatMap.mpr ⟨c, hc, hf⟩))
      exact MetFrame.registerSlots_eq_nil (hstack a _ hfound)

theorem scanSegment_of_flat (hflat : sc.ctx.mode = .flat) (registers : Option Nat) (s : Segment) :
    sc.scanSegment registers s = sc.scanFlat s >>= fun _ => Scan.segmentDone := by
  unfold scanSegment
  rw [hflat]

theorem makes_flatChain (hobserve : sc.visitor = Visitor.observe) (hlocals : sc.locals = none)
    (hflat : sc.ctx.mode = .flat) (m : Memory) (registers : Option Nat) (chain : Chain) :
    sc.Makes m (forM chain (sc.scanSegment registers))
      (chain.flatMap fun s => m.visitsTo sc.isCandidate (s.liveSlots ++ s.handlerSlots)) := by
  induction chain with
  | nil => exact makes_pure
  | cons s outer ih =>
      rw [List.forM_cons, List.flatMap_cons, scanSegment_of_flat hflat]
      exact (makes_scanFlat hobserve hlocals m s).segmentDone.bind ih

theorem visits_flatChain_of_twins (htwins : List.Forall₂ (Segment.Twin f m m') chain chain') :
    (chain'.flatMap fun s => m'.visitsTo sc.isCandidate (s.liveSlots ++ s.handlerSlots)) =
      (chain.flatMap fun s =>
        m.visitsTo sc.isCandidate (s.liveSlots ++ s.handlerSlots)).map (Visit.relocated f) := by
  induction htwins with
  | nil => rfl
  | @cons s s' outer outer' htwin _ ih =>
      rw [List.flatMap_cons, List.flatMap_cons, List.map_append, ih, ← htwin.liveSlots,
        ← htwin.handlerSlots, ← List.map_append]
      congr 1
      refine Memory.visitsTo_map (fun a ha => ?_) fun _ _ => rfl
      rcases List.mem_append.mp ha with hlive | hhandler
      · exact htwin.read_liveSlots hlive
      · exact htwin.read_handlerSlots hhandler

/-- The scan of a chain that only looks reports of a chain of twins the same values, in the
locations that the old ones are taken to. -/
theorem makes_scanChain_of_twins (hobserve : sc.visitor = Visitor.observe)
    (hlocals : sc.locals = none) (hrun : sc.scanChain registers chain p = .ok () q)
    (htwins : List.Forall₂ (Segment.Twin f p.memory m') chain chain')
    (hagrees : Agrees p.memory m' q.accesses)
    (hregisters : sc.ctx.mode = .native → ∀ met, Scanned sc registers chain p met q →
      ∀ a ∈ met.flatMap MetStack.registerSlots, f a = a ∧ m'.read a = p.memory.read a) :
    ∃ visits : List Visit, q.visits = visits.reverse ++ p.visits ∧
      sc.Makes m' (sc.scanChain registers chain') (visits.map (Visit.relocated f)) := by
  cases hmode : sc.ctx.mode with
  | native =>
      obtain ⟨met, hscanned⟩ := (scanChain_eq_ok_iff hmode).mp hrun
      exact hscanned.makes_twins hobserve hlocals hmode hagrees rfl (List.Subset.refl _) htwins
        (hregisters hmode met hscanned)
  | flat =>
      have hmakes := makes_flatChain hobserve hlocals hmode
      refine ⟨_, (hmakes p.memory registers chain).visits_eq hrun, ?_⟩
      rw [← visits_flatChain_of_twins htwins]
      exact hmakes m' registers chain'

end Scanner

end FiberStacks
