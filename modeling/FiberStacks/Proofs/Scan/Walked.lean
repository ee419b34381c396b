import FiberStacks.Proofs.Scan.Visits
import FiberStacks.Scan

/-!
# The course of a walk

A walk over compiled frames that succeeds has come by chunks of frames. The relation `Walked` lists
them, with one case for each step that a walk can take, so that whatever holds of a successful walk
is an induction over the frames that it met. `Scanned` does the same for a chain.
-/

namespace FiberStacks

/-- The register save area in force at a position. -/
def WalkPosition.registers : WalkPosition → Option Nat
  | chunk _ registers => registers
  | frame _ registers _ => registers

/-- The address of a live location, if it can be told. -/
def LiveLocation.place? (base : Nat) (registers : Option Nat) : LiveLocation → Option Nat
  | .stack offset => some (base + offset)
  | .register index => registers.map fun area => area + index * wordBytes

/-- The scan accepts the location: it is below the end of the stack, or its register save area is
known. -/
def LiveLocation.InReach (high base : Nat) (registers : Option Nat) : LiveLocation → Prop
  | .stack offset => base + offset < Size.limit ∧ base + offset < high
  | .register _ => registers.isSome = true

/-- What a walk reports of a stack on which it cannot go on. -/
inductive Unfollowable : Abort → Prop
  | outOfBounds (a : Nat) : Unfollowable (.violation (.frameOutOfBounds a))
  | noDescriptor (a : Nat) : Unfollowable (.violation (.missingFrameDescriptor a))
  | noRegisterArea : Unfollowable (.violation .missingRegisterArea)

/-- A frame that a walk came by. Its stack offsets count from `base`. -/
structure MetFrame where
  base : Nat
  descriptor : FrameDescriptor

/-- A chunk of frames that a walk came by, with the register save area that was in force. -/
structure MetChunk where
  registers : Option Nat
  frames : List MetFrame

/-- A segment that a scan came by, with the chunks in it and the visits made for it. -/
structure MetStack where
  segment : Segment
  chunks : List MetChunk
  visits : List Visit

/-- The live locations of a frame, in the order of its descriptor. -/
def MetFrame.slots (registers : Option Nat) (f : MetFrame) : List Nat :=
  f.descriptor.liveSlots.filterMap (LiveLocation.place? f.base registers)

/-- The live locations of a chunk, from the innermost frame on. -/
def MetChunk.slots (c : MetChunk) : List Nat :=
  c.frames.flatMap (MetFrame.slots c.registers)

/-- The live locations of a stack and its handlers, in the order of the scan. -/
def MetStack.slots (s : MetStack) : List Nat :=
  s.chunks.flatMap MetChunk.slots ++ s.segment.handlerSlots

namespace Progress

/-- The state after one more segment was done. -/
def finishing (p : Progress) : Progress := { p with segments := p.segments + 1 }

end Progress

namespace Scanner

def classifyAll (sc : Scanner) (slots : List Nat) : ScanM Unit :=
  forM slots fun slot => discard (sc.classify slot)

theorem tells_classifyAll (sc : Scanner) (slots : List Nat) :
    Scan.Tells (sc.classifyAll slots) slots := by
  have h := Scan.tells_forM (fun slot => (sc.tells_classify slot).discard) slots
  rwa [List.flatMap_singleton'] at h

variable {sc : Scanner} {high : Nat}

/-- A location that is in reach is classified, and for any other the walk cannot go on. -/
theorem visitLive_cases (sc : Scanner) {base : Nat} {registers : Option Nat} (l : LiveLocation) :
    (¬ l.InReach high base registers ∧ ∃ e, sc.visitLive high base registers l = throw e ∧
        ((∀ offset, l = .stack offset → base + offset < Size.limit) → Unfollowable e)) ∨
      ∃ slot, l.InReach high base registers ∧ l.place? base registers = some slot ∧
        sc.visitLive high base registers l = discard (sc.classify slot) := by
  cases l with
  | register index =>
      cases registers with
      | none => exact .inl ⟨Bool.false_ne_true, _, rfl, fun _ => .noRegisterArea⟩
      | some area => exact .inr ⟨_, rfl, rfl, rfl⟩
  | stack offset =>
      rw [visitLive, Size.add]
      by_cases hlimit : base + offset < Size.limit
      · rw [if_pos hlimit]
        by_cases hhigh : high ≤ base + offset
        · refine .inl ⟨fun h => Nat.not_lt.mpr hhigh h.2, _, ?_,
            fun _ => .outOfBounds (base + offset)⟩
          change (if high ≤ base + offset then _ else _ : ScanM Unit) = _
          rw [if_pos hhigh]
        · refine .inr ⟨base + offset, ⟨hlimit, Nat.not_le.mp hhigh⟩, rfl, ?_⟩
          change (if high ≤ base + offset then _ else _ : ScanM Unit) = _
          rw [if_neg hhigh]
      · rw [if_neg hlimit]
        exact .inl ⟨fun h => hlimit h.1, _, rfl, fun hsmall => absurd (hsmall offset rfl) hlimit⟩

theorem visitLive_eq_ok_iff {base : Nat} {registers : Option Nat} {l : LiveLocation}
    {p q : Progress} :
    sc.visitLive high base registers l p = .ok () q ↔
      l.InReach high base registers ∧
        sc.classifyAll ([l].filterMap (LiveLocation.place? base registers)) p = .ok () q := by
  obtain ⟨hnot, e, hthrow, -⟩ | ⟨slot, hreach, hplace, hvisit⟩ := sc.visitLive_cases l
  · rw [hthrow]
    exact iff_of_false nofun fun h => hnot h.1
  · rw [hvisit, List.filterMap_cons_some hplace, List.filterMap_nil, classifyAll,
      Run.forM_cons_eq_ok_iff]
    constructor
    · intro h
      exact ⟨hreach, q, h, rfl⟩
    · rintro ⟨-, u, h, hu⟩
      cases hu
      exact h

theorem visitLives_eq_ok_iff {base : Nat} {registers : Option Nat} {ls : List LiveLocation}
    {p q : Progress} :
    (forM ls (sc.visitLive high base registers) : ScanM Unit) p = .ok () q ↔
      (∀ l ∈ ls, l.InReach high base registers) ∧
        sc.classifyAll (ls.filterMap (LiveLocation.place? base registers)) p = .ok () q := by
  induction ls generalizing p with
  | nil => simp [classifyAll]
  | cons l ls ih =>
      rw [Run.forM_cons_eq_ok_iff, ← List.singleton_append, List.filterMap_append]
      unfold classifyAll
      rw [Run.forM_append_eq_ok_iff]
      constructor
      · rintro ⟨u, hl, hls⟩
        obtain ⟨hreach, hu⟩ := visitLive_eq_ok_iff.mp hl
        obtain ⟨hreaches, hq⟩ := ih.mp hls
        refine ⟨?_, u, hu, hq⟩
        intro k hk
        rcases List.mem_append.mp hk with hk | hk
        · rwa [List.mem_singleton.mp hk]
        · exact hreaches k hk
      · rintro ⟨hreaches, u, hu, hq⟩
        refine ⟨u, visitLive_eq_ok_iff.mpr ⟨hreaches l (by simp), hu⟩, ih.mpr ⟨?_, hq⟩⟩
        intro k hk
        exact hreaches k (List.mem_append_right _ hk)

/-! ### Turns -/

theorem lookup_run (returnAddress base : Nat) (p : Progress) :
    sc.lookup returnAddress base p =
      .ok (sc.ctx.frames returnAddress) (p.logging [.lookup returnAddress base]) := rfl

/-- One turn of a walk, from one position and state to the next. -/
inductive Turn (sc : Scanner) (high : Nat) :
    WalkPosition → Progress → WalkPosition → Progress → Prop
  | enter {sp : Nat} {registers : Option Nat} {p : Progress} (below : sc.chunkTop high sp < high) :
      Turn sc high (.chunk sp registers) p
        (.frame (sc.chunkTop high sp + wordBytes) registers
          (p.memory.read (sc.chunkTop high sp)).toNat)
        (p.logging [.steer (sc.chunkTop high sp)])
  | boundary {sp returnAddress : Nat} {registers : Option Nat} {p : Progress}
      {d : FrameDescriptor} (found : sc.ctx.frames returnAddress = some d)
      (native : d.returnsToNative = true) (inside : sp + chunkHeaderBytes < high) :
      Turn sc high (.frame sp registers returnAddress) p
        (.chunk (sp + chunkHeaderBytes + wordBytes)
          (registerArea (p.memory.read (sp + chunkHeaderBytes))))
        (p.logging [.steer (sp + chunkHeaderBytes), .lookup returnAddress sp])
  | frame {sp returnAddress : Nat} {registers : Option Nat} {p u : Progress}
      {d : FrameDescriptor} (found : sc.ctx.frames returnAddress = some d)
      (compiled : d.returnsToNative = false)
      (visited : (forM d.liveSlots (sc.visitLive high sp registers) : ScanM Unit)
        (p.logging [.lookup returnAddress sp]) = .ok ⟨⟩ u)
      (positive : d.frameSize ≠ 0) (sized : sp + d.frameSize < Size.limit)
      (inside : sp + d.frameSize ≤ high) :
      Turn sc high (.frame sp registers returnAddress) p
        (.frame (sp + d.frameSize) registers
          (u.memory.read (sp + d.frameSize - wordBytes)).toNat)
        (u.logging [.steer (sp + d.frameSize - wordBytes)])

theorem Turn.walk_eq {position position' : WalkPosition} {p q : Progress}
    (h : Turn sc high position p position' q) :
    sc.walk high position p = sc.walk high position' q := by
  cases h with
  | enter below =>
      conv_lhs =>
        rw [walk, if_neg (by omega), if_neg (by omega), Run.bind_of_ok (Scan.steer_run _ _)]
  | boundary found native inside =>
      conv_lhs => rw [walk, Run.bind_of_ok (lookup_run _ _ _), found]
      simp only
      rw [if_pos native, if_neg (by omega), Run.bind_of_ok (Scan.steer_run _ _)]
      rfl
  | frame found compiled visited positive sized inside =>
      conv_lhs => rw [walk, Run.bind_of_ok (lookup_run _ _ _), found]
      simp only
      rw [if_neg (by simp [compiled]), List.forM_eq_forM, Run.bind_of_ok visited, if_neg positive,
        if_neg (by omega), if_neg (by omega), Run.bind_of_ok (Scan.steer_run _ _)]

/-! ### Walks -/

/-- `Walked sc high position p frames chunks q`: the walk from `position` succeeds and takes the
state from `p` to `q`. It comes by the rest `frames` of the chunk it stands in, and then by
`chunks`. -/
inductive Walked (sc : Scanner) (high : Nat) :
    WalkPosition → Progress → List MetFrame → List MetChunk → Progress → Prop where
  | finish {sp : Nat} {registers : Option Nat} {p : Progress}
      (top : sc.chunkTop high sp = high) :
      Walked sc high (.chunk sp registers) p [] [] p
  | enter {sp : Nat} {registers : Option Nat} {p q : Progress} {frames : List MetFrame}
      {later : List MetChunk} (top : sc.chunkTop high sp < high)
      (rest : Walked sc high (.frame (sc.chunkTop high sp + wordBytes) registers
        (p.memory.read (sc.chunkTop high sp)).toNat) (p.logging [.steer (sc.chunkTop high sp)])
        frames later q) :
      Walked sc high (.chunk sp registers) p [] (⟨registers, frames⟩ :: later) q
  | boundary {sp returnAddress : Nat} {registers : Option Nat} {p q : Progress}
      {d : FrameDescriptor} {chunks : List MetChunk}
      (found : sc.ctx.frames returnAddress = some d) (native : d.returnsToNative = true)
      (inside : sp + chunkHeaderBytes < high)
      (rest : Walked sc high (.chunk (sp + chunkHeaderBytes + wordBytes)
        (registerArea (p.memory.read (sp + chunkHeaderBytes))))
        (p.logging [.steer (sp + chunkHeaderBytes), .lookup returnAddress sp]) [] chunks q) :
      Walked sc high (.frame sp registers returnAddress) p [] chunks q
  | frame {sp returnAddress : Nat} {registers : Option Nat} {p u q : Progress}
      {d : FrameDescriptor} {frames : List MetFrame} {later : List MetChunk}
      (found : sc.ctx.frames returnAddress = some d) (compiled : d.returnsToNative = false)
      (reaches : ∀ l ∈ d.liveSlots, l.InReach high sp registers)
      (visited : sc.classifyAll (MetFrame.slots registers ⟨sp, d⟩)
        (p.logging [.lookup returnAddress sp]) = .ok () u)
      (positive : d.frameSize ≠ 0) (sized : sp + d.frameSize < Size.limit)
      (inside : sp + d.frameSize ≤ high)
      (rest : Walked sc high (.frame (sp + d.frameSize) registers
        (u.memory.read (sp + d.frameSize - wordBytes)).toNat)
        (u.logging [.steer (sp + d.frameSize - wordBytes)]) frames later q) :
      Walked sc high (.frame sp registers returnAddress) p (⟨sp, d⟩ :: frames) later q

theorem Walked.walk_run {position : WalkPosition} {p q : Progress} {frames : List MetFrame}
    {chunks : List MetChunk} (h : Walked sc high position p frames chunks q) :
    sc.walk high position p = .ok () q := by
  induction h with
  | finish top =>
      rw [walk, if_pos top]
      rfl
  | enter top _ ih => exact (Turn.enter top).walk_eq.trans ih
  | boundary found native inside _ ih => exact (Turn.boundary found native inside).walk_eq.trans ih
  | frame found compiled reaches visited positive sized inside _ ih =>
      have hvisits := visitLives_eq_ok_iff.mpr ⟨reaches, visited⟩
      exact (Turn.frame found compiled hvisits positive sized inside).walk_eq.trans ih

theorem exists_walked {position : WalkPosition} {p q : Progress}
    (h : sc.walk high position p = .ok () q) :
    ∃ frames chunks, Walked sc high position p frames chunks q := by
  induction position using walk.induct sc high generalizing p with
  | case1 sp registers htop =>
      rw [walk, if_pos htop] at h
      cases h
      exact ⟨[], [], .finish htop⟩
  | case2 sp registers htop hbeyond =>
      rw [walk, if_neg htop, if_pos hbeyond] at h
      cases h
  | case3 sp registers htop hbeyond ih =>
      have hbelow : sc.chunkTop high sp < high := by omega
      rw [(Turn.enter hbelow).walk_eq] at h
      obtain ⟨frames, chunks, hwalked⟩ := ih _ h
      exact ⟨[], _, .enter hbelow hwalked⟩
  | case4 sp registers returnAddress ihboundary ihframe =>
      rw [walk, Run.bind_of_ok (lookup_run _ _ _)] at h
      cases hfound : sc.ctx.frames returnAddress with
      | none =>
          rw [hfound] at h
          cases h
      | some d =>
          rw [hfound] at h
          simp only at h
          by_cases hnative : d.returnsToNative = true
          · rw [if_pos hnative] at h
            by_cases hinside : high ≤ sp + chunkHeaderBytes
            · rw [if_pos hinside] at h
              cases h
            · rw [if_neg hinside, Run.bind_of_ok (Scan.steer_run _ _)] at h
              obtain ⟨frames, chunks, hwalked⟩ := ihboundary hinside _ h
              have hnil : frames = [] := by cases hwalked <;> rfl
              subst hnil
              exact ⟨[], chunks, .boundary hfound hnative (by omega) hwalked⟩
          · rw [if_neg hnative, List.forM_eq_forM, Run.bind_eq_ok_iff] at h
            obtain ⟨_, u, hvisits, h⟩ := h
            obtain ⟨hreaches, hvisited⟩ := visitLives_eq_ok_iff.mp hvisits
            split at h
            · cases h
            · rename_i hpositive
              split at h
              · cases h
              · rename_i hsized
                split at h
                · cases h
                · rename_i hinside
                  rw [Run.bind_of_ok (Scan.steer_run _ _)] at h
                  obtain ⟨frames, chunks, hwalked⟩ := ihframe d hpositive hinside _ h
                  exact ⟨_, chunks, .frame hfound (Bool.not_eq_true _ ▸ hnative) hreaches hvisited
                    hpositive (by omega) (by omega) hwalked⟩

/-- A walk succeeds exactly if it comes by chunks of frames up to the end of the stack. -/
theorem walk_eq_ok_iff {position : WalkPosition} {p q : Progress} :
    sc.walk high position p = .ok () q ↔
      ∃ frames chunks, Walked sc high position p frames chunks q :=
  ⟨exists_walked, fun ⟨_, _, h⟩ => h.walk_run⟩

/-- A walk reports live locations of the frames it comes by, in their order. -/
theorem Walked.exists_visits {position : WalkPosition} {p q : Progress} {frames : List MetFrame}
    {chunks : List MetChunk} (h : Walked sc high position p frames chunks q) :
    ∃ visits : List Visit, q.visits = visits.reverse ++ p.visits ∧
      (visits.map Visit.slot).Sublist
        (frames.flatMap (MetFrame.slots position.registers) ++ chunks.flatMap MetChunk.slots) := by
  induction h with
  | finish top => exact ⟨[], rfl, List.Sublist.refl []⟩
  | enter top _ ih => exact ih
  | boundary found native inside _ ih => exact ih
  | @frame sp returnAddress registers p u q d frames later found compiled reaches visited positive
      sized inside _ ih =>
      have hclassify := tells_classifyAll sc (MetFrame.slots registers ⟨sp, d⟩)
      obtain ⟨first, hu, hfirst⟩ := hclassify _ _ _ visited
      obtain ⟨second, hq, hsecond⟩ := ih
      refine ⟨first ++ second, ?_, ?_⟩
      · rw [hq, Progress.visits_logging, hu, List.reverse_append, List.append_assoc]
        rfl
      · rw [List.map_append, List.flatMap_cons, List.append_assoc]
        exact hfirst.append hsecond

theorem Walked.frames_described (h : Walked sc high position p frames chunks q) :
    ∀ f ∈ frames ++ chunks.flatMap MetChunk.frames,
      f.descriptor.returnsToNative = false ∧ ∃ a, sc.ctx.frames a = some f.descriptor := by
  induction h with
  | finish top => exact fun f hf => absurd hf List.not_mem_nil
  | enter top _ ih => exact ih
  | boundary found native inside _ ih => exact ih
  | @frame sp returnAddress registers p u q d frames later found compiled reaches visited positive
      sized inside _ ih =>
      intro f hf
      rcases List.mem_cons.mp hf with rfl | hf
      · exact ⟨compiled, returnAddress, found⟩
      · exact ih f hf

/-! ### Chains -/

/-- `Scanned sc registers chain p met q`: the scan of `chain` under compiled code succeeds and takes
the state from `p` to `q`. It comes by the stacks `met`, the segments of the chain. -/
inductive Scanned (sc : Scanner) (registers : Option Nat) :
    Chain → Progress → List MetStack → Progress → Prop where
  | nil {p : Progress} : Scanned sc registers [] p [] p
  | cons {s : Segment} {outer : Chain} {p u v q : Progress} {chunks : List MetChunk}
      {visits : List Visit} {met : List MetStack}
      (walked : Walked sc s.high (.chunk s.sp registers) p [] chunks u)
      (handled : sc.visitHandlers s u = .ok () v)
      (told : v.visits = visits.reverse ++ p.visits)
      (rest : Scanned sc registers outer v.finishing met q) :
      Scanned sc registers (s :: outer) p (⟨s, chunks, visits⟩ :: met) q

/-- The visits for a stack are to its live locations and handlers, in their order. -/
theorem exists_stack_visits {s : Segment} {registers : Option Nat} {p u v : Progress}
    {chunks : List MetChunk} (hwalked : Walked sc s.high (.chunk s.sp registers) p [] chunks u)
    (hhandled : sc.visitHandlers s u = .ok () v) :
    ∃ visits : List Visit, v.visits = visits.reverse ++ p.visits ∧
      (visits.map Visit.slot).Sublist (chunks.flatMap MetChunk.slots ++ s.handlerSlots) := by
  obtain ⟨first, hu, hfirst⟩ := hwalked.exists_visits
  obtain ⟨second, hv, hsecond⟩ := tells_visitHandlers sc s u () v hhandled
  refine ⟨first ++ second, ?_, ?_⟩
  · rw [hv, hu, List.reverse_append, List.append_assoc]
  · rw [List.map_append]
    exact hfirst.append hsecond

theorem scanSegment_of_native (hnative : sc.ctx.mode = .native) (registers : Option Nat)
    (s : Segment) :
    sc.scanSegment registers s = sc.scanNative registers s >>= fun _ => Scan.segmentDone := by
  unfold scanSegment
  rw [hnative]

theorem scanSegment_eq_ok_iff (hnative : sc.ctx.mode = .native) {registers : Option Nat}
    {s : Segment} {p q : Progress} :
    sc.scanSegment registers s p = .ok () q ↔
      ∃ u v chunks, Walked sc s.high (.chunk s.sp registers) p [] chunks u ∧
        sc.visitHandlers s u = .ok () v ∧ q = v.finishing := by
  rw [scanSegment_of_native hnative]
  unfold scanNative scanFrames
  simp only [Run.bind_eq_ok_iff]
  constructor
  · rintro ⟨_, v, ⟨_, u, hwalk, hhandled⟩, hdone⟩
    obtain ⟨frames, chunks, hwalked⟩ := walk_eq_ok_iff.mp hwalk
    have hnil : frames = [] := by cases hwalked <;> rfl
    subst hnil
    cases hdone
    exact ⟨u, v, chunks, hwalked, hhandled, rfl⟩
  · rintro ⟨u, v, chunks, hwalked, hhandled, rfl⟩
    exact ⟨(), v, ⟨(), u, hwalked.walk_run, hhandled⟩, rfl⟩

/-- A scan of a chain succeeds exactly if it comes by all of its segments. -/
theorem scanChain_eq_ok_iff (hnative : sc.ctx.mode = .native) {registers : Option Nat}
    {chain : Chain} {p q : Progress} :
    sc.scanChain registers chain p = .ok () q ↔ ∃ met, Scanned sc registers chain p met q := by
  unfold scanChain
  rw [List.forM_eq_forM]
  induction chain generalizing p with
  | nil =>
      constructor
      · intro h
        cases h
        exact ⟨[], .nil⟩
      · rintro ⟨met, h⟩
        cases h
        rfl
  | cons s outer ih =>
      rw [Run.forM_cons_eq_ok_iff]
      constructor
      · rintro ⟨w, hsegment, houter⟩
        obtain ⟨u, v, chunks, hwalked, hhandled, rfl⟩ := (scanSegment_eq_ok_iff hnative).mp hsegment
        obtain ⟨met, hmet⟩ := ih.mp houter
        obtain ⟨visits, htold, -⟩ := exists_stack_visits hwalked hhandled
        exact ⟨⟨s, chunks, visits⟩ :: met, .cons hwalked hhandled htold hmet⟩
      · rintro ⟨met, h⟩
        cases h with
        | cons walked handled told rest =>
            exact ⟨_, (scanSegment_eq_ok_iff hnative).mpr ⟨_, _, _, walked, handled, rfl⟩,
              ih.mpr ⟨_, rest⟩⟩

end Scanner

end FiberStacks
