import FiberStacks.Proofs.Memory
import FiberStacks.Proofs.Scan.Walked

/-!
# The layout of stacks under compiled code

The live words of a stack that compiled code has left are chunks, and the words of a chunk are
frames, each of which ends in the return address of the next. This module writes down which words
those are and where the live locations among them lie, without the walk that finds them.

The main result is that the walk inverts the layout: a scan of a chain of such stacks succeeds, and
it reports the live locations in the order of the layout, those of each stack before its handlers.
-/

namespace FiberStacks

structure StackFrame where
  /-- The word below the frame: where the call in it returns to. -/
  returnAddress : Word
  /-- The words of the frame but for the last, which is the next return address. -/
  words : List Word
  /-- The live locations at the call. -/
  live : List LiveLocation

namespace StackFrame

/-- Bytes of the frame, with the return address at its end. -/
def bytes (f : StackFrame) : Nat := wordBytes * (f.words.length + 1)

/-- The call site of the frame is described with its size and its live locations. -/
def Registered (frames : Nat → Option FrameDescriptor) (f : StackFrame) : Prop :=
  ∃ d, frames f.returnAddress.toNat = some d ∧ d.returnsToNative = false ∧
    d.frameSize = f.bytes ∧ d.liveSlots = f.live

end StackFrame

/-- A chunk of frames of compiled code that native code has called. -/
structure StackChunk where
  /-- The frame pointer saved on top, where code keeps them. -/
  framePointer : Word
  frames : List StackFrame
  /-- The return address into native code. -/
  boundary : Word
  /-- The three words between it and the register save area. -/
  header : Vector Word 3
  /-- The address of the register save area for the next chunk, or 0. -/
  area : Word

namespace StackChunk

/-- The words of a chunk, lowest address first. -/
def words (framePointers : Bool) (c : StackChunk) : List Word :=
  (if framePointers then [c.framePointer] else []) ++
    ((c.frames.flatMap fun f => f.returnAddress :: f.words) ++
      c.boundary :: (c.header.toList ++ [c.area]))

theorem lead_bytes (framePointers : Bool) (c : StackChunk) :
    wordBytes * (if framePointers then [c.framePointer] else []).length =
      if framePointers then wordBytes else 0 := by
  cases framePointers <;> rfl

theorem words_bytes (framePointers : Bool) (c : StackChunk) :
    wordBytes * (c.words framePointers).length =
      (if framePointers then wordBytes else 0) +
        wordBytes * ((c.frames.flatMap fun f => f.returnAddress :: f.words) ++
          c.boundary :: (c.header.toList ++ [c.area])).length := by
  rw [words, List.length_append, Nat.mul_add, lead_bytes]

/-- All call sites of the chunk are described. -/
def Registered (frames : Nat → Option FrameDescriptor) (c : StackChunk) : Prop :=
  (∀ f ∈ c.frames, f.Registered frames) ∧
    ∃ d, frames c.boundary.toNat = some d ∧ d.returnsToNative = true

end StackChunk

/-- A live location of a stack: the base of its frame, the register save area of its chunk, and the
location itself. -/
structure LiveSlot where
  base : Nat
  registers : Option Nat
  location : LiveLocation

namespace LiveSlot

/-- The address of the location, if it can be told. -/
def place? (l : LiveSlot) : Option Nat := l.location.place? l.base l.registers

/-- A stack location is below the end of its stack, and a register has a save area. -/
def Inside (high : Nat) (l : LiveSlot) : Prop :=
  match l.location with
  | .stack offset => l.base + offset < high
  | .register _ => l.registers.isSome = true

instance (high : Nat) (l : LiveSlot) : Decidable (l.Inside high) :=
  match l with
  | ⟨base, _, .stack offset⟩ => inferInstanceAs (Decidable (base + offset < high))
  | ⟨_, registers, .register _⟩ => inferInstanceAs (Decidable (registers.isSome = true))

theorem Inside.inReach {high : Nat} {l : LiveSlot} (h : l.Inside high) (hhigh : high < Size.limit) :
    l.location.InReach high l.base l.registers := by
  obtain ⟨base, registers, location⟩ := l
  cases location with
  | register index => exact h
  | stack offset =>
      have hbelow : base + offset < high := h
      exact ⟨Nat.lt_trans hbelow hhigh, hbelow⟩

end LiveSlot

namespace StackFrame

/-- The live locations of frames that begin at `base`. -/
def liveSlots (registers : Option Nat) : Nat → List StackFrame → List LiveSlot
  | _, [] => []
  | base, f :: fs =>
    f.live.map (LiveSlot.mk base registers) ++ liveSlots registers (base + f.bytes) fs

end StackFrame

namespace StackChunk

/-- The live locations of chunks that begin at `sp`. The first one has the given register save area,
each other one that of the chunk before. -/
def liveSlots (framePointers : Bool) : Nat → Option Nat → List StackChunk → List LiveSlot
  | _, _, [] => []
  | sp, registers, c :: cs =>
    StackFrame.liveSlots registers
        (sp + (if framePointers then wordBytes else 0) + wordBytes) c.frames ++
      liveSlots framePointers (sp + wordBytes * (c.words framePointers).length)
        (registerArea c.area) cs

end StackChunk

/-- The live words of the segment are the chunks. -/
structure Segment.LaidOut (framePointers : Bool) (m : Memory) (s : Segment)
    (chunks : List StackChunk) : Prop where
  sp_le_high : s.sp ≤ s.high
  high_lt : s.high < Size.limit
  aligned : (s.high - s.sp) % wordBytes = 0
  words : s.liveWords m = chunks.flatMap (StackChunk.words framePointers)

theorem Segment.LaidOut.spells {framePointers : Bool} {m : Memory} {s : Segment}
    {chunks : List StackChunk} (h : s.LaidOut framePointers m chunks) :
    m.Spells s.sp (chunks.flatMap (StackChunk.words framePointers)) ∧
      s.sp + wordBytes * (chunks.flatMap (StackChunk.words framePointers)).length = s.high := by
  have hlength : (chunks.flatMap (StackChunk.words framePointers)).length = s.usedWords := by
    rw [← h.words, liveWords, Memory.length_load]
  refine ⟨?_, ?_⟩
  · unfold Memory.Spells
    rw [hlength]
    exact h.words
  · have hle := h.sp_le_high
    have haligned := h.aligned
    rw [hlength, usedWords]
    simp only [wordBytes] at haligned ⊢
    omega

namespace Scanner

variable {sc : Scanner} {m : Memory}

/-! ### Operations that make given visits -/

/-- Whatever local blocks are marked already, the operation succeeds, changes nothing but headers of
local blocks, and makes the visits. -/
def Makes (sc : Scanner) (m : Memory) (x : ScanM Unit) (visits : List Visit) : Prop :=
  ∀ ws p, sc.Painted m ws p.memory →
    ∃ ws' q, x p = .ok () q ∧ sc.Painted m ws' q.memory ∧ q.visits = visits.reverse ++ p.visits

theorem makes_pure : sc.Makes m (pure ()) [] := by
  intro ws p hp
  exact ⟨ws, p, rfl, hp, rfl⟩

theorem Makes.bind {x y : ScanM Unit} {xs ys : List Visit} (hx : sc.Makes m x xs)
    (hy : sc.Makes m y ys) : sc.Makes m (x >>= fun _ => y) (xs ++ ys) := by
  intro ws p hp
  obtain ⟨ws₁, u, hxu, hu, hxs⟩ := hx ws p hp
  obtain ⟨ws₂, q, hyq, hq, hys⟩ := hy ws₁ u hu
  refine ⟨ws₂, q, ?_, hq, ?_⟩
  · rw [Run.bind_of_ok hxu, hyq]
  · rw [hys, hxs, List.reverse_append, List.append_assoc]

theorem Makes.visits_eq {x : ScanM Unit} {visits : List Visit} {p q : Progress}
    (hx : sc.Makes p.memory x visits) (hrun : x p = .ok () q) :
    q.visits = visits.reverse ++ p.visits := by
  obtain ⟨-, u, hagain, -, hvisits⟩ := hx [] p (painted_nil p.memory)
  cases hagain.symm.trans hrun
  exact hvisits

theorem Makes.segmentDone {x : ScanM Unit} {visits : List Visit} (hx : sc.Makes m x visits) :
    sc.Makes m (x >>= fun _ => Scan.segmentDone) visits := by
  intro ws p hp
  obtain ⟨ws', q, hrun, hq, hvisits⟩ := hx ws p hp
  refine ⟨ws', q.finishing, ?_, hq, hvisits⟩
  rw [Run.bind_of_ok hrun]
  rfl

theorem Makes.steer_bind {a : Nat} {f : Word → ScanM Unit} {visits : List Visit}
    (ha : sc.Spares a) (h : sc.Makes m (f (m.read a)) visits) :
    sc.Makes m (Scan.steer a >>= f) visits := by
  intro ws p hp
  obtain ⟨ws', q, hrun, hq, hvisits⟩ := h ws (p.logging [.steer a]) hp
  refine ⟨ws', q, ?_, hq, hvisits⟩
  rw [Run.bind_of_ok (Scan.steer_run a p), hp.read_of_spares ha, hrun]

theorem Makes.lookup_bind {returnAddress base : Nat} {f : Option FrameDescriptor → ScanM Unit}
    {visits : List Visit} (h : sc.Makes m (f (sc.ctx.frames returnAddress)) visits) :
    sc.Makes m (sc.lookup returnAddress base >>= f) visits := by
  intro ws p hp
  obtain ⟨ws', q, hrun, hq, hvisits⟩ := h ws (p.logging [.lookup returnAddress base]) hp
  exact ⟨ws', q, by rw [Run.bind_of_ok (lookup_run _ _ _), hrun], hq, hvisits⟩

theorem makes_classifyAll (hobserve : sc.visitor = Visitor.observe) (hsound : sc.Sound)
    {slots : List Nat} (hspares : ∀ slot ∈ slots, sc.Spares slot)
    (hwords : ∀ slot ∈ slots, sc.Classifiable m (m.read slot)) :
    sc.Makes m (sc.classifyAll slots) (sc.reportsOf m slots) := by
  intro ws p hp
  obtain ⟨q, hrun, hq, hvisits, -⟩ := classifyAll_painted hobserve hsound slots hp hspares hwords
  exact ⟨_, q, hrun, hq, hvisits⟩

theorem makes_visitHandlers (hobserve : sc.visitor = Visitor.observe) (s : Segment)
    (hspares : ∀ a ∈ s.handlerSlots, sc.Spares a) :
    sc.Makes m (sc.visitHandlers s) (s.handlerSlots.map fun a => ⟨m.read a, a⟩) := by
  unfold visitHandlers
  rw [List.forM_eq_forM]
  generalize s.handlerSlots = slots at hspares ⊢
  induction slots with
  | nil => exact makes_pure
  | cons a slots ih =>
      rw [List.forM_cons, List.map_cons, ← List.singleton_append]
      refine Makes.bind ?_ (ih fun b hb => hspares b (List.mem_cons_of_mem a hb))
      intro ws p hp
      refine ⟨ws, (p.logging [.classify a]).reporting ⟨m.read a, a⟩, ?_, hp, rfl⟩
      rw [Run.bind_of_ok (Scan.slotWord_run a p),
        hp.read_of_spares (hspares a List.mem_cons_self)]
      exact visit_observe hobserve _ _ _

/-! ### The walk over a laid out stack -/

/-- What the scan needs of a live location: it is in its stack or in a register save area, not where
a local block has its header, and holds a word that can be classified. -/
structure Admits (sc : Scanner) (m : Memory) (high : Nat) (l : LiveSlot) : Prop where
  inside : l.Inside high
  spares : ∀ a, l.place? = some a → sc.Spares a
  classifiable : ∀ a, l.place? = some a → sc.Classifiable m (m.read a)

theorem makes_visitLives (hobserve : sc.visitor = Visitor.observe) (hsound : sc.Sound)
    {high base : Nat} (hhigh : high < Size.limit) {registers : Option Nat}
    {ls : List LiveLocation} (hadmits : ∀ l ∈ ls, sc.Admits m high ⟨base, registers, l⟩) :
    sc.Makes m (forM ls (sc.visitLive high base registers))
      (sc.reportsOf m ((ls.map (LiveSlot.mk base registers)).filterMap LiveSlot.place?)) := by
  have hslots : (ls.map (LiveSlot.mk base registers)).filterMap LiveSlot.place? =
      ls.filterMap (LiveLocation.place? base registers) := by
    rw [List.filterMap_map]
    rfl
  rw [hslots]
  have hmakes : sc.Makes m (sc.classifyAll (ls.filterMap (LiveLocation.place? base registers)))
      (sc.reportsOf m (ls.filterMap (LiveLocation.place? base registers))) := by
    refine makes_classifyAll hobserve hsound ?_ ?_
    · intro a ha
      obtain ⟨l, hl, hplace⟩ := List.mem_filterMap.mp ha
      exact (hadmits l hl).spares a hplace
    · intro a ha
      obtain ⟨l, hl, hplace⟩ := List.mem_filterMap.mp ha
      exact (hadmits l hl).classifiable a hplace
  intro ws p hp
  obtain ⟨ws', q, hrun, hq, hvisits⟩ := hmakes ws p hp
  refine ⟨ws', q, visitLives_eq_ok_iff.mpr ⟨?_, hrun⟩, hq, hvisits⟩
  intro l hl
  exact (hadmits l hl).inside.inReach hhigh

/-- The return address of a chunk stands above the saved frame pointer, if there is one. -/
theorem chunkTop_of_lt (sc : Scanner) {high sp : Nat} (h : sp < high) :
    sc.chunkTop high sp = sp + (if sc.ctx.framePointers then wordBytes else 0) := by
  cases hpointers : sc.ctx.framePointers with
  | true => rw [chunkTop, if_pos ⟨hpointers, h⟩, if_pos rfl]
  | false =>
      rw [chunkTop, if_neg (by simp [hpointers])]
      rfl

theorem makes_walk_chunk {high sp : Nat} {registers : Option Nat} {visits : List Visit}
    (hbelow : sc.chunkTop high sp < high) (hspares : sc.Spares (sc.chunkTop high sp))
    (hrest : sc.Makes m (sc.walk high (.frame (sc.chunkTop high sp + wordBytes) registers
      (m.read (sc.chunkTop high sp)).toNat)) visits) :
    sc.Makes m (sc.walk high (.chunk sp registers)) visits := by
  rw [walk, if_neg (Nat.ne_of_lt hbelow), if_neg (Nat.not_lt.mpr (Nat.le_of_lt hbelow))]
  exact Makes.steer_bind hspares hrest

/-- Above the header that follows a return address into native code the next chunk begins. -/
theorem makes_walk_boundary {high sp returnAddress : Nat} {registers : Option Nat}
    {visits : List Visit}
    (hboundary : ∃ d, sc.ctx.frames returnAddress = some d ∧ d.returnsToNative = true)
    (hinside : sp + chunkHeaderBytes < high) (hspares : sc.Spares (sp + chunkHeaderBytes))
    (hrest : sc.Makes m (sc.walk high (.chunk (sp + chunkHeaderBytes + wordBytes)
      (registerArea (m.read (sp + chunkHeaderBytes))))) visits) :
    sc.Makes m (sc.walk high (.frame sp registers returnAddress)) visits := by
  obtain ⟨d, hfound, hnative⟩ := hboundary
  rw [walk]
  apply Makes.lookup_bind
  rw [hfound]
  simp only
  rw [if_pos hnative, if_neg (Nat.not_le.mpr hinside)]
  exact Makes.steer_bind hspares hrest

/-- A frame of compiled code has its live locations visited, and ends in the return address of the
next one. -/
theorem makes_walk_frame (hobserve : sc.visitor = Visitor.observe) (hsound : sc.Sound)
    {high sp returnAddress : Nat} (hhigh : high < Size.limit) {registers : Option Nat}
    {d : FrameDescriptor} {rest : List Visit} (hfound : sc.ctx.frames returnAddress = some d)
    (hcompiled : d.returnsToNative = false) (hpositive : d.frameSize ≠ 0)
    (hinside : sp + d.frameSize ≤ high)
    (hadmits : ∀ l ∈ d.liveSlots, sc.Admits m high ⟨sp, registers, l⟩)
    (hspares : sc.Spares (sp + d.frameSize - wordBytes))
    (hrest : sc.Makes m (sc.walk high (.frame (sp + d.frameSize) registers
      (m.read (sp + d.frameSize - wordBytes)).toNat)) rest) :
    sc.Makes m (sc.walk high (.frame sp registers returnAddress))
      (sc.reportsOf m ((d.liveSlots.map (LiveSlot.mk sp registers)).filterMap LiveSlot.place?) ++
        rest) := by
  rw [walk]
  apply Makes.lookup_bind
  rw [hfound]
  simp only
  rw [if_neg (by simp [hcompiled]), List.forM_eq_forM]
  apply Makes.bind (makes_visitLives hobserve hsound hhigh hadmits)
  rw [if_neg hpositive, if_neg (by omega), if_neg (by omega)]
  exact Makes.steer_bind hspares hrest

/-- The walk from the return address at `top`, over frames and the boundary that follows them. -/
theorem makes_walk_frames (hobserve : sc.visitor = Visitor.observe) (hsound : sc.Sound)
    {high finish : Nat} (hhigh : high < Size.limit) {registers : Option Nat} {boundary area : Word}
    {header : Vector Word 3} {rest : List Visit}
    (hboundary : ∃ d, sc.ctx.frames boundary.toNat = some d ∧ d.returnsToNative = true)
    (hfinish : finish ≤ high)
    (hrest : sc.Makes m (sc.walk high (.chunk finish (registerArea area))) rest)
    (fs : List StackFrame) {top : Nat} (hspares : ∀ a, top ≤ a → a < high → sc.Spares a)
    (hregistered : ∀ f ∈ fs, f.Registered sc.ctx.frames)
    (hadmits : ∀ l ∈ StackFrame.liveSlots registers (top + wordBytes) fs, sc.Admits m high l)
    (hspells : m.Spells top ((fs.flatMap fun f => f.returnAddress :: f.words) ++
      boundary :: (header.toList ++ [area])))
    (hend : top + wordBytes * ((fs.flatMap fun f => f.returnAddress :: f.words) ++
      boundary :: (header.toList ++ [area])).length = finish) :
    sc.Makes m (sc.walk high (.frame (top + wordBytes) registers (m.read top).toNat))
      (sc.reportsOf m ((StackFrame.liveSlots registers (top + wordBytes) fs).filterMap
        LiveSlot.place?) ++ rest) := by
  induction fs generalizing top with
  | nil =>
      simp only [List.flatMap_nil, List.nil_append, Memory.spells_cons_iff,
        Memory.spells_append_iff, Vector.length_toList] at hspells
      obtain ⟨htop, -, harea, -⟩ := hspells
      simp only [List.flatMap_nil, List.nil_append, List.length_cons, List.length_append,
        Vector.length_toList, List.length_nil] at hend
      have hposition : top + wordBytes + chunkHeaderBytes + wordBytes = finish := by
        simp only [wordBytes, chunkHeaderBytes] at hend ⊢
        omega
      have hinside : top + wordBytes + chunkHeaderBytes < high := by
        simp only [wordBytes, chunkHeaderBytes] at hposition ⊢
        omega
      have hword : m.read (top + wordBytes + chunkHeaderBytes) = area := by
        rw [← harea]
        congr 1
      rw [htop]
      apply makes_walk_boundary hboundary hinside (hspares _ (by omega) hinside)
      rw [hword, hposition]
      exact hrest
  | cons f fs ih =>
      obtain ⟨d, hfound, hcompiled, hsize, hlive⟩ := hregistered f List.mem_cons_self
      simp only [List.flatMap_cons, List.cons_append, List.append_assoc,
        Memory.spells_cons_iff] at hspells
      obtain ⟨htop, hspells⟩ := hspells
      obtain ⟨-, hspells⟩ := Memory.spells_append_iff.mp hspells
      have hnext : top + wordBytes + wordBytes * f.words.length = top + f.bytes := by
        simp only [StackFrame.bytes, wordBytes]
        omega
      rw [hnext] at hspells
      have hend' : top + f.bytes + wordBytes *
          ((fs.flatMap fun f => f.returnAddress :: f.words) ++
            boundary :: (header.toList ++ [area])).length = finish := by
        rw [List.flatMap_cons, List.cons_append, List.cons_append, List.append_assoc,
          List.length_cons, List.length_append, Nat.mul_add, Nat.mul_add] at hend
        rw [← hnext, ← hend]
        omega
      have hinside : top + wordBytes + f.bytes ≤ high := by
        simp only [List.length_append, List.length_cons, wordBytes] at hend' ⊢
        omega
      have hcaller : top + wordBytes + d.frameSize - wordBytes = top + f.bytes := by omega
      have hpositive : d.frameSize ≠ 0 := by
        rw [hsize, StackFrame.bytes, wordBytes]
        omega
      rw [htop, StackFrame.liveSlots, List.filterMap_append, reportsOf_append, List.append_assoc,
        ← hlive]
      apply makes_walk_frame hobserve hsound hhigh hfound hcompiled hpositive
      · rwa [hsize]
      · intro l hl
        refine hadmits _ (List.mem_append_left _ (List.mem_map.mpr ⟨l, ?_, rfl⟩))
        rwa [← hlive]
      · rw [hcaller]
        exact hspares _ (by omega) (by simp only [wordBytes] at hinside; omega)
      · rw [hcaller, hsize, Nat.add_right_comm]
        refine ih (fun a ha => hspares a (by omega))
          (fun g hg => hregistered g (List.mem_cons_of_mem f hg)) ?_ hspells hend'
        intro l hl
        refine hadmits l (List.mem_append_right _ ?_)
        rwa [Nat.add_right_comm]

/-- The walk over whole chunks, up to the end of the stack. -/
theorem makes_walk_chunks (hobserve : sc.visitor = Visitor.observe) (hsound : sc.Sound)
    {high : Nat} (hhigh : high < Size.limit) (chunks : List StackChunk) {sp : Nat}
    {registers : Option Nat} (hspares : ∀ a, sp ≤ a → a < high → sc.Spares a)
    (hregistered : ∀ c ∈ chunks, c.Registered sc.ctx.frames)
    (hadmits : ∀ l ∈ StackChunk.liveSlots sc.ctx.framePointers sp registers chunks,
      sc.Admits m high l)
    (hspells : m.Spells sp (chunks.flatMap (StackChunk.words sc.ctx.framePointers)))
    (hend : sp + wordBytes * (chunks.flatMap (StackChunk.words sc.ctx.framePointers)).length =
      high) :
    sc.Makes m (sc.walk high (.chunk sp registers))
      (sc.reportsOf m ((StackChunk.liveSlots sc.ctx.framePointers sp registers chunks).filterMap
        LiveSlot.place?)) := by
  induction chunks generalizing sp registers with
  | nil =>
      have htop : sc.chunkTop high sp = high := by
        have hsp : sp = high := hend
        rw [chunkTop, if_neg (by omega), hsp]
      rw [walk, if_pos htop]
      exact makes_pure
  | cons c cs ih =>
      obtain ⟨hframes, hboundary⟩ := hregistered c List.mem_cons_self
      rw [List.flatMap_cons] at hspells hend
      rw [List.length_append, Nat.mul_add, ← Nat.add_assoc] at hend
      obtain ⟨hwords, hlater⟩ := Memory.spells_append_iff.mp hspells
      obtain ⟨-, hbody⟩ := Memory.spells_append_iff.mp hwords
      rw [c.lead_bytes] at hbody
      have hsize := c.words_bytes sc.ctx.framePointers
      have hbelow : sp + (if sc.ctx.framePointers then wordBytes else 0) < high := by
        simp only [List.length_append, List.length_cons, wordBytes] at hsize hend ⊢
        omega
      have htop := sc.chunkTop_of_lt (Nat.lt_of_le_of_lt (Nat.le_add_right _ _) hbelow)
      have hfinish : sp + wordBytes * (c.words sc.ctx.framePointers).length ≤ high := by omega
      rw [StackChunk.liveSlots, List.filterMap_append, reportsOf_append]
      rw [← htop] at hbelow hbody ⊢
      apply makes_walk_chunk hbelow (hspares _ (by omega) hbelow)
      refine makes_walk_frames hobserve hsound hhigh hboundary hfinish ?_ c.frames
        (fun a ha => hspares a (by omega)) hframes
        (fun l hl => hadmits l (List.mem_append_left _ (htop ▸ hl))) hbody
        (by rw [hsize, htop, ← Nat.add_assoc])
      exact ih (fun a ha => hspares a (by omega))
        (fun d hd => hregistered d (List.mem_cons_of_mem c hd))
        (fun l hl => hadmits l (List.mem_append_right _ hl)) hlater hend

/-! ### Chains of laid out stacks -/

/-- What the scan needs of a segment: chunks laid out in its live words, with call sites that are
described and live locations that can be read, away from headers of local blocks. -/
structure ReadsStack (sc : Scanner) (m : Memory) (registers : Option Nat) (s : Segment)
    (chunks : List StackChunk) : Prop where
  laidOut : s.LaidOut sc.ctx.framePointers m chunks
  registered : ∀ c ∈ chunks, c.Registered sc.ctx.frames
  admits : ∀ l ∈ StackChunk.liveSlots sc.ctx.framePointers s.sp registers chunks,
    sc.Admits m s.high l
  spares : ∀ a, s.sp ≤ a → a < s.high + 3 * wordBytes → sc.Spares a

/-- The visits that a laid out stack calls for: its live locations that the collector wants, from
the stack pointer upwards, and its handlers. -/
def stackVisits (sc : Scanner) (m : Memory) (registers : Option Nat) (s : Segment)
    (chunks : List StackChunk) : List Visit :=
  sc.reportsOf m ((StackChunk.liveSlots sc.ctx.framePointers s.sp registers chunks).filterMap
      LiveSlot.place?) ++
    s.handlerSlots.map fun a => ⟨m.read a, a⟩

theorem makes_scanSegment (hnative : sc.ctx.mode = .native)
    (hobserve : sc.visitor = Visitor.observe) (hsound : sc.Sound) {registers : Option Nat}
    {s : Segment} {chunks : List StackChunk} (h : sc.ReadsStack m registers s chunks) :
    sc.Makes m (sc.scanSegment registers s) (sc.stackVisits m registers s chunks) := by
  obtain ⟨hspells, hend⟩ := h.laidOut.spells
  have hframes := makes_walk_chunks hobserve hsound h.laidOut.high_lt chunks
    (fun a ha hbelow => h.spares a ha (by omega)) h.registered h.admits hspells hend
  have hhandlers := makes_visitHandlers (m := m) hobserve s fun a ha => by
    obtain ⟨i, hi, rfl⟩ := Memory.mem_span_iff.mp ha
    have hle := h.laidOut.sp_le_high
    exact h.spares _ (by omega) (by simp only [wordBytes]; omega)
  rw [scanSegment_of_native hnative]
  exact (hframes.bind hhandlers).segmentDone

/-- The walk inverts the layout. A scan of segments with chunks of frames in their live words
succeeds, and reports segment by segment the wanted live locations in the order of the layout, then
the handlers. -/
theorem scanChain_of_readsStack (hnative : sc.ctx.mode = .native)
    (hobserve : sc.visitor = Visitor.observe) (hsound : sc.Sound) (registers : Option Nat)
    (layouts : List (Segment × List StackChunk)) (p : Progress)
    (hlayouts : ∀ st ∈ layouts, sc.ReadsStack p.memory registers st.1 st.2) :
    ∃ q, sc.scanChain registers (layouts.map Prod.fst) p = .ok () q ∧
      q.visits =
        (layouts.flatMap fun st => sc.stackVisits p.memory registers st.1 st.2).reverse ++
          p.visits := by
  have hmakes : sc.Makes p.memory (sc.scanChain registers (layouts.map Prod.fst))
      (layouts.flatMap fun st => sc.stackVisits p.memory registers st.1 st.2) := by
    unfold scanChain
    rw [List.forM_eq_forM]
    generalize p.memory = m at hlayouts ⊢
    induction layouts with
    | nil => exact makes_pure
    | cons st layouts ih =>
        rw [List.map_cons, List.forM_cons, List.flatMap_cons]
        refine Makes.bind ?_ (ih fun s hs => hlayouts s (List.mem_cons_of_mem st hs))
        exact makes_scanSegment hnative hobserve hsound (hlayouts st List.mem_cons_self)
  obtain ⟨-, q, hrun, -, hvisits⟩ := hmakes [] p (painted_nil p.memory)
  exact ⟨q, hrun, hvisits⟩

end Scanner

/-! ### A chain of two stacks

The inner stack has two chunks, the second with the register save area that the first one left. The
block at `0x6108` has the color of garbage. -/

namespace TwoStacks

def frames (returnAddress : Nat) : Option FrameDescriptor :=
  if returnAddress = 0x4000 then some ⟨24, [8, 1], false⟩
  else if returnAddress = 0x4100 then some ⟨8, [1], false⟩
  else if returnAddress = 0x5000 then some .nativeBoundary
  else none

def scanner : Scanner :=
  ⟨{ ScanContext.native frames with framePointers := true }, Visitor.observe, .empty, none⟩

def start : Progress :=
  .start (((((Memory.blank.store 0x1000
      [0, 0x4000, 3, 0x6008, 0x5000, 0, 0, 0, 0x7000, 0, 0x4100, 0x5000, 0, 0, 0, 0, 1, 1, 1]).store
    0x2000 [0, 0x5000, 0, 0, 0, 0, 3, 3, 3]).store 0x6000 [0x400]).store 0x6100 [0x600]).store
    0x7000 [0x6008, 0x6108])

def segment (sp high : Nat) : Segment :=
  { memory := ⟨sp, high - sp, 0, .heap⟩, base := sp, high, sp, poolClass := none, id := ⟨1⟩,
    owner := ⟨1⟩, savedExn := 0, magic := segmentMagic }

def inner : Segment × List StackChunk :=
  (segment 0x1000 0x1080,
    [⟨0, [⟨0x4000, [3, 0x6008], [.stack 8, .register 0]⟩], 0x5000, #v[0, 0, 0], 0x7000⟩,
      ⟨0, [⟨0x4100, [], [.register 0]⟩], 0x5000, #v[0, 0, 0], 0⟩])

def outer : Segment × List StackChunk :=
  (segment 0x2000 0x2030, [⟨0, [], 0x5000, #v[0, 0, 0], 0⟩])

theorem scanner_sound : scanner.Sound := by
  intro v hv
  cases hv

theorem scanner_spares (a : Nat) : scanner.Spares a := by
  intro v hv
  cases hv

theorem boundary_registered : ∃ d, frames 0x5000 = some d ∧ d.returnsToNative = true :=
  ⟨.nativeBoundary, by decide, rfl⟩

theorem scanner_admits {high : Nat} {ls : List LiveSlot}
    (h : ∀ l ∈ ls, l.Inside high ∧
      ∀ a ∈ l.place?, scanner.Classifiable start.memory (start.memory.read a)) :
    ∀ l ∈ ls, scanner.Admits start.memory high l := by
  intro l hl
  exact ⟨(h l hl).1, fun a _ => scanner_spares a, fun a ha => (h l hl).2 a ha⟩

theorem readsStack_inner : scanner.ReadsStack start.memory (some 0x7008) inner.1 inner.2 where
  laidOut := ⟨by decide, by decide, by decide, by decide⟩
  registered := by
    intro c hc
    simp only [inner, List.mem_cons, List.not_mem_nil, or_false] at hc
    rcases hc with rfl | rfl
    · refine ⟨?_, boundary_registered⟩
      intro f hf
      rw [List.mem_singleton.mp hf]
      exact ⟨⟨24, [8, 1], false⟩, by decide, by decide, by decide, by decide⟩
    · refine ⟨?_, boundary_registered⟩
      intro f hf
      rw [List.mem_singleton.mp hf]
      exact ⟨⟨8, [1], false⟩, by decide, by decide, by decide, by decide⟩
  admits := scanner_admits (by decide)
  spares := fun a _ _ => scanner_spares a

theorem readsStack_outer : scanner.ReadsStack start.memory (some 0x7008) outer.1 outer.2 where
  laidOut := ⟨by decide, by decide, by decide, by decide⟩
  registered := by
    intro c hc
    rw [List.mem_singleton.mp hc]
    exact ⟨fun f hf => absurd hf List.not_mem_nil, boundary_registered⟩
  admits := scanner_admits (by decide)
  spares := fun a _ _ => scanner_spares a

/-- The garbage block in the register of the first frame is passed over; the same register of the
second chunk is in another save area. -/
theorem scanChain_two_stacks :
    (∀ st ∈ [inner, outer], scanner.ReadsStack start.memory (some 0x7008) st.1 st.2) ∧
      ∃ q, scanner.scanChain (some 0x7008) [inner.1, outer.1] start = .ok () q ∧
        q.visits.reverse =
          [⟨0x6008, 0x1018⟩, ⟨0x6008, 0x7000⟩, ⟨1, 0x1080⟩, ⟨1, 0x1088⟩, ⟨1, 0x1090⟩, ⟨3, 0x2030⟩,
            ⟨3, 0x2038⟩, ⟨3, 0x2040⟩] := by
  have hstacks : ∀ st ∈ [inner, outer],
      scanner.ReadsStack start.memory (some 0x7008) st.1 st.2 := by
    intro st hst
    simp only [List.mem_cons, List.not_mem_nil, or_false] at hst
    rcases hst with rfl | rfl
    · exact readsStack_inner
    · exact readsStack_outer
  refine ⟨hstacks, ?_⟩
  obtain ⟨q, hrun, hvisits⟩ := Scanner.scanChain_of_readsStack rfl rfl scanner_sound (some 0x7008)
    [inner, outer] start hstacks
  refine ⟨q, hrun, ?_⟩
  rw [hvisits]
  decide

end TwoStacks

end FiberStacks
