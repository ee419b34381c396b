import FiberStacks.Proofs.Growth.Moved
import FiberStacks.Proofs.Scan.Relocated

/-!
# Growth as the collector sees it

A collector that only looks cannot tell whether the running stack has grown. The new segment is a
twin of the old one and the outer segments are their own, so a scan after growth takes the steps of
a scan before it, and reports the same values at the places where they are now.

The headers of blocks are another matter. Growth writes on both segments, so the scan must not have
read a header in either of them. A word that points into the new segment while that is still in the
pool may well have its header overwritten.
-/

namespace FiberStacks

namespace Segment

instance (s : Segment) (a : Nat) : Decidable (s.Owns a) :=
  inferInstanceAs (Decidable (_ ∧ _))

/-- Where a location is after the move from `old` to `new`. -/
def shift (old new : Segment) (a : Nat) : Nat :=
  if old.Owns a then a + new.high - old.high else a

theorem shift_of_not_owns {old new : Segment} {a : Nat} (h : ¬ old.Owns a) :
    shift old new a = a := if_neg h

variable {m m₁ m' : Memory} {old new t : Segment} {outer : Chain} {h : Handlers} {id : FiberId}

theorem read_handlers_of_eq {s s' : Segment} (heq : s'.handlers m' = s.handlers m) {i : Nat}
    (hi : i < 3) : m'.read (s'.high + wordBytes * i) = m.read (s.high + wordBytes * i) := by
  simp only [handlers, Handlers.mk.injEq, wordBytes] at heq ⊢
  obtain ⟨hvalue, hexn, heffect⟩ := heq
  obtain rfl | rfl | rfl : i = 0 ∨ i = 1 ∨ i = 2 := by omega
  · exact hvalue
  · exact hexn
  · exact heffect

/-- The segment that the running one has moved to is a twin of it. -/
theorem twin_of_moved (hobtained : new.Obtained m m₁ (old.handlers m) id)
    (hmoved : Moved m₁ old (filled old new) outer [] m') :
    old.Twin (shift old (filled old new)) m m' (filled old new) := by
  have hsize := hmoved.size
  have hbytes := hmoved.source.used_bytes
  have hbase := hmoved.source.base_le_sp
  have hplace : ∀ a, old.sp ≤ a → a < old.high + 3 * wordBytes →
      shift old (filled old new) a + old.high = a + (filled old new).high := by
    intro a hlow hhigh
    have howns : old.Owns a := by
      simp only [Owns, handlerBlockBytes, wordBytes] at hhigh ⊢
      omega
    rw [shift, if_pos howns]
    omega
  refine ⟨hmoved.source, hmoved.target, by omega, hplace, fun a hlow hhigh haligned => ?_⟩
  have hplaced := hplace a hlow hhigh
  by_cases hlive : a < old.high
  · have hslot : a ∈ old.liveSlots := hmoved.source.mem_liveSlots_iff.mpr ⟨hlow, hlive, haligned⟩
    have htarget : shift old (filled old new) a =
        (Relocation.between old (filled old new)).target a := by
      simp only [Relocation.target, Relocation.between]
      omega
    rw [htarget, hmoved.read_target hslot List.not_mem_nil]
    exact hobtained.read_of_apart hmoved.apart (owns_of_contains
      (hmoved.source.isWord_of_mem_liveSlots hslot).contains)
  · have halignedHigh := hmoved.source.high_aligned
    obtain ⟨i, hi, rfl⟩ : ∃ i < 3, a = old.high + wordBytes * i := by
      simp only [wordBytes] at *
      exact ⟨(a - old.high) / 8, by omega, by omega⟩
    have hslot : shift old (filled old new) (old.high + wordBytes * i) =
        (filled old new).high + wordBytes * i := by omega
    rw [hslot]
    exact read_handlers_of_eq (hmoved.handlers.trans hobtained.handlers) hi

/-- A segment that growth left alone is its own twin. -/
theorem twin_self (ht : t.Formed) (hold : ∀ a, t.Owns a → ¬ old.Owns a)
    (hread : ∀ a, t.Owns a → m'.read a = m.read a) : t.Twin (shift old new) m m' t := by
  have howns : ∀ a, t.sp ≤ a → a < t.high + 3 * wordBytes → t.Owns a := by
    intro a hlow hhigh
    have hbase := ht.base_le_sp
    simp only [Owns, handlerBlockBytes, wordBytes] at hhigh ⊢
    omega
  refine ⟨ht, ht, rfl, fun a hlow hhigh => ?_, fun a hlow hhigh _ => ?_⟩
  · rw [shift_of_not_owns (hold a (howns a hlow hhigh))]
  · rw [shift_of_not_owns (hold a (howns a hlow hhigh))]
    exact hread a (howns a hlow hhigh)

end Segment

/-- The scan has read whole words. -/
def ScanReport.Aligned (r : ScanReport) : Prop :=
  ∀ a, .steer a ∈ r.accesses ∨ .classify a ∈ r.accesses → a % wordBytes = 0

/-- The scan has read no header in the segment. -/
def ScanReport.HeadersOutside (r : ScanReport) (s : Segment) : Prop :=
  ∀ a, .inspect a ∈ r.accesses → ¬ s.Owns a

/-- No register that a scan of the chain comes by is in the segment. -/
def Scanner.RegistersOutside (sc : Scanner) (registers : Option Nat) (chain : Chain) (m : Memory)
    (s : Segment) : Prop :=
  sc.ctx.mode = .native → ∀ met q, sc.Scanned registers chain (.start m) met q →
    ∀ a ∈ met.flatMap MetStack.registerSlots, ¬ s.Owns a

namespace Domain

variable {d d' : Domain} {old new : Segment} {outer : Chain} {sc : Scanner}
  {registers : Option Nat} {report : ScanReport} {required : Nat} {st st₁ st' : MachineState}

theorem scanRoots_of_cons (hrunning : d.running = old :: outer) (sc : Scanner)
    (registers : Option Nat) :
    d.scanRoots sc registers = Machine.scanRoots sc [] registers (old :: outer) := by
  unfold scanRoots
  rw [hrunning]

/-- Growth replaces the running segment by a twin, and leaves the others alone. -/
theorem twins_of_tryRealloc (hrunning : d.running = old :: outer)
    (hseparate : Segment.Separate st.space d.segments) (hpointers : d.framePointers = false)
    (hexn : old.contains d.exnHandler = false)
    (hgrow : d.tryRealloc required st = .ok (true, d') st') (hnew : d'.running = new :: outer) :
    List.Forall₂ (Segment.Twin (old.shift new) st.memory st'.memory) (old :: outer)
        (new :: outer) ∧
      ∀ a, ¬ old.Owns a → ¬ new.Owns a → st'.memory.read a = st.memory.read a := by
  obtain ⟨taken, pool, st₂, hobtained, hapart, hmove⟩ :=
    obtained_of_tryRealloc hrunning hseparate hgrow
  have hsegments : d.segments = old :: (outer ++ d.pool.segments) :=
    congrArg (· ++ d.pool.segments) hrunning
  rw [hsegments] at hseparate
  have htaken : ∀ t ∈ d.running, taken.Apart t := fun t ht =>
    (List.pairwise_cons.mp hapart.apart).1 t (List.mem_append_left _ ht)
  rw [hrunning] at htaken
  obtain ⟨-, hmoved, -, hd'⟩ := moved_of_moveTo (by exact hpointers) (by exact hexn)
    (hseparate.formed old List.mem_cons_self) hobtained.formed (htaken old List.mem_cons_self) hmove
  cases hnew.symm.trans (congrArg running hd')
  have helsewhere : ∀ a, ¬ old.Owns a → ¬ (Segment.filled old taken).Owns a →
      st'.memory.read a = st.memory.read a := by
    intro a hold hnot
    rw [hmoved.elsewhere hold hnot]
    exact hobtained.read_of_not_owns hnot
  refine ⟨.cons (Segment.twin_of_moved hobtained hmoved) ?_, helsewhere⟩
  -- The outer segments are apart from both, so they stay where they are.
  rw [List.forall₂_same]
  intro t ht
  have hold : ∀ a, t.Owns a → ¬ old.Owns a := fun a hta hoa =>
    (List.pairwise_cons.mp hseparate.apart).1 t (List.mem_append_left _ ht) a hoa hta
  refine Segment.twin_self ?_ hold fun a ha => helsewhere a (hold a ha) fun hnot => ?_
  · exact hseparate.formed t (List.mem_cons_of_mem old (List.mem_append_left _ ht))
  · exact htaken t (List.mem_cons_of_mem old ht) a hnot ha

/-- A collector that only looks does not see that the running segment has grown. If a scan of the
chain comes to its end, and has read no header in the old or the new segment, it does so after
growth, and reports the same values, at locations that have moved with the segment. -/
theorem visits_of_tryRealloc (hrunning : d.running = old :: outer) (hkept : d.Kept st)
    (hpointers : d.framePointers = false) (hexn : old.contains d.exnHandler = false)
    (hobserve : sc.visitor = Visitor.observe) (hlocals : sc.locals = none)
    (hscan : d.scanRoots sc registers st = .ok report st₁) (hending : report.ending = .ok ())
    (haligned : report.Aligned) (hgrow : d.tryRealloc required st = .ok (true, d') st')
    (hnew : d'.running = new :: outer)
    (hregisters : ∀ s ∈ [old, new], sc.RegistersOutside registers d.running st.memory s)
    (hheaders : ∀ s ∈ [old, new], report.HeadersOutside s) :
    ∃ report' st₂, d'.scanRoots sc registers st' = .ok report' st₂ ∧
      report'.ending = .ok () ∧
      report'.visits = report.visits.map (Visit.relocated (old.shift new)) := by
  rw [scanRoots_of_cons hrunning] at hscan
  rw [scanRoots_of_cons hnew]
  rw [hrunning] at hregisters
  obtain ⟨q, hchain, rfl⟩ := Machine.scanRoots_eq_ok hlocals hscan hending
  obtain ⟨htwins, helsewhere⟩ :=
    twins_of_tryRealloc hrunning hkept.separate hpointers hexn hgrow hnew
  simp only [List.forall_mem_cons] at hregisters hheaders
  obtain ⟨hregistersOld, hregistersNew, -⟩ := hregisters
  obtain ⟨hheadersOld, hheadersNew, -⟩ := hheaders
  have hagrees : Scanner.Agrees st.memory st'.memory q.accesses := by
    refine ⟨fun a ha => haligned a ?_, fun a ha => ?_⟩
    · simpa only [Progress.report, List.mem_reverse] using ha
    · have ha : Access.inspect a ∈ (q.report (.ok ())).accesses := List.mem_reverse.mpr ha
      exact helsewhere a (hheadersOld a ha) (hheadersNew a ha)
  obtain ⟨visits, hvisits, hmakes⟩ := Scanner.makes_scanChain_of_twins hobserve hlocals hchain
    htwins hagrees fun hnative met hmet a ha => by
      have hold := hregistersOld hnative met q hmet a ha
      exact ⟨Segment.shift_of_not_owns hold,
        helsewhere a hold (hregistersNew hnative met q hmet a ha)⟩
  obtain ⟨-, q', hrun, -, hvisits'⟩ := hmakes [] (.start st'.memory) (Scanner.painted_nil _)
  obtain ⟨st₂, hscan'⟩ := Machine.exists_scanRoots hlocals hrun
  refine ⟨_, st₂, hscan', rfl, ?_⟩
  simp only [Progress.report]
  rw [hvisits', hvisits]
  simp [Progress.start]

end Domain

/-! ### A frame with one live word

The running segment has a frame whose live word is `v`, and grows into the pooled segment. If `v` is
a block in the heap at `0x6008`, the scan after growth is the scan before it. If it points into the
pooled segment, growth puts the word `0x201` where its header was, and that has the color of
garbage. -/

namespace OneLiveWord

def frames (returnAddress : Nat) : Option FrameDescriptor :=
  if returnAddress = 0x4000 then some ⟨16, [0], false⟩
  else if returnAddress = 0x5000 then some .nativeBoundary
  else none

def scanner : Scanner := ⟨ScanContext.native frames, Visitor.observe, .empty, none⟩

def segment (base sp high : Nat) (k : SizeClass) : Segment :=
  { memory := ⟨base, high + handlerBlockBytes - base, 0, .heap⟩, base, high, sp,
    poolClass := some k, id := ⟨1⟩, owner := ⟨1⟩, savedExn := 0, magic := segmentMagic }

def inner : Segment := segment 0x1000 0x1008 0x1040 0

def outer : Segment := segment 0x2000 0x2018 0x2040 0

def spare : Segment := segment 0x3000 0x3080 0x3080 1

def grown : Segment := segment 0x3000 0x3048 0x3080 1

def domain : Domain :=
  { Domain.ofSettings ⟨1⟩ Settings.standard with
    pool := (Pool.empty ⟨1⟩ 8 false).setList 1 [spare], running := [inner, outer] }

def state (v : Word) : MachineState :=
  { MachineState.initial with
    space := { AddressSpace.unused .ascending with taken := [⟨0x1000, 0x3000⟩] }
    memory := ((Memory.blank.store 0x1008
      [0x4000, v, 0x5000, 1, 0x201, 1, 0, 3, 5, 7, 0x2040]).store 0x2018
      [0x5000, 1, 1, 1, 0, 1, 1, 1, 0]).write 0x6000 0x400 }

def visits (frame handlers : List Visit) : List Visit :=
  frame ++ handlers ++ [⟨1, 0x2040⟩, ⟨1, 0x2048⟩, ⟨1, 0x2050⟩]

def handlers (high : Nat) : List Visit := [⟨3, high⟩, ⟨5, high + 8⟩, ⟨7, high + 16⟩]

/-- What the scan before growth looks at, if the live word has its header at the address. -/
def accesses (header : Nat) : List Access :=
  [.steer 0x1008, .lookup 0x4000 0x1010, .classify 0x1010, .inspect header, .inspect header,
    .steer 0x1018, .lookup 0x5000 0x1020, .steer 0x1038, .classify 0x1040, .classify 0x1048,
    .classify 0x1050, .steer 0x2018, .lookup 0x5000 0x2020, .steer 0x2038, .classify 0x2040,
    .classify 0x2048, .classify 0x2050]

/-- The report of the scan before growth, the chain after it, and the visits of the scan then. -/
def outcome (v : Word) : Option (List Visit × List Access × Chain × List Visit) :=
  match domain.scanRoots scanner none (state v), domain.tryRealloc 3 (state v) with
  | .ok ⟨before, log, _, .ok ()⟩ _, .ok (true, d') st' =>
    match d'.scanRoots scanner none st' with
    | .ok ⟨after, _, _, .ok ()⟩ _ => some (before, log, d'.running, after)
    | _ => none
  | _, _ => none

theorem exists_runs {v : Word} {before after : List Visit} {log : List Access} {chain : Chain}
    (h : outcome v = some (before, log, chain, after)) :
    ∃ report st₁ d' st' report' st₂, domain.scanRoots scanner none (state v) = .ok report st₁ ∧
      domain.tryRealloc 3 (state v) = .ok (true, d') st' ∧
      d'.scanRoots scanner none st' = .ok report' st₂ ∧ report.ending = .ok () ∧
      report'.ending = .ok () ∧ report.visits = before ∧ report.accesses = log ∧
      d'.running = chain ∧ report'.visits = after := by
  unfold outcome at h
  split at h
  · rename_i hscan hgrow
    split at h
    · rename_i hagain
      cases h
      exact ⟨_, _, _, _, _, _, hscan, hgrow, hagain, rfl, rfl, rfl, rfl, rfl, rfl⟩
    · cases h
  · cases h

theorem outcome_of_heap : outcome 0x6008 =
    some (visits [⟨0x6008, 0x1010⟩] (handlers 0x1040), accesses 0x6000, [grown, outer],
      visits [⟨0x6008, 0x3050⟩] (handlers 0x3080)) := by
  decide +kernel

theorem outcome_of_pooled : outcome 0x3070 =
    some (visits [⟨0x3070, 0x1010⟩] (handlers 0x1040), accesses 0x3068, [grown, outer],
      visits [] (handlers 0x3080)) := by
  decide +kernel

theorem kept {v : Word} (hrecorded : Chain.Recorded (state v).memory [inner, outer]) :
    domain.Kept (state v) := by
  have hsegments : domain.segments = [inner, outer, spare] := by decide
  refine ⟨?_, hrecorded⟩
  rw [hsegments]
  have hwithin : ∀ s ∈ [inner, outer, spare],
      0x1000 ≤ s.base ∧ s.high + handlerBlockBytes ≤ 0x4000 := by decide
  refine ⟨?_, fun s hs a ha => ?_, ?_⟩
  · intro s hs
    simp only [List.mem_cons, List.not_mem_nil, or_false] at hs
    rcases hs with rfl | rfl | rfl <;>
      exact ⟨by decide, by decide, by decide, by decide, by decide⟩
  · exact ha.taken List.mem_cons_self (hwithin s hs).1 (hwithin s hs).2
  · have hapart : ∀ s t : Segment, s.high + handlerBlockBytes ≤ t.base → s.Apart t := by
      intro s t hbelow a hs ht
      have hbase := Nat.le_trans hbelow ht.1
      exact absurd hs.2 (Nat.not_lt.mpr hbase)
    refine List.pairwise_cons.mpr ⟨?_, List.pairwise_pair.mpr (hapart _ _ (by decide))⟩
    intro t ht
    simp only [List.mem_cons, List.not_mem_nil, or_false] at ht
    rcases ht with rfl | rfl <;> exact hapart _ _ (by decide)

theorem registersOutside (m : Memory) (s : Segment) :
    scanner.RegistersOutside none domain.running m s := by
  have hstack : ∀ a d, frames a = some d → ∀ index, .register index ∉ d.liveSlots := by
    intro a d hfound index
    unfold frames at hfound
    split at hfound
    · cases hfound
      have hlive : (⟨16, [0], false⟩ : FrameDescriptor).liveSlots = [.stack 0] := by decide
      simp [hlive]
    · split at hfound
      · cases hfound
        exact List.not_mem_nil
      · cases hfound
  intro _ met q hscanned a ha
  rw [hscanned.registerSlots_eq_nil hstack] at ha
  cases ha

theorem aligned_accesses {header a : Nat}
    (ha : .steer a ∈ accesses header ∨ .classify a ∈ accesses header) : a % wordBytes = 0 := by
  simp only [accesses, List.mem_cons, List.not_mem_nil, or_false, reduceCtorEq, false_or,
    Access.steer.injEq, Access.classify.injEq] at ha
  simp only [wordBytes]
  omega

theorem headersOutside {header : Nat} {report : ScanReport} {s : Segment}
    (hlog : report.accesses = accesses header) (hheader : ¬ s.Owns header) :
    report.HeadersOutside s := by
  intro a ha
  rw [hlog] at ha
  simp only [accesses, List.mem_cons, List.not_mem_nil, or_false, reduceCtorEq, false_or,
    Access.inspect.injEq, or_self] at ha
  rwa [ha]

/-- The scan after growth reports the block in the heap again, and all handlers. -/
theorem heap_block_reported_again : domain.Kept (state 0x6008) ∧
    ∃ report st₁ d' st' report' st₂,
      domain.scanRoots scanner none (state 0x6008) = .ok report st₁ ∧
      domain.tryRealloc 3 (state 0x6008) = .ok (true, d') st' ∧
      d'.scanRoots scanner none st' = .ok report' st₂ ∧ report'.ending = .ok () ∧
      report.visits = visits [⟨0x6008, 0x1010⟩] (handlers 0x1040) ∧
      report'.visits = visits [⟨0x6008, 0x3050⟩] (handlers 0x3080) := by
  have hkept : domain.Kept (state 0x6008) := kept ⟨by decide, by decide, trivial⟩
  refine ⟨hkept, ?_⟩
  obtain ⟨report, st₁, d', st', -, -, hscan, hgrow, -, hending, -, hvisits, hlog, hnew, -⟩ :=
    exists_runs outcome_of_heap
  have haligned : report.Aligned := fun a ha => aligned_accesses (hlog ▸ ha)
  have hheaders : ∀ s ∈ [inner, grown], report.HeadersOutside s := by
    intro s hs
    simp only [List.mem_cons, List.not_mem_nil, or_false] at hs
    rcases hs with rfl | rfl <;> exact headersOutside hlog (by decide)
  obtain ⟨report', st₂, hagain, hending', hvisits'⟩ := Domain.visits_of_tryRealloc rfl hkept rfl
    (by decide) rfl rfl hscan hending haligned hgrow hnew
    (fun s _ => registersOutside _ s) hheaders
  refine ⟨report, st₁, d', st', report', st₂, hscan, hgrow, hagain, hending', hvisits, ?_⟩
  rw [hvisits', hvisits]
  decide

/-- A classified word that points into the segment to come, and none that points into the running
one: after growth it is not reported any more. -/
theorem pooled_block_not_reported : domain.Kept (state 0x3070) ∧
    domain.framePointers = false ∧ inner.contains domain.exnHandler = false ∧
    scanner.visitor = Visitor.observe ∧ scanner.locals = none ∧
    (∀ s ∈ [inner, grown],
      scanner.RegistersOutside none domain.running (state 0x3070).memory s) ∧
    ∃ report st₁ d' st' report' st₂,
      domain.scanRoots scanner none (state 0x3070) = .ok report st₁ ∧
      report.ending = .ok () ∧ report.Aligned ∧
      (∀ a, .classify a ∈ report.accesses →
        ¬ inner.Owns ((state 0x3070).memory.read a).toNat) ∧
      domain.tryRealloc 3 (state 0x3070) = .ok (true, d') st' ∧ d'.running = [grown, outer] ∧
      d'.scanRoots scanner none st' = .ok report' st₂ ∧ report'.ending = .ok () ∧
      report'.visits ≠ report.visits.map (Visit.relocated (inner.shift grown)) := by
  refine ⟨kept ⟨by decide, by decide, trivial⟩, rfl, by decide, rfl, rfl,
    fun s _ => registersOutside _ s, ?_⟩
  obtain ⟨report, st₁, d', st', report', st₂, hscan, hgrow, hagain, hending, hending', hvisits,
    hlog, hnew, hvisits'⟩ := exists_runs outcome_of_pooled
  refine ⟨report, st₁, d', st', report', st₂, hscan, hending,
    fun a ha => aligned_accesses (hlog ▸ ha), fun a ha => ?_, hgrow, hnew, hagain, hending', ?_⟩
  · rw [hlog] at ha
    simp only [accesses, List.mem_cons, List.not_mem_nil, or_false, reduceCtorEq, false_or,
      Access.classify.injEq] at ha
    rcases ha with rfl | rfl | rfl | rfl | rfl | rfl | rfl <;> decide
  · rw [hvisits, hvisits']
    decide

end OneLiveWord

end FiberStacks
