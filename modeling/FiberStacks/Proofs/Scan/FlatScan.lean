import FiberStacks.Proofs.Scan.Relocated
import Mathlib.Data.List.Pairwise

/-!
# Flat scans

A flat scan decides about a location by the word that it holds, and a collector may overwrite a
location when it is told of it. But the collector has no say in locations that the scan has still to
come to, and the scan comes to none twice. So each decision is made about the word that stood there
when the scan began, and the visits can be read off the memory of that moment.
-/

namespace FiberStacks

namespace Visitor

variable (collector : Visitor) (before : List Visit) (m : Memory)

/-- Memory after a collector was told of visits one after the other, which came after those in
`before`. -/
def leavesAll (collector : Visitor) : List Visit → Memory → List Visit → Memory
  | _, m, [] => m
  | before, m, v :: visits => collector.leavesAll (v :: before) (collector.leaves before m v) visits

theorem leavesAll_append (visits later : List Visit) :
    collector.leavesAll before m (visits ++ later) =
      collector.leavesAll (visits.reverse ++ before) (collector.leavesAll before m visits)
        later := by
  induction visits generalizing before m with
  | nil => rfl
  | cons v visits ih =>
      rw [List.cons_append, leavesAll, ih, leavesAll, List.reverse_cons, List.append_assoc]
      rfl

theorem read_leavesAll_of_not_mem {visits : List Visit} {a : Nat}
    (h : a ∉ visits.map Visit.slot) :
    (collector.leavesAll before m visits).read a = m.read a := by
  induction visits generalizing before m with
  | nil => rfl
  | cons v visits ih =>
      rw [List.map_cons, List.mem_cons, not_or] at h
      calc
        (collector.leavesAll before m (v :: visits)).read a =
            (collector.leaves before m v).read a := ih _ _ h.2
        _ = m.read a := read_leaves_of_ne collector before m (Ne.symm h.1)

/-- A location that the collector is told of once holds its answer, or its old word. -/
theorem read_leavesAll_slot {visits earlier later : List Visit} {v : Visit}
    (hvisits : visits = earlier ++ v :: later) (hnodup : (visits.map Visit.slot).Nodup) :
    (collector.leavesAll before m visits).read v.slot =
      (collector (earlier.reverse ++ before) v).getD (m.read v.slot) := by
  subst hvisits
  rw [List.map_append, List.map_cons, List.nodup_append] at hnodup
  obtain ⟨-, hlater, hapart⟩ := hnodup
  have hnotLater : v.slot ∉ later.map Visit.slot := (List.nodup_cons.mp hlater).1
  have hnotEarlier : v.slot ∉ earlier.map Visit.slot := fun hmem =>
    hapart v.slot hmem v.slot List.mem_cons_self rfl
  rw [leavesAll_append, leavesAll, read_leavesAll_of_not_mem collector _ _ hnotLater,
    read_leaves_same, read_leavesAll_of_not_mem collector _ _ hnotEarlier]

end Visitor

namespace Memory

variable {m m' : Memory} {wanted : Word → Bool} {slots more : List Nat}

theorem map_slot_visitsTo (m : Memory) (wanted : Word → Bool) (slots : List Nat) :
    (m.visitsTo wanted slots).map Visit.slot = slots.filter fun a => wanted (m.read a) := by
  rw [visitsTo, List.map_map]
  exact List.map_id _

theorem mem_of_mem_visitsTo {a : Nat} (h : a ∈ (m.visitsTo wanted slots).map Visit.slot) :
    a ∈ slots := by
  rw [map_slot_visitsTo] at h
  exact List.mem_of_mem_filter h

theorem value_of_mem_visitsTo {v : Visit} (h : v ∈ m.visitsTo wanted slots) :
    v.value = m.read v.slot := by
  obtain ⟨a, -, rfl⟩ := List.mem_map.mp h
  rfl

theorem nodup_visitsTo (m : Memory) (wanted : Word → Bool) (h : slots.Nodup) :
    ((m.visitsTo wanted slots).map Visit.slot).Nodup := by
  rw [map_slot_visitsTo]
  exact h.filter _

theorem visitsTo_append (m : Memory) (wanted : Word → Bool) (slots more : List Nat) :
    m.visitsTo wanted (slots ++ more) = m.visitsTo wanted slots ++ m.visitsTo wanted more := by
  simp only [visitsTo, List.filter_append, List.map_append]

theorem visitsTo_congr (h : ∀ a ∈ slots, m'.read a = m.read a) :
    m'.visitsTo wanted slots = m.visitsTo wanted slots := by
  have hwanted : (slots.filter fun a => wanted (m'.read a)) =
      slots.filter fun a => wanted (m.read a) :=
    List.filter_congr fun a ha => by rw [h a ha]
  rw [visitsTo, visitsTo, hwanted]
  apply List.map_congr_left
  intro a ha
  rw [h a (List.mem_of_mem_filter ha)]

end Memory

namespace Segment.Formed

variable {s : Segment} {a : Nat}

theorem owns_of_mem_slots (h : s.Formed) (ha : a ∈ s.liveSlots ++ s.handlerSlots) : s.Owns a := by
  have hle := Nat.le_trans h.base_le_sp h.sp_le_high
  rcases List.mem_append.mp ha with hlive | hhandler
  · exact owns_of_contains (h.isWord_of_mem_liveSlots hlive).contains
  · obtain ⟨i, hi, rfl⟩ := Memory.mem_span_iff.mp hhandler
    simp only [Owns, handlerBlockBytes, wordBytes]
    omega

/-- The live words and the handlers stand one after the other. -/
theorem slots_eq_span (h : s.Formed) :
    s.liveSlots ++ s.handlerSlots = Memory.span s.sp (s.usedWords + 3) := by
  rw [Memory.span_add, h.used_bytes]
  rfl

/-- Between the handlers and the free words of a segment no location is its own. -/
theorem not_mem_slots (h : s.Formed) (ha : a < s.sp ∨ a = s.parentSlot) :
    a ∉ s.liveSlots ++ s.handlerSlots := by
  have hbytes := h.used_bytes
  have hle := h.sp_le_high
  rw [h.slots_eq_span]
  intro hmem
  obtain ⟨i, hi, rfl⟩ := Memory.mem_span_iff.mp hmem
  simp only [parentSlot, wordBytes] at *
  omega

end Segment.Formed

namespace Chain

/-- The locations of a chain, innermost segment first: live words, then handlers. -/
def locations (chain : Chain) : List Nat :=
  chain.flatMap fun s => s.liveSlots ++ s.handlerSlots

variable {chain : Chain}

theorem exists_owner (hformed : ∀ s ∈ chain, s.Formed) {a : Nat} (ha : a ∈ chain.locations) :
    ∃ s ∈ chain, s.Owns a := by
  obtain ⟨s, hs, hslot⟩ := List.mem_flatMap.mp ha
  exact ⟨s, hs, (hformed s hs).owns_of_mem_slots hslot⟩

theorem nodup_locations (hformed : ∀ s ∈ chain, s.Formed)
    (hapart : chain.Pairwise Segment.Apart) : chain.locations.Nodup := by
  unfold locations
  rw [List.nodup_flatMap]
  constructor
  · intro s hs
    rw [(hformed s hs).slots_eq_span]
    exact Memory.nodup_span _ _
  · refine hapart.imp_of_mem fun {s t} hs ht h a has hat => ?_
    exact h a ((hformed s hs).owns_of_mem_slots has) ((hformed t ht).owns_of_mem_slots hat)

/-- Free words and recorded parents are no locations. -/
theorem not_mem_locations (hformed : ∀ s ∈ chain, s.Formed)
    (hapart : chain.Pairwise Segment.Apart) {s : Segment} (hs : s ∈ chain) {a : Nat}
    (howns : s.Owns a) (ha : a < s.sp ∨ a = s.parentSlot) : a ∉ chain.locations := by
  intro hmem
  obtain ⟨t, ht, hslot⟩ := List.mem_flatMap.mp hmem
  by_cases hts : t = s
  · subst hts
    exact (hformed t ht).not_mem_slots ha hslot
  · have hsymm : Std.Symm Segment.Apart := ⟨fun _ _ h => h.symm⟩
    have hother : t.Apart s := hapart.forall ht hs hts
    exact hother a ((hformed t ht).owns_of_mem_slots hslot) howns

end Chain

namespace Scanner

/-- Between the states a scan looked at the locations one after the other, and told the collector of
those with a word that is wanted. It did nothing else. -/
structure Looked (sc : Scanner) (wanted : Word → Bool) (slots : List Nat) (p q : Progress) :
    Prop where
  visits : q.visits = (p.memory.visitsTo wanted slots).reverse ++ p.visits
  memory : q.memory = sc.visitor.leavesAll p.visits p.memory (p.memory.visitsTo wanted slots)
  accesses : q.accesses = (slots.map Access.classify).reverse ++ p.accesses

/-- The operation looks at the locations, if they are distinct. -/
def Looks (sc : Scanner) (wanted : Word → Bool) (slots : List Nat) (x : ScanM Unit) : Prop :=
  slots.Nodup → ∀ p, ∃ q, x p = .ok () q ∧ sc.Looked wanted slots p q

variable {sc : Scanner} {wanted : Word → Bool} {slots more : List Nat} {p u q : Progress}

namespace Looked

theorem read_of_not_mem (h : sc.Looked wanted slots p q) {a : Nat} (ha : a ∉ slots) :
    q.memory.read a = p.memory.read a := by
  rw [h.memory]
  apply Visitor.read_leavesAll_of_not_mem
  exact fun hmem => ha (Memory.mem_of_mem_visitsTo hmem)

/-- What is looked at later holds what it held at first. -/
theorem visitsTo_later (h : sc.Looked wanted slots p u) (hdisjoint : slots.Disjoint more)
    (wanted' : Word → Bool) : u.memory.visitsTo wanted' more = p.memory.visitsTo wanted' more :=
  Memory.visitsTo_congr fun _ ha => h.read_of_not_mem fun hmem => hdisjoint hmem ha

theorem trans (h : sc.Looked wanted slots p u) (h' : sc.Looked wanted more u q)
    (hdisjoint : slots.Disjoint more) : sc.Looked wanted (slots ++ more) p q where
  visits := by
    rw [h'.visits, h.visits, h.visitsTo_later hdisjoint, Memory.visitsTo_append,
      List.reverse_append, List.append_assoc]
  memory := by
    rw [h'.memory, h.memory, h.visits, ← Visitor.leavesAll_append, ← h.memory,
      h.visitsTo_later hdisjoint, Memory.visitsTo_append]
  accesses := by
    rw [h'.accesses, h.accesses, List.map_append, List.reverse_append, List.append_assoc]

end Looked

theorem looks_nothing : sc.Looks wanted [] (pure ()) := fun _ p => ⟨p, rfl, rfl, rfl, rfl⟩

theorem Looks.bind {x y : ScanM Unit} (hx : sc.Looks wanted slots x)
    (hy : sc.Looks wanted more y) : sc.Looks wanted (slots ++ more) (x >>= fun _ => y) := by
  intro hnodup p
  obtain ⟨hslots, hmore, hdisjoint⟩ := List.nodup_append'.mp hnodup
  obtain ⟨u, hfirst, hlooked⟩ := hx hslots p
  obtain ⟨q, hsecond, hlooked'⟩ := hy hmore u
  refine ⟨q, ?_, hlooked.trans hlooked' hdisjoint⟩
  rw [Run.bind_of_ok hfirst, hsecond]

theorem Looks.segmentDone {x : ScanM Unit} (hx : sc.Looks wanted slots x) :
    sc.Looks wanted slots (x >>= fun _ => Scan.segmentDone) := by
  intro hnodup p
  obtain ⟨q, hrun, hvisits, hmemory, haccesses⟩ := hx hnodup p
  refine ⟨q.finishing, ?_, hvisits, hmemory, haccesses⟩
  rw [Run.bind_of_ok hrun]
  rfl

theorem looks_forM {f : Nat → ScanM Unit} (hf : ∀ slot, sc.Looks wanted [slot] (f slot))
    (slots : List Nat) : sc.Looks wanted slots (forM slots f) := by
  induction slots with
  | nil => exact looks_nothing
  | cons slot slots ih =>
      rw [List.forM_cons]
      exact (hf slot).bind ih

/-- An operation that reads a location, and reports it if the word is wanted, looks at it. -/
theorem looks_one {x : ScanM Unit} {slot : Nat}
    (hwanted : ∀ p, wanted (p.memory.read slot) = true →
      x p = .ok () ((p.logging [.classify slot]).telling sc.visitor ⟨p.memory.read slot, slot⟩))
    (hother : ∀ p, wanted (p.memory.read slot) = false →
      x p = .ok () (p.logging [.classify slot])) :
    sc.Looks wanted [slot] x := by
  intro _ p
  cases hword : wanted (p.memory.read slot) with
  | true =>
      have hvisits : p.memory.visitsTo wanted [slot] = [⟨p.memory.read slot, slot⟩] := by
        simp [Memory.visitsTo, hword]
      exact ⟨_, hwanted p hword, by rw [hvisits]; rfl, by rw [hvisits]; rfl, rfl⟩
  | false =>
      have hvisits : p.memory.visitsTo wanted [slot] = [] := by simp [Memory.visitsTo, hword]
      exact ⟨_, hother p hword, by rw [hvisits]; rfl, by rw [hvisits]; rfl, rfl⟩

theorem looks_visitCandidate (sc : Scanner) (slot : Nat) :
    sc.Looks sc.isCandidate [slot] (sc.visitCandidate slot) := by
  apply looks_one
  · intro p hcandidate
    rw [visitCandidate, Run.bind_of_ok (Scan.slotWord_run slot p), if_pos hcandidate]
    exact sc.visit_run _ slot _
  · intro p hother
    rw [visitCandidate, Run.bind_of_ok (Scan.slotWord_run slot p), hother]
    rfl

theorem looks_scanEntry (hflat : sc.ctx.mode = .flat) (slot : Nat) :
    sc.Looks (fun w => w ≠ Word.null) [slot] (sc.scanEntry slot) := by
  apply looks_one
  · intro p hused
    rw [scanEntry, Run.bind_of_ok (Scan.slotWord_run slot p), if_neg (of_decide_eq_true hused),
      hflat]
    exact sc.visit_run _ slot _
  · intro p hunused
    rw [scanEntry, Run.bind_of_ok (Scan.slotWord_run slot p),
      if_pos (by simpa using hunused)]
    rfl

theorem looks_scanChain (hflat : sc.ctx.mode = .flat) (registers : Option Nat) (chain : Chain) :
    sc.Looks sc.isCandidate chain.locations (sc.scanChain registers chain) := by
  change sc.Looks sc.isCandidate chain.locations (forM chain (sc.scanSegment registers))
  induction chain with
  | nil => exact looks_nothing
  | cons s outer ih =>
      rw [List.forM_cons, scanSegment_of_flat hflat]
      exact (looks_forM sc.looks_visitCandidate _).segmentDone.bind ih

theorem sweepLocals_of_flat (hflat : sc.ctx.mode = .flat) (p : Progress) :
    p.advance sc.sweepLocals =
      (if sc.locals.isNone then .ok () else .error (.violation .localsInFlatMode), p) := by
  unfold sweepLocals Progress.advance
  cases hlocals : sc.locals with
  | none => rfl
  | some v =>
      simp only [hflat]
      rfl

/-- What a flat scan tells a collector of: the entries of the root tables that are in use, and the
locations of the chain that hold a block outside of all code, or all of them if the collector sorts
out young values by itself. -/
def flatVisits (sc : Scanner) (m : Memory) (tables : List (List Nat)) (chain : Chain) :
    List Visit :=
  m.visitsTo (fun w => w ≠ Word.null) tables.flatten ++
    m.visitsTo (fun w => sc.flags.contains ScanOptions.onlyYoung ||
      (w.isBlock && !sc.ctx.code w.toNat)) chain.locations

/-- Tables and a chain that a scan may look at: segments have memory of their own, and the entries
are borrowed for the scan, so they are distinct and in no segment. -/
structure Lent (tables : List (List Nat)) (chain : Chain) : Prop where
  formed : ∀ s ∈ chain, s.Formed
  apart : chain.Pairwise Segment.Apart
  distinct : tables.flatten.Nodup
  aside : ∀ entry ∈ tables.flatten, ∀ s ∈ chain, ¬ s.Owns entry

variable {tables : List (List Nat)} {chain : Chain} {m : Memory}

theorem Lent.disjoint (h : Lent tables chain) : tables.flatten.Disjoint chain.locations := by
  intro a hentry hlocation
  obtain ⟨s, hs, howns⟩ := Chain.exists_owner h.formed hlocation
  exact h.aside a hentry s hs howns

theorem Lent.nodup_flatVisits (h : Lent tables chain) (sc : Scanner) (m : Memory) :
    ((sc.flatVisits m tables chain).map Visit.slot).Nodup := by
  rw [flatVisits, List.map_append, List.nodup_append']
  refine ⟨m.nodup_visitsTo _ h.distinct,
    m.nodup_visitsTo _ (Chain.nodup_locations h.formed h.apart), ?_⟩
  intro a hentry hlocation
  exact h.disjoint (Memory.mem_of_mem_visitsTo hentry) (Memory.mem_of_mem_visitsTo hlocation)

/-- The collector is not told of free words and recorded parents. -/
theorem Lent.not_mem_flatVisits (h : Lent tables chain) (sc : Scanner) (m : Memory) {s : Segment}
    (hs : s ∈ chain) {a : Nat} (howns : s.Owns a) (ha : a < s.sp ∨ a = s.parentSlot) :
    a ∉ (sc.flatVisits m tables chain).map Visit.slot := by
  rw [flatVisits, List.map_append, List.mem_append, not_or]
  constructor
  · intro hmem
    exact h.aside a (Memory.mem_of_mem_visitsTo hmem) s hs howns
  · intro hmem
    exact Chain.not_mem_locations h.formed h.apart hs howns ha (Memory.mem_of_mem_visitsTo hmem)

theorem value_of_mem_flatVisits {v : Visit} (h : v ∈ sc.flatVisits m tables chain) :
    v.value = m.read v.slot := by
  rcases List.mem_append.mp h with hentry | hlocation
  · exact Memory.value_of_mem_visitsTo hentry
  · exact Memory.value_of_mem_visitsTo hlocation

/-- A flat scan looks at the entries of the root tables and then at the locations of the chain. -/
theorem exists_scanStacks_of_flat (sc : Scanner) (hflat : sc.ctx.mode = .flat)
    (h : Lent tables chain) (registers : Option Nat) (m : Memory) :
    ∃ q, sc.scanStacks tables registers chain (.start m) = .ok () q ∧
      q.visits = (sc.flatVisits m tables chain).reverse ∧
      q.memory = sc.visitor.leavesAll [] m (sc.flatVisits m tables chain) ∧
      q.accesses = ((tables.flatten ++ chain.locations).map Access.classify).reverse := by
  obtain ⟨u, htables, hentered⟩ :=
    looks_forM (looks_scanEntry hflat) tables.flatten h.distinct (.start m)
  obtain ⟨q, hchain, hscanned⟩ :=
    looks_scanChain hflat registers chain (Chain.nodup_locations h.formed h.apart) u
  -- The chain still holds what it held before the tables were scanned.
  have hunchanged : u.memory.visitsTo sc.isCandidate chain.locations =
      m.visitsTo sc.isCandidate chain.locations := hentered.visitsTo_later h.disjoint _
  refine ⟨q, ?_, ?_, ?_, ?_⟩
  · rw [← Run.forM_flatten] at htables
    exact (Run.bind_of_ok htables _).trans hchain
  · rw [hscanned.visits, hunchanged, hentered.visits, flatVisits, List.reverse_append]
    exact congrArg _ (List.append_nil _)
  · rw [hscanned.memory, hunchanged, hentered.visits, hentered.memory, flatVisits,
      Visitor.leavesAll_append]
    rfl
  · rw [hscanned.accesses, hentered.accesses, List.map_append, List.reverse_append]
    exact congrArg _ (List.append_nil _)

end Scanner

namespace Machine

/-- A flat scan looks once at each entry of the root tables and at each location of the chain, and
at nothing else, tells the collector of those that call for it, and changes only what the collector
overwrites. It ends well unless there are local arenas, and leaves these alone. -/
theorem scanRoots_of_flat {ctx : ScanContext} {tables : List (List Nat)} {chain : Chain}
    (hflat : ctx.mode = .flat) (hlent : Scanner.Lent tables chain) (visitor : Visitor)
    (flags : ScanOptions) (locals : Option Arenas) (registers : Option Nat) (st : MachineState) :
    let sc := Scanner.make ctx visitor flags locals
    ∃ report st', scanRoots sc tables registers chain st = .ok report st' ∧
      report.visits = sc.flatVisits st.memory tables chain ∧
      (report.visits.map Visit.slot).Nodup ∧
      report.accesses = (tables.flatten ++ chain.locations).map Access.classify ∧
      report.ending = (if locals.all Arenas.isEmpty then .ok ()
        else .error (.violation .localsInFlatMode)) ∧
      (∀ earlier v later, report.visits = earlier ++ v :: later →
        st'.memory.read v.slot = (visitor earlier.reverse v).getD v.value) ∧
      (∀ a, a ∉ report.visits.map Visit.slot → st'.memory.read a = st.memory.read a) ∧
      ∀ s ∈ chain, s.recordedParent st'.memory = s.recordedParent st.memory ∧
        ∀ a, s.base ≤ a → a < s.sp → st'.memory.read a = st.memory.read a := by
  intro sc
  obtain ⟨q, hroots, hvisits, hmemory, haccesses⟩ :=
    Scanner.exists_scanStacks_of_flat sc hflat hlent registers st.memory
  obtain ⟨st', hrun, hst'⟩ := scanRoots_run hroots
  rw [Scanner.sweepLocals_of_flat hflat] at hrun hst'
  rw [hmemory] at hst'
  have hnodup := hlent.nodup_flatVisits sc st.memory
  have hframe : ∀ a, a ∉ (sc.flatVisits st.memory tables chain).map Visit.slot →
      st'.memory.read a = st.memory.read a := by
    intro a ha
    rw [hst']
    exact sc.visitor.read_leavesAll_of_not_mem [] st.memory ha
  refine ⟨_, st', hrun, ?_⟩
  simp only [Progress.report, hvisits, haccesses, List.reverse_reverse]
  refine ⟨trivial, hnodup, trivial, ?_, ?_, hframe, fun s hs => ⟨?_, ?_⟩⟩
  · cases locals with
    | none => rfl
    | some v => cases hempty : v.isEmpty <;> simp [sc, Scanner.make, hempty]
  · intro earlier v later hsplit
    have hmem : v ∈ sc.flatVisits st.memory tables chain := by simp [hsplit]
    rw [hst', sc.visitor.read_leavesAll_slot [] st.memory hsplit hnodup, List.append_nil,
      Scanner.value_of_mem_flatVisits hmem]
    rfl
  · have hparent := hframe _ (hlent.not_mem_flatVisits sc st.memory hs
      (Segment.owns_parentSlot (hlent.formed s hs)) (.inr rfl))
    rw [Segment.recordedParent, Segment.recordedParent, hparent]
  · intro a hbase hsp
    have hhigh : a < s.high + handlerBlockBytes :=
      Nat.lt_of_lt_of_le hsp (Nat.le_add_right_of_le (hlent.formed s hs).sp_le_high)
    exact hframe a (hlent.not_mem_flatVisits sc st.memory hs ⟨hbase, hhigh⟩ (.inl hsp))

end Machine

/-! ### A collector that moves blocks

Of two tables one entry is null. The inner stack holds an address in code and an integer, which are
passed over, and so are the handlers that are no blocks. There is a local arena. -/

namespace FlatStacks

def inner : Segment :=
  { memory := ⟨0x2000, 0x60, 0, .heap⟩, base := 0x2000, high := 0x2030, sp := 0x2018,
    poolClass := none, id := ⟨2⟩, owner := ⟨1⟩, savedExn := 0, magic := segmentMagic }

def outer : Segment :=
  { memory := ⟨0x3000, 0x60, 0, .heap⟩, base := 0x3000, high := 0x3030, sp := 0x3028,
    poolClass := none, id := ⟨1⟩, owner := ⟨1⟩, savedExn := 0, magic := segmentMagic }

def context : ScanContext := .flat (codeIn [⟨0x5000, 0x5100⟩])

/-- The collector moves each block to an address that depends on how many it moved before. -/
def visitor : Visitor := fun before _ => some (Word.ofNat (0xa000 + 16 * before.length))

def state : MachineState :=
  { MachineState.initial with
    memory := ((Memory.blank.store 0x2018 [0x6008, 0x5010, 7, 1, 0x6018, 1, 0x3030]).store
      0x3028 [0x6008, 1, 1, 1, 0]).store 0x9000 [0x6028, 0] }

theorem lent : Scanner.Lent [[0x9000], [0x9008]] [inner, outer] where
  formed := by
    intro s hs
    rcases List.mem_pair.mp hs with rfl | rfl <;> constructor <;> decide
  apart := by
    apply List.pairwise_pair.mpr
    intro a hinner houter
    have hhigh : a < 0x2050 := hinner.2
    have hbase : 0x3000 ≤ a := houter.1
    omega
  distinct := by decide
  aside := by
    intro entry hentry s hs howns
    have hhigh : s.high ≤ 0x3030 := by
      rcases List.mem_pair.mp hs with rfl | rfl <;> decide
    have hlow : 0x9000 ≤ entry := by
      rcases List.mem_pair.mp hentry with rfl | rfl <;> decide
    have hbelow : entry < s.high + 32 := howns.2
    omega

/-- Four blocks are moved, and the local arena is refused. -/
theorem scanRoots_moves_blocks :
    ∃ report st', Machine.scanRoots (.make context visitor .empty (some ⟨[⟨0x8000, 4096⟩], -16⟩))
        [[0x9000], [0x9008]] none [inner, outer] state = .ok report st' ∧
      report.visits = [⟨0x6028, 0x9000⟩, ⟨0x6008, 0x2018⟩, ⟨0x6018, 0x2038⟩, ⟨0x6008, 0x3028⟩] ∧
      report.ending = .error (.violation .localsInFlatMode) ∧
      st'.memory.read 0x2038 = 0xa020 ∧ st'.memory.read 0x2020 = 0x5010 ∧
      inner.recordedParent st'.memory = 0x3030 := by
  obtain ⟨report, st', hrun, hvisits, -, -, hending, htold, hframe, hchain⟩ :=
    Machine.scanRoots_of_flat (show context.mode = .flat from rfl) lent visitor .empty
      (some ⟨[⟨0x8000, 4096⟩], -16⟩) none state
  have hreported : report.visits =
      [⟨0x6028, 0x9000⟩, ⟨0x6008, 0x2018⟩, ⟨0x6018, 0x2038⟩, ⟨0x6008, 0x3028⟩] :=
    hvisits.trans (by decide)
  refine ⟨report, st', hrun, hreported, hending, ?_, ?_, ?_⟩
  · exact htold [⟨0x6028, 0x9000⟩, ⟨0x6008, 0x2018⟩] _ _ hreported
  · rw [hframe 0x2020 (by rw [hreported]; decide)]
    decide
  · rw [(hchain inner List.mem_cons_self).1]
    decide

end FlatStacks

end FiberStacks
