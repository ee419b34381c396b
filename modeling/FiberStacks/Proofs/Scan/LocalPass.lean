import FiberStacks.Proofs.Region.Reached
import FiberStacks.Proofs.Scan.LocalReachability
import FiberStacks.Proofs.Scan.Roots
import FiberStacks.Proofs.Scan.Sweep

/-!
# The pass over the local blocks

After the roots were scanned the pass over the local blocks succeeds and reports just the fields of
reached blocks that the collector wants, each once, and no block keeps a mark. This holds for every
history of the region.
-/

namespace FiberStacks

namespace LocalBlock

theorem nodup_scanSlots (b : LocalBlock) (m : Memory) : (b.scanSlots m).Nodup := by
  unfold scanSlots
  split
  · exact Memory.nodup_span _ _
  · exact List.nodup_nil

end LocalBlock

namespace Scanner

variable {sc : Scanner} {m : Memory} {arenas : List Arena} {blocks reached : List LocalBlock}
  {slots : List Nat} {v : Visit}

theorem mem_reportsOf_iff :
    v ∈ sc.reportsOf m slots ↔
      v.slot ∈ slots ∧ v.value = m.read v.slot ∧ sc.isWanted m v.value = true := by
  unfold reportsOf
  rw [List.mem_map]
  constructor
  · rintro ⟨slot, hslot, rfl⟩
    obtain ⟨hmem, hwanted⟩ := List.mem_filter.mp hslot
    exact ⟨hmem, rfl, hwanted⟩
  · rintro ⟨hmem, hvalue, hwanted⟩
    rw [hvalue] at hwanted
    refine ⟨v.slot, List.mem_filter.mpr ⟨hmem, hwanted⟩, ?_⟩
    rw [← hvalue]

theorem nodup_slots_reportsOf (h : slots.Nodup) :
    ((sc.reportsOf m slots).map Visit.slot).Nodup := by
  have hmap : (sc.reportsOf m slots).map Visit.slot =
      slots.filter fun slot => sc.isWanted m (m.read slot) := by
    unfold reportsOf
    rw [List.map_map]
    exact List.map_id _
  rw [hmap]
  exact h.filter _

theorem nodup_flatMap_scanSlots (hplaced : Placed arenas blocks)
    (hsub : reached.Sublist blocks) : (reached.flatMap fun b => b.scanSlots m).Nodup := by
  refine List.nodup_flatMap.mpr ⟨fun b _ => b.nodup_scanSlots m, ?_⟩
  have hpairwise := hplaced.stacked.pairwise.sublist hsub
  refine hpairwise.imp_of_mem fun {newer older} hnewer holder habove => ?_
  intro slot hslot hslot'
  exact habove.not_spans hplaced.arranged (hplaced.placed newer (hsub.subset hnewer))
    (hplaced.placed older (hsub.subset holder)) (LocalBlock.spans_of_mem_scanSlots hslot)
    (LocalBlock.spans_of_mem_scanSlots hslot')

/-! ### The pass -/

variable {r : Region} {st : MachineState} {p q : Progress} {found : LocalBlock → Prop}

theorem locals_make_of_nil {ctx : ScanContext} {visitor : Visitor} {flags : ScanOptions}
    (h : r.arenas = []) : (make ctx visitor flags (some r.view)).locals = none := by
  simp [make, Arenas.isEmpty, Region.view, h]

theorem locals_make_of_ne_nil {ctx : ScanContext} {visitor : Visitor} {flags : ScanOptions}
    (h : r.arenas ≠ []) : (make ctx visitor flags (some r.view)).locals = some r.view := by
  simp [make, Arenas.isEmpty, Region.view, h]

theorem sweepLocals_of_none (h : sc.locals = none) (p : Progress) :
    sc.sweepLocals p = .ok () p := by
  rw [sweepLocals, h]
  rfl

theorem not_mem_of_laid (hlaid : r.Laid blocks st) (h : r.arenas = []) (b : LocalBlock) :
    b ∉ blocks := by
  intro hb
  have hmem := (hlaid.placed.placed b hb).mem
  rw [h] at hmem
  cases hmem

/-- What a scan that takes notice of the arenas of a region has to know of its live blocks. -/
theorem views_of_laid (hlaid : r.Laid blocks st) (hobserve : sc.visitor = Visitor.observe)
    (hcolors : sc.ctx.colors.garbage < 3) (hlocals : sc.locals = some r.view) :
    sc.Views st.memory r.arenas blocks where
  observes := hobserve
  colors := hcolors
  locals := ⟨r.sp, hlocals⟩
  placed := hlaid.placed
  headers := fun b hb => (hlaid.written b hb).header

theorem surveys_of_laid (hlaid : r.Laid blocks st) (hobserve : sc.visitor = Visitor.observe)
    (hcolors : sc.ctx.colors.garbage < 3) (hlocals : sc.locals = some r.view)
    (hyoung : ∀ b ∈ blocks, ∀ w, b.PointedAt st.memory w → sc.ctx.young w = false) :
    sc.Surveys st.memory r.arenas blocks where
  toViews := views_of_laid hlaid hobserve hcolors hlocals
  old := hyoung

theorem surveys_of_make {ctx : ScanContext} {flags : ScanOptions}
    (hsc : sc = make ctx Visitor.observe flags (some r.view)) (hlaid : r.Laid blocks st)
    (hcolors : ctx.colors.garbage < 3)
    (hyoung : ∀ b ∈ blocks, ∀ w, b.PointedAt st.memory w → ctx.young w = false)
    (harenas : r.arenas ≠ []) : sc.Surveys st.memory r.arenas blocks := by
  subst hsc
  exact surveys_of_laid hlaid rfl hcolors (locals_make_of_ne_nil harenas) hyoung

theorem extent_le_newest {newest : Arena} (hplaced : ∀ b ∈ blocks, b.In arenas)
    (hstacked : Stacked (arenas.length - 1) blocks)
    (hnewest : arenas[arenas.length - 1]? = some newest) : extent blocks ≤ newest.length := by
  cases blocks with
  | nil => exact Nat.zero_le _
  | cons b older => exact (hplaced b List.mem_cons_self).reaches _ newest hstacked.1 hnewest

/-- The pass starts at the newest block, once it has overwritten the free space below it. -/
theorem sweepLocals_ends (hsp : r.sp = -(extent blocks : Int))
    (ht : sc.Terrain st.memory r.arenas blocks) (hnative : sc.ctx.mode = .native)
    (hlocals : sc.locals = some r.view) (harenas : r.arenas ≠ [])
    (hmarks : sc.Marks st.memory p.memory blocks found fun _ => True) :
    sc.EndsSweep st.memory blocks found blocks sc.sweepLocals p := by
  have hplaced := ht.placed
  have hpos : r.arenas.length - 1 < r.arenas.length := by
    have hlength := List.length_pos_of_ne_nil harenas
    omega
  have hnewest := List.getElem?_eq_getElem hpos
  have hlast : r.arenas.getLast? = some r.arenas[r.arenas.length - 1] := by
    rw [List.getLast?_eq_getElem?, hnewest]
  have hdepth := extent_le_newest hplaced.placed hplaced.stacked hnewest
  obtain ⟨u, hfree, hover⟩ := poisonFree_run sc hplaced.arranged hnewest hdepth
    hplaced.stacked.extent_mod p
  have hkept : ∀ {a}, Ahead r.arenas (r.arenas.length - 1) (extent blocks) a →
      u.memory.read a = p.memory.read a := fun hahead => hover.kept fun hfreed =>
    hahead.not_freed hplaced.arranged ⟨_, _, hpos, hnewest, hfreed⟩
  have hsweeping : sc.Sweeping st.memory r.arenas blocks found (r.arenas.length - 1) [] blocks
      u.memory := by
    refine ⟨(hmarks.congr fun c hc => ?_).of_kept (fun c hc => ?_) fun a hintact => ?_,
      hover.worn (hmarks.worn ht.toViews fun _ _ _ _ => trivial)⟩
    · simp [Marked, hc]
    · obtain ⟨hindex, hle⟩ := hplaced.stacked.of_mem hc
      exact hkept (Ahead.of_spans (hplaced.placed c hc) hindex hle c.spans_header)
    · rcases hintact with hahead | ⟨c, hc, -⟩
      · exact ⟨trivial, hkept hahead⟩
      · cases hc
  refine (sweep_ends ht rfl hplaced.stacked hpos (by simp) hsweeping).congr ?_ hover.visits
  unfold sweepLocals
  rw [hlocals, hnative]
  simp only [Region.view, hlast, hsp]
  rw [Run.bind_of_ok hfree]

/-- From `p` to `q` the pass went over the blocks. It reported what the fields of reached blocks
call for, and left no block marked. -/
structure Swept (sc : Scanner) (m₀ : Memory) (blocks : List LocalBlock)
    (found : LocalBlock → Prop) (p q : Progress) : Prop where
  reports : ∃ reached : List LocalBlock, reached.Sublist blocks ∧
    (∀ b, b ∈ reached ↔ Reaches m₀ blocks found b) ∧
    q.visits = (sc.reportsOf m₀ (reached.flatMap fun b => b.scanSlots m₀)).reverse ++ p.visits
  reset : ∀ b ∈ blocks, q.memory.read b.header = b.headerWord Color.notMarkable

theorem sweepLocals_swept (hlaid : r.Laid blocks st) (hs : sc.Surveys st.memory r.arenas blocks)
    (hnative : sc.ctx.mode = .native) (hlocals : sc.locals = some r.view)
    (harenas : r.arenas ≠ []) (hlinked : sc.Linked r.arenas st.memory blocks)
    (hmarks : sc.Marks st.memory p.memory blocks found fun _ => True) :
    ∃ u q, sc.sweepLocals p = .ok () q ∧ u.visits = p.visits ∧
      sc.Swept st.memory blocks found u q := by
  have ht : sc.Terrain st.memory r.arenas blocks :=
    { hs.toViews with
      written := hlaid.written
      told := hlaid.told
      lawful := fun b hb slot hslot => (hlinked.legal hb hslot).lawful }
  rcases sweepLocals_ends hlaid.offset ht hnative hlocals harenas hmarks with
    ⟨q, reached, hrun, hsub, hreached, hreports, hmarked, -⟩ | ⟨-, b, -, hfaults⟩
  · refine ⟨p, q, hrun, rfl, ⟨reached, hsub, fun b => ?_, hreports⟩, fun b hb => ?_⟩
    · rw [← hlinked.descends_iff hs]
      constructor
      · exact fun hb => (hreached b (hsub.subset hb)).mp hb
      · exact fun hdescends => (hreached b hdescends.mem).mpr hdescends
    · exact hmarked.unmarked b hb (hlinked.not_clings hs hb)
  · exact absurd hfaults (hlinked.not_faults hs)

/-- What the collector is told of by the pass over the local blocks, and what becomes of them, after
any history of their region and any scan of roots. -/
theorem sweepLocals_of_reached {ctx : ScanContext} {flags : ScanOptions}
    {begun : List (Int × List LocalBlock)} {tables : List (List Nat)} {registers : Option Nat}
    {chain : Chain} {roots : List Nat} (hsc : sc = make ctx Visitor.observe flags (some r.view))
    (hreached : r.Reached begun blocks st) (hnative : ctx.mode = .native)
    (hcolors : ctx.colors.garbage < 3)
    (hyoung : ∀ b ∈ blocks, ∀ w, b.PointedAt st.memory w → ctx.young w = false)
    (hlinked : sc.Linked r.arenas st.memory blocks)
    (hmemory : p.memory = st.memory) (hrooted : sc.Rooted tables registers chain p roots q)
    (hroots : ∀ slot ∈ roots, sc.Admissible r.arenas st.memory blocks slot) :
    ∃ (t : Progress) (visits : List Visit), sc.sweepLocals q = .ok () t ∧
      t.visits = visits.reverse ++ q.visits ∧ (visits.map Visit.slot).Nodup ∧
      (∀ v, v ∈ visits ↔ v.value = st.memory.read v.slot ∧ sc.isWanted st.memory v.value = true ∧
        ∃ b, v.slot ∈ b.scanSlots st.memory ∧ Reaches st.memory blocks
          (fun b => ∃ slot ∈ roots, b.PointedAt st.memory (st.memory.read slot)) b) ∧
      ∀ b ∈ blocks, t.memory.read b.header = st.memory.read b.header := by
  have hlaid := hreached.laid
  by_cases harenas : r.arenas = []
  · have hnone := not_mem_of_laid hlaid harenas
    have hlocals : sc.locals = none := by rw [hsc, locals_make_of_nil harenas]
    refine ⟨q, [], sweepLocals_of_none hlocals q, rfl, List.nodup_nil, fun v => ?_,
      fun b hb => absurd hb (hnone b)⟩
    apply iff_of_false List.not_mem_nil
    rintro ⟨-, -, b, -, hreaches⟩
    exact hnone b hreaches.mem
  · have hlocals : sc.locals = some r.view := by rw [hsc, locals_make_of_ne_nil harenas]
    have hs := surveys_of_make hsc hlaid hcolors hyoung harenas
    have hnativeSc : sc.ctx.mode = .native := by rw [hsc]; exact hnative
    rw [← hmemory] at hs hroots
    have hmarks := hrooted.marks hs hnativeSc hroots
    rw [hmemory] at hs hmarks
    obtain ⟨u, t, hrun, hvisits, hswept⟩ :=
      sweepLocals_swept hlaid hs hnativeSc hlocals harenas hlinked hmarks
    obtain ⟨reached, hsub, hreach, hreports⟩ := hswept.reports
    refine ⟨t, sc.reportsOf st.memory (reached.flatMap fun b => b.scanSlots st.memory), hrun,
      ?_, ?_, fun v => ?_, fun b hb => ?_⟩
    · rw [hreports, hvisits]
    · exact nodup_slots_reportsOf (nodup_flatMap_scanSlots hs.placed hsub)
    · rw [mem_reportsOf_iff, List.mem_flatMap]
      constructor
      · rintro ⟨⟨b, hb, hslot⟩, hvalue, hwanted⟩
        exact ⟨hvalue, hwanted, b, hslot, (hreach b).mp hb⟩
      · rintro ⟨hvalue, hwanted, b, hslot, hb⟩
        exact ⟨⟨b, (hreach b).mpr hb, hslot⟩, hvalue, hwanted⟩
    · rw [hswept.reset b hb, hs.headers b hb]

/-- The word that an allocation answers with points at its block for as long as this is live. -/
theorem pointedAt_of_laid {b : LocalBlock} {w : Word} (hlaid : r.Laid blocks st) (hb : b ∈ blocks)
    (hfilled : 0 < b.wosize) (hproper : b.tag ≠ Tag.interior) (hw : w.toNat = b.block) :
    b.PointedAt st.memory w where
  field := ⟨0, hfilled, hw⟩
  start := by
    have hin := hlaid.placed.placed b hb
    have hheader : w.toNat - wordBytes = b.header := by
      rw [hw, LocalBlock.block, Nat.add_sub_cancel]
    have hword : Header.ofWord (b.headerWord Color.notMarkable) =
        ⟨b.wosize, Color.notMarkable, b.tag⟩ :=
      LocalBlock.ofWord_headerWord hin hlaid.placed.arranged (by decide)
    unfold Block.startOf Block.headerAt
    rw [hheader, (hlaid.written b hb).header, hword, if_neg hproper, hw]

end Scanner

/-! ### Two arenas

A cell in the first arena, and a closure of 510 fields that takes a second one. Between them a block
was allocated and released. The environment of the closure is its last field, which points at the
cell, and the cell holds a block of the heap. -/

namespace TwoArenas

/-- The region and the state after an allocation. -/
def outcome (x : EStateM.Result Abort MachineState (Except StackError Word × Region)) :
    Region × MachineState :=
  match x with
  | .ok (_, r) st => (r, st)
  | .error _ st => (Region.empty, st)

def isBlock (x : EStateM.Result Abort MachineState (Except StackError Word × Region)) : Bool :=
  match x with
  | .ok (.ok _, _) _ => true
  | _ => false

theorem eq_outcome {x : EStateM.Result Abort MachineState (Except StackError Word × Region)}
    (h : isBlock x = true) : ∃ w, x = .ok (.ok w, (outcome x).1) (outcome x).2 := by
  unfold isBlock at h
  split at h
  · exact ⟨_, rfl⟩
  · cases h

def first : Region × MachineState := outcome (Region.empty.alloc 1 0 MachineState.initial)

def released : Region × MachineState := outcome (first.1.alloc 3 0 first.2)

def last : Region × MachineState :=
  outcome (Region.alloc { released.1 with sp := first.1.beginRegion } 510 Tag.closure released.2)

def cell : LocalBlock := ⟨⟨0x10000000, 0x1000⟩, 0, 0, 1, 0⟩

def closure : LocalBlock := ⟨⟨0x10003000, 0x2000⟩, 1, 16, 510, Tag.closure⟩

def state : MachineState :=
  { last.2 with
    memory := ((((last.2.memory.write 0x6000 0x400).write 0x7000 (Word.ofNat closure.block)).write
      cell.block 0x6008).write (closure.block + 8) (ClosureInfo.make 1 509)).write
        (closure.block + 8 * 509) (Word.ofNat cell.block) }

def scanner : Scanner :=
  .make (ScanContext.native noFrames) Visitor.observe .empty (some last.1.view)

/-- All three allocations succeed, the last one in a second arena. -/
theorem allocations :
    (isBlock (Region.empty.alloc 1 0 .initial) && isBlock (first.1.alloc 3 0 first.2) &&
      isBlock (Region.alloc { released.1 with sp := first.1.beginRegion } 510 Tag.closure
        released.2)) = true ∧
      first.1 = ⟨[cell.arena], -16, 0x1000⟩ ∧ released.1.arenas = [cell.arena] ∧
      last.1 = ⟨[cell.arena, closure.arena], -0x1008, 0x2000⟩ := by
  decide +kernel

theorem arenas_last : last.1.arenas = [cell.arena, closure.arena] := by
  rw [allocations.2.2.2]

theorem alloc_first : ∃ w, Region.empty.alloc 1 0 .initial = .ok (.ok w, first.1) first.2 := by
  have h := allocations.1
  simp only [Bool.and_eq_true] at h
  exact eq_outcome h.1.1

theorem alloc_released : ∃ w, first.1.alloc 3 0 first.2 = .ok (.ok w, released.1) released.2 := by
  have h := allocations.1
  simp only [Bool.and_eq_true] at h
  exact eq_outcome h.1.2

theorem alloc_last : ∃ w, Region.alloc { released.1 with sp := first.1.beginRegion } 510
    Tag.closure released.2 = .ok (.ok w, last.1) last.2 := by
  have h := allocations.1
  simp only [Bool.and_eq_true] at h
  exact eq_outcome h.2

theorem reached_cell : first.1.Reached [] [cell] first.2 := by
  obtain ⟨w, hrun⟩ := alloc_first
  have hfirst := allocations.2.1
  have h : Region.Reached _ _ _ _ := .alloc (a := cell.arena) (.start _)
    (by decide) (by decide) hrun (congrArg (fun r => r.arenas.getLast?) hfirst)
  rwa [show Region.empty.newest first.1 cell.arena 1 0 = cell by rw [Region.newest, hfirst]; rfl]
    at h

theorem reached_closure : last.1.Reached [] [closure, cell] last.2 := by
  obtain ⟨w, hreleased⟩ := alloc_released
  obtain ⟨v, hlast⟩ := alloc_last
  obtain ⟨-, hfirst, harenas, hregion⟩ := allocations
  have hbegun : Region.Reached _ _ _ _ := .alloc (a := cell.arena) (.beginRegion reached_cell)
    (by decide) (by decide) hreleased (congrArg List.getLast? harenas)
  have h : Region.Reached _ _ _ _ := .alloc (a := closure.arena)
    (.endRegion hbegun hbegun.endRegion_eq_ok) (by decide) (by decide) hlast
    (congrArg (fun r => r.arenas.getLast?) hregion)
  rwa [show Region.newest { released.1 with sp := first.1.beginRegion } last.1 closure.arena 510
    Tag.closure = closure by rw [Region.newest, hregion, Region.beginRegion, hfirst]; rfl] at h

theorem read_state (a : Nat) : state.memory.read a =
    if closure.block + 8 * 509 = a then Word.ofNat cell.block
    else if closure.block + 8 = a then ClosureInfo.make 1 509
    else if cell.block = a then 0x6008
    else if 0x7000 = a then Word.ofNat closure.block
    else if 0x6000 = a then 0x400
    else last.2.memory.read a := by
  simp only [state, Memory.read_write]

theorem mem_of_guards {b : LocalBlock} (hb : b ∈ [closure, cell]) {a : Nat}
    (h : b.Guards last.1.arenas a) :
    a ∈ [closure.header, cell.header, closure.arena.down cell.depth] := by
  rw [arenas_last] at h
  simp only [List.mem_cons, List.not_mem_nil, or_false] at hb ⊢
  rcases hb with hb | hb
  · rcases h with h | ⟨k, arena, hk, harena, -⟩
    · exact .inl (hb ▸ h)
    · have hlt : k < 2 := (List.getElem?_eq_some_iff.mp harena).1
      have hindex : b.index = 1 := congrArg LocalBlock.index hb
      omega
  · rcases h with h | ⟨k, arena, hk, harena, h⟩
    · exact .inr (.inl (hb ▸ h))
    · have hlt : k < 2 := (List.getElem?_eq_some_iff.mp harena).1
      have hindex : b.index = 0 := congrArg LocalBlock.index hb
      obtain rfl : k = 1 := by omega
      have hsame : closure.arena = arena := Option.some.inj harena
      exact .inr (.inr (by rw [h, hb, hsame]))

theorem reached : last.1.Reached [] [closure, cell] state := by
  refine .other reached_closure (.refl _) ?_
  intro b hb address hguards
  have haddress := mem_of_guards hb hguards
  simp only [List.mem_cons, List.not_mem_nil, or_false] at haddress
  rcases haddress with rfl | rfl | rfl <;>
    rw [read_state, if_neg (by decide), if_neg (by decide), if_neg (by decide),
      if_neg (by decide), if_neg (by decide)]

theorem pointedAt_cell : cell.PointedAt state.memory (Word.ofNat cell.block) :=
  Scanner.pointedAt_of_laid reached.laid (by decide) (by decide) (by decide) (by decide)

theorem pointedAt_closure : closure.PointedAt state.memory (Word.ofNat closure.block) :=
  Scanner.pointedAt_of_laid reached.laid (by decide) (by decide) (by decide) (by decide)

theorem scanSlots_closure : closure.scanSlots state.memory = [closure.block + 8 * 509] := by
  have hinfo : state.memory.read (closure.block + wordBytes) = ClosureInfo.make 1 509 := by
    rw [read_state, if_neg (by decide), if_pos (by rfl)]
  have hstart : closure.scanStart state.memory = 509 := by
    rw [LocalBlock.scanStart, hinfo]
    decide
  rw [LocalBlock.scanSlots, hstart]
  decide

theorem scanSlots_cell : cell.scanSlots state.memory = [cell.block] := by decide

theorem read_closure : state.memory.read (closure.block + 8 * 509) = Word.ofNat cell.block := by
  rw [read_state, if_pos rfl]

theorem read_cell : state.memory.read cell.block = 0x6008 := by
  rw [read_state, if_neg (by decide), if_neg (by decide), if_pos rfl]

theorem headerAt_heap : Block.headerAt state.memory 0x6008 = ⟨1, 0, 0⟩ := by
  have hread : state.memory.read 0x6000 = 0x400 := by
    rw [read_state, if_neg (by decide), if_neg (by decide), if_neg (by decide),
      if_neg (by decide), if_pos rfl]
  rw [Block.headerAt, show (0x6008 : Word).toNat - wordBytes = 0x6000 by decide, hread]
  decide

theorem startOf_heap : Block.startOf state.memory 0x6008 = 0x6008 := by
  rw [Block.startOf, headerAt_heap]
  decide

theorem readable_heap : Block.Readable state.memory 0x6008 := by
  refine ⟨by decide, ?_⟩
  rw [headerAt_heap]
  decide

theorem linked : scanner.Linked last.1.arenas state.memory [closure, cell] := by
  refine ⟨fun slot hslot => ?_, fun slot hslot => ?_, trivial⟩
  · rw [scanSlots_closure, List.mem_singleton] at hslot
    rw [hslot, read_closure]
    exact .inr (.inr ⟨cell, List.mem_cons_self, pointedAt_cell⟩)
  · rw [scanSlots_cell, List.mem_singleton] at hslot
    rw [hslot, read_cell, arenas_last]
    refine .inr (.inl (.inr ⟨readable_heap, by decide, ?_⟩))
    rw [startOf_heap]
    decide

theorem read_root : state.memory.read 0x7000 = Word.ofNat closure.block := by
  rw [read_state, if_neg (by decide), if_neg (by decide), if_neg (by decide), if_pos rfl]

theorem admissible_root : scanner.Admissible last.1.arenas state.memory [closure, cell] 0x7000 where
  apart := List.forall_mem_cons.mpr ⟨by decide, List.forall_mem_cons.mpr ⟨by decide, by simp⟩⟩
  legal := by
    rw [read_root]
    exact .inr (.inr ⟨closure, List.mem_cons_self, pointedAt_closure⟩)

theorem locals_scanner : scanner.locals = some last.1.view :=
  Scanner.locals_make_of_ne_nil (by simp [arenas_last])

theorem views : scanner.Views state.memory last.1.arenas [closure, cell] :=
  Scanner.views_of_laid reached.laid rfl (by decide) locals_scanner

theorem root_in_use :
    [0x7000] = [[0x7000]].flatten.filter fun entry => state.memory.read entry ≠ Word.null := by
  have hused : Word.ofNat closure.block ≠ Word.null := by decide
  simp [read_root, hused]

theorem rooted : ∃ q, scanner.Rooted [[0x7000]] none [] (.start state.memory) [0x7000] q :=
  Scanner.exists_rooted views rfl root_in_use
    (Scanner.followable_of_acceptable (List.forall_mem_singleton.mpr admissible_root.acceptable) _)

theorem reaches_cell : Scanner.Reaches state.memory [closure, cell]
    (fun b => ∃ slot ∈ [0x7000], b.PointedAt state.memory (state.memory.read slot)) cell := by
  have hclosure : closure.PointedAt state.memory (state.memory.read 0x7000) :=
    read_root ▸ pointedAt_closure
  have hcell : cell.PointedAt state.memory (state.memory.read (closure.block + 8 * 509)) :=
    read_closure ▸ pointedAt_cell
  refine .field (.start List.mem_cons_self ⟨0x7000, List.mem_cons_self, hclosure⟩) ?_
    (List.mem_cons_of_mem _ List.mem_cons_self) hcell
  rw [scanSlots_closure]
  exact List.mem_cons_self

theorem isWanted_heap : scanner.isWanted state.memory 0x6008 = true := by
  rw [Scanner.isWanted, startOf_heap, headerAt_heap]
  decide

/-- The heap block is reported once, in the cell. -/
theorem cell_reported :
    last.1.Reached [] [closure, cell] state ∧
      ∃ (q t : Progress) (visits : List Visit),
        scanner.scanStacks [[0x7000]] none [] (.start state.memory) = .ok () q ∧
        scanner.sweepLocals q = .ok () t ∧ t.visits = visits.reverse ++ q.visits ∧
        (visits.map Visit.slot).Nodup ∧ ⟨0x6008, cell.block⟩ ∈ visits ∧
        ∀ b ∈ [closure, cell], t.memory.read b.header = state.memory.read b.header := by
  obtain ⟨q, hrooted⟩ := rooted
  have hroots : ∀ slot ∈ [0x7000],
      scanner.Admissible last.1.arenas state.memory [closure, cell] slot := by
    intro slot hslot
    rw [List.mem_singleton.mp hslot]
    exact admissible_root
  obtain ⟨t, visits, hrun, hvisits, hnodup, hexact, hheaders⟩ :=
    Scanner.sweepLocals_of_reached rfl reached rfl (by decide) (fun _ _ _ _ => rfl) linked
      (show (Progress.start state.memory).memory = state.memory from rfl) hrooted hroots
  refine ⟨reached, q, t, visits, ?_, hrun, hvisits, hnodup, (hexact _).mpr ?_, hheaders⟩
  · exact (Scanner.scanStacks_eq_ok_iff rfl).mpr ⟨_, hrooted⟩
  · refine ⟨read_cell.symm, isWanted_heap, cell, ?_, reaches_cell⟩
    rw [scanSlots_cell]
    exact List.mem_cons_self

end TwoArenas

end FiberStacks
