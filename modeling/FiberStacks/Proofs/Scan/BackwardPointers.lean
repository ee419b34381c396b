import FiberStacks.Proofs.Scan.LocalPass

/-!
# Backward pointers and marks that stay

A scan of roots and local blocks ends well or with a backward pointer. The check for backward
pointers compares the first field of a target with the header of the block that is scanned, so it
lets a pointer of a block at itself pass, and a pointer at a block without fields right below. The
mark which such a pointer sets is behind the sweep. It stays when the scan is over, and while it is
there, pointers at the block are passed over, even if they are backward ones.
-/

namespace FiberStacks

namespace Scanner

variable {sc : Scanner} {r : Region} {blocks : List LocalBlock} {st : MachineState}
  {begun : List (Int × List LocalBlock)} {tables : List (List Nat)} {registers : Option Nat}
  {chain : Chain} {roots : List Nat} {p q : Progress} {ctx : ScanContext} {flags : ScanOptions}
  {b c : LocalBlock}

/-- The blocks that a scan marks because of its root locations. -/
def Rooting (sc : Scanner) (m : Memory) (roots : List Nat) (b : LocalBlock) : Prop :=
  ∃ slot ∈ roots, sc.Hits m b (m.read slot)

/-- The pass over the local blocks after the roots were scanned. -/
theorem sweepLocals_of_rooted (hsc : sc = make ctx Visitor.observe flags (some r.view))
    (hlaid : r.Laid blocks st) (hnative : ctx.mode = .native) (hcolors : ctx.colors.garbage < 3)
    (hlawful : ∀ b ∈ blocks, ∀ slot ∈ b.scanSlots st.memory,
      sc.Lawful r.arenas st.memory blocks (st.memory.read slot))
    (hrooted : sc.Rooted tables registers chain (.start st.memory) roots q)
    (hroots : ∀ slot ∈ roots, sc.Acceptable r.arenas st.memory blocks slot) :
    sc.EndsSweep st.memory blocks (sc.Rooting st.memory roots) blocks sc.sweepLocals q := by
  have hnativeSc : sc.ctx.mode = .native := by rw [hsc]; exact hnative
  by_cases harenas : r.arenas = []
  · obtain rfl : blocks = [] :=
      List.eq_nil_iff_forall_not_mem.mpr (not_mem_of_laid hlaid harenas)
    have hlocals : sc.locals = none := by rw [hsc, locals_make_of_nil harenas]
    refine .inl ⟨q, [], sweepLocals_of_none hlocals q, List.Sublist.refl _, by simp, rfl,
      ⟨?_, ?_, ?_⟩, by simp⟩
    · simp
    · simp
    · exact fun a hnever => hnever.elim
  · have hlocals : sc.locals = some r.view := by rw [hsc, locals_make_of_ne_nil harenas]
    have hs : sc.Views st.memory r.arenas blocks :=
      views_of_laid hlaid (by rw [hsc]; rfl) (by rw [hsc]; exact hcolors) hlocals
    have ht : sc.Terrain st.memory r.arenas blocks :=
      { hs with written := hlaid.written, told := hlaid.told, lawful := hlawful }
    exact sweepLocals_ends hlaid.offset ht hnativeSc hlocals harenas
      (hrooted.marks_hits hs hnativeSc hroots)

/-- A scan of roots and local blocks ends well, or with a backward pointer if it comes by one. When
it ends well, the blocks that are marked are those that marks cling to. -/
theorem scanRoots_ends (hsc : sc = make ctx Visitor.observe flags (some r.view))
    (hlaid : r.Laid blocks st) (hnative : ctx.mode = .native) (hcolors : ctx.colors.garbage < 3)
    (hlawful : ∀ b ∈ blocks, ∀ slot ∈ b.scanSlots st.memory,
      sc.Lawful r.arenas st.memory blocks (st.memory.read slot))
    (hrooted : sc.Rooted tables registers chain (.start st.memory) roots q)
    (hroots : ∀ slot ∈ roots, sc.Acceptable r.arenas st.memory blocks slot) :
    ∃ report st', Machine.scanRoots sc tables registers chain st = .ok report st' ∧
      ((report.ending = .ok () ∧
          (∀ b, ¬ sc.Faults st.memory blocks (sc.Rooting st.memory roots) b) ∧
          sc.Marks st.memory st'.memory blocks
            (sc.Clings st.memory blocks (sc.Rooting st.memory roots)) fun _ => False) ∨
        ((∃ field sp target,
            report.ending = .error (.violation (.backwardsLocalPointer field sp target))) ∧
          ∃ b, sc.Faults st.memory blocks (sc.Rooting st.memory roots) b)) := by
  have hnativeSc : sc.ctx.mode = .native := by rw [hsc]; exact hnative
  obtain ⟨st', hrun, hmemory⟩ :=
    Machine.scanRoots_run ((scanStacks_eq_ok_iff hnativeSc).mpr ⟨roots, hrooted⟩)
  refine ⟨_, st', hrun, ?_⟩
  rcases sweepLocals_of_rooted hsc hlaid hnative hcolors hlawful hrooted hroots with
    ⟨t, -, hsweep, -, -, -, hmarks, hfine⟩ | ⟨⟨field, sp, target, t, hsweep⟩, b, -, hfaults⟩
  · have hadvance : q.advance sc.sweepLocals = (.ok (), t) := by rw [Progress.advance, hsweep]
    rw [hadvance] at hmemory ⊢
    exact .inl ⟨rfl, fun b hfaults => hfine b hfaults.1.mem hfaults, hmemory ▸ hmarks⟩
  · have hadvance : q.advance sc.sweepLocals =
        (.error (.violation (.backwardsLocalPointer field sp target)), t) := by
      rw [Progress.advance, hsweep]
    rw [hadvance]
    exact .inr ⟨⟨field, sp, target, rfl⟩, b, hfaults⟩

end Scanner

/-! ### A block that points at itself

A cell and a newer pair in one arena. The second field of the pair points at the cell, and a root at
the pair. The cell holds the word `v` and the first field of the pair the word `w`. -/

namespace SelfPointer

open TwoArenas (outcome isBlock eq_outcome first cell)

def second : Region × MachineState := outcome (first.1.alloc 2 0 first.2)

def pair : LocalBlock := ⟨cell.arena, 0, 16, 2, 0⟩

def atPair : Word := Word.ofNat pair.block

def state (v w : Word) : MachineState :=
  { second.2 with
    memory := (((second.2.memory.write 0x7000 atPair).write cell.block v).write
      pair.block w).write (pair.block + 8) (Word.ofNat cell.block) }

def scanner : Scanner :=
  .make (ScanContext.native noFrames) Visitor.observe .empty (some second.1.view)

theorem allocation : isBlock (first.1.alloc 2 0 first.2) = true ∧
    second.1 = ⟨[cell.arena], -40, 0x1000⟩ := by
  decide +kernel

theorem arenas_second : second.1.arenas = [cell.arena] := by
  rw [allocation.2]

theorem reached_pair : second.1.Reached [] [pair, cell] second.2 := by
  obtain ⟨hblock, hsecond⟩ := allocation
  obtain ⟨w, hrun⟩ := eq_outcome hblock
  have h : Region.Reached _ _ _ _ := .alloc (a := cell.arena) TwoArenas.reached_cell (by decide)
    (by decide) hrun (congrArg (fun r => r.arenas.getLast?) hsecond)
  have hpair : first.1.newest second.1 cell.arena 2 0 = pair := by
    rw [Region.newest, hsecond, TwoArenas.allocations.2.1]
    rfl
  rwa [show (outcome (first.1.alloc 2 0 first.2)).1 = second.1 from rfl, hpair] at h

variable {v w : Word}

theorem read_state (v w : Word) (a : Nat) : (state v w).memory.read a =
    if pair.block + 8 = a then Word.ofNat cell.block
    else if pair.block = a then w
    else if cell.block = a then v
    else if 0x7000 = a then atPair
    else second.2.memory.read a := by
  simp only [state, Memory.read_write]

theorem reached (v w : Word) : second.1.Reached [] [pair, cell] (state v w) := by
  refine .other reached_pair (.refl _) ?_
  intro b hb address hguards
  have haddress : address = pair.header ∨ address = cell.header := by
    have hindex : b.index = 0 := by
      simp only [List.mem_cons, List.not_mem_nil, or_false] at hb
      rcases hb with rfl | rfl <;> rfl
    rcases hguards with rfl | ⟨k, a, hk, ha, -⟩
    · simp only [List.mem_cons, List.not_mem_nil, or_false] at hb
      exact hb.imp (congrArg LocalBlock.header) (congrArg LocalBlock.header)
    · rw [arenas_second] at ha
      have hlt : k < 1 := (List.getElem?_eq_some_iff.mp ha).1
      omega
  rcases haddress with rfl | rfl <;>
    rw [read_state, if_neg (by decide), if_neg (by decide), if_neg (by decide),
      if_neg (by decide)]

theorem pointedAt_cell (v w : Word) : cell.PointedAt (state v w).memory (Word.ofNat cell.block) :=
  Scanner.pointedAt_of_laid (reached v w).laid (by decide) (by decide) (by decide) (by decide)

theorem pointedAt_pair (v w : Word) : pair.PointedAt (state v w).memory atPair :=
  Scanner.pointedAt_of_laid (reached v w).laid (by decide) (by decide) (by decide) (by decide)

theorem scanSlots_cell (m : Memory) : cell.scanSlots m = [cell.block] := rfl

theorem scanSlots_pair (m : Memory) : pair.scanSlots m = [pair.block, pair.block + 8] := rfl

theorem read_cell : (state v w).memory.read cell.block = v := by
  rw [read_state, if_neg (by decide), if_neg (by decide), if_pos rfl]

theorem read_pair : (state v w).memory.read pair.block = w := by
  rw [read_state, if_neg (by decide), if_pos rfl]

theorem read_pair_second : (state v w).memory.read (pair.block + 8) = Word.ofNat cell.block := by
  rw [read_state, if_pos rfl]

theorem read_root : (state v w).memory.read 0x7000 = atPair := by
  rw [read_state, if_neg (by decide), if_neg (by decide), if_neg (by decide), if_pos rfl]

theorem locals_scanner : scanner.locals = some second.1.view :=
  Scanner.locals_make_of_ne_nil (by rw [arenas_second]; simp)

theorem names_cell (v w : Word) : scanner.Names (state v w).memory cell (Word.ofNat cell.block) :=
  ⟨(pointedAt_cell v w).namedBy, rfl⟩

theorem names_pair (v w : Word) : scanner.Names (state v w).memory pair atPair :=
  ⟨(pointedAt_pair v w).namedBy, rfl⟩

theorem legal (hv : v = Word.unit ∨ v = atPair)
    (hw : w = Word.unit ∨ w = atPair) :
    ∀ b ∈ [pair, cell], ∀ slot ∈ b.scanSlots (state v w).memory,
      scanner.Legal second.1.arenas (state v w).memory [pair, cell]
        ((state v w).memory.read slot) := by
  have hfine : ∀ x, x = Word.unit ∨ x = atPair →
      scanner.Legal second.1.arenas (state v w).memory [pair, cell] x := by
    rintro x (rfl | rfl)
    · exact .inl rfl
    · exact .inr (.inr ⟨pair, List.mem_cons_self, pointedAt_pair v w⟩)
  refine List.forall_mem_cons.mpr ⟨?_, List.forall_mem_singleton.mpr ?_⟩
  · rw [scanSlots_pair]
    refine List.forall_mem_cons.mpr ⟨?_, List.forall_mem_singleton.mpr ?_⟩
    · rw [read_pair]
      exact hfine w hw
    · rw [read_pair_second]
      exact .inr (.inr ⟨cell, List.mem_cons_of_mem _ List.mem_cons_self, pointedAt_cell v w⟩)
  · rw [scanSlots_cell, List.forall_mem_singleton, read_cell]
    exact hfine v hv

theorem admissible (v w : Word) : ∀ slot ∈ [0x7000],
    scanner.Admissible second.1.arenas (state v w).memory [pair, cell] slot := by
  refine List.forall_mem_singleton.mpr ⟨?_, ?_⟩
  · exact List.forall_mem_cons.mpr ⟨by decide, List.forall_mem_cons.mpr ⟨by decide, by simp⟩⟩
  · rw [read_root]
    exact .inr (.inr ⟨pair, List.mem_cons_self, pointedAt_pair v w⟩)

theorem views (v w : Word) :
    scanner.Views (state v w).memory second.1.arenas [pair, cell] :=
  Scanner.views_of_laid (reached v w).laid rfl (by decide) locals_scanner

theorem rooted (v w : Word) :
    ∃ q, scanner.Rooted [[0x7000]] none [] (.start (state v w).memory) [0x7000] q := by
  have hused : atPair ≠ Word.null := by decide
  exact Scanner.exists_rooted (views v w) rfl (by simp [read_root, hused])
    (Scanner.followable_of_acceptable (fun slot hslot => (admissible v w slot hslot).acceptable) _)

/-- The blocks that the root marks. -/
def rooting (v w : Word) : LocalBlock → Prop := scanner.Rooting (state v w).memory [0x7000]

theorem descends_pair (v w : Word) :
    scanner.Descends (state v w).memory [pair, cell] (rooting v w) pair := by
  refine .start ⟨List.mem_cons_self, 0x7000, List.mem_cons_self, ?_, by decide⟩
  rw [read_root]
  exact names_pair v w

theorem refers_cell (v w : Word) : scanner.Refers (state v w).memory pair cell := by
  refine ⟨pair.block + 8, by simp [scanSlots_pair], ?_⟩
  rw [read_pair_second]
  exact names_cell v w

theorem cell_above_pair : cell.Above pair := ⟨by decide, by decide⟩

theorem follows_cell (v w : Word) :
    scanner.Follows (state v w).memory [pair, cell] (rooting v w) cell :=
  .step (descends_pair v w).follows ⟨by simp, refers_cell v w⟩

theorem refers_self (v : Word) :
    scanner.Refers (state v atPair).memory pair pair := by
  refine ⟨pair.block, by simp [scanSlots_pair], ?_⟩
  rw [read_pair]
  exact names_pair v _

theorem refers_pair (w : Word) :
    scanner.Refers (state atPair w).memory cell pair := by
  refine ⟨cell.block, by simp [scanSlots_cell], ?_⟩
  rw [read_cell]
  exact names_pair _ w

/-- The pair is newer than the cell, and it is marked once it was scanned. -/
theorem not_faults (v : Word) (b : LocalBlock) :
    ¬ scanner.Faults (state v atPair).memory [pair, cell]
      (rooting v atPair) b := by
  rintro ⟨hdescends, c, hc, -, habove, hclings⟩
  have hb := hdescends.mem
  simp only [List.mem_cons, List.not_mem_nil, or_false] at hb hc
  rcases hc with rfl | rfl
  · exact hclings ⟨pair, descends_pair v _, refers_self v, .inl rfl⟩
  · rcases hb with rfl | rfl
    · exact cell_above_pair.asymm habove
    · exact habove.ne rfl

theorem scan_ends_well (hv : v = Word.unit ∨ v = atPair) :
    ∃ report st', Machine.scanRoots scanner [[0x7000]] none []
        (state v atPair) = .ok report st' ∧ report.ending = .ok () ∧
      scanner.Marks (state v atPair).memory st'.memory [pair, cell]
        (scanner.Clings (state v atPair).memory [pair, cell]
          (rooting v atPair)) fun _ => False := by
  obtain ⟨q, hrooted⟩ := rooted v atPair
  obtain ⟨report, st', hrun, ⟨hok, -, hmarks⟩ | ⟨-, b, hfaults⟩⟩ :=
    Scanner.scanRoots_ends rfl (reached v _).laid rfl (by decide)
      (fun b hb slot hslot => (legal hv (.inr rfl) b hb slot hslot).lawful) hrooted
      fun slot hslot => (admissible v _ slot hslot).acceptable
  · exact ⟨report, st', hrun, hok, hmarks⟩
  · exact absurd hfaults (not_faults v b)

theorem not_refers_of_unit {w : Word} {c : LocalBlock} (hc : c ∈ [pair, cell]) :
    ¬ scanner.Refers (state Word.unit w).memory cell c := by
  rintro ⟨slot, hslot, hnames⟩
  rw [scanSlots_cell, List.mem_singleton] at hslot
  rw [hslot, read_cell] at hnames
  exact (views Word.unit w).not_names hc (.inl rfl) hnames

theorem not_refers_self_of_unit (v : Word) :
    ¬ scanner.Refers (state v Word.unit).memory pair pair := by
  rintro ⟨slot, hslot, hnames⟩
  simp only [scanSlots_pair, List.mem_cons, List.not_mem_nil, or_false] at hslot
  rcases hslot with rfl | rfl
  · rw [read_pair] at hnames
    exact (views v Word.unit).not_names List.mem_cons_self (.inl rfl) hnames
  · rw [read_pair_second] at hnames
    have hsame := hnames.named.unique (views v Word.unit).placed List.mem_cons_self (by simp)
      (names_cell v Word.unit).named
    exact absurd hsame (by decide)

end SelfPointer

/-! ### Marks after a scan -/

namespace Scanner

variable {sc : Scanner} {r : Region} {blocks : List LocalBlock} {st : MachineState}
  {begun : List (Int × List LocalBlock)} {tables : List (List Nat)} {registers : Option Nat}
  {chain : Chain} {roots : List Nat} {p q : Progress} {ctx : ScanContext} {flags : ScanOptions}
  {b c : LocalBlock}

/-- When a scan ends well, a live block keeps a mark exactly if a reached block points at it that is
the block itself, or lies right above it while it has no fields. The headers of the other blocks are
as they were. -/
theorem color_of_scanRoots (hsc : sc = make ctx Visitor.observe flags (some r.view))
    (hhistory : r.History begun blocks st) (hnative : ctx.mode = .native)
    (hcolors : ctx.colors.garbage < 3)
    (hlawful : ∀ b ∈ blocks, ∀ slot ∈ b.scanSlots st.memory,
      sc.Lawful r.arenas st.memory blocks (st.memory.read slot))
    (hrooted : sc.Rooted tables registers chain (.start st.memory) roots q)
    (hroots : ∀ slot ∈ roots, sc.Acceptable r.arenas st.memory blocks slot) {report : ScanReport}
    {st' : MachineState} (hrun : Machine.scanRoots sc tables registers chain st = .ok report st')
    (hok : report.ending = .ok ()) (hc : c ∈ blocks) :
    ((Header.ofWord (st'.memory.read c.header)).color = Color.notMarkable ↔
      ¬ ∃ b, sc.Follows st.memory blocks (sc.Rooting st.memory roots) b ∧
        sc.Refers st.memory b c ∧ c.Level b) ∧
    ((Header.ofWord (st'.memory.read c.header)).color = Color.notMarkable →
      st'.memory.read c.header = st.memory.read c.header) := by
  have hlaid := hhistory.laid
  obtain ⟨_, _, hends, hcase⟩ :=
    scanRoots_ends hsc hlaid hnative hcolors hlawful hrooted hroots
  rw [hrun] at hends
  cases hends
  rcases hcase with ⟨-, hfine, hmarks⟩ | ⟨⟨field, sp, target, herror⟩, -⟩
  · have hplaced := hlaid.placed
    have hin := hplaced.placed c hc
    have hgarbage : sc.ctx.colors.garbage < 3 := by rw [hsc]; exact hcolors
    rw [← clings_iff_of_fine hplaced hfine, (hlaid.written c hc).header]
    by_cases hclings : sc.Clings st.memory blocks (sc.Rooting st.memory roots) c
    · have hcolor : (Header.ofWord (st'.memory.read c.header)).color ≠ Color.notMarkable := by
        rw [hmarks.marked c hc hclings,
          LocalBlock.ofWord_headerWord hin hplaced.arranged (by omega)]
        unfold Color.notMarkable
        simp only
        omega
      exact ⟨iff_of_false hcolor (not_not.mpr hclings), fun heq => absurd heq hcolor⟩
    · rw [hmarks.unmarked c hc hclings,
        LocalBlock.ofWord_headerWord hin hplaced.arranged (by decide)]
      exact ⟨iff_of_true rfl hclings, fun _ => rfl⟩
  · rw [hok] at herror
    cases herror

end Scanner

namespace SelfPointer

open TwoArenas (cell)

/-- The scan leaves the pair marked, which points at itself, and not the cell. -/
theorem color_of_cell_and_pair :
    ∃ report st', Machine.scanRoots scanner [[0x7000]] none []
        (state Word.unit atPair) = .ok report st' ∧ report.ending = .ok () ∧
      (Header.ofWord (st'.memory.read cell.header)).color = Color.notMarkable ∧
      (Header.ofWord (st'.memory.read pair.header)).color ≠ Color.notMarkable := by
  obtain ⟨report, st', hrun, hok, -⟩ := scan_ends_well (.inl rfl)
  obtain ⟨q, hrooted⟩ := rooted Word.unit atPair
  have hcolor : ∀ c ∈ [pair, cell], _ := fun c hc =>
    (Scanner.color_of_scanRoots rfl (reached Word.unit _).history rfl (by decide)
      (fun b hb slot hslot => (legal (.inl rfl) (.inr rfl) b hb slot hslot).lawful) hrooted
      (fun slot hslot => (admissible Word.unit _ slot hslot).acceptable) hrun hok hc).1
  refine ⟨report, st', hrun, hok, (hcolor cell (by simp)).mpr ?_, fun hpair => ?_⟩
  · rintro ⟨b, hfollows, hrefers, rfl | ⟨hempty, -⟩⟩
    · exact not_refers_of_unit (by simp) hrefers
    · cases hempty
  · exact (hcolor pair List.mem_cons_self).mp hpair
      ⟨pair, (descends_pair Word.unit _).follows, refers_self Word.unit, .inl rfl⟩

/-- So a mark may survive a scan that ends well. -/
theorem pair_keeps_mark :
    second.1.Reached [] [pair, cell] (state Word.unit atPair) ∧
      (∀ b ∈ [pair, cell], ∀ slot ∈ b.scanSlots (state Word.unit atPair).memory,
        scanner.Legal second.1.arenas (state Word.unit atPair).memory [pair, cell]
          ((state Word.unit atPair).memory.read slot)) ∧
      ∃ report st', Machine.scanRoots scanner [[0x7000]] none []
          (state Word.unit atPair) = .ok report st' ∧ report.ending = .ok () ∧
        (Header.ofWord (st'.memory.read pair.header)).color = scanner.ctx.colors.garbage ∧
        scanner.ctx.colors.garbage ≠ Color.notMarkable := by
  refine ⟨reached _ _, legal (.inl rfl) (.inr rfl), ?_⟩
  obtain ⟨report, st', hrun, hok, hmarks⟩ := scan_ends_well (.inl rfl)
  refine ⟨report, st', hrun, hok, ?_, by decide⟩
  rw [hmarks.marked pair List.mem_cons_self
    ⟨pair, descends_pair Word.unit _, refers_self Word.unit, .inl rfl⟩]
  decide

end SelfPointer

/-! ### Scans that end with a backward pointer -/

namespace Scanner

variable {sc : Scanner} {r : Region} {blocks : List LocalBlock} {st : MachineState}
  {begun : List (Int × List LocalBlock)} {tables : List (List Nat)} {registers : Option Nat}
  {chain : Chain} {roots : List Nat} {p q : Progress} {ctx : ScanContext} {flags : ScanOptions}
  {b c : LocalBlock}

/-- In a region of blocks with fields, marks cling to the blocks that point at themselves. -/
theorem clings_iff_of_filled {m : Memory} {marked : LocalBlock → Prop}
    (hfilled : ∀ b ∈ blocks, 0 < b.wosize) (hc : c ∈ blocks) :
    sc.Clings m blocks marked c ↔ sc.Descends m blocks marked c ∧ sc.Refers m c c := by
  constructor
  · rintro ⟨b, hdescends, hrefers, rfl | ⟨hempty, -⟩⟩
    · exact ⟨hdescends, hrefers⟩
    · exact absurd hempty (Nat.ne_of_gt (hfilled c hc))
  · rintro ⟨hdescends, hrefers⟩
    exact ⟨c, hdescends, hrefers, .inl rfl⟩

/-- A scan of roots and local blocks with fields ends well or with a backward pointer. It ends with
one exactly if a block that is reached by pointers at older blocks points at a newer one, unless
this is reached in the same way and points at itself. So it does whenever a reached block points at
a newer one and no reached block points at itself. -/
theorem scanRoots_backwards_iff (hsc : sc = make ctx Visitor.observe flags (some r.view))
    (hreached : r.Reached begun blocks st) (hnative : ctx.mode = .native)
    (hcolors : ctx.colors.garbage < 3)
    (hlegal : ∀ b ∈ blocks, ∀ slot ∈ b.scanSlots st.memory,
      sc.Legal r.arenas st.memory blocks (st.memory.read slot))
    (hrooted : sc.Rooted tables registers chain (.start st.memory) roots q)
    (hroots : ∀ slot ∈ roots, sc.Admissible r.arenas st.memory blocks slot) :
    ∃ report st', Machine.scanRoots sc tables registers chain st = .ok report st' ∧
      (report.ending = .ok () ∨ ∃ field sp target,
        report.ending = .error (.violation (.backwardsLocalPointer field sp target))) ∧
      ((∃ field sp target,
          report.ending = .error (.violation (.backwardsLocalPointer field sp target))) ↔
        ∃ b, ∃ c ∈ blocks, sc.Descends st.memory blocks (sc.Rooting st.memory roots) b ∧
          sc.Refers st.memory b c ∧ b.Above c ∧
          ¬ (sc.Descends st.memory blocks (sc.Rooting st.memory roots) c ∧
            sc.Refers st.memory c c)) ∧
      ((∀ b, sc.Follows st.memory blocks (sc.Rooting st.memory roots) b →
          ¬ sc.Refers st.memory b b) →
        (∃ b, ∃ c ∈ blocks, sc.Follows st.memory blocks (sc.Rooting st.memory roots) b ∧
          sc.Refers st.memory b c ∧ b.Above c) →
        ∃ field sp target,
          report.ending = .error (.violation (.backwardsLocalPointer field sp target))) := by
  have hlaid := hreached.laid
  have hplaced := hlaid.placed
  have hfilled : ∀ b ∈ blocks, 0 < b.wosize := fun b hb => (hreached.allows b hb).1
  obtain ⟨report, st', hrun, hcase⟩ := scanRoots_ends hsc hlaid hnative hcolors
    (fun b hb slot hslot => (hlegal b hb slot hslot).lawful) hrooted
    fun slot hslot => (hroots slot hslot).acceptable
  have hfaults : (∃ b, sc.Faults st.memory blocks (sc.Rooting st.memory roots) b) ↔
      ∃ b, ∃ c ∈ blocks, sc.Descends st.memory blocks (sc.Rooting st.memory roots) b ∧
        sc.Refers st.memory b c ∧ b.Above c ∧
        ¬ (sc.Descends st.memory blocks (sc.Rooting st.memory roots) c ∧
          sc.Refers st.memory c c) := by
    refine exists_congr fun b => ?_
    constructor
    · rintro ⟨hdescends, c, hc, hrefers, habove, hclings⟩
      exact ⟨c, hc, hdescends, hrefers, habove,
        fun hself => hclings ((clings_iff_of_filled hfilled hc).mpr hself)⟩
    · rintro ⟨c, hc, hdescends, hrefers, habove, hself⟩
      exact ⟨hdescends, c, hc, hrefers, habove,
        fun hclings => hself ((clings_iff_of_filled hfilled hc).mp hclings)⟩
  rw [← hfaults]
  refine ⟨report, st', hrun, ?_⟩
  rcases hcase with ⟨hok, hfine, -⟩ | ⟨hback, hfault⟩
  · refine ⟨.inl hok, iff_of_false ?_ fun ⟨b, hb⟩ => hfine b hb, ?_⟩
    · rintro ⟨field, sp, target, herror⟩
      rw [hok] at herror
      cases herror
    · rintro hself ⟨b, c, hc, hfollows, hrefers, habove⟩
      have hclings : ∀ d ∈ blocks, ¬ sc.Clings st.memory blocks (sc.Rooting st.memory roots) d := by
        intro d hd hclings
        obtain ⟨hdescends, hrefersd⟩ := (clings_iff_of_filled hfilled hd).mp hclings
        exact hself d hdescends.follows hrefersd
      obtain ⟨d, hd⟩ := hfollows.exists_faults hplaced hclings hc hrefers habove
      exact absurd hd (hfine d)
  · exact ⟨.inr hback, iff_of_true hback hfault, fun _ _ => hback⟩

end Scanner

namespace SelfPointer

open TwoArenas (cell)

/-- The cell points at the newer pair, and this is found. -/
theorem cell_backwards :
    ∃ report st', Machine.scanRoots scanner [[0x7000]] none []
        (state atPair Word.unit) = .ok report st' ∧
      ∃ field sp target,
        report.ending = .error (.violation (.backwardsLocalPointer field sp target)) := by
  obtain ⟨q, hrooted⟩ := rooted atPair Word.unit
  obtain ⟨report, st', hrun, -, hiff, -⟩ :=
    Scanner.scanRoots_backwards_iff rfl (reached _ _) rfl (by decide) (legal (.inr rfl) (.inl rfl))
      hrooted (admissible _ _)
  refine ⟨report, st', hrun, hiff.mpr ⟨cell, pair, List.mem_cons_self, ?_, refers_pair _,
    cell_above_pair, fun hself => not_refers_self_of_unit _ hself.2⟩⟩
  exact .step (descends_pair _ _) ⟨by simp, refers_cell _ _, cell_above_pair⟩

/-- The cell is reached and points at the newer pair, but the scan ends well, as the pair points at
itself. -/
theorem cell_passed_over :
    second.1.Reached [] [pair, cell] (state atPair atPair) ∧
      (∀ b ∈ [pair, cell], ∀ slot ∈
          b.scanSlots (state atPair atPair).memory,
        scanner.Legal second.1.arenas
          (state atPair atPair).memory [pair, cell]
          ((state atPair atPair).memory.read slot)) ∧
      (scanner.Follows (state atPair atPair).memory [pair, cell]
          (rooting atPair atPair) cell ∧
        scanner.Refers (state atPair atPair).memory cell pair ∧
        cell.Above pair) ∧
      ∃ report st', Machine.scanRoots scanner [[0x7000]] none []
          (state atPair atPair) = .ok report st' ∧
        report.ending = .ok () := by
  refine ⟨reached _ _, legal (.inr rfl) (.inr rfl),
    ⟨follows_cell _ _, refers_pair _, cell_above_pair⟩, ?_⟩
  obtain ⟨report, st', hrun, hok, -⟩ := scan_ends_well (.inr rfl)
  exact ⟨report, st', hrun, hok⟩

end SelfPointer

end FiberStacks
