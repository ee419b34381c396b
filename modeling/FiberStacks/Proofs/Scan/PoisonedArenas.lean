import FiberStacks.Proofs.Scan.Poison

/-!
# Arenas that a pass overwrites

A scan overwrites the free words of the arenas that its pass over the local blocks enters. It enters
the newest arena, and older ones for as long as a live block lies in them or in an arena before. The
arenas before the one with the oldest live block are left as they are, free as they are.
-/

namespace FiberStacks

namespace Scanner

variable {sc : Scanner} {m : Memory} {arenas : List Arena} {blocks : List LocalBlock}
  {found : LocalBlock → Prop} {collector : Visitor} {roots told : List Nat}

/-- A collector that is told of the locations interferes with nothing that a scan has still to read:
no location is told of twice, and none is in an arena or the header of a block that a root or a
field refers to. -/
structure Harmless (sc : Scanner) (m : Memory) (arenas : List Arena) (blocks : List LocalBlock)
    (roots told : List Nat) : Prop where
  distinct : told.Nodup
  outside : ∀ a ∈ told, Outside arenas a
  heap : ∀ slot, (slot ∈ roots ∨ ∃ b ∈ blocks, slot ∈ b.scanSlots m) →
    ∀ a ∈ sc.headersOf m (m.read slot), a ∉ told

theorem Harmless.followable (h : sc.Harmless m arenas blocks roots told)
    (hs : sc.Views m arenas blocks) (hroots : ∀ slot ∈ roots, sc.Admissible arenas m blocks slot) :
    sc.Followable collector m arenas blocks (fun _ => True) roots told where
  kept := fun _ _ => trivial
  apart := fun slot hslot => (hroots slot hslot).apart
  lawful := fun slot hslot => (hroots slot hslot).acceptable.lawful
  heap := fun slot hslot a ha _ => ⟨trivial, .inr (h.heap slot (.inl hslot) a ha)⟩
  targets := fun _ _ b hb _ i hi => by
    have hin := hs.placed.placed b hb
    exact ⟨trivial, .inr fun hmem =>
      h.outside _ hmem b.arena hin.mem (hin.holds (b.spans_field hi))⟩
  headers := fun b hb => by
    have hin := hs.placed.placed b hb
    exact .inr fun hmem => h.outside _ hmem b.arena hin.mem (hin.holds b.spans_header)
  fresh := .inr h.distinct

theorem Harmless.suffices (h : sc.Harmless m arenas blocks roots told) :
    sc.Suffices m arenas blocks found (collector.Spares told) where
  inside := fun a hinside _ => .inr fun hmem => hinside (h.outside a hmem)
  heap := fun b hb slot hslot a ha _ => .inr (h.heap slot (.inr ⟨b, hb.mem, hslot⟩) a ha)

theorem suffices_of_observe :
    sc.Suffices m arenas blocks found (Visitor.observe.Spares told) where
  inside := fun _ _ _ => .inl rfl
  heap := fun _ _ _ _ _ _ _ => .inl rfl

/-- After the roots were scanned, the words that a pass needs are as they were but for marks. -/
theorem Rooted.suffices {tables : List (List Nat)} {registers : Option Nat} {chain : Chain}
    {p q : Progress}
    (hrooted : (sc.reportingTo collector).Rooted tables registers chain p roots q)
    (hs : sc.Views p.memory arenas blocks) (hnative : sc.ctx.mode = .native)
    (hroots : ∀ slot ∈ roots, sc.Admissible arenas p.memory blocks slot)
    (hharmless : collector = Visitor.observe ∨ sc.Harmless p.memory arenas blocks roots
      (roots ++ chain.flatMap Segment.handlerSlots)) :
    ∃ keep, sc.Marks p.memory q.memory blocks
        (fun b => ∃ slot ∈ roots, sc.Hits p.memory b (p.memory.read slot)) keep ∧
      sc.Suffices p.memory arenas blocks
        (fun b => ∃ slot ∈ roots, sc.Hits p.memory b (p.memory.read slot)) keep ∧
      ∀ a, ¬ Outside arenas a → keep a := by
  rcases hharmless with rfl | hharmless
  · refine ⟨_, hrooted.marks_told hs hnative (followable_of_acceptable (fun slot hslot =>
      (hroots slot hslot).acceptable) _), suffices_of_observe, fun _ _ => .inl rfl⟩
  · exact ⟨_, hrooted.marks_told hs hnative (hharmless.followable hs hroots), hharmless.suffices,
      fun a hinside => .inr fun hmem => hinside (hharmless.outside a hmem)⟩

theorem Views.marks_start {keep : Nat → Prop} (hs : sc.Views m arenas blocks) :
    sc.Marks m (Progress.start m).memory blocks (fun _ => False) keep :=
  .of_views hs

/-- Arenas that the pass does not enter are left as they are. -/
theorem Passed.kept_of_idle {keep : Nat → Prop} {p q : Progress} {k a : Nat} {arena : Arena}
    (h : sc.Passed collector m arenas blocks found keep (arenas.length - 1) blocks p q)
    (hplaced : Placed arenas blocks) (hinside : ∀ a, ¬ Outside arenas a → keep a)
    (ha : arenas[k]? = some arena) (hidle : ¬ Entered arenas blocks k) (hholds : arena.Holds a) :
    q.memory.read a = m.read a := by
  have hspans : ∀ b ∈ blocks, ¬ b.Spans a := by
    intro b hb hspans
    have hin := hplaced.placed b hb
    by_cases heq : b.index = k
    · exact hidle (.inr ⟨b, hb, Nat.le_of_eq heq⟩)
    · exact hplaced.arranged.not_holds hin.found ha heq (hin.holds hspans) hholds
  refine h.kept (hinside a fun houtside => houtside arena (List.mem_of_getElem? ha) hholds)
    (fun j hentered hfree => ?_) (fun b hb hfield => ?_) (.inr fun hslot => ?_)
    fun b hb heq => ?_
  · obtain ⟨-, x, hx, hxholds, -⟩ := hfree
    by_cases heq : j = k
    · exact hidle (heq ▸ hentered)
    · exact hplaced.arranged.not_holds hx ha heq hxholds hholds
  · exact absurd (spans_of_mem_fields hfield).1 (hspans b hb)
  · obtain ⟨b, hb, hslot⟩ := List.mem_flatMap.mp hslot
    exact hspans b hb (LocalBlock.spans_of_mem_scanSlots hslot)
  · exact hspans b hb (heq ▸ b.spans_header)

end Scanner

open Scanner in
/-- After any history of a region a scan that reads its roots ends well, whatever the collector. If
poisoning is on, it has overwritten the free words of just the arenas that are the newest or have a
live block in them or before them. -/
theorem Machine.free_words_of_scanRoots {sc : Scanner} {ctx : ScanContext} {flags : ScanOptions}
    {visitor : Visitor} {r : Region} {begun : List (Int × List LocalBlock)}
    {blocks : List LocalBlock} {st : MachineState} {tables : List (List Nat)}
    {registers : Option Nat} {chain : Chain} {roots : List Nat} {p : Progress}
    (hsc : sc = make ctx Visitor.observe flags (some r.view)) (hreached : r.Reached begun blocks st)
    (hnative : ctx.mode = .native) (hpoison : ctx.poison = true) (hcolors : ctx.colors.garbage < 3)
    (hyoung : ∀ b ∈ blocks, ∀ w, b.PointedAt st.memory w → ctx.young w = false)
    (hlinked : sc.Linked r.arenas st.memory blocks)
    (hrooted : (sc.reportingTo visitor).Rooted tables registers chain (.start st.memory) roots p)
    (hroots : ∀ slot ∈ roots, sc.Admissible r.arenas st.memory blocks slot)
    (hharmless : visitor = Visitor.observe ∨ sc.Harmless st.memory r.arenas blocks roots
      (roots ++ chain.flatMap Segment.handlerSlots)) :
    ∃ report st', scanRoots (sc.reportingTo visitor) tables registers chain st = .ok report st' ∧
      report.ending = .ok () ∧
      (∀ k, Entered r.arenas blocks k → ∀ a, FreeWord r.arenas blocks k a →
        st'.memory.read a = Word.deadLocal) ∧
      ∀ k arena, r.arenas[k]? = some arena → ¬ Entered r.arenas blocks k →
        ∀ a, arena.Holds a → st'.memory.read a = st.memory.read a := by
  have hscan : (sc.reportingTo visitor).scanStacks tables registers chain (.start st.memory) =
      .ok () p := (scanStacks_eq_ok_iff (by rw [hsc]; exact hnative)).mpr ⟨roots, hrooted⟩
  by_cases harenas : r.arenas = []
  · have hlocals : sc.locals = none := by rw [hsc, locals_make_of_nil harenas]
    have hsweep := (sc.reportingTo visitor).sweepLocals_of_none hlocals p
    obtain ⟨st', hrun, -⟩ := scanRoots_of_sweep hscan hsweep
    refine ⟨_, st', hrun, rfl, fun k _ a hfree => ?_, fun k arena ha => ?_⟩
    · obtain ⟨-, arena, ha, -⟩ := hfree
      rw [harenas] at ha
      cases ha
    · rw [harenas] at ha
      cases ha
  · have hlocals : sc.locals = some r.view := by rw [hsc, locals_make_of_ne_nil harenas]
    have hs := surveys_of_make hsc hreached.laid hcolors hyoung harenas
    have hd := downhill_of_reached hreached hs hlinked
    have hnativeSc : sc.ctx.mode = .native := by rw [hsc]; exact hnative
    obtain ⟨keep, hmarks, hsuffices, hinside⟩ :=
      hrooted.suffices hs.toViews hnativeSc hroots hharmless
    obtain ⟨q, hsweep, hpassed⟩ := sweepLocals_passed hreached.laid.offset hd hnativeSc hlocals
      harenas (by rw [hsc]; exact hpoison) hsuffices hmarks
    obtain ⟨st', hrun, hmemory⟩ := scanRoots_of_sweep hscan hsweep
    refine ⟨_, st', hrun, rfl, fun k hentered a hfree => ?_, fun k arena ha hidle a hholds => ?_⟩
    · rw [hmemory]
      exact hpassed.dead_of_free hentered hfree
    · rw [hmemory]
      exact hpassed.kept_of_idle hd.placed hinside ha hidle hholds

namespace TwoArenas

open Scanner (Harmless)

/-- A collector that overwrites whatever it is told of. -/
def clears : Visitor := fun _ _ => some Word.unit

theorem harmless_root : scanner.Harmless state.memory last.1.arenas [closure, cell] [0x7000]
    ([0x7000] ++ ([] : Chain).flatMap Segment.handlerSlots) where
  distinct := by simp
  outside := by
    rw [arenas_last]
    decide
  heap := by
    have hapart : ∀ w, w.toNat ≠ 0x7008 → (Block.startOf state.memory w).toNat ≠ 0x7008 →
        0x7000 ∉ scanner.headersOf state.memory w := by
      intro w hw hstart hheader
      rcases Scanner.mem_headersOf hheader with heq | heq
      · simp only [wordBytes] at heq
        omega
      · simp only [wordBytes] at heq
        omega
    intro slot hslot a ha hmem
    obtain rfl : a = 0x7000 := List.mem_singleton.mp hmem
    rcases hslot with hslot | ⟨b, hb, hslot⟩
    · rw [List.mem_singleton.mp hslot, read_root] at ha
      exact hapart _ (by decide) (by rw [pointedAt_closure.start]; decide) ha
    rcases List.mem_pair.mp hb with rfl | rfl
    · rw [scanSlots_closure, List.mem_singleton] at hslot
      rw [hslot, read_closure] at ha
      exact hapart _ (by decide) (by rw [pointedAt_cell.start]; decide) ha
    · rw [scanSlots_cell, List.mem_singleton] at hslot
      rw [hslot, read_cell] at ha
      exact hapart _ (by decide) (by rw [startOf_heap]; decide) ha

theorem rooted_cleared :
    ∃ q, (scanner.reportingTo clears).Rooted [[0x7000]] none [] (.start state.memory) [0x7000]
      q :=
  Scanner.exists_rooted views rfl root_in_use
    (harmless_root.followable views (List.forall_mem_singleton.mpr admissible_root))

/-- The free words of the first arena are overwritten, as the cell lies in it. -/
theorem first_overwritten :
    ∃ report st', Machine.scanRoots (scanner.reportingTo clears) [[0x7000]] none [] state =
        .ok report st' ∧ report.ending = .ok () ∧
      st'.memory.read cell.arena.base = Word.deadLocal := by
  obtain ⟨q, hrooted⟩ := rooted_cleared
  have hroots : ∀ slot ∈ [0x7000],
      scanner.Admissible last.1.arenas state.memory [closure, cell] slot :=
    List.forall_mem_singleton.mpr admissible_root
  obtain ⟨report, st', hrun, hok, hfree, -⟩ := Machine.free_words_of_scanRoots rfl reached rfl rfl
    (by decide) (fun _ _ _ _ => rfl) linked hrooted hroots (.inr harmless_root)
  have hfound : last.1.arenas[0]? = some cell.arena := by rw [arenas_last]; rfl
  refine ⟨report, st', hrun, hok, hfree 0 (.inr ⟨cell, by simp, Nat.le_refl 0⟩) _
    ⟨by decide, cell.arena, hfound, by decide, ?_⟩⟩
  decide

end TwoArenas

/-! ### An arena that the pass does not come to

A region with a block in its first arena was ended. The next block takes a second arena. -/

namespace IdleArena

open TwoArenas (outcome isBlock eq_outcome cell)
open Scanner (FreeWord)

def first : Region × MachineState := outcome (Region.empty.alloc 1 0 .initial)

def last : Region × MachineState :=
  outcome (Region.alloc { first.1 with sp := Region.empty.beginRegion } 512 0 first.2)

def block : LocalBlock := ⟨⟨0x10003000, 0x2000⟩, 1, 0, 512, 0⟩

def scanner : Scanner :=
  .make (ScanContext.native noFrames) Visitor.observe .empty (some last.1.view)

theorem allocations :
    (isBlock (Region.empty.alloc 1 0 .initial) &&
      isBlock (Region.alloc { first.1 with sp := Region.empty.beginRegion } 512 0 first.2)) =
        true ∧
      first.1.arenas = [cell.arena] ∧ last.1 = ⟨[cell.arena, block.arena], -0x1008, 0x2000⟩ ∧
      ((block.scanSlots last.2.memory).all fun slot =>
        !(last.2.memory.read slot).isBlock) = true ∧
      last.2.memory.read cell.arena.base ≠ Word.deadLocal := by
  decide +kernel

theorem reached_block : last.1.Reached [] [block] last.2 := by
  obtain ⟨hblocks, hfirst, hlast, -, -⟩ := allocations
  rw [Bool.and_eq_true] at hblocks
  obtain ⟨w, hrun⟩ : ∃ w, Region.empty.alloc 1 0 .initial = .ok (.ok w, first.1) first.2 :=
    eq_outcome hblocks.1
  obtain ⟨v, hagain⟩ : ∃ v, Region.alloc { first.1 with sp := Region.empty.beginRegion } 512 0
      first.2 = .ok (.ok v, last.1) last.2 := eq_outcome hblocks.2
  have hbegun : Region.Reached _ _ _ _ := .alloc (a := cell.arena)
    (.beginRegion (.start _)) (by decide) (by decide) hrun (congrArg List.getLast? hfirst)
  have h : Region.Reached _ _ _ _ := .alloc (a := block.arena)
    (.endRegion hbegun hbegun.endRegion_eq_ok) (by decide) (by decide) hagain
    (congrArg (fun r => r.arenas.getLast?) hlast)
  have hnewest : Region.newest { first.1 with sp := Region.empty.beginRegion } last.1 block.arena
      512 0 = block := by
    rw [Region.newest, hlast]
    rfl
  rwa [hnewest] at h

/-- No block is left in the first arena, and a scan without roots leaves it as it is. -/
theorem first_left :
    last.1.Reached [] [block] last.2 ∧ scanner.Linked last.1.arenas last.2.memory [block] ∧
      FreeWord last.1.arenas [block] 0 cell.arena.base ∧
      ∃ report st', Machine.scanRoots scanner [] none [] last.2 = .ok report st' ∧
          report.ending = .ok () ∧ st'.memory.read cell.arena.base ≠ Word.deadLocal := by
  obtain ⟨-, -, hlast, hfields, hbase⟩ := allocations
  have hlinked : scanner.Linked last.1.arenas last.2.memory [block] :=
    ⟨fun slot hslot => .inl (by simpa using List.all_eq_true.mp hfields slot hslot), trivial⟩
  have harenas : last.1.arenas = [cell.arena, block.arena] := by rw [hlast]
  have hne : last.1.arenas ≠ [] := by simp [harenas]
  have hfirst : last.1.arenas[0]? = some cell.arena := by
    rw [harenas]
    rfl
  have hlocals : scanner.locals = some last.1.view := Scanner.locals_make_of_ne_nil hne
  have hs := Scanner.surveys_of_laid reached_block.laid rfl (by decide) hlocals fun _ _ _ _ => rfl
  have hd := Scanner.downhill_of_reached reached_block hs hlinked
  have hsuffices : scanner.Suffices last.2.memory last.1.arenas [block] (fun _ => False)
      fun _ => True := ⟨fun _ _ _ => trivial, fun _ _ _ _ _ _ _ => trivial⟩
  obtain ⟨q, hsweep, hpassed⟩ := Scanner.sweepLocals_passed reached_block.laid.offset hd rfl
    hlocals hne rfl hsuffices hs.toViews.marks_start
  obtain ⟨st', hrun, hmemory⟩ := Machine.scanRoots_of_sweep
    (show scanner.scanStacks [] none [] (.start last.2.memory) = .ok () _ from rfl) hsweep
  have hidle : ¬ Scanner.Entered last.1.arenas [block] 0 := by
    rw [harenas]
    decide
  refine ⟨reached_block, hlinked, ?_, _, st', hrun, rfl, ?_⟩
  · rw [harenas]
    exact ⟨by decide, cell.arena, rfl, by decide, by decide⟩
  · rw [hmemory, hpassed.kept_of_idle hd.placed (fun _ _ => trivial) hfirst hidle (by decide)]
    exact hbase

end IdleArena

end FiberStacks
