import FiberStacks.Proofs.Scan.LocalPass

/-!
# Walks over the live blocks

A walk over a region reads one header after the other, from the last allocation upwards, and goes on
in the arena before at each marker. It comes by just the live blocks, unless one of them is taken
for a marker. Only a block without fields and with the tag of the marker is.
-/

namespace FiberStacks

/-- The blocks that a walk comes by which starts at a depth of the arena with an index. There is no
walk if it leaves an arena, passes the upper end, or comes to a marker in the oldest arena. -/
def walk (m : Memory) (arenas : List Arena) (index depth : Nat) : Option (List LocalBlock) :=
  if depth = 0 then
    some []
  else
    match arenas[index]? with
    | none => none
    | some a =>
      if a.length < depth then
        none
      else
        let h := Header.ofWord (m.read (a.down depth))
        if h.isLocalSwitch then
          if index = 0 then none else walk m arenas (index - 1) depth
        else if depth < h.blockBytes then
          none
        else
          (walk m arenas index (depth - h.blockBytes)).map
            (⟨a, index, depth - h.blockBytes, h.wosize, h.tag⟩ :: ·)
termination_by (depth, index)
decreasing_by
  · exact Prod.Lex.right _ (by omega)
  · refine Prod.Lex.left _ _ ?_
    simp only [Header.blockBytes, wordBytes]
    omega

/-- The blocks that a walk over a region comes by. -/
def Region.walk (r : Region) (m : Memory) : Option (List LocalBlock) :=
  FiberStacks.walk m r.arenas (r.arenas.length - 1) r.sp.natAbs

section Walk

variable {m : Memory} {arenas : List Arena} {index depth : Nat} {a : Arena} {b : LocalBlock}
  {blocks : List LocalBlock}

theorem walk_of_switch (ha : arenas[index]? = some a) (hpos : 0 < depth) (hdepth : depth ≤ a.length)
    (hswitch : (Header.ofWord (m.read (a.down depth))).isLocalSwitch = true) :
    walk m arenas index depth = if index = 0 then none else walk m arenas (index - 1) depth := by
  rw [walk, if_neg (Nat.ne_of_gt hpos), ha]
  simp only
  rw [if_neg (Nat.not_lt.mpr hdepth), if_pos hswitch]

/-- A walk comes down to the arena of a block from marker to marker. -/
theorem walk_descends (hb : b.In arenas) (hwritten : b.Written arenas m) (hle : b.index ≤ index)
    (hindex : index < arenas.length) :
    walk m arenas index b.depth = walk m arenas b.index b.depth := by
  induction index, hle using Nat.le_induction with
  | base => rfl
  | succ index hle ih =>
      have ha := List.getElem?_eq_getElem hindex
      have hswitch := hwritten.switches (index + 1) _ (Nat.lt_succ_of_le hle) ha
      rw [walk_of_switch ha b.depth_pos (hb.reaches _ _ (Nat.le_succ_of_le hle) ha)
        (by rw [hswitch, Scanner.ofWord_localSwitch]; decide), if_neg (Nat.succ_ne_zero index),
        Nat.add_sub_cancel]
      exact ih (Nat.lt_of_succ_lt hindex)

theorem ofWord_header (harranged : Arranged arenas) (hb : b.In arenas)
    (hwritten : b.Written arenas m) :
    Header.ofWord (m.read b.header) = ⟨b.wosize, Color.notMarkable, b.tag⟩ := by
  rw [hwritten.header, LocalBlock.ofWord_headerWord hb harranged (by decide)]

theorem walk_of_told (harranged : Arranged arenas) (hb : b.In arenas)
    (hwritten : b.Written arenas m) (htold : b.Told) :
    walk m arenas b.index b.depth = (walk m arenas b.index b.upper).map (b :: ·) := by
  have hheader : Header.ofWord (m.read (b.arena.down b.depth)) =
      ⟨b.wosize, Color.notMarkable, b.tag⟩ := ofWord_header harranged hb hwritten
  have hbytes : (⟨b.wosize, Color.notMarkable, b.tag⟩ : Header).blockBytes = b.bytes := rfl
  have hupper : b.depth - b.bytes = b.upper := Nat.add_sub_cancel b.upper b.bytes
  have hle : b.bytes ≤ b.depth := Nat.le_add_left b.bytes b.upper
  rw [walk, if_neg (Nat.ne_of_gt b.depth_pos), hb.found]
  simp only [hheader, hbytes, hupper]
  rw [if_neg (Nat.not_lt.mpr hb.fits), Scanner.isLocalSwitch_eq_false htold,
    if_neg Bool.false_ne_true, if_neg (Nat.not_lt.mpr hle)]

/-- A walk never goes on in a newer arena. -/
theorem index_le_of_walk (h : walk m arenas index depth = some blocks) :
    ∀ b ∈ blocks, b.index ≤ index := by
  fun_induction walk m arenas index depth generalizing blocks with
  | case1 index =>
      cases h
      simp
  | case2 | case3 | case4 | case6 => cases h
  | case5 =>
      rename_i ih
      exact fun b hb => Nat.le_trans (ih h b hb) (Nat.sub_le _ 1)
  | case7 =>
      rename_i ih
      obtain ⟨older, holder, rfl⟩ := Option.map_eq_some_iff.mp h
      exact List.forall_mem_cons.mpr ⟨Nat.le_refl _, ih holder⟩

theorem isLocalSwitch_of_not_told (harranged : Arranged arenas)
    (hb : b.In arenas) (hwritten : b.Written arenas m) (htold : ¬ b.Told) :
    (Header.ofWord (m.read (b.arena.down b.depth))).isLocalSwitch = true := by
  change (Header.ofWord (m.read b.header)).isLocalSwitch = true
  rw [ofWord_header harranged hb hwritten]
  obtain ⟨hempty, htag⟩ := not_or.mp htold
  simp [Header.isLocalSwitch, Nat.eq_zero_of_not_pos hempty, not_not.mp htag]

/-- A walk takes a block with the header of a marker for one, and does not come by the block. -/
theorem walk_ne_of_not_told (harranged : Arranged arenas) (hb : b.In arenas)
    (hwritten : b.Written arenas m) (htold : ¬ b.Told) (older : List LocalBlock) :
    walk m arenas b.index b.depth ≠ some (b :: older) := by
  intro h
  have hswitch := isLocalSwitch_of_not_told harranged hb hwritten htold
  rw [walk_of_switch hb.found b.depth_pos hb.fits hswitch] at h
  split at h
  · cases h
  · have hle := index_le_of_walk h b List.mem_cons_self
    omega

/-- A walk comes by stacked blocks exactly if none of them has the header of a marker. -/
theorem walk_eq_some_iff (harranged : Arranged arenas)
    (hin : ∀ b ∈ blocks, b.In arenas) (hwritten : ∀ b ∈ blocks, b.Written arenas m)
    (hstacked : Stacked index blocks) (hindex : ∀ b ∈ blocks, index < arenas.length) :
    walk m arenas index (extent blocks) = some blocks ↔ ∀ b ∈ blocks, b.Told := by
  induction blocks generalizing index with
  | nil =>
      rw [extent, walk, if_pos rfl]
      simp
  | cons b older ih =>
      obtain ⟨hle, hupper, holder⟩ := hstacked
      obtain ⟨hbin, holderIn⟩ := List.forall_mem_cons.mp hin
      obtain ⟨hbwritten, holderWritten⟩ := List.forall_mem_cons.mp hwritten
      have hlt := (List.getElem?_eq_some_iff.mp hbin.found).1
      rw [extent, walk_descends hbin hbwritten hle (hindex b List.mem_cons_self),
        List.forall_mem_cons]
      by_cases htold : b.Told
      · rw [walk_of_told harranged hbin hbwritten htold, hupper, and_iff_right htold,
          ← ih holderIn holderWritten holder fun _ _ => hlt]
        exact (Option.map_injective (List.cons_injective)).eq_iff' rfl
      · exact iff_of_false (walk_ne_of_not_told harranged hbin hbwritten htold older)
          fun h => htold h.1

end Walk

/-! ### The sweep of unmarked blocks -/

/-- Above a depth, the headers of blocks and the markers below them are ahead of a sweep. -/
theorem LocalBlock.Guards.ahead {arenas : List Arena} {c : LocalBlock} {depth address : Nat}
    (h : c.Guards arenas address) (hc : c.In arenas) (hle : c.depth ≤ depth) :
    ∃ index, Ahead arenas index depth address := by
  rcases h with rfl | ⟨k, a, hk, ha, rfl⟩
  · exact ⟨c.index, Ahead.of_spans hc (Nat.le_refl _) hle c.spans_header⟩
  · have hreaches := hc.reaches k a (Nat.le_of_lt hk) ha
    refine ⟨k, .inr ⟨k, a, Nat.le_refl k, ha, Arena.holds_down c.depth_pos hreaches, ?_⟩⟩
    unfold Arena.down
    omega

namespace Scanner

variable {sc : Scanner} {arenas : List Arena} {index : Nat} {blocks : List LocalBlock}
  {r : Region} {st : MachineState} {p : Progress}

/-- A sweep passes over unmarked blocks, whatever it overwrites. -/
theorem sweep_of_unmarked (harranged : Arranged arenas)
    (hin : ∀ b ∈ blocks, b.In arenas) (htold : ∀ b ∈ blocks, b.Told)
    (hwritten : ∀ b ∈ blocks, b.Written arenas p.memory) (hstacked : Stacked index blocks)
    (hindex : ∀ b ∈ blocks, index < arenas.length) :
    ∃ q, sc.sweep arenas index (-(extent blocks : Int)) p = .ok () q ∧ q.visits = p.visits := by
  induction blocks generalizing index p with
  | nil =>
      refine ⟨p, ?_, rfl⟩
      rw [sweep, if_pos (by simp [extent])]
      rfl
  | cons b older ih =>
      have hmod := hstacked.depth_mod List.mem_cons_self
      have habove : ∀ c ∈ older, c.Above b := fun c hc => hstacked.above hc
      obtain ⟨hle, hupper, holder⟩ := hstacked
      obtain ⟨hbin, holderIn⟩ := List.forall_mem_cons.mp hin
      obtain ⟨hbtold, holderTold⟩ := List.forall_mem_cons.mp htold
      obtain ⟨hbwritten, holderWritten⟩ := List.forall_mem_cons.mp hwritten
      have hlt := (List.getElem?_eq_some_iff.mp hbin.found).1
      obtain ⟨u, hdescend, hfreed⟩ : ∃ u,
          sc.sweep arenas index (-(b.depth : Int)) p =
            sc.sweep arenas b.index (-(b.depth : Int)) u ∧
          Overwrites p u (Freed arenas index b.depth) :=
        sweep_descends harranged hbin hmod hle (hindex b List.mem_cons_self)
          fun k a hk _ ha => hbwritten.switches k a hk ha
      -- The way down only overwrites free space, and the pass over the block its own fields.
      have hsparedFree : ∀ c ∈ b :: older, c.depth ≤ b.depth → ∀ address, c.Guards arenas address →
          u.memory.read address = p.memory.read address := by
        intro c hc hdepth address hguards
        obtain ⟨k, hahead⟩ := hguards.ahead (hin c hc) hdepth
        exact hfreed.kept (hahead.not_freed harranged)
      have hheader : Header.ofWord (u.memory.read b.header) =
          ⟨b.wosize, Color.notMarkable, b.tag⟩ :=
        ofWord_header harranged hbin
          (hbwritten.of_kept (hsparedFree b List.mem_cons_self (Nat.le_refl _)))
      obtain ⟨v, hpass, hover⟩ : ∃ v, sc.sweepBlock arenas (-(b.depth : Int)) b.header
            ⟨b.wosize, Color.notMarkable, b.tag⟩ (u.logging [.steer b.header]) = .ok () v ∧
          Overwrites (u.logging [.steer b.header]) v fun a => a ∈ Memory.span b.block b.wosize :=
        sweepBlock_of_unmarked harranged hbin _ _
      have hkept : ∀ c ∈ older, c.Written arenas v.memory := by
        intro c hc
        refine (holderWritten c hc).of_kept fun address hguards => ?_
        rw [← hsparedFree c (List.mem_cons_of_mem b hc) (Nat.le_of_lt (habove c hc).depth_lt)
          address hguards]
        refine hover.kept fun hspan => ?_
        obtain ⟨i, hi, rfl⟩ := Memory.mem_span_iff.mp hspan
        exact (habove c hc).not_spans_of_guards harranged hbin (holderIn c hc) hguards
          (b.spans_field hi)
      obtain ⟨q, hrest, hvisits⟩ := ih holderIn holderTold hkept holder fun _ _ => hlt
      refine ⟨q, ?_, hvisits.trans (hover.visits.trans hfreed.visits)⟩
      rw [extent, hdescend, sweep_of_block harranged hbin hbtold hheader, Run.bind_of_ok hpass,
        hupper, hrest]

/-- A marker in the oldest arena ends the sweep. -/
theorem sweep_of_oldest_switch {a : Arena} {depth : Nat}
    (harranged : Arranged arenas) (ha : arenas[0]? = some a) (hpos : 0 < depth)
    (hdepth : depth ≤ a.length)
    (hswitch : (Header.ofWord (p.memory.read (a.down depth))).isLocalSwitch = true) :
    sc.sweep arenas 0 (-(depth : Int)) p =
      .error (.violation (.corruptLocalArena (-(depth : Int))))
        (p.logging [.steer (a.down depth)]) := by
  rw [sweep_run harranged ha hpos hdepth, sweepAt, if_pos hswitch, if_pos rfl]
  rfl

/-- The pass over a region whose blocks are all unmarked ends well and reports nothing. -/
theorem sweepLocals_of_unmarked (hhouses : r.Houses blocks st) (htold : ∀ b ∈ blocks, b.Told)
    (hnative : sc.ctx.mode = .native) (hlocals : sc.locals = some r.view)
    (harenas : r.arenas ≠ [])
    (hkept : ∀ b ∈ blocks, ∀ address, b.Guards r.arenas address →
      p.memory.read address = st.memory.read address) :
    ∃ q, sc.sweepLocals p = .ok () q ∧ q.visits = p.visits := by
  have hin := hhouses.placed.placed
  have hstacked := hhouses.placed.stacked
  have harranged := hhouses.placed.arranged
  have hpos : r.arenas.length - 1 < r.arenas.length := by
    have hlength := List.length_pos_of_ne_nil harenas
    omega
  have hnewest := List.getElem?_eq_getElem hpos
  have hlast : r.arenas.getLast? = some r.arenas[r.arenas.length - 1] := by
    rw [List.getLast?_eq_getElem?, hnewest]
  obtain ⟨u, hfree, hover⟩ := poisonFree_run sc harranged hnewest
    (extent_le_newest hin hstacked hnewest) hstacked.extent_mod p
  have hwritten : ∀ b ∈ blocks, b.Written r.arenas u.memory := by
    intro b hb
    refine (hhouses.written b hb).of_kept fun address hguards => ?_
    obtain ⟨k, hahead⟩ := hguards.ahead (hin b hb) (hstacked.of_mem hb).2
    rw [← hkept b hb address hguards]
    exact hover.kept fun hfreed =>
      hahead.not_freed harranged ⟨_, _, hpos, hnewest, hfreed⟩
  obtain ⟨q, hsweep, hvisits⟩ : ∃ q, sc.sweep r.arenas (r.arenas.length - 1)
      (-(extent blocks : Int)) u = .ok () q ∧ q.visits = u.visits :=
    sweep_of_unmarked harranged hin htold hwritten hstacked fun _ _ => hpos
  refine ⟨q, ?_, hvisits.trans hover.visits⟩
  unfold sweepLocals
  rw [hlocals, hnative]
  simp only [Region.view, hlast, hhouses.offset]
  rw [Run.bind_of_ok hfree]
  exact hsweep

/-- Roots that are no blocks of the region leave its headers and markers as they are. -/
theorem kept_of_foreign {ctx : ScanContext} {flags : ScanOptions} {tables : List (List Nat)}
    {registers : Option Nat} {chain : Chain} {roots : List Nat}
    (hsc : sc = make ctx Visitor.observe flags (some r.view)) (hhouses : r.Houses blocks st)
    (hnative : ctx.mode = .native) (hcolors : ctx.colors.garbage < 3)
    (hrooted : sc.Rooted tables registers chain (.start st.memory) roots p)
    (hroots : ∀ slot ∈ roots, sc.Lawful r.arenas st.memory [] (st.memory.read slot)) :
    ∀ b ∈ blocks, ∀ address, b.Guards r.arenas address →
      p.memory.read address = st.memory.read address := by
  intro b hb address hguards
  have harenas : r.arenas ≠ [] := List.ne_nil_of_mem (hhouses.placed.placed b hb).mem
  have hviews : sc.Views st.memory r.arenas [] :=
    { observes := by rw [hsc]; rfl
      colors := by rw [hsc]; exact hcolors
      locals := ⟨r.sp, by rw [hsc, locals_make_of_ne_nil harenas]; rfl⟩
      placed := ⟨hhouses.placed.arranged, trivial, by simp⟩
      headers := by simp }
  have hmarks := hrooted.marks_hits hviews (by rw [hsc]; exact hnative)
    fun slot hslot => ⟨by simp, hroots slot hslot⟩
  exact hmarks.kept address trivial (by simp)

end Scanner

/-- After any course of a region, a walk over it comes by just its live blocks, from the newest to
the oldest, exactly if none of them has the header of a marker. Then a scan that marks none of them
for its roots ends well and reports its roots only. -/
theorem Region.Course.walkable_iff_told {r : Region} {begun : List (Int × List LocalBlock)}
    {blocks : List LocalBlock} {st : MachineState} (h : r.Course begun blocks st) :
    (r.walk st.memory = some blocks ↔ ∀ b ∈ blocks, b.Told) ∧
      ((∀ b ∈ blocks, b.Told) →
        ∀ (ctx : ScanContext) (visitor : Visitor) (flags : ScanOptions) (tables : List (List Nat))
          (registers : Option Nat) (chain : Chain) (p : Progress), ctx.mode = .native →
        (Scanner.make ctx visitor flags (some r.view)).scanStacks tables registers chain
          (.start st.memory) = .ok () p →
        (∀ b ∈ blocks, ∀ address, b.Guards r.arenas address →
          p.memory.read address = st.memory.read address) →
        ∃ report st', Machine.scanRoots (Scanner.make ctx visitor flags (some r.view)) tables
            registers chain st = .ok report st' ∧
          report.ending = .ok () ∧ report.visits = p.visits.reverse) := by
  have hhouses := h.houses
  have hplaced := hhouses.placed
  have hsp : r.sp.natAbs = extent blocks := by
    have hoffset := hhouses.offset
    omega
  constructor
  · rw [Region.walk, hsp]
    refine walk_eq_some_iff hplaced.arranged hplaced.placed hhouses.written hplaced.stacked
      fun b hb => ?_
    have hlength := List.length_pos_of_mem (hplaced.placed b hb).mem
    omega
  · intro htold ctx visitor flags tables registers chain p hnative hroots hkept
    have hpass : ∃ q, (Scanner.make ctx visitor flags (some r.view)).sweepLocals p = .ok () q ∧
        q.visits = p.visits := by
      by_cases harenas : r.arenas = []
      · refine ⟨p, ?_, rfl⟩
        rw [Scanner.sweepLocals, Scanner.locals_make_of_nil harenas]
        rfl
      · exact Scanner.sweepLocals_of_unmarked hhouses htold hnative
          (Scanner.locals_make_of_ne_nil harenas) harenas hkept
    obtain ⟨q, hsweep, hvisits⟩ := hpass
    obtain ⟨st', hrun, -⟩ := Machine.scanRoots_of_sweep hroots hsweep
    exact ⟨_, st', hrun, rfl, congrArg List.reverse hvisits⟩

namespace TwoArenas

/-- The only root is the field of the cell, which holds a block of the heap. -/
theorem rooted_field : ∃ q, scanner.Rooted [[cell.block]] none [] (.start state.memory)
    [cell.block] q := by
  have h : Run.answers (forM [cell.block] scanner.scanEntry : ScanM Unit) (.start state.memory)
      (fun _ _ => true) = true := by decide +kernel
  obtain ⟨_, q, htables, -⟩ := Run.exists_of_answers h
  refine ⟨q, q, [], htables, .nil, ?_⟩
  have hused : (0x6008 : Word) ≠ Word.null := by decide
  simp [Progress.start, read_cell, hused]

theorem walkable :
    last.1.walk state.memory = some [closure, cell] ∧
      ∃ report st', Machine.scanRoots scanner [[cell.block]] none [] state = .ok report st' ∧
        report.ending = .ok () := by
  have hcourse := reached.history.course
  obtain ⟨hwalk, hscan⟩ := hcourse.walkable_iff_told
  have htold : ∀ b ∈ [closure, cell], b.Told := by decide
  obtain ⟨q, hrooted⟩ := rooted_field
  have hforeign : ∀ slot ∈ [cell.block],
      scanner.Lawful last.1.arenas state.memory [] (state.memory.read slot) := by
    intro slot hslot
    rw [List.mem_singleton.mp hslot, read_cell]
    exact .inr (.inl (.inr ⟨readable_heap, by decide, by rw [startOf_heap]; decide,
      by rw [startOf_heap]; decide⟩))
  obtain ⟨report, st', hrun, hok, -⟩ := hscan htold _ _ _ _ _ _ q rfl
    ((Scanner.scanStacks_eq_ok_iff rfl).mpr ⟨_, hrooted⟩)
    (Scanner.kept_of_foreign rfl hcourse.houses rfl (by decide) hrooted hforeign)
  exact ⟨hwalk.mpr htold, report, st', hrun, hok⟩

end TwoArenas

/-! ### A block that is taken for a marker

The only block of a region has no fields and the tag of the marker. -/

namespace MarkerHeader

open TwoArenas (outcome isBlock eq_outcome cell)

def lone : Region × MachineState := outcome (Region.empty.alloc 0 Tag.localSwitch .initial)

def block : LocalBlock := ⟨cell.arena, 0, 0, 0, Tag.localSwitch⟩

def scanner : Scanner :=
  .make { ScanContext.native noFrames with poison := false } Visitor.observe .empty
    (some lone.1.view)

theorem allocation : isBlock (Region.empty.alloc 0 Tag.localSwitch .initial) = true ∧
    lone.1 = ⟨[cell.arena], -8, 0x1000⟩ := by
  decide +kernel

theorem course_block : lone.1.Course [] [block] lone.2 := by
  obtain ⟨hblock, hlone⟩ := allocation
  obtain ⟨w, hrun⟩ := eq_outcome hblock
  have h : Region.Course _ _ _ _ := .alloc (a := cell.arena) (.start _)
    (by decide) trivial hrun (congrArg (fun r => r.arenas.getLast?) hlone)
  have hnewest : Region.empty.newest lone.1 cell.arena 0 Tag.localSwitch = block := by
    rw [Region.newest, hlone]
    rfl
  rw [← hnewest]
  exact h

/-- The walk does not come by the block, and a scan without roots ends as if the arena were
corrupt. -/
theorem taken_for_marker :
    lone.1.Course [] [block] lone.2 ∧ lone.1.walk lone.2.memory = none ∧
      ∃ report st', Machine.scanRoots scanner [] none [] lone.2 = .ok report st' ∧
        report.ending = .error (.violation (.corruptLocalArena (-8))) := by
  obtain ⟨-, hlone⟩ := allocation
  have hhouses := course_block.houses
  have harranged := hhouses.placed.arranged
  have hin := hhouses.placed.placed block List.mem_cons_self
  have hswitch := isLocalSwitch_of_not_told harranged hin
    (hhouses.written block List.mem_cons_self) (by decide)
  have hfound : lone.1.arenas[0]? = some block.arena := hin.found
  refine ⟨course_block, ?_, ?_⟩
  · have hwalk : lone.1.walk lone.2.memory = walk lone.2.memory lone.1.arenas 0 block.depth := by
      rw [Region.walk, hlone]
      rfl
    rw [hwalk, walk_of_switch hfound block.depth_pos hin.fits hswitch, if_pos rfl]
  · have hroots : scanner.scanStacks [] none [] (.start lone.2.memory) =
        .ok () (.start lone.2.memory) := rfl
    obtain ⟨st', hrun, -⟩ := Machine.scanRoots_run hroots
    have hpass : scanner.sweepLocals (.start lone.2.memory) =
        scanner.sweep lone.1.arenas 0 (-(block.depth : Int)) (.start lone.2.memory) := by
      have hlocals : scanner.locals = some lone.1.view :=
        Scanner.locals_make_of_ne_nil (by rw [hlone]; exact List.cons_ne_nil _ _)
      have hlast : lone.1.arenas.getLast? = some cell.arena := by
        rw [hlone]
        rfl
      have hlength : lone.1.arenas.length - 1 = 0 := by
        rw [hlone]
        rfl
      have hsp : lone.1.sp = -(block.depth : Int) := by
        rw [hlone]
        rfl
      have hnative : scanner.ctx.mode = .native := rfl
      have hfree : scanner.poisonFree cell.arena (-(block.depth : Int)) (.start lone.2.memory) =
          .ok () (.start lone.2.memory) := by
        rw [Scanner.poisonFree, if_neg (show ¬ scanner.ctx.poison = true by decide)]
        rfl
      rw [Scanner.sweepLocals, hlocals, hnative]
      simp only [Region.view, hlast, hlength, hsp]
      exact Run.bind_of_ok hfree _
    have hsweep : scanner.sweep lone.1.arenas 0 (-(block.depth : Int)) (.start lone.2.memory) =
        .error (.violation (.corruptLocalArena (-(block.depth : Int))))
          ((Progress.start lone.2.memory).logging [.steer (block.arena.down block.depth)]) :=
      Scanner.sweep_of_oldest_switch harranged hfound block.depth_pos hin.fits hswitch
    refine ⟨_, st', hrun, ?_⟩
    rw [Progress.advance, hpass, hsweep]
    rfl

end MarkerHeader

end FiberStacks
