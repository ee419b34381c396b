import FiberStacks.Proofs.Region.Layout

/-!
# What live blocks hold

A region can be ended at any offset, also at one where none was begun. A block is live as long as no
such end has moved the offset above that of the block. Offsets are used again after an end, and then
it may be in a newer arena than before. Nevertheless no two live blocks share an address, and what
was last written to a live block stays there: a new block takes addresses below those of the others
or in a newer arena, and a new arena takes addresses that nobody had.

The layout of a region with markers, in `Houses`, is not what carries this. It counts on blocks that
follow each other without gaps, and an end in the middle of a block leaves a gap.
-/

namespace FiberStacks

/-- The blocks have no address in common. -/
def LocalBlock.Disjoint (b c : LocalBlock) : Prop :=
  ∀ address, b.Spans address → ¬ c.Spans address

/-- A live block with the words last written to its fields. -/
structure LiveBlock extends LocalBlock where
  fields : List Word

namespace LiveBlock

/-- Memory holds the header of the block and the words last written to its fields. -/
structure Intact (b : LiveBlock) (m : Memory) : Prop where
  header : m.read b.header = b.headerWord Color.notMarkable
  fields : m.load b.block b.wosize = b.fields

/-- The block lies whole in one of the arenas, its header can be read, and its fields hold the words
last written. -/
structure Kept (b : LiveBlock) (arenas : List Arena) (m : Memory) : Prop where
  arena : b.arena ∈ arenas
  whole : ∀ address, b.Spans address → b.arena.Holds address
  aligned : b.block % wordBytes = 0
  header : Header.ofWord (m.read b.header) = ⟨b.wosize, Color.notMarkable, b.tag⟩
  fields : m.load b.block b.wosize = b.fields

variable {b : LiveBlock} {m m' : Memory}

theorem Intact.of_kept (h : b.Intact m)
    (hkept : ∀ address, b.Spans address → m'.read address = m.read address) : b.Intact m' where
  header := by rw [hkept _ b.spans_header, h.header]
  fields := by
    rw [← h.fields]
    refine List.map_congr_left fun address haddress => ?_
    obtain ⟨i, hi, rfl⟩ := Memory.mem_span_iff.mp haddress
    exact hkept _ (b.spans_field hi)

/-- A write to a field is the last one there, and leaves header and other fields. -/
theorem Intact.write_field (h : b.Intact m) (i : Nat) (w : Word) :
    Intact { b with fields := b.fields.set i w } (m.write (b.block + wordBytes * i) w) where
  header := by rw [Memory.read_write_of_ne _ _ (Nat.ne_of_gt (b.header_lt_field i)), h.header]
  fields := by
    change Memory.load _ b.block b.wosize = b.fields.set i w
    rw [← h.fields]
    refine List.ext_getElem (by simp) fun k hk _ => ?_
    simp only [Memory.load, Memory.span, List.getElem_map, List.getElem_range, List.getElem_set,
      Memory.read_write, wordBytes]
    by_cases hki : i = k
    · rw [if_pos hki, if_pos (by omega)]
    · rw [if_neg hki, if_neg (by omega)]

theorem intact_writeBlock (b : LocalBlock) (m : Memory) :
    Intact ⟨b, List.replicate b.wosize Word.unit⟩
      (Region.writeBlock m b.header b.wosize b.tag) where
  header := Region.read_writeBlock_header _ _ _ _
  fields := by
    refine List.eq_replicate_iff.mpr ⟨by simp, fun w hw => ?_⟩
    obtain ⟨address, haddress, rfl⟩ := List.mem_map.mp hw
    exact (Memory.read_fill _ _ _ _ _).trans (if_pos haddress)

end LiveBlock

namespace Region

/-- The block that an allocation in `r` leaves in the newest arena `a` of `after`. -/
def granted (r after : Region) (a : Arena) (wosize tag : Nat) : LiveBlock :=
  ⟨r.newest after a wosize tag, List.replicate wosize Word.unit⟩

/-- `Usage r live st`: the region `r` comes about with the live blocks `live`, newest first, by
allocations, writes to fields of live blocks and region ends at any offset, while the rest of the
process leaves the memory of its arenas alone. -/
inductive Usage : Region → List LiveBlock → MachineState → Prop where
  | start (st : MachineState) : Usage empty [] st
  | alloc {r r' : Region} {live : List LiveBlock} {st st' : MachineState} {a : Arena}
      {wosize tag : Nat} {w : Word} (before : Usage r live st) (tagged : tag < 256)
      (run : r.alloc wosize tag st = .ok (.ok w, r') st') (last : r'.arenas.getLast? = some a) :
      Usage r' (r.granted r' a wosize tag :: live) st'
  | failed {r r' : Region} {live : List LiveBlock} {st st' : MachineState} {wosize tag : Nat}
      {e : StackError} (before : Usage r live st)
      (run : r.alloc wosize tag st = .ok (.error e, r') st') : Usage r' live st'
  | setField {r : Region} {newer older : List LiveBlock} {b : LiveBlock} {st : MachineState}
      {i : Nat} (w : Word) (before : Usage r (newer ++ b :: older) st) (inside : i < b.wosize) :
      Usage r (newer ++ { b with fields := b.fields.set i w } :: older)
        { st with memory := st.memory.write (b.block + wordBytes * i) w }
  | endRegion {r r' : Region} {live : List LiveBlock} {st : MachineState} {saved : Int}
      (before : Usage r live st) (aligned : saved % wordBytes = 0)
      (run : r.endRegion saved = .ok r') :
      Usage r' (live.filter fun b => saved ≤ -(b.depth : Int)) st
  | other {r : Region} {live : List LiveBlock} {st st' : MachineState} (before : Usage r live st)
      (grows : st.space.Grows st'.space)
      (kept : ∀ a ∈ r.arenas, ∀ address, a.Holds address →
        st'.memory.read address = st.memory.read address) : Usage r live st'

/-- The arenas are those of the region, or there is a new one. It is at least twice as long as the
last one and reaches down to the offset. -/
def Grows (r : Region) (newSp : Int) (arenas : List Arena) : Prop :=
  arenas = r.arenas ∨ ∃ a, arenas = r.arenas ++ [a] ∧
    (∀ last, r.arenas.getLast? = some last → 2 * last.length ≤ a.length) ∧ -newSp ≤ a.length

/-- The blocks, newest first, lie in the arenas of the region, at its offset or above. Each is in an
arena at least as new as those of the older blocks, and below these blocks if it is the same. -/
structure Settled (r : Region) (blocks : List LocalBlock) (st : MachineState) : Prop where
  backed : st.space.Backs r.arenas
  arranged : Arranged r.arenas
  words : r.nextLength % wordBytes = 0
  last : ∀ a, r.arenas.getLast? = some a → a.length = r.nextLength
  neg : r.sp ≤ 0
  aligned : r.sp.natAbs % wordBytes = 0
  within : ∀ b ∈ blocks, b.In r.arenas ∧ b.depth ≤ r.sp.natAbs ∧ b.depth % wordBytes = 0
  apart : blocks.Pairwise fun newer older => older.Above newer

variable {r r₁ r' : Region} {blocks : List LocalBlock} {live : List LiveBlock}
  {st st₁ st' : MachineState}

theorem settled_empty (st : MachineState) : empty.Settled [] st where
  backed := by simp [AddressSpace.Backs, empty]
  arranged := ⟨List.Pairwise.nil, by simp [empty], by simp [empty]⟩
  words := rfl
  last := by simp [empty]
  neg := Int.le_refl 0
  aligned := rfl
  within := by simp
  apart := List.Pairwise.nil

namespace Settled

theorem of_grows (h : r.Settled blocks st) (hgrows : st.space.Grows st'.space) :
    r.Settled blocks st' :=
  ⟨h.backed.grow hgrows, h.arranged, h.words, h.last, h.neg, h.aligned, h.within, h.apart⟩

theorem of_endRegion {saved : Int} {rest : List LocalBlock} (h : r.Settled blocks st)
    (haligned : saved % wordBytes = 0) (hrest : rest.Sublist blocks)
    (hkept : ∀ b ∈ rest, saved ≤ -(b.depth : Int)) (hrun : r.endRegion saved = .ok r') :
    r'.Settled rest st := by
  unfold Region.endRegion at hrun
  split at hrun
  · rename_i hsaved
    cases hrun
    refine ⟨h.backed, h.arranged, h.words, h.last, hsaved.2, ?_, ?_, h.apart.sublist hrest⟩
    · simp only [wordBytes] at haligned ⊢
      omega
    · intro b hb
      obtain ⟨hin, -, hmod⟩ := h.within b (hrest.subset hb)
      have hdepth := hkept b hb
      exact ⟨hin, by simp only; omega, hmod⟩
  · cases hrun

theorem disjoint (h : r.Settled blocks st) : blocks.Pairwise LocalBlock.Disjoint :=
  h.apart.imp_of_mem fun hb hc habove _ =>
    habove.not_spans h.arranged (h.within _ hb).1 (h.within _ hc).1

/-- A new arena leaves the blocks where they are. -/
theorem of_addArena {newSp : Int} (h : r.Settled blocks st) (hle : newSp ≤ r.sp)
    (hrun : r.addArena newSp st = .ok (.ok r₁) st₁) :
    r₁.Settled blocks st₁ ∧ r₁.sp = r.sp ∧ r.Grows newSp r₁.arenas ∧
      (∃ a, r₁.arenas.getLast? = some a ∧ -newSp ≤ a.length) ∧
      ∀ b ∈ blocks, ∀ address, b.Spans address →
        st₁.memory.read address = st.memory.read address := by
  obtain ⟨a, hadds, rfl⟩ := adds_of_addArena h.backed h.arranged h.words hle h.neg hrun
  have hreach := hadds.reaches
  refine ⟨?_, rfl, .inr ⟨a, rfl, ?_, hreach⟩, ⟨a, by simp, hreach⟩, ?_⟩
  · refine ⟨hadds.backed, hadds.arranged, (hadds.arranged.words a (by simp)).2, ?_, h.neg,
      h.aligned, ?_, h.apart⟩
    · intro last hlast
      simp only [List.getLast?_concat, Option.some.injEq] at hlast
      rw [hlast]
    · intro b hb
      obtain ⟨hin, hdepth, hmod⟩ := h.within b hb
      exact ⟨hin.push (by have hneg := h.neg; omega), hdepth, hmod⟩
  · intro last hlast
    rw [h.last last hlast]
    exact hadds.twice
  · intro b hb address hspans
    have hin := (h.within b hb).1
    exact hadds.kept b.arena hin.mem address (hin.holds hspans)

theorem of_makeRoom {newSp : Int} (h : r.Settled blocks st) (hlt : newSp < r.sp)
    (hrun : r.makeRoom newSp st = .ok (.ok r₁) st₁) :
    r₁.Settled blocks st₁ ∧ r₁.sp = r.sp ∧ r.Grows newSp r₁.arenas ∧
      (∃ a, r₁.arenas.getLast? = some a ∧ -newSp ≤ a.length) ∧
      ∀ b ∈ blocks, ∀ address, b.Spans address →
        st₁.memory.read address = st.memory.read address := by
  have hneg := h.neg
  rcases makeRoom_cases hrun with hadd | ⟨hlowest, rfl, rfl⟩
  · exact h.of_addArena (by omega) hadd
  · exact ⟨h, rfl, .inl rfl, exists_last_of_lowest (by omega) hlowest, fun _ _ _ _ => rfl⟩

/-- A block in the newest arena that ends at the offset is settled below the others. -/
theorem push {b : LocalBlock} (h : r.Settled blocks st) (hin : b.In r.arenas)
    (hindex : b.index = r.arenas.length - 1) (hupper : b.upper = r.sp.natAbs) :
    Settled { r with sp := -(b.depth : Int) } (b :: blocks) st := by
  have hle : r.sp.natAbs ≤ b.depth := hupper ▸ Nat.le_add_right _ _
  have hmod : b.depth % wordBytes = 0 := by
    have hbytes := b.bytes_eq
    have haligned := h.aligned
    simp only [LocalBlock.depth, wordBytes] at hbytes haligned ⊢
    omega
  refine ⟨h.backed, h.arranged, h.words, h.last, ?_, ?_, ?_, ?_⟩
  · simp
  · simpa using hmod
  · intro c hc
    rcases List.mem_cons.mp hc with rfl | hc
    · exact ⟨hin, by simp, hmod⟩
    · obtain ⟨hold, hdepth, hold'⟩ := h.within c hc
      exact ⟨hold, by simpa using Nat.le_trans hdepth hle, hold'⟩
  · refine List.pairwise_cons.mpr ⟨fun c hc => ?_, h.apart⟩
    obtain ⟨hold, hdepth, -⟩ := h.within c hc
    have hlt := (List.getElem?_eq_some_iff.mp hold.found).1
    exact ⟨by omega, hupper ▸ hdepth⟩

/-- A new block is settled with the others, and only its own addresses are written after room was
made. -/
theorem of_alloc {wosize tag : Nat} {w : Word} {a : Arena} (h : r.Settled blocks st)
    (htagged : tag < 256) (hrun : r.alloc wosize tag st = .ok (.ok w, r') st')
    (ha : r'.arenas.getLast? = some a) :
    r'.Settled (r.newest r' a wosize tag :: blocks) st' ∧
      w.toNat = (r.newest r' a wosize tag).block ∧ r.Grows r'.sp r'.arenas ∧
      ∃ m, st'.memory = writeBlock m (r.newest r' a wosize tag).header wosize tag ∧
        ∀ b ∈ blocks, ∀ address, b.Spans address → m.read address = st.memory.read address := by
  obtain ⟨r₁, u, hmake, hlast, hr', hwrite⟩ := exists_newest_of_alloc h.neg hrun ha
  obtain ⟨hsettled, hsp, hgrows, ⟨reaching, hreaching, hreach⟩, hkept⟩ :=
    h.of_makeRoom (newest_below h.neg) hmake
  cases hreaching.symm.trans hlast
  have hfits : (r.newest r' a wosize tag).depth ≤ a.length := by omega
  obtain ⟨hword, rfl⟩ := hwrite hsettled.arranged hfits
  have hin : (r.newest r' a wosize tag).In r'.arenas := newest_in ha htagged hfits
  have hupper : (r.newest r' a wosize tag).upper = r.sp.natAbs := rfl
  have hindex : (r.newest r' a wosize tag).index = r'.arenas.length - 1 := rfl
  -- The block is told by the region after the allocation, which is told by the block.
  generalize r.newest r' a wosize tag = b at *
  subst hr'
  exact ⟨(hsettled.push hin hindex (hsp ▸ hupper)).of_grows (.refl _), hword,
    hgrows, u.memory, rfl, hkept⟩

end Settled

/-! ### Contents -/

/-- The live blocks are settled, and hold what was last written to them. -/
structure Keeps (r : Region) (live : List LiveBlock) (st : MachineState) : Prop where
  settled : r.Settled (live.map LiveBlock.toLocalBlock) st
  intact : ∀ b ∈ live, b.Intact st.memory

namespace Keeps

theorem of_alloc {wosize tag : Nat} {w : Word} {a : Arena} (h : r.Keeps live st)
    (htagged : tag < 256) (hrun : r.alloc wosize tag st = .ok (.ok w, r') st')
    (ha : r'.arenas.getLast? = some a) : r'.Keeps (r.granted r' a wosize tag :: live) st' := by
  obtain ⟨hsettled, -, -, m, hmemory, hkept⟩ := h.settled.of_alloc htagged hrun ha
  refine ⟨hsettled, List.forall_mem_cons.mpr ⟨?_, fun c hc => ?_⟩⟩
  · rw [hmemory]
    exact LiveBlock.intact_writeBlock (r.newest r' a wosize tag) m
  · have hmem := List.mem_map_of_mem (f := LiveBlock.toLocalBlock) hc
    have hdisjoint := (List.pairwise_cons.mp hsettled.disjoint).1 c.toLocalBlock hmem
    refine (h.intact c hc).of_kept fun address hspans => ?_
    rw [hmemory]
    exact (read_writeBlock_of_not_spans m (r.newest r' a wosize tag)
      fun hnew => hdisjoint address hnew hspans).trans (hkept c.toLocalBlock hmem address hspans)

/-- A write to a field of a live block leaves the other blocks alone. -/
theorem of_setField {newer older : List LiveBlock} {b : LiveBlock} {i : Nat}
    (h : r.Keeps (newer ++ b :: older) st) (hi : i < b.wosize) (w : Word) :
    r.Keeps (newer ++ { b with fields := b.fields.set i w } :: older)
      { st with memory := st.memory.write (b.block + wordBytes * i) w } := by
  -- The blocks are disjoint, so the address written is in no other.
  have hspans := b.spans_field hi
  have hothers : ∀ c ∈ newer ++ older, ¬ c.Spans (b.block + wordBytes * i) := by
    have hdisjoint := h.settled.disjoint
    rw [List.map_append, List.map_cons, List.pairwise_append, List.pairwise_cons] at hdisjoint
    obtain ⟨-, ⟨hbelow, -⟩, hacross⟩ := hdisjoint
    intro c hc hshared
    rcases List.mem_append.mp hc with hc | hc
    · exact hacross _ (List.mem_map_of_mem hc) _ List.mem_cons_self _ hshared hspans
    · exact hbelow _ (List.mem_map_of_mem hc) _ hspans hshared
  have hkept : ∀ c ∈ newer ++ older, c.Intact (st.memory.write (b.block + wordBytes * i) w) := by
    intro c hc
    have hmem : c ∈ newer ++ b :: older := by
      rcases List.mem_append.mp hc with hc | hc <;> simp [hc]
    refine (h.intact c hmem).of_kept fun address hc' => Memory.read_write_of_ne _ _ ?_
    rintro rfl
    exact hothers c hc hc'
  refine ⟨?_, fun c hc => ?_⟩
  · have hsettled : r.Settled ((newer ++ b :: older).map LiveBlock.toLocalBlock)
        { st with memory := st.memory.write (b.block + wordBytes * i) w } :=
      h.settled.of_grows (.refl _)
    simpa using hsettled
  · rcases List.mem_append.mp hc with hc | hc
    · exact hkept c (List.mem_append_left _ hc)
    · rcases List.mem_cons.mp hc with rfl | hc
      · exact (h.intact b (by simp)).write_field i w
      · exact hkept c (List.mem_append_right _ hc)

theorem of_endRegion {saved : Int} (h : r.Keeps live st) (haligned : saved % wordBytes = 0)
    (hrun : r.endRegion saved = .ok r') :
    r'.Keeps (live.filter fun b => saved ≤ -(b.depth : Int)) st := by
  refine ⟨h.settled.of_endRegion haligned (List.filter_sublist.map _) ?_ hrun,
    fun b hb => h.intact b (List.mem_filter.mp hb).1⟩
  intro b hb
  obtain ⟨c, hc, rfl⟩ := List.mem_map.mp hb
  exact of_decide_eq_true (List.mem_filter.mp hc).2

theorem kept (h : r.Keeps live st) {b : LiveBlock} (hb : b ∈ live) : b.Kept r.arenas st.memory := by
  obtain ⟨hin, -, hmod⟩ := h.settled.within _ (List.mem_map_of_mem hb)
  have harranged := h.settled.arranged
  have hintact := h.intact b hb
  refine ⟨hin.mem, fun address => hin.holds, hin.block_mod harranged hmod, ?_, hintact.fields⟩
  rw [hintact.header, LocalBlock.ofWord_headerWord hin harranged (by decide)]

end Keeps

theorem Usage.keeps (h : Usage r live st) : r.Keeps live st := by
  induction h with
  | start st => exact ⟨settled_empty st, by simp⟩
  | alloc before tagged run last ih => exact ih.of_alloc tagged run last
  | failed before run ih =>
      obtain ⟨rfl, rfl⟩ := alloc_eq_error run
      exact ih
  | setField w before inside ih => exact ih.of_setField inside w
  | endRegion before aligned run ih => exact ih.of_endRegion aligned run
  | other before grows kept ih =>
      refine ⟨ih.settled.of_grows grows, fun b hb => (ih.intact b hb).of_kept ?_⟩
      have hin := (ih.settled.within _ (List.mem_map_of_mem hb)).1
      exact fun address hspans => kept _ hin.mem address (hin.holds hspans)

/-- The allocator never disturbs a live block. Whatever happened before, live blocks have no address
in common, and each lies whole in one arena and holds what was last written to it. So it does after
the next allocation, which returns another such block with unit fields. If that allocation adds an
arena, this is at least twice as long as the one before and reaches down to the new offset. -/
theorem Usage.undisturbed (h : Usage r live st) :
    (∀ b ∈ live, b.Kept r.arenas st.memory) ∧
    (live.Pairwise fun b c => b.Disjoint c.toLocalBlock) ∧
    ∀ wosize tag w r' st', tag < 256 → r.alloc wosize tag st = .ok (.ok w, r') st' →
      ∃ a, r'.arenas.getLast? = some a ∧ w.toNat = (r.granted r' a wosize tag).block ∧
        (r.granted r' a wosize tag).Kept r'.arenas st'.memory ∧
        (∀ c ∈ live, (r.granted r' a wosize tag).Disjoint c.toLocalBlock ∧
          c.Kept r'.arenas st'.memory) ∧
        r.Grows r'.sp r'.arenas := by
  have hkeeps := h.keeps
  refine ⟨fun b hb => hkeeps.kept hb, List.pairwise_map.mp hkeeps.settled.disjoint, ?_⟩
  intro wosize tag w r' st' htagged hrun
  obtain ⟨a, ha⟩ := exists_last_of_alloc hrun
  obtain ⟨hsettled, hword, hgrows, -⟩ := hkeeps.settled.of_alloc htagged hrun ha
  have hkeeps' := hkeeps.of_alloc htagged hrun ha
  refine ⟨a, ha, hword, hkeeps'.kept List.mem_cons_self, fun c hc => ⟨?_, ?_⟩, hgrows⟩
  · exact (List.pairwise_cons.mp hsettled.disjoint).1 _ (List.mem_map_of_mem hc)
  · exact hkeeps'.kept (List.mem_cons_of_mem _ hc)

/-! ### Offsets used a second time

A region ends in the middle of its second block. The next block begins there, in a second arena. -/

namespace ReusedOffsets

def older : Arena := ⟨0x10000000, 0x1000⟩

def newer : Arena := ⟨0x10003000, 0x2000⟩

def after (r : Region) (wosize : Nat) (st : MachineState) : MachineState :=
  Run.left (r.alloc wosize 0) st

theorem alloc_after {r r' : Region} {wosize : Nat} {w : Word} {st : MachineState}
    (h : Run.succeeds (r.alloc wosize 0) st (fun x s _ => decide (x = w ∧ s = r')) = true) :
    r.alloc wosize 0 st = .ok (.ok w, r') (after r wosize st) := by
  obtain ⟨x, s, t, hrun, htest⟩ := Run.exists_of_succeeds h
  obtain ⟨rfl, rfl⟩ := of_decide_eq_true htest
  rw [hrun, after, Run.left_of_ok hrun]

def cell : LiveBlock := ⟨⟨older, 0, 0, 1, 0⟩, [7]⟩

def written : MachineState :=
  { after empty 1 .initial with memory := (after empty 1 .initial).memory.write cell.block 7 }

def released : MachineState := after ⟨[older], -16, 0x1000⟩ 3 written

theorem allocations :
    Run.succeeds (empty.alloc 1 0) .initial
        (fun x s _ => decide (x = 0x10000ff8 ∧ s = ⟨[older], -16, 0x1000⟩)) = true ∧
      Run.succeeds (Region.alloc ⟨[older], -16, 0x1000⟩ 3 0) written
        (fun x s _ => decide (x = 0x10000fd8 ∧ s = ⟨[older], -48, 0x1000⟩)) = true ∧
      Run.succeeds (Region.alloc ⟨[older], -24, 0x1000⟩ 510 0) released
        (fun x s _ => decide (x = 0x10003ff8 ∧ s = ⟨[older, newer], -0x1010, 0x2000⟩)) = true := by
  decide +kernel

theorem usage_cell : Usage ⟨[older], -24, 0x1000⟩ [cell] released := by
  obtain ⟨hfirst, hsecond, -⟩ := allocations
  have hcell := Usage.alloc (a := older) (.start _) (by decide)
    (alloc_after hfirst) rfl
  have hwritten : Usage ⟨[older], -16, 0x1000⟩ [cell] written :=
    @Usage.setField _ [] [] _ _ 0 7 hcell (by decide)
  have hblock := Usage.alloc (a := older) hwritten (by decide) (alloc_after hsecond) rfl
  exact hblock.endRegion (show (-24 : Int) % wordBytes = 0 by decide) rfl

theorem undisturbed_cell :
    Region.alloc ⟨[older], -24, 0x1000⟩ 510 0 released =
        .ok (.ok 0x10003ff8, ⟨[older, newer], -0x1010, 0x2000⟩)
          (after ⟨[older], -24, 0x1000⟩ 510 released) ∧
      cell.Kept [older, newer] (after ⟨[older], -24, 0x1000⟩ 510 released).memory := by
  have hrun := alloc_after allocations.2.2
  obtain ⟨-, -, hnext⟩ := usage_cell.undisturbed
  obtain ⟨a, -, -, -, hothers, -⟩ := hnext 510 0 _ _ _ (by decide) hrun
  exact ⟨hrun, (hothers cell List.mem_cons_self).2⟩

end ReusedOffsets

end Region

end FiberStacks
