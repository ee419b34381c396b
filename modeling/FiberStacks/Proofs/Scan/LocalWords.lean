import FiberStacks.Proofs.Region.Blocks

/-!
# Words that point at local blocks

The scan of local blocks is about words in roots and in fields. Each is no block, a block outside
the arenas, or it points at one live local block, directly or through an interior header.
-/

namespace FiberStacks

namespace LocalBlock

/-- The word points at the first field of the block, or at a later one behind an interior header
that leads back to the block. -/
structure PointedAt (b : LocalBlock) (m : Memory) (w : Word) : Prop where
  field : ∃ i < b.wosize, w.toNat = b.block + wordBytes * i
  start : (Block.startOf m w).toNat = b.block

/-- The word points at the block. Other than for `PointedAt` the block may be without fields. It is
then pointed at by the address where it ends, at which the block above begins. -/
structure NamedBy (b : LocalBlock) (m : Memory) (w : Word) : Prop where
  field : ∃ i, (i < b.wosize ∨ i = 0) ∧ w.toNat = b.block + wordBytes * i
  start : (Block.startOf m w).toNat = b.block

/-- The arena of the block holds the address where its fields begin. This fails only for a block
without fields at the upper end of the arena. -/
def Inside (b : LocalBlock) : Prop := b.arena.Holds b.block

instance (b : LocalBlock) : Decidable b.Inside :=
  inferInstanceAs (Decidable (b.arena.Holds b.block))

/-- The index of the first field that may hold a reference. A closure begins with code pointers and
its info word says where they end. -/
def scanStart (b : LocalBlock) (m : Memory) : Nat :=
  if b.tag = Tag.closure ∧ 1 < b.wosize then ClosureInfo.start (m.read (b.block + wordBytes)) else 0

/-- The locations of the fields that may hold references. -/
def scanSlots (b : LocalBlock) (m : Memory) : List Nat :=
  if b.tag < Tag.noScan then
    Memory.span (b.block + b.scanStart m * wordBytes) (b.wosize - b.scanStart m)
  else
    []

variable {b c : LocalBlock} {arenas : List Arena} {blocks : List LocalBlock}
  {m : Memory} {w : Word}

theorem exists_of_mem_scanSlots {slot : Nat} (h : slot ∈ b.scanSlots m) :
    ∃ i < b.wosize, slot = b.block + wordBytes * i := by
  unfold scanSlots at h
  split at h
  · obtain ⟨i, hi, rfl⟩ := Memory.mem_span_iff.mp h
    refine ⟨b.scanStart m + i, Nat.add_lt_of_lt_sub' hi, ?_⟩
    rw [Nat.mul_add, Nat.mul_comm wordBytes (b.scanStart m), Nat.add_assoc]
  · cases h

theorem spans_of_mem_scanSlots {slot : Nat} (h : slot ∈ b.scanSlots m) : b.Spans slot := by
  obtain ⟨i, hi, rfl⟩ := exists_of_mem_scanSlots h
  exact b.spans_field hi

theorem ne_header_of_mem_scanSlots {slot : Nat} (h : slot ∈ b.scanSlots m) : slot ≠ b.header := by
  obtain ⟨i, -, rfl⟩ := exists_of_mem_scanSlots h
  exact Nat.ne_of_gt (b.header_lt_field i)

theorem filled_of_mem_scanSlots {slot : Nat} (h : slot ∈ b.scanSlots m) : 0 < b.wosize := by
  obtain ⟨i, hi, -⟩ := exists_of_mem_scanSlots h
  exact Nat.zero_lt_of_lt hi

theorem scanSlots_of_empty (h : b.wosize = 0) (m : Memory) : b.scanSlots m = [] :=
  List.eq_nil_iff_forall_not_mem.mpr fun _ hslot => Nat.ne_of_gt (filled_of_mem_scanSlots hslot) h

theorem block_mod (hplaced : Placed arenas blocks) (hb : b ∈ blocks) :
    b.block % wordBytes = 0 :=
  (hplaced.placed b hb).block_mod hplaced.arranged (hplaced.stacked.depth_mod hb)

theorem inside_of_filled (h : b.In arenas) (hfilled : 0 < b.wosize) : b.Inside := by
  have hspans := b.spans_field hfilled
  rw [Nat.mul_zero, Nat.add_zero] at hspans
  exact h.holds hspans

theorem PointedAt.inside (h : b.PointedAt m w) (hb : b.In arenas) : b.Inside := by
  obtain ⟨i, hi, -⟩ := h.field
  exact inside_of_filled hb (Nat.zero_lt_of_lt hi)

theorem inside_of_upper (h : b.In arenas) (hupper : 0 < b.upper) : b.Inside := by
  have hfits := h.fits
  have hbytes := b.bytes_eq
  unfold Inside block header depth Arena.Holds Arena.down at *
  simp only [wordBytes] at *
  omega

/-- If its own arena does not hold the address where the fields begin, then no arena does. -/
theorem outside_of_not_inside (h : b.In arenas) (harranged : Arranged arenas)
    (hinside : ¬ b.Inside) : Outside arenas b.block := by
  have hheader := h.holds b.spans_header
  have hend : b.block = b.arena.base + b.arena.length ∨ b.Inside := by
    have hbytes := b.bytes_eq
    have hupper := h.header_add_bytes
    unfold Inside block Arena.Holds Arena.down at *
    simp only [wordBytes] at *
    omega
  have hblock := hend.resolve_right hinside
  intro a ha hholds
  obtain ⟨k, hk⟩ := List.getElem?_of_mem ha
  unfold Arena.Holds at hholds
  by_cases heq : k = b.index
  · rw [heq, h.found] at hk
    cases hk
    omega
  · have hclear := harranged.clear hk h.found heq
    unfold Arena.Clear at hclear
    omega

theorem PointedAt.namedBy (h : b.PointedAt m w) : b.NamedBy m w where
  field := by
    obtain ⟨i, hi, hw⟩ := h.field
    exact ⟨i, .inl hi, hw⟩
  start := h.start

theorem NamedBy.isBlock (h : b.NamedBy m w) (hplaced : Placed arenas blocks)
    (hb : b ∈ blocks) : w.isBlock = true := by
  obtain ⟨i, -, hw⟩ := h.field
  have hmod := block_mod hplaced hb
  have hpos : 0 < b.block := Nat.succ_pos _
  unfold Word.isBlock
  simp only [wordBytes] at hmod hw
  simp only [Bool.and_eq_true, beq_iff_eq, bne_iff_ne]
  omega

theorem NamedBy.readable (h : b.NamedBy m w) : Block.Readable m w := by
  obtain ⟨i, -, hw⟩ := h.field
  have hpos : wordBytes ≤ b.block := Nat.le_add_left _ _
  have hstart := h.start
  rw [Block.toNat_startOf] at hstart
  simp only [wordBytes] at hw hpos
  refine ⟨by simp only [wordBytes]; omega, fun hinterior => ?_⟩
  rw [if_pos hinterior] at hstart
  simp only [wordBytes] at hstart ⊢
  omega

theorem NamedBy.startOf_sub (h : b.NamedBy m w) :
    (Block.startOf m w).toNat - wordBytes = b.header := by
  rw [h.start, block, Nat.add_sub_cancel]

theorem NamedBy.unique (hplaced : Placed arenas blocks) (hb : b ∈ blocks) (hc : c ∈ blocks)
    (h : b.NamedBy m w) (h' : c.NamedBy m w) : b = c := by
  have hheader : b.header = c.header := by
    rw [← h.startOf_sub, h'.startOf_sub]
  exact hplaced.eq_of_spans hb hc b.spans_header (hheader ▸ c.spans_header)

end LocalBlock

namespace Scanner

/-- The word is young, or it is a readable block that is not in the arenas. -/
def Foreign (sc : Scanner) (arenas : List Arena) (m : Memory) (w : Word) : Prop :=
  sc.ctx.young w = true ∨ Block.Readable m w ∧ Outside arenas (w.toNat - wordBytes) ∧
    Outside arenas ((Block.startOf m w).toNat - wordBytes) ∧
    Outside arenas (Block.startOf m w).toNat

/-- The word is no block, or a block that is not local, or it points at one of the blocks. -/
def Legal (sc : Scanner) (arenas : List Arena) (m : Memory) (targets : List LocalBlock)
    (w : Word) : Prop :=
  w.isBlock = false ∨ sc.Foreign arenas m w ∨ ∃ b ∈ targets, b.PointedAt m w

/-- Like `Legal`, and the word may point at a block without fields. -/
def Lawful (sc : Scanner) (arenas : List Arena) (m : Memory) (targets : List LocalBlock)
    (w : Word) : Prop :=
  w.isBlock = false ∨ sc.Foreign arenas m w ∨ ∃ b ∈ targets, b.NamedBy m w

/-- The word points at the block and does not count as young. -/
structure Names (sc : Scanner) (m : Memory) (b : LocalBlock) (w : Word) : Prop where
  named : b.NamedBy m w
  old : sc.ctx.young w = false

/-- The word makes the scan mark the block. -/
structure Hits (sc : Scanner) (m : Memory) (b : LocalBlock) (w : Word) : Prop where
  names : sc.Names m b w
  inside : b.Inside

/-- A field of the block that may hold a reference points at the other block. -/
def Refers (sc : Scanner) (m : Memory) (b c : LocalBlock) : Prop :=
  ∃ slot ∈ b.scanSlots m, sc.Names m c (m.read slot)

/-- The scan, by a collector that only looks, is one of the arenas in which the blocks are placed.
Memory holds their headers. -/
structure Views (sc : Scanner) (m : Memory) (arenas : List Arena) (blocks : List LocalBlock) :
    Prop where
  observes : sc.visitor = Visitor.observe
  colors : sc.ctx.colors.garbage < 3
  locals : ∃ sp, sc.locals = some ⟨arenas, sp⟩
  placed : Placed arenas blocks
  headers : ∀ b ∈ blocks, m.read b.header = b.headerWord Color.notMarkable

/-- None of the blocks in view is young. -/
structure Surveys (sc : Scanner) (m : Memory) (arenas : List Arena) (blocks : List LocalBlock) :
    Prop extends sc.Views m arenas blocks where
  old : ∀ b ∈ blocks, ∀ w, b.PointedAt m w → sc.ctx.young w = false

variable {sc : Scanner} {m₀ m : Memory} {arenas : List Arena} {blocks rest : List LocalBlock}
  {b c : LocalBlock} {w : Word}

theorem Legal.lawful (h : sc.Legal arenas m blocks w) : sc.Lawful arenas m blocks w := by
  rcases h with hblock | hforeign | ⟨b, hb, hw⟩
  · exact .inl hblock
  · exact .inr (.inl hforeign)
  · exact .inr (.inr ⟨b, hb, hw.namedBy⟩)

/-- A lawful word is no local block, or it is not young and points at one of the blocks. -/
theorem Lawful.cases (h : sc.Lawful arenas m blocks w) :
    (w.isBlock = false ∨ sc.Foreign arenas m w) ∨ ∃ b ∈ blocks, sc.Names m b w := by
  rcases h with hblock | hforeign | ⟨b, hb, hw⟩
  · exact .inl (.inl hblock)
  · exact .inl (.inr hforeign)
  · cases hyoung : sc.ctx.young w with
    | true => exact .inl (.inr (.inl hyoung))
    | false => exact .inr ⟨b, hb, hw, hyoung⟩

theorem exists_hits_iff :
    (∃ slot ∈ b.scanSlots m, sc.Hits m c (m.read slot)) ↔ sc.Refers m b c ∧ c.Inside := by
  constructor
  · rintro ⟨slot, hslot, hnames, hinside⟩
    exact ⟨⟨slot, hslot, hnames⟩, hinside⟩
  · rintro ⟨⟨slot, hslot, hnames⟩, hinside⟩
    exact ⟨slot, hslot, hnames, hinside⟩

namespace Views

theorem sound (h : sc.Views m₀ arenas blocks) : sc.Sound := by
  obtain ⟨sp, hlocals⟩ := h.locals
  intro v hv
  rw [hlocals] at hv
  cases hv
  exact ⟨Nat.lt_succ_of_lt h.colors, fun a ha => h.placed.arranged.lt_limit ha⟩

theorem local?_of_holds (h : sc.Views m₀ arenas blocks) (hb : b ∈ blocks) {address : Nat}
    (hholds : b.arena.Holds address) : sc.local? address = some b.index := by
  obtain ⟨sp, hlocals⟩ := h.locals
  rw [local?, hlocals, Option.bind_some]
  exact h.placed.arranged.holder?_eq (h.placed.placed b hb).found hholds sp

theorem local?_of_outside (h : sc.Views m₀ arenas blocks) {address : Nat}
    (houtside : Outside arenas address) : sc.local? address = none := by
  obtain ⟨sp, hlocals⟩ := h.locals
  rw [local?, hlocals, Option.bind_some, houtside.holder?_eq]

/-- A word that is no local block points at none of the blocks. -/
theorem not_names (h : sc.Views m₀ arenas blocks) (hb : b ∈ blocks)
    (hw : w.isBlock = false ∨ sc.Foreign arenas m₀ w) : ¬ sc.Names m₀ b w := by
  rintro ⟨hnamed, hold⟩
  rcases hw with hblock | hyoung | ⟨-, -, houtside, -⟩
  · rw [hnamed.isBlock h.placed hb] at hblock
    cases hblock
  · rw [hold] at hyoung
    cases hyoung
  · have hin := h.placed.placed b hb
    rw [hnamed.startOf_sub] at houtside
    exact houtside b.arena hin.mem (hin.holds b.spans_header)

end Views

/-- No legal word counts as young and points at a block. -/
theorem Surveys.names_iff (h : sc.Surveys m₀ arenas blocks) (hb : b ∈ blocks)
    (hw : sc.Legal arenas m₀ blocks w) : sc.Names m₀ b w ↔ b.PointedAt m₀ w := by
  constructor
  · intro hnames
    rcases or_assoc.mpr hw with hforeign | ⟨c, hc, hcw⟩
    · exact absurd hnames (h.not_names hb hforeign)
    · rwa [hnames.named.unique h.placed hb hc hcw.namedBy]
  · intro hpointed
    exact ⟨hpointed.namedBy, h.old b hb w hpointed⟩

theorem Surveys.hits_iff (h : sc.Surveys m₀ arenas blocks) (hb : b ∈ blocks)
    (hw : sc.Legal arenas m₀ blocks w) : sc.Hits m₀ b w ↔ b.PointedAt m₀ w := by
  rw [← h.names_iff hb hw]
  constructor
  · exact fun hhits => hhits.names
  · intro hnames
    exact ⟨hnames, ((h.names_iff hb hw).mp hnames).inside (h.placed.placed b hb)⟩

end Scanner

end FiberStacks
