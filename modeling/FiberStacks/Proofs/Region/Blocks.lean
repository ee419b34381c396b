import FiberStacks.Proofs.AddressSpace
import FiberStacks.Proofs.Memory
import FiberStacks.Proofs.Scan.Classify
import FiberStacks.Region

/-!
# Live blocks of a region

The live blocks of a region follow each other without gaps, from the upper end of its offsets
downwards. Each lies in the arena that was the newest when it was allocated, so older blocks lie in
older arenas or above in the same one, and no two blocks share an address.
-/

namespace FiberStacks

namespace Arena

/-- The address at a depth, counted downwards from the upper end. -/
def down (a : Arena) (depth : Nat) : Nat := a.base + a.length - depth

variable {a : Arena} {depth : Nat}

theorem top_eq (h : a.base + a.length < Size.limit) : a.top = .ok (a.base + a.length) := by
  rw [top, Size.add, if_pos h]

theorem addressAt_eq (h : a.base + a.length < Size.limit) (hdepth : depth ≤ a.length) :
    a.addressAt (-(depth : Int)) = .ok (a.down depth) := by
  unfold addressAt
  rw [top_eq h, Run.ok_bind]
  have hvalue :
      ((a.base + a.length : Nat) + -(depth : Int)) % Size.limit = (a.down depth : Nat) := by
    unfold down
    rw [Size.limit_eq] at h ⊢
    omega
  change Except.ok _ = _
  rw [hvalue, Int.toNat_natCast]

/-- One arena ends below the other, and they do not touch. -/
def Clear (a b : Arena) : Prop := a.base + a.length < b.base ∨ b.base + b.length < a.base

theorem holds_down (hpos : 0 < depth) (h : depth ≤ a.length) : a.Holds (a.down depth) := by
  unfold Holds down
  omega

end Arena

/-- The arenas of a region lie in whole words in the range of addresses, and no two of them
touch. -/
structure Arranged (arenas : List Arena) : Prop where
  apart : arenas.Pairwise Arena.Clear
  words : ∀ a ∈ arenas, a.base % wordBytes = 0 ∧ a.length % wordBytes = 0
  inside : ∀ a ∈ arenas, a.base + a.length < AddressSpace.limit

/-- The address is in none of the arenas. -/
def Outside (arenas : List Arena) (address : Nat) : Prop :=
  ∀ a ∈ arenas, ¬ a.Holds address

instance (arenas : List Arena) (address : Nat) : Decidable (Outside arenas address) :=
  inferInstanceAs (Decidable (∀ a ∈ arenas, ¬ a.Holds address))

namespace Arranged

variable {arenas : List Arena} {i j : Nat} {a b : Arena}

theorem lt_limit (h : Arranged arenas) (ha : a ∈ arenas) :
    a.base + a.length < Size.limit := by
  have hinside := h.inside a ha
  unfold AddressSpace.limit at hinside
  rw [Size.limit_eq]
  omega

theorem clear (h : Arranged arenas) (hi : arenas[i]? = some a) (hj : arenas[j]? = some b)
    (hij : i ≠ j) : a.Clear b := by
  obtain ⟨hilt, rfl⟩ := List.getElem?_eq_some_iff.mp hi
  obtain ⟨hjlt, rfl⟩ := List.getElem?_eq_some_iff.mp hj
  have hclear := List.pairwise_iff_getElem.mp h.apart
  rcases Nat.lt_or_gt_of_ne hij with hlt | hgt
  · exact hclear i j hilt hjlt hlt
  · exact (hclear j i hjlt hilt hgt).symm

theorem not_holds (h : Arranged arenas) (hi : arenas[i]? = some a)
    (hj : arenas[j]? = some b) (hij : i ≠ j) {address : Nat} (ha : a.Holds address) :
    ¬ b.Holds address := by
  intro hb
  have hclear := h.clear hi hj hij
  unfold Arena.Holds at ha hb
  unfold Arena.Clear at hclear
  omega

theorem newestHolding_eq (h : Arranged arenas) (hi : arenas[i]? = some a) {address : Nat}
    (ha : a.Holds address) {n : Nat} (hn : i < n) :
    Arenas.newestHolding arenas address n = some i := by
  induction n with
  | zero => omega
  | succ n ih =>
      rw [Arenas.newestHolding]
      rcases Nat.lt_or_eq_of_le (Nat.le_of_lt_succ hn) with hlt | rfl
      · have hnot : ¬ (arenas[n]?.any fun a => decide (a.Holds address)) = true := by
          rw [Option.any_eq_true_iff_get]
          rintro ⟨hsome, hholds⟩
          exact h.not_holds hi (Option.some_get hsome).symm (by omega) ha
            (of_decide_eq_true hholds)
        rw [if_neg hnot]
        exact ih hlt
      · rw [hi, if_pos (by simpa using ha)]

/-- The arena that holds an address is told by its place in the list. -/
theorem holder?_eq (h : Arranged arenas) (hi : arenas[i]? = some a) {address : Nat}
    (ha : a.Holds address) (sp : Int) :
    (⟨arenas, sp⟩ : Arenas).holder? address = some i :=
  h.newestHolding_eq hi ha (List.getElem?_eq_some_iff.mp hi).1

theorem getElem?_push {x : Arena} (h : (arenas ++ [a])[i]? = some x) :
    arenas[i]? = some x ∨ i = arenas.length ∧ x = a := by
  rw [List.getElem?_append] at h
  split at h
  · exact .inl h
  · have hlt := (List.getElem?_eq_some_iff.mp h).1
    have hzero : i - arenas.length = 0 := by
      simpa using hlt
    rw [hzero] at h
    refine .inr ⟨by omega, ?_⟩
    simpa using h.symm

theorem push (h : Arranged arenas) (hclear : ∀ older ∈ arenas, older.Clear a)
    (hwords : a.base % wordBytes = 0 ∧ a.length % wordBytes = 0)
    (hinside : a.base + a.length < AddressSpace.limit) : Arranged (arenas ++ [a]) where
  apart := by
    refine List.pairwise_append.mpr ⟨h.apart, List.pairwise_singleton _ _, ?_⟩
    intro older holder newer hnewer
    rw [List.mem_singleton.mp hnewer]
    exact hclear older holder
  words := by
    intro x hx
    rcases List.mem_append.mp hx with hx | hx
    · exact h.words x hx
    · rwa [List.mem_singleton.mp hx]
  inside := by
    intro x hx
    rcases List.mem_append.mp hx with hx | hx
    · exact h.inside x hx
    · rwa [List.mem_singleton.mp hx]

end Arranged

theorem Outside.holder?_eq {arenas : List Arena} {address : Nat} (h : Outside arenas address)
    (sp : Int) : (⟨arenas, sp⟩ : Arenas).holder? address = none := by
  cases hholder : (⟨arenas, sp⟩ : Arenas).holder? address with
  | none => rfl
  | some i =>
      obtain ⟨a, ha, hholds⟩ := Arenas.holds_of_newestHolding hholder
      exact absurd hholds (h a (List.mem_of_getElem? ha))

/-! ### Blocks -/

/-- A block that was allocated in a region and not released since. -/
structure LocalBlock where
  arena : Arena
  /-- The place of the arena among those of the region. -/
  index : Nat
  /-- The depth at which the block ends. -/
  upper : Nat
  wosize : Nat
  tag : Nat
  deriving DecidableEq

namespace LocalBlock

def bytes (b : LocalBlock) : Nat := (b.wosize + 1) * wordBytes

def depth (b : LocalBlock) : Nat := b.upper + b.bytes

def header (b : LocalBlock) : Nat := b.arena.down b.depth

def block (b : LocalBlock) : Nat := b.header + wordBytes

def headerWord (b : LocalBlock) (color : Nat) : Word :=
  (Header.make b.wosize color b.tag).toWord

def Spans (b : LocalBlock) (address : Nat) : Prop :=
  b.header ≤ address ∧ address < b.header + b.bytes

/-- The block lies in one of the arenas. Later arenas reach down to its depth. -/
structure In (b : LocalBlock) (arenas : List Arena) : Prop where
  found : arenas[b.index]? = some b.arena
  reaches : ∀ k a, b.index ≤ k → arenas[k]? = some a → b.depth ≤ a.length
  tagged : b.tag < 256

/-- The header of the block is not that of a marker. -/
def Told (b : LocalBlock) : Prop := 0 < b.wosize ∨ b.tag ≠ Tag.localSwitch

instance (b : LocalBlock) : Decidable b.Told :=
  inferInstanceAs (Decidable (0 < b.wosize ∨ b.tag ≠ Tag.localSwitch))

variable {b c : LocalBlock} {arenas : List Arena}

theorem bytes_eq (b : LocalBlock) : b.bytes = b.wosize * wordBytes + wordBytes := by
  rw [bytes, Nat.add_mul, Nat.one_mul]

theorem depth_pos (b : LocalBlock) : 0 < b.depth := by
  have hbytes := b.bytes_eq
  unfold depth
  simp only [wordBytes] at hbytes
  omega

theorem In.fits (h : b.In arenas) : b.depth ≤ b.arena.length :=
  h.reaches b.index b.arena (Nat.le_refl _) h.found

theorem In.mem (h : b.In arenas) : b.arena ∈ arenas :=
  List.mem_of_getElem? h.found

theorem In.push (h : b.In arenas) {a : Arena} (ha : b.depth ≤ a.length) : b.In (arenas ++ [a]) where
  found := by
    rw [List.getElem?_append_left (List.getElem?_eq_some_iff.mp h.found).1, h.found]
  reaches := by
    intro k x hk hx
    rcases Arranged.getElem?_push hx with hx | ⟨-, rfl⟩
    · exact h.reaches k x hk hx
    · exact ha
  tagged := h.tagged

theorem In.header_add_bytes (h : b.In arenas) : b.header + b.bytes = b.arena.down b.upper := by
  have hfits := h.fits
  unfold header Arena.down
  unfold depth at *
  omega

theorem In.holds (h : b.In arenas) {address : Nat} (ha : b.Spans address) :
    b.arena.Holds address := by
  have hfits := h.fits
  have hend := h.header_add_bytes
  unfold Spans at ha
  unfold Arena.Holds
  rw [hend] at ha
  unfold header Arena.down at ha
  omega

theorem spans_header (b : LocalBlock) : b.Spans b.header := by
  have hbytes := b.bytes_eq
  simp only [wordBytes] at hbytes
  exact ⟨Nat.le_refl _, by omega⟩

theorem spans_field (b : LocalBlock) {i : Nat} (hi : i < b.wosize) :
    b.Spans (b.block + wordBytes * i) := by
  have hbytes := b.bytes_eq
  unfold Spans block
  simp only [wordBytes] at hbytes ⊢
  omega

theorem header_lt_field (b : LocalBlock) (i : Nat) : b.header < b.block + wordBytes * i := by
  unfold block
  simp only [wordBytes]
  omega

theorem make_eq (h : b.In arenas) (harranged : Arranged arenas) (color : Nat) :
    Header.make b.wosize color b.tag = ⟨b.wosize, color % 4, b.tag⟩ := by
  have hfits := h.fits
  have hbytes := b.bytes_eq
  have hinside := harranged.inside b.arena h.mem
  unfold depth at hfits
  simp only [wordBytes, AddressSpace.limit] at hbytes hinside
  rw [Header.make, Nat.mod_eq_of_lt (by omega), Nat.mod_eq_of_lt h.tagged]

theorem headerWord_eq (h : b.In arenas) (harranged : Arranged arenas)
    (color : Nat) : b.headerWord color = (⟨b.wosize, color % 4, b.tag⟩ : Header).toWord := by
  rw [headerWord, make_eq h harranged]

theorem ofWord_headerWord (h : b.In arenas) (harranged : Arranged arenas)
    {color : Nat} (hcolor : color < 4) :
    Header.ofWord (b.headerWord color) = ⟨b.wosize, color, b.tag⟩ := by
  rw [headerWord, Header.ofWord_toWord_make, make_eq h harranged, Nat.mod_eq_of_lt hcolor]

theorem In.block_mod (h : b.In arenas) (harranged : Arranged arenas)
    (hdepth : b.depth % wordBytes = 0) : b.block % wordBytes = 0 := by
  have hfits := h.fits
  obtain ⟨hbase, hlength⟩ := harranged.words b.arena h.mem
  unfold block header Arena.down
  simp only [wordBytes] at *
  omega

/-- The other block was allocated before and is still there. -/
structure Above (c b : LocalBlock) : Prop where
  index : c.index ≤ b.index
  depth : c.depth ≤ b.upper

theorem Above.depth_lt (h : c.Above b) : c.depth < b.depth := by
  have hbytes := b.bytes_eq
  have hdepth := h.depth
  unfold LocalBlock.depth at *
  simp only [wordBytes] at hbytes
  omega

theorem Above.not_spans (harranged : Arranged arenas) (hb : b.In arenas) (hc : c.In arenas)
    (h : c.Above b) {address : Nat} (ha : b.Spans address) : ¬ c.Spans address := by
  intro hspans
  rcases Nat.lt_or_eq_of_le h.index with hlt | heq
  · exact harranged.not_holds hb.found hc.found (by omega) (hb.holds ha) (hc.holds hspans)
  · have harena : b.arena = c.arena := by
      have hfound := hb.found
      rw [← heq, hc.found] at hfound
      exact (Option.some.inj hfound).symm
    have hend := hb.header_add_bytes
    have hfits := hc.fits
    have hdepth := h.depth
    obtain ⟨-, hlt⟩ := ha
    obtain ⟨hle, -⟩ := hspans
    rw [hend, harena] at hlt
    unfold header Arena.down at hle
    unfold Arena.down at hlt
    omega

theorem Above.asymm (h : c.Above b) : ¬ b.Above c :=
  fun h' => Nat.lt_asymm h.depth_lt h'.depth_lt

theorem Above.ne (h : c.Above b) : c ≠ b := by
  rintro rfl
  exact h.asymm h

end LocalBlock

theorem Outside.ne_header {arenas : List Arena} {b : LocalBlock} {address : Nat}
    (h : Outside arenas address) (hb : b.In arenas) : address ≠ b.header := by
  rintro rfl
  exact h b.arena hb.mem (hb.holds b.spans_header)

/-- The depth down to which blocks, newest first, reach. -/
def extent : List LocalBlock → Nat
  | [] => 0
  | b :: _ => b.depth

/-- Blocks, newest first, that follow each other without gaps from the upper end of the offsets
downwards. The newest is in the arena with the index or in an older one, and so on. -/
def Stacked : Nat → List LocalBlock → Prop
  | _, [] => True
  | index, b :: older => b.index ≤ index ∧ b.upper = extent older ∧ Stacked b.index older

namespace Stacked

variable {index : Nat} {b c : LocalBlock} {blocks older done : List LocalBlock}

theorem mono {index' : Nat} (h : Stacked index blocks) (hle : index ≤ index') :
    Stacked index' blocks := by
  cases blocks with
  | nil => trivial
  | cons b older => exact ⟨Nat.le_trans h.1 hle, h.2⟩

theorem of_mem (h : Stacked index blocks) (hb : b ∈ blocks) :
    b.index ≤ index ∧ b.depth ≤ extent blocks := by
  induction blocks generalizing index with
  | nil => cases hb
  | cons newest older ih =>
      obtain ⟨hindex, hupper, holder⟩ := h
      rcases List.mem_cons.mp hb with rfl | hb
      · exact ⟨hindex, Nat.le_refl _⟩
      · obtain ⟨hle, hdepth⟩ := ih holder hb
        rw [← hupper] at hdepth
        exact ⟨Nat.le_trans hle hindex, Nat.le_trans hdepth (Nat.le_add_right _ _)⟩

theorem above (h : Stacked index (b :: older)) (hc : c ∈ older) : c.Above b := by
  obtain ⟨-, hupper, holder⟩ := h
  obtain ⟨hindex, hdepth⟩ := holder.of_mem hc
  exact ⟨hindex, hupper ▸ hdepth⟩

theorem pairwise (h : Stacked index blocks) :
    blocks.Pairwise fun newer older => older.Above newer := by
  induction blocks generalizing index with
  | nil => exact List.Pairwise.nil
  | cons b older ih => exact List.pairwise_cons.mpr ⟨fun c hc => h.above hc, ih h.2.2⟩

theorem of_suffix {rest : List LocalBlock} (h : Stacked index blocks) (hrest : rest <:+ blocks) :
    Stacked index rest := by
  induction blocks generalizing index with
  | nil =>
      rw [List.suffix_nil.mp hrest]
      trivial
  | cons b older ih =>
      rcases List.suffix_cons_iff.mp hrest with rfl | hrest
      · exact h
      · exact (ih h.2.2 hrest).mono h.1

theorem extent_le_of_suffix {rest : List LocalBlock} (h : Stacked index blocks)
    (hrest : rest <:+ blocks) : extent rest ≤ extent blocks := by
  cases rest with
  | nil => exact Nat.zero_le _
  | cons b older => exact (h.of_mem (hrest.subset List.mem_cons_self)).2

theorem extent_mod (h : Stacked index blocks) : extent blocks % wordBytes = 0 := by
  induction blocks generalizing index with
  | nil => rfl
  | cons b older ih =>
      obtain ⟨-, hupper, holder⟩ := h
      have hmod := ih holder
      have hbytes := b.bytes_eq
      rw [← hupper] at hmod
      change (b.upper + b.bytes) % wordBytes = 0
      simp only [wordBytes] at hmod hbytes ⊢
      omega

theorem depth_mod (h : Stacked index blocks) (hb : b ∈ blocks) : b.depth % wordBytes = 0 := by
  obtain ⟨done, older, rfl⟩ := List.append_of_mem hb
  exact (h.of_suffix (List.suffix_append done _)).extent_mod

end Stacked

/-- The live blocks of a region lie in its arenas as they are stacked. -/
structure Placed (arenas : List Arena) (blocks : List LocalBlock) : Prop where
  arranged : Arranged arenas
  stacked : Stacked (arenas.length - 1) blocks
  placed : ∀ b ∈ blocks, b.In arenas

namespace Placed

variable {arenas : List Arena} {blocks : List LocalBlock} {b c : LocalBlock}

theorem of_suffix {rest : List LocalBlock} (h : Placed arenas blocks)
    (hrest : rest <:+ blocks) : Placed arenas rest where
  arranged := h.arranged
  stacked := h.stacked.of_suffix hrest
  placed := fun b hb => h.placed b (hrest.subset hb)

theorem eq_of_spans (h : Placed arenas blocks) (hb : b ∈ blocks) (hc : c ∈ blocks)
    {address : Nat} (hba : b.Spans address) (hca : c.Spans address) : b = c := by
  induction blocks with
  | nil => cases hb
  | cons newest older ih =>
      have hnewest := h.placed newest List.mem_cons_self
      have happart : ∀ d ∈ older, newest.Spans address → ¬ d.Spans address := fun d hd hspans =>
        (h.stacked.above hd).not_spans h.arranged hnewest (h.placed d (List.mem_cons_of_mem _ hd))
          hspans
      rcases List.mem_cons.mp hb with rfl | hbolder
      · rcases List.mem_cons.mp hc with rfl | hcolder
        · rfl
        · exact absurd hca (happart c hcolder hba)
      · rcases List.mem_cons.mp hc with rfl | hcolder
        · exact absurd hba (happart b hbolder hca)
        · exact ih (h.of_suffix (List.suffix_cons newest older)) hbolder hcolder

/-- Of two blocks one is older, or they are the same. -/
theorem above_or_eq_or_above (h : Placed arenas blocks) (hb : b ∈ blocks) (hc : c ∈ blocks) :
    c.Above b ∨ c = b ∨ b.Above c := by
  obtain ⟨i, hi, rfl⟩ := List.getElem_of_mem hb
  obtain ⟨j, hj, rfl⟩ := List.getElem_of_mem hc
  have hpairwise := List.pairwise_iff_getElem.mp h.stacked.pairwise
  rcases Nat.lt_trichotomy i j with hlt | rfl | hgt
  · exact .inl (hpairwise i j hi hj hlt)
  · exact .inr (.inl rfl)
  · exact .inr (.inr (hpairwise j i hj hi hgt))

end Placed

end FiberStacks
