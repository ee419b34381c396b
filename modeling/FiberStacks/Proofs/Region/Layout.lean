import FiberStacks.Proofs.Region.Blocks

/-!
# The layout of a region

A region is laid out for its live blocks if memory holds their headers and, at the depth of each, a
marker in every later arena. Allocation and release keep the layout: a new block takes words below
all the others, a new arena is filled with markers at the depths in use, and a release leaves the
remaining words alone.
-/

namespace FiberStacks

namespace LocalBlock

/-- Memory holds the header of the block, and markers at its depth in every later arena. -/
structure Written (b : LocalBlock) (arenas : List Arena) (m : Memory) : Prop where
  header : m.read b.header = b.headerWord Color.notMarkable
  switches : ∀ k a, b.index < k → arenas[k]? = some a →
    m.read (a.down b.depth) = Header.localSwitch.toWord

/-- The address of the header of the block or of a marker at its depth. -/
def Guards (b : LocalBlock) (arenas : List Arena) (address : Nat) : Prop :=
  address = b.header ∨ ∃ k a, b.index < k ∧ arenas[k]? = some a ∧ address = a.down b.depth

variable {b c : LocalBlock} {arenas : List Arena}

theorem Written.of_kept {m m' : Memory} (h : b.Written arenas m)
    (hkept : ∀ address, b.Guards arenas address → m'.read address = m.read address) :
    b.Written arenas m' where
  header := by rw [hkept _ (.inl rfl), h.header]
  switches := fun k a hk ha => by rw [hkept _ (.inr ⟨k, a, hk, ha, rfl⟩), h.switches k a hk ha]

/-- A block keeps away from the headers and markers of the blocks above it. -/
theorem Above.not_spans_of_guards (h : c.Above b) (harranged : Arranged arenas)
    (hb : b.In arenas) (hc : c.In arenas) {address : Nat} (haddress : c.Guards arenas address) :
    ¬ b.Spans address := by
  intro hspans
  rcases haddress with rfl | ⟨k, a, hk, ha, rfl⟩
  · exact h.not_spans harranged hb hc hspans c.spans_header
  · have hreaches := hc.reaches k a (by omega) ha
    have hpos := c.depth_pos
    by_cases heq : b.index = k
    · have harena : b.arena = a := by
        have hfound := hb.found
        rw [heq, ha] at hfound
        exact (Option.some.inj hfound).symm
      have hend := hb.header_add_bytes
      have hdepth := h.depth
      obtain ⟨-, hlt⟩ := hspans
      rw [hend, harena] at hlt
      unfold Arena.down at hlt
      omega
    · exact harranged.not_holds hb.found ha heq (hb.holds hspans) (Arena.holds_down hpos hreaches)

end LocalBlock

/-- The arenas were handed out, each with the address at its upper end. -/
def AddressSpace.Backs (space : AddressSpace) (arenas : List Arena) : Prop :=
  ∀ a ∈ arenas, ∀ address, a.base ≤ address → address ≤ a.base + a.length → space.Taken address

theorem AddressSpace.Backs.grow {space space' : AddressSpace} {arenas : List Arena}
    (h : space.Backs arenas) (hgrows : space.Grows space') : space'.Backs arenas :=
  fun a ha address hle hend => hgrows address (h a ha address hle hend)

/-- An arena that was free is clear of those that were handed out. -/
theorem AddressSpace.Backs.clear {space space' : AddressSpace} {arenas : List Arena}
    {a older : Arena} {high : Nat} (h : space.Backs arenas)
    (hgrants : space.Grants a.base high space') (hhigh : a.base + a.length < high)
    (holder : older ∈ arenas) : older.Clear a := by
  -- Otherwise the higher one of the two bases is an address of both.
  by_contra hclear
  have hshared := h older holder (max a.base older.base)
  have hfree := hgrants.free (max a.base older.base)
  unfold Arena.Clear at hclear
  exact hfree (by omega) (by omega) (hshared (by omega) (by omega))

namespace Region

/-- The region is laid out for its live blocks, newest first, whatever their headers. -/
structure Houses (r : Region) (blocks : List LocalBlock) (st : MachineState) : Prop where
  backed : st.space.Backs r.arenas
  placed : Placed r.arenas blocks
  offset : r.sp = -(extent blocks : Int)
  words : r.nextLength % wordBytes = 0
  written : ∀ b ∈ blocks, b.Written r.arenas st.memory

/-- The region is laid out for its live blocks, and these can be told from markers. -/
structure Laid (r : Region) (blocks : List LocalBlock) (st : MachineState) : Prop
    extends r.Houses blocks st where
  told : ∀ b ∈ blocks, b.Told

variable {r r₁ r' : Region} {blocks : List LocalBlock} {st st₁ st' : MachineState}

theorem houses_empty (st : MachineState) : empty.Houses [] st where
  backed := by simp [AddressSpace.Backs, empty]
  placed := ⟨⟨List.Pairwise.nil, by simp [empty], by simp [empty]⟩, trivial, by simp⟩
  offset := rfl
  words := rfl
  written := by simp

theorem Houses.of_kept (h : r.Houses blocks st) (hgrows : st.space.Grows st'.space)
    (hkept : ∀ b ∈ blocks, ∀ address, b.Guards r.arenas address →
      st'.memory.read address = st.memory.read address) : r.Houses blocks st' where
  backed := h.backed.grow hgrows
  placed := h.placed
  offset := h.offset
  words := h.words
  written := fun b hb => (h.written b hb).of_kept (hkept b hb)

/-- Going back to an earlier offset releases the blocks below it. -/
theorem Houses.of_endRegion {rest : List LocalBlock} (h : r.Houses blocks st)
    (hrest : rest <:+ blocks) (hend : r.endRegion (-(extent rest : Int)) = .ok r') :
    r'.Houses rest st := by
  unfold endRegion at hend
  split at hend
  · cases hend
    exact
      { backed := h.backed
        placed := h.placed.of_suffix hrest
        offset := rfl
        words := h.words
        written := fun b hb => h.written b (hrest.subset hb) }
  · cases hend

/-! ### Room -/

/-- A new arena has whole words and at least twice those of the last one, and reaches down to the
offset. -/
theorem of_nextArenaLength {sp : Int} {steps length n : Nat} (hwords : length % wordBytes = 0)
    (h : nextArenaLength sp steps length = .ok n) :
    n % wordBytes = 0 ∧ -sp ≤ n ∧ 2 * length ≤ n := by
  induction steps generalizing length with
  | zero => cases h
  | succ steps ih =>
      rw [nextArenaLength] at h
      have hdoubled : ∃ doubled, doubled % wordBytes = 0 ∧ 2 * length ≤ doubled ∧
          (Offset.add sp (Offset.ofSize doubled) >>= fun reach =>
            if 0 ≤ reach then return doubled else nextArenaLength sp steps doubled) = .ok n := by
        split at h
        · exact ⟨firstArenaBytes, rfl, by omega, h⟩
        · obtain ⟨doubled, hmul, hrest⟩ := Run.except_bind_eq_ok_iff.mp h
          have hvalue := Size.eq_of_mul_eq_ok hmul
          refine ⟨doubled, ?_, by omega, hrest⟩
          rw [hvalue]
          simp only [wordBytes] at hwords ⊢
          omega
      obtain ⟨doubled, hmod, htwice, hrest⟩ := hdoubled
      obtain ⟨reach, hadd, hlast⟩ := Run.except_bind_eq_ok_iff.mp hrest
      split at hlast
      · rename_i hnonneg
        cases hlast
        refine ⟨hmod, ?_, htwice⟩
        have hle := Offset.ofSize_le n
        unfold Offset.add at hadd
        split at hadd
        · cases hadd
          omega
        · cases hadd
      · obtain ⟨hn, hreach, hle⟩ := ih hmod hlast
        exact ⟨hn, hreach, by omega⟩

theorem addArena_eq_ok {newSp : Int} (h : r.addArena newSp st = .ok (.ok r₁) st₁) :
    ∃ length base, nextArenaLength newSp 65 r.nextLength = .ok length ∧
      st.space.reserveHeap? wordBytes length = some (base, st₁.space) ∧
      st₁.memory = st.memory.fill (base + length - r.sp.natAbs / wordBytes * wordBytes)
        (r.sp.natAbs / wordBytes) Header.localSwitch.toWord ∧
      r₁ = { r with arenas := r.arenas ++ [⟨base, length⟩], nextLength := length } := by
  unfold addArena at h
  split at h
  · cases h
  · obtain ⟨length, u, hlength, hreserve⟩ := Run.bind_eq_ok_iff.mp h
    obtain ⟨hlengthOk, rfl⟩ := Run.lift_eq_ok_iff.mp hlength
    cases hspace : st.space.reserveHeap? wordBytes length with
    | none =>
        rw [Run.bind_of_ok (show (get : Machine MachineState) st = .ok st st from rfl), hspace]
          at hreserve
        cases hreserve
    | some result =>
        obtain ⟨base, space⟩ := result
        rw [Run.bind_of_ok (show (get : Machine MachineState) st = .ok st st from rfl), hspace]
          at hreserve
        cases hreserve
        exact ⟨length, base, hlengthOk, hspace, rfl, rfl⟩

theorem addArena_eq_error {newSp : Int} {e : StackError}
    (h : r.addArena newSp st = .ok (.error e) st₁) : st₁ = st := by
  unfold addArena at h
  split at h
  · cases h
    rfl
  · obtain ⟨length, u, hlength, hreserve⟩ := Run.bind_eq_ok_iff.mp h
    rw [Run.bind_of_ok (show (get : Machine MachineState) u = .ok u u from rfl)] at hreserve
    cases hspace : u.space.reserveHeap? wordBytes length with
    | none =>
        rw [hspace] at hreserve
        cases hreserve
    | some result =>
        rw [hspace] at hreserve
        cases hreserve

/-- `a` is a new arena of the region that reaches down to `newSp`, filled with markers at the depths
in use. It is apart from the other arenas, and what these hold stays. -/
structure Adds (r : Region) (newSp : Int) (st : MachineState) (a : Arena) (st₁ : MachineState) :
    Prop where
  reaches : -newSp ≤ a.length
  twice : 2 * r.nextLength ≤ a.length
  backed : st₁.space.Backs (r.arenas ++ [a])
  arranged : Arranged (r.arenas ++ [a])
  memory : st₁.memory = st.memory.fill (a.base + a.length - r.sp.natAbs / wordBytes * wordBytes)
    (r.sp.natAbs / wordBytes) Header.localSwitch.toWord
  kept : ∀ old ∈ r.arenas, ∀ address, old.Holds address →
    st₁.memory.read address = st.memory.read address

theorem adds_of_addArena {newSp : Int} (hbacked : st.space.Backs r.arenas)
    (harranged : Arranged r.arenas) (hwords : r.nextLength % wordBytes = 0)
    (hle : newSp ≤ r.sp) (hneg : r.sp ≤ 0) (hrun : r.addArena newSp st = .ok (.ok r₁) st₁) :
    ∃ a, r.Adds newSp st a st₁ ∧
      r₁ = { r with arenas := r.arenas ++ [a], nextLength := a.length } := by
  obtain ⟨length, base, hlength, hreserve, hmemory, rfl⟩ := addArena_eq_ok hrun
  obtain ⟨hmod, hreach, htwice⟩ := of_nextArenaLength hwords hlength
  obtain ⟨⟨-, haligned, hwithin, -⟩, -⟩ := AddressSpace.reserve?_eq_some hreserve
  have hgrants := AddressSpace.grants_of_reserve? hreserve
  have hhigh : base + length < base + (length + wordBytes) :=
    Nat.add_lt_add_left (Nat.lt_add_of_pos_right (by decide)) base
  have hclear : ∀ old ∈ r.arenas, old.Clear ⟨base, length⟩ :=
    fun old => hbacked.clear (a := ⟨base, length⟩) hgrants hhigh
  refine ⟨⟨base, length⟩, ⟨hreach, htwice, ?_, ?_, hmemory, ?_⟩, rfl⟩
  · refine List.forall_mem_append.mpr ⟨hbacked.grow hgrants.grows, fun a ha address hle hlt => ?_⟩
    rw [List.mem_singleton.mp ha] at hle hlt
    exact hgrants.taken address hle (Nat.lt_of_le_of_lt hlt hhigh)
  · have hbase := Nat.mod_eq_zero_of_dvd (haligned (by decide))
    exact harranged.push hclear ⟨hbase, hmod⟩ (Nat.lt_of_lt_of_le hhigh hwithin)
  · intro old hold address hholds
    have hapart := hclear old hold
    rw [hmemory]
    refine Memory.read_fill_of_not_mem _ _ fun hmem => ?_
    obtain ⟨i, hi, rfl⟩ := Memory.mem_span_iff.mp hmem
    unfold Arena.Holds at hholds
    unfold Arena.Clear at hapart
    simp only [wordBytes] at hholds hapart hi
    omega

theorem read_fill_markers {a : Arena} {used depth : Nat} (m : Memory) (hused : used ≤ a.length)
    (hwords : used % wordBytes = 0) (hdepth : depth % wordBytes = 0) (hpos : 0 < depth)
    (hle : depth ≤ used) :
    (m.fill (a.base + a.length - used / wordBytes * wordBytes) (used / wordBytes)
      Header.localSwitch.toWord).read (a.down depth) = Header.localSwitch.toWord := by
  rw [Memory.read_fill, if_pos]
  simp only [wordBytes] at hwords hdepth
  refine Memory.mem_span_iff.mpr ⟨(used - depth) / wordBytes, ?_, ?_⟩
  · simp only [wordBytes]
    omega
  · unfold Arena.down
    simp only [wordBytes]
    omega

/-- Adding an arena keeps the layout and makes room. -/
theorem Houses.of_addArena {newSp : Int} (h : r.Houses blocks st) (hle : newSp ≤ r.sp)
    (hrun : r.addArena newSp st = .ok (.ok r₁) st₁) :
    r₁.Houses blocks st₁ ∧ r₁.sp = r.sp ∧
      ∃ a, r₁.arenas.getLast? = some a ∧ -newSp ≤ a.length := by
  have hoffset := h.offset
  obtain ⟨a, hadds, rfl⟩ :=
    adds_of_addArena h.backed h.placed.arranged h.words hle (by omega) hrun
  have hreach := hadds.reaches
  have hmemory := hadds.memory
  have hmod := h.placed.stacked.extent_mod
  rw [show r.sp.natAbs = extent blocks by omega] at hmemory
  have hin : ∀ b ∈ blocks, b.In (r.arenas ++ [a]) := by
    intro b hb
    have hdepth := (h.placed.stacked.of_mem hb).2
    exact (h.placed.placed b hb).push (by omega)
  have hwritten : ∀ b ∈ blocks, b.Written (r.arenas ++ [a]) st₁.memory := by
    intro b hb
    have hdepth := (h.placed.stacked.of_mem hb).2
    have hold := h.placed.placed b hb
    constructor
    · rw [hadds.kept _ hold.mem _ (hold.holds b.spans_header), (h.written b hb).header]
    · intro k x hk hx
      rcases Arranged.getElem?_push hx with hfound | ⟨-, rfl⟩
      · have hholds := Arena.holds_down b.depth_pos (hold.reaches k x (by omega) hfound)
        rw [hadds.kept x (List.mem_of_getElem? hfound) _ hholds]
        exact (h.written b hb).switches k x hk hfound
      · rw [hmemory]
        exact read_fill_markers _ (by omega) hmod (h.placed.stacked.depth_mod hb) b.depth_pos hdepth
  have hlength := (hadds.arranged.words a (by simp)).2
  refine ⟨?_, rfl, a, by simp, hreach⟩
  exact ⟨hadds.backed, ⟨hadds.arranged, h.placed.stacked.mono (by simp), hin⟩, hoffset, hlength,
    hwritten⟩

theorem lowest_eq {a : Arena} (h : r.arenas.getLast? = some a) : r.lowest = -(a.length : Int) := by
  rw [lowest, h]

theorem exists_last_of_lowest {newSp : Int} (hneg : newSp < 0) (h : r.lowest ≤ newSp) :
    ∃ a, r.arenas.getLast? = some a ∧ -newSp ≤ a.length := by
  cases hlast : r.arenas.getLast? with
  | none =>
      rw [lowest, hlast] at h
      simp only at h
      omega
  | some a =>
      rw [lowest_eq hlast] at h
      exact ⟨a, rfl, by omega⟩

theorem makeRoom_cases {newSp : Int} (hrun : r.makeRoom newSp st = .ok (.ok r₁) st₁) :
    r.addArena newSp st = .ok (.ok r₁) st₁ ∨ r.lowest ≤ newSp ∧ r₁ = r ∧ st₁ = st := by
  unfold makeRoom at hrun
  split at hrun
  · exact .inl hrun
  · rename_i hlowest
    cases hrun
    exact .inr ⟨by omega, rfl, rfl⟩

/-- After making room the newest arena reaches down to the offset. -/
theorem Houses.of_makeRoom {newSp : Int} (h : r.Houses blocks st) (hlt : newSp < r.sp)
    (hrun : r.makeRoom newSp st = .ok (.ok r₁) st₁) :
    r₁.Houses blocks st₁ ∧ r₁.sp = r.sp ∧
      ∃ a, r₁.arenas.getLast? = some a ∧ -newSp ≤ a.length := by
  have hoffset := h.offset
  rcases makeRoom_cases hrun with hadd | ⟨hlowest, rfl, rfl⟩
  · exact h.of_addArena (by omega) hadd
  · exact ⟨h, rfl, exists_last_of_lowest (by omega) hlowest⟩

/-! ### Allocation -/

/-- The block that an allocation in `r` leaves in the newest arena `a` of `after`. -/
def newest (r after : Region) (a : Arena) (wosize tag : Nat) : LocalBlock :=
  ⟨a, after.arenas.length - 1, r.sp.natAbs, wosize, tag⟩

/-- Memory after a block of unit fields was written. -/
def writeBlock (m : Memory) (address wosize tag : Nat) : Memory :=
  (m.write address (Header.make wosize Color.notMarkable tag).toWord).fill (address + wordBytes)
    wosize Word.unit

theorem exists_makeRoom_of_alloc {wosize tag : Nat} {x : Except StackError Word}
    (h : r.alloc wosize tag st = .ok (x, r') st') :
    ∃ (newSp : Int) (room : Except StackError Region) (u : MachineState),
      Offset.sub r.sp (Offset.ofSize ((wosize + 1) * wordBytes)) = .ok newSp ∧
      r.makeRoom newSp st = .ok room u ∧
      match room with
      | .error e => x = .error e ∧ r' = r ∧ st' = u
      | .ok r₁ => ∃ a address, r₁.arenas.getLast? = some a ∧
          ((wosize + 1) * wordBytes : Nat) < Offset.limit ∧ a.addressAt newSp = .ok address ∧
          x = .ok (Word.ofNat (address + wordBytes)) ∧ r' = { r₁ with sp := newSp } ∧
          st' = { u with memory := writeBlock u.memory address wosize tag } := by
  unfold alloc at h
  obtain ⟨words, s₁, hwords, h₁⟩ := Run.bind_eq_ok_iff.mp h
  obtain ⟨hwordsOk, hs₁⟩ := Run.lift_eq_ok_iff.mp hwords
  rw [← hs₁, Size.eq_of_add_eq_ok hwordsOk] at h₁
  obtain ⟨bytes, s₂, hbytes, h₂⟩ := Run.bind_eq_ok_iff.mp h₁
  obtain ⟨hbytesOk, hs₂⟩ := Run.lift_eq_ok_iff.mp hbytes
  rw [← hs₂, Size.eq_of_mul_eq_ok hbytesOk] at h₂
  obtain ⟨newSp, s₃, hsub, h₃⟩ := Run.bind_eq_ok_iff.mp h₂
  obtain ⟨hsubOk, hs₃⟩ := Run.lift_eq_ok_iff.mp hsub
  rw [← hs₃] at h₃
  obtain ⟨room, u, hroom, h₄⟩ := Run.bind_eq_ok_iff.mp h₃
  refine ⟨newSp, room, u, hsubOk, hroom, ?_⟩
  cases room with
  | error e =>
      cases h₄
      exact ⟨rfl, rfl, rfl⟩
  | ok r₁ =>
      simp only at h₄
      cases hlast : r₁.arenas.getLast? with
      | none =>
          rw [hlast] at h₄
          cases h₄
      | some a =>
          rw [hlast] at h₄
          simp only at h₄
          split at h₄
          · cases h₄
          · rename_i hsize
            obtain ⟨address, s₅, haddress, h₅⟩ := Run.bind_eq_ok_iff.mp h₄
            obtain ⟨haddressOk, hs₅⟩ := Run.lift_eq_ok_iff.mp haddress
            rw [← hs₅] at h₅
            cases h₅
            exact ⟨a, address, hlast, Int.not_le.mp hsize, haddressOk, rfl, rfl, rfl⟩

theorem alloc_eq_ok {wosize tag : Nat} {w : Word}
    (h : r.alloc wosize tag st = .ok (.ok w, r') st') :
    ∃ (newSp : Int) (r₁ : Region) (u : MachineState) (a : Arena) (address : Nat),
      Offset.sub r.sp (Offset.ofSize ((wosize + 1) * wordBytes)) = .ok newSp ∧
      r.makeRoom newSp st = .ok (.ok r₁) u ∧ r₁.arenas.getLast? = some a ∧
      ((wosize + 1) * wordBytes : Nat) < Offset.limit ∧ a.addressAt newSp = .ok address ∧
      w = Word.ofNat (address + wordBytes) ∧ r' = { r₁ with sp := newSp } ∧
      st' = { u with memory := writeBlock u.memory address wosize tag } := by
  obtain ⟨newSp, room, u, hsub, hmake, hroom⟩ := exists_makeRoom_of_alloc h
  cases room with
  | error e => cases hroom.1
  | ok r₁ =>
      obtain ⟨a, address, hlast, hsize, haddress, hw, hr, hst⟩ := hroom
      cases hw
      exact ⟨newSp, r₁, u, a, address, hsub, hmake, hlast, hsize, haddress, rfl, hr, hst⟩

theorem exists_last_of_alloc {wosize tag : Nat} {w : Word}
    (h : r.alloc wosize tag st = .ok (.ok w, r') st') : ∃ a, r'.arenas.getLast? = some a := by
  obtain ⟨newSp, r₁, u, a, address, -, -, hlast, -, -, -, rfl, -⟩ := alloc_eq_ok h
  exact ⟨a, hlast⟩

theorem alloc_eq_error {wosize tag : Nat} {e : StackError}
    (h : r.alloc wosize tag st = .ok (.error e, r') st') : r' = r ∧ st' = st := by
  obtain ⟨newSp, room, u, -, hmake, hroom⟩ := exists_makeRoom_of_alloc h
  cases room with
  | ok r₁ =>
      obtain ⟨a, address, -, -, -, hx, -, -⟩ := hroom
      cases hx
  | error e' =>
      obtain ⟨-, rfl, rfl⟩ := hroom
      refine ⟨rfl, ?_⟩
      unfold makeRoom at hmake
      split at hmake
      · exact addArena_eq_error hmake
      · cases hmake

theorem read_writeBlock_header (m : Memory) (address wosize tag : Nat) :
    (writeBlock m address wosize tag).read address =
      (Header.make wosize Color.notMarkable tag).toWord := by
  unfold writeBlock
  rw [Memory.read_fill_of_not_mem, Memory.read_write_same]
  intro hmem
  obtain ⟨i, -, hi⟩ := Memory.mem_span_iff.mp hmem
  simp only [wordBytes] at hi
  omega

theorem read_writeBlock_of_not_spans (m : Memory) (b : LocalBlock) {address : Nat}
    (h : ¬ b.Spans address) :
    (writeBlock m b.header b.wosize b.tag).read address = m.read address := by
  unfold writeBlock
  rw [Memory.read_fill_of_not_mem, Memory.read_write_of_ne]
  · rintro rfl
    exact h b.spans_header
  · intro hmem
    obtain ⟨i, hi, rfl⟩ := Memory.mem_span_iff.mp hmem
    exact h (b.spans_field hi)

theorem newest_below {a : Arena} {wosize tag : Nat} (hneg : r.sp ≤ 0) :
    -((r.newest r' a wosize tag).depth : Int) < r.sp := by
  have hbytes := (r.newest r' a wosize tag).bytes_eq
  simp only [LocalBlock.depth, newest, wordBytes] at hbytes ⊢
  omega

theorem newest_in {a : Arena} {wosize tag : Nat} (hlast : r₁.arenas.getLast? = some a)
    (htagged : tag < 256) (hroom : (r.newest r₁ a wosize tag).depth ≤ a.length) :
    (r.newest r₁ a wosize tag).In r₁.arenas := by
  have hfound : r₁.arenas[r₁.arenas.length - 1]? = some a := by
    rw [← List.getLast?_eq_getElem?, hlast]
  refine ⟨hfound, ?_, htagged⟩
  intro k x hk hx
  have hlt := (List.getElem?_eq_some_iff.mp hx).1
  have hindex : k = r₁.arenas.length - 1 := by
    change r₁.arenas.length - 1 ≤ k at hk
    omega
  rw [hindex, hfound] at hx
  cases hx
  exact hroom

/-- An allocation makes room down to the depth of the new block, and writes the block there. -/
theorem exists_newest_of_alloc {wosize tag : Nat} {w : Word} {a : Arena} (hneg : r.sp ≤ 0)
    (hrun : r.alloc wosize tag st = .ok (.ok w, r') st') (ha : r'.arenas.getLast? = some a) :
    ∃ r₁ u, r.makeRoom (-((r.newest r' a wosize tag).depth : Int)) st = .ok (.ok r₁) u ∧
      r₁.arenas.getLast? = some a ∧
      r' = { r₁ with sp := -((r.newest r' a wosize tag).depth : Int) } ∧
      (Arranged r₁.arenas → (r.newest r' a wosize tag).depth ≤ a.length →
        w.toNat = (r.newest r' a wosize tag).block ∧
          st' = { u with
            memory := writeBlock u.memory (r.newest r' a wosize tag).header wosize tag }) := by
  obtain ⟨newSp, r₁, u, newest, address, hsub, hmake, hlast, hsize, haddress, rfl, rfl, rfl⟩ :=
    alloc_eq_ok hrun
  have hsame : newest = a := Option.some.inj (hlast.symm.trans ha)
  subst hsame
  generalize hb : r.newest _ newest wosize tag = b
  have harena : b.arena = newest := by rw [← hb, Region.newest]
  have hnewSp : newSp = r.sp - ((wosize + 1) * wordBytes : Nat) := Offset.eq_of_sub_eq_ok hsize hsub
  have hdepth : newSp = -(b.depth : Int) := by
    simp only [← hb, Region.newest, LocalBlock.depth, LocalBlock.bytes]
    omega
  subst hdepth
  refine ⟨r₁, u, hmake, hlast, rfl, fun harranged hfits => ?_⟩
  have hinside := harranged.inside newest (List.mem_of_getLast? hlast)
  unfold AddressSpace.limit at hinside
  rw [Arena.addressAt_eq (by rw [Size.limit_eq]; omega) hfits, ← harena] at haddress
  cases haddress
  refine ⟨?_, rfl⟩
  rw [Word.ofNat, UInt64.toNat_ofNat', Nat.mod_eq_of_lt]
  · rfl
  · simp only [Arena.down, wordBytes, harena]
    omega

/-- A block in the newest arena below all the others is placed with them. -/
theorem Houses.placed_newest {a : Arena} {wosize tag : Nat} (h : r.Houses blocks st)
    (hlast : r.arenas.getLast? = some a) (htagged : tag < 256)
    (hroom : (r.newest r a wosize tag).depth ≤ a.length) :
    Placed r.arenas (r.newest r a wosize tag :: blocks) := by
  have hoffset := h.offset
  refine ⟨h.placed.arranged, ⟨Nat.le_refl _, ?_, h.placed.stacked⟩, ?_⟩
  · simp only [newest]
    omega
  · intro b hb
    rcases List.mem_cons.mp hb with rfl | hb
    · exact newest_in hlast htagged hroom
    · exact h.placed.placed b hb

/-- A block that is written below all the others leaves the layout in place. -/
theorem Houses.of_writeBlock {a : Arena} {wosize tag : Nat} (h : r.Houses blocks st)
    (hplaced : Placed r.arenas (r.newest r a wosize tag :: blocks)) :
    Houses { r with sp := -((r.newest r a wosize tag).depth : Int) }
      (r.newest r a wosize tag :: blocks)
      { st with memory := writeBlock st.memory (r.newest r a wosize tag).header wosize tag } := by
  refine ⟨h.backed, hplaced, rfl, h.words, ?_⟩
  intro c hc
  rcases List.mem_cons.mp hc with rfl | hc
  · constructor
    · exact read_writeBlock_header _ _ _ _
    · intro k x hk hx
      have hlt : k < r.arenas.length := (List.getElem?_eq_some_iff.mp hx).1
      change r.arenas.length - 1 < k at hk
      omega
  · refine (h.written c hc).of_kept fun address hguards => ?_
    apply read_writeBlock_of_not_spans st.memory (r.newest r a wosize tag)
    exact (hplaced.stacked.above hc).not_spans_of_guards hplaced.arranged
      (hplaced.placed _ List.mem_cons_self) (hplaced.placed c (List.mem_cons_of_mem _ hc)) hguards

theorem Houses.of_alloc {wosize tag : Nat} {w : Word} {a : Arena} (h : r.Houses blocks st)
    (htagged : tag < 256) (hrun : r.alloc wosize tag st = .ok (.ok w, r') st')
    (ha : r'.arenas.getLast? = some a) :
    w.toNat = (r.newest r' a wosize tag).block ∧
      r'.Houses (r.newest r' a wosize tag :: blocks) st' := by
  have hneg : r.sp ≤ 0 := by
    have hoffset := h.offset
    omega
  obtain ⟨r₁, u, hmake, hlast, hr', hwrite⟩ := exists_newest_of_alloc hneg hrun ha
  obtain ⟨hhouses, hsp, reaching, hreaching, hreach⟩ := h.of_makeRoom (newest_below hneg) hmake
  cases hreaching.symm.trans hlast
  have hfits : (r.newest r' a wosize tag).depth ≤ a.length := by omega
  obtain ⟨hword, rfl⟩ := hwrite hhouses.placed.arranged hfits
  refine ⟨hword, ?_⟩
  have hblock : r.newest r' a wosize tag = r₁.newest r₁ a wosize tag := by
    rw [Region.newest, Region.newest, hsp, hr']
  rw [hblock] at hr' hfits ⊢
  rw [hr']
  exact hhouses.of_writeBlock (hhouses.placed_newest hlast htagged hfits)

end Region

end FiberStacks
