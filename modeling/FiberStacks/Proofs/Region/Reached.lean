import FiberStacks.Proofs.Region.Layout

/-!
# Histories of a region

A region comes about by allocations and by regions that are begun and ended in turn, while the rest
of the process goes on. Whatever the order, the region is laid out for the blocks that are live, and
a region that was begun can be ended.
-/

namespace FiberStacks.Region

/-- `Built allowed r begun blocks st`: the region `r` comes about with the live blocks `blocks`,
newest first, in a process that is then in the state `st`, by blocks of sizes and tags that are
allowed. The regions in `begun` are not ended yet, innermost first: each is the offset that was
handed out and the blocks that were live then. -/
inductive Built (allowed : Nat → Nat → Prop) :
    Region → List (Int × List LocalBlock) → List LocalBlock → MachineState → Prop where
  | start (st : MachineState) : Built allowed empty [] [] st
  | alloc {r r' : Region} {begun : List (Int × List LocalBlock)} {blocks : List LocalBlock}
      {st st' : MachineState} {a : Arena} {wosize tag : Nat} {w : Word}
      (before : Built allowed r begun blocks st) (tagged : tag < 256) (allows : allowed wosize tag)
      (run : r.alloc wosize tag st = .ok (.ok w, r') st') (last : r'.arenas.getLast? = some a) :
      Built allowed r' begun (r.newest r' a wosize tag :: blocks) st'
  | failed {r r' : Region} {begun : List (Int × List LocalBlock)} {blocks : List LocalBlock}
      {st st' : MachineState} {wosize tag : Nat} {e : StackError}
      (before : Built allowed r begun blocks st)
      (run : r.alloc wosize tag st = .ok (.error e, r') st') : Built allowed r' begun blocks st'
  | beginRegion {r : Region} {begun : List (Int × List LocalBlock)} {blocks : List LocalBlock}
      {st : MachineState} (before : Built allowed r begun blocks st) :
      Built allowed r ((r.beginRegion, blocks) :: begun) blocks st
  | endRegion {r r' : Region} {begun : List (Int × List LocalBlock)}
      {blocks rest : List LocalBlock} {st : MachineState} {offset : Int}
      (before : Built allowed r ((offset, rest) :: begun) blocks st)
      (run : r.endRegion offset = .ok r') : Built allowed r' begun rest st
  /-- Whatever else goes on leaves the headers of live blocks and the markers alone. -/
  | other {r : Region} {begun : List (Int × List LocalBlock)} {blocks : List LocalBlock}
      {st st' : MachineState} (before : Built allowed r begun blocks st)
      (grows : st.space.Grows st'.space)
      (kept : ∀ b ∈ blocks, ∀ address, b.Guards r.arenas address →
        st'.memory.read address = st.memory.read address) : Built allowed r begun blocks st'

/-- Blocks have fields and are no interior blocks. -/
abbrev Reached := Built fun wosize tag => 0 < wosize ∧ tag ≠ Tag.interior

/-- Blocks have any size and tag. Only a block without fields does not carry the tag of the marker,
as its header would be one. -/
abbrev History := Built fun wosize tag => 0 < wosize ∨ tag ≠ Tag.localSwitch

/-- Blocks have any size and tag whatever. -/
abbrev Course := Built fun _ _ => True

/-- What was live when a region was begun still is, and its offset is where these blocks end. -/
def Nested : List (Int × List LocalBlock) → List LocalBlock → Prop
  | [], _ => True
  | (offset, rest) :: begun, blocks =>
    rest <:+ blocks ∧ offset = -(extent rest : Int) ∧ Nested begun rest

theorem Nested.cons {begun : List (Int × List LocalBlock)} {blocks : List LocalBlock}
    (h : Nested begun blocks) (b : LocalBlock) : Nested begun (b :: blocks) := by
  cases begun with
  | nil => trivial
  | cons first begun => exact ⟨h.1.trans (List.suffix_cons b blocks), h.2⟩

variable {allowed allowed' : Nat → Nat → Prop} {r : Region} {begun : List (Int × List LocalBlock)}
  {blocks rest : List LocalBlock} {st : MachineState} {offset : Int}

theorem Built.mono (hallows : ∀ wosize tag, allowed wosize tag → allowed' wosize tag)
    (h : Built allowed r begun blocks st) : Built allowed' r begun blocks st := by
  induction h with
  | start st => exact .start st
  | alloc before tagged allows run last ih =>
      exact .alloc ih tagged (hallows _ _ allows) run last
  | failed before run ih => exact .failed ih run
  | beginRegion before ih => exact .beginRegion ih
  | endRegion before run ih => exact .endRegion ih run
  | other before grows kept ih => exact .other ih grows kept

/-- However it is built, a region is laid out for its live blocks. -/
theorem Built.houses_and_nested (h : Built allowed r begun blocks st) :
    r.Houses blocks st ∧ Nested begun blocks := by
  induction h with
  | start st => exact ⟨houses_empty st, trivial⟩
  | alloc before tagged allows run last ih =>
      obtain ⟨hhouses, hnested⟩ := ih
      exact ⟨(hhouses.of_alloc tagged run last).2, hnested.cons _⟩
  | failed before run ih =>
      obtain ⟨rfl, rfl⟩ := alloc_eq_error run
      exact ih
  | beginRegion before ih =>
      obtain ⟨hhouses, hnested⟩ := ih
      exact ⟨hhouses, List.suffix_refl _, hhouses.offset, hnested⟩
  | endRegion before run ih =>
      obtain ⟨hhouses, hrest, rfl, hnested⟩ := ih
      exact ⟨hhouses.of_endRegion hrest run, hnested⟩
  | other before grows kept ih =>
      obtain ⟨hhouses, hnested⟩ := ih
      exact ⟨hhouses.of_kept grows kept, hnested⟩

theorem Built.houses (h : Built allowed r begun blocks st) : r.Houses blocks st :=
  h.houses_and_nested.1

/-- The innermost region that was begun can be ended. -/
theorem Built.endRegion_eq_ok (h : Built allowed r ((offset, rest) :: begun) blocks st) :
    r.endRegion offset = .ok { r with sp := offset } := by
  obtain ⟨hhouses, hrest, hoffset, -⟩ := h.houses_and_nested
  have hsp := hhouses.offset
  have hle := hhouses.placed.stacked.extent_le_of_suffix hrest
  rw [Region.endRegion, if_pos (by omega)]

theorem Built.allows (h : Built allowed r begun blocks st) :
    ∀ b ∈ blocks, allowed b.wosize b.tag := by
  induction h with
  | start => simp
  | alloc before tagged allows run last ih => exact List.forall_mem_cons.mpr ⟨allows, ih⟩
  | failed before run ih => exact ih
  | beginRegion before ih => exact ih
  | endRegion before run ih =>
      have hrest := before.houses_and_nested.2.1
      exact fun b hb => ih b (hrest.subset hb)
  | other before grows kept ih => exact ih

theorem Reached.history (h : Reached r begun blocks st) : History r begun blocks st :=
  Built.mono (fun _ _ hallowed => .inl hallowed.1) h

theorem History.course (h : History r begun blocks st) : Course r begun blocks st :=
  Built.mono (fun _ _ _ => trivial) h

theorem History.laid (h : History r begun blocks st) : r.Laid blocks st :=
  ⟨h.houses, h.allows⟩

theorem Reached.laid (h : Reached r begun blocks st) : r.Laid blocks st :=
  h.history.laid

end FiberStacks.Region
