import FiberStacks.Proofs.Growth.Register

/-!
# Native calls under growth

A native call has left its segment at one address and may have an asynchronous handler at another.
When the segment grows both keep their distance from the upper end, and the calls that left other
segments are not touched.
-/

namespace FiberStacks

namespace Relocation

variable {r : Relocation} {old new : Segment} {a b : Nat}

theorem newAddress_eq_ok (h : r.newAddress a = .ok b) : b = r.target a :=
  checked_newAddress.of_eq_ok h

theorem follow_of_contains (h : old.contains a = true) :
    (between old new).follow a = (between old new).target a := if_pos h

theorem follow_of_not_contains (h : old.contains a = false) : (between old new).follow a = a :=
  if_neg (by rw [inOld_between, h]; exact Bool.false_ne_true)

/-- The new body is at least as deep, so the distance from the upper end is kept. -/
theorem target_between (hlow : old.base ≤ a) (hhigh : a ≤ old.high)
    (hdeep : old.high - old.base ≤ new.high - new.base) (hnew : new.base ≤ new.high) :
    new.base ≤ (between old new).target a ∧
      (between old new).target a + (old.high - a) = new.high := by
  simp only [target, between]
  omega

end Relocation

namespace NativeLink

/-- Where the link of a native call leads after the move. -/
def moved (r : Relocation) (link : NativeLink) : NativeLink :=
  if link.stackHigh = r.oldHigh then
    ⟨r.newHigh, r.target link.sp, r.follow link.asyncExn⟩
  else
    { link with asyncExn := r.follow link.asyncExn }

variable {r : Relocation} {link link' : NativeLink} {links links' : List NativeLink}

theorem relocate_eq_ok (h : link.relocate r = .ok link') : link' = link.moved r := by
  have hasync : ∀ named : NativeLink,
      (if r.inOld named.asyncExn then do
        let asyncExn ← r.newAddress named.asyncExn
        return { named with asyncExn }
      else return named : Except Abort NativeLink) = .ok link' →
      link' = { named with asyncExn := r.follow named.asyncExn } := by
    intro named h
    rw [Relocation.follow]
    split at h
    · obtain ⟨a, ha, h⟩ := Run.except_bind_eq_ok_iff.mp h
      cases h
      rw [if_pos ‹_›, Relocation.newAddress_eq_ok ha]
    · cases h
      rw [if_neg ‹_›]
  unfold relocate at h
  rw [moved]
  split at h
  · obtain ⟨sp, hsp, h⟩ := Run.except_bind_eq_ok_iff.mp h
    rw [if_pos ‹_›, hasync _ h, Relocation.newAddress_eq_ok hsp]
  · rw [if_neg ‹_›, hasync _ h]

theorem mapM_relocate_eq_ok (h : links.mapM (relocate r) = .ok links') :
    links' = links.map (moved r) := by
  induction links generalizing links' with
  | nil =>
      rw [List.mapM_nil] at h
      cases h
      rfl
  | cons link links ih =>
      rw [List.mapM_cons] at h
      obtain ⟨head, hhead, h⟩ := Run.except_bind_eq_ok_iff.mp h
      obtain ⟨tail, htail, h⟩ := Run.except_bind_eq_ok_iff.mp h
      cases h
      rw [relocate_eq_ok hhead, ih htail, List.map_cons]

/-- The link leads to the segment `s`, at the distances from its upper end that `pushed` had. -/
structure LeadsTo (link pushed : NativeLink) (s : Segment) : Prop where
  stackHigh : link.stackHigh = s.high
  inside : s.base ≤ link.sp ∧ link.sp ≤ s.high
  depth : link.stackHigh - link.sp = pushed.stackHigh - pushed.sp
  unset : pushed.asyncExn = 0 → link.asyncExn = 0
  async : pushed.asyncExn ≠ 0 → s.contains link.asyncExn = true ∧
    link.stackHigh - link.asyncExn = pushed.stackHigh - pushed.asyncExn

namespace LeadsTo

variable {pushed : NativeLink} {s old new : Segment}

theorem congr (h : link.LeadsTo pushed old) (hbase : new.base = old.base)
    (hhigh : new.high = old.high) : link.LeadsTo pushed new where
  stackHigh := h.stackHigh.trans hhigh.symm
  inside := by rw [hbase, hhigh]; exact h.inside
  depth := h.depth
  unset := h.unset
  async := by
    intro hset
    rw [Segment.contains, hbase, hhigh]
    exact h.async hset

/-- The link follows the segment that it leads to. -/
theorem moved (h : link.LeadsTo pushed old) (hzero : old.contains 0 = false)
    (hdeep : old.high - old.base ≤ new.high - new.base) (hnew : new.base ≤ new.high) :
    (link.moved (.between old new)).LeadsTo pushed new := by
  obtain ⟨hbase, hdistance⟩ :=
    Relocation.target_between h.inside.1 h.inside.2 hdeep hnew
  have hdepth := h.depth
  have hhigh := h.stackHigh
  have hmoved : link.moved (.between old new) =
      ⟨new.high, (Relocation.between old new).target link.sp,
        (Relocation.between old new).follow link.asyncExn⟩ := if_pos hhigh
  rw [hmoved]
  refine ⟨rfl, ⟨hbase, ?_⟩, ?_, fun hunset => ?_, fun hset => ?_⟩
  · simp only
    omega
  · simp only
    omega
  · simp only [h.unset hunset, Relocation.follow_of_not_contains hzero]
  · obtain ⟨hcontains, hasync⟩ := h.async hset
    obtain ⟨hlow, hbelow⟩ := Segment.contains_eq_true_iff.mp hcontains
    obtain ⟨hbase', hdistance'⟩ := Relocation.target_between hlow hbelow.le hdeep hnew
    simp only [Relocation.follow_of_contains hcontains, Segment.contains_eq_true_iff]
    omega

/-- A link that leads to another segment stays as it is. -/
theorem moved_eq (h : link.LeadsTo pushed s) (hzero : old.contains 0 = false)
    (hne : old.high ≠ s.high) (hapart : old.Apart s) :
    link.moved (.between old new) = link := by
  have houtside : old.contains link.asyncExn = false := by
    by_cases hset : pushed.asyncExn = 0
    · rw [h.unset hset, hzero]
    · rw [Bool.eq_false_iff]
      exact fun hcontains => hapart _ (Segment.owns_of_contains hcontains)
        (Segment.owns_of_contains (h.async hset).1)
  have hother : link.stackHigh ≠ (Relocation.between old new).oldHigh := by
    rw [h.stackHigh]
    exact hne.symm
  rw [NativeLink.moved, if_neg hother, Relocation.follow_of_not_contains houtside]

end LeadsTo

end NativeLink

namespace Domain

variable {d d' : Domain} {old : Segment} {outer : Chain} {others : List Segment} {required : Nat}
  {st st' : MachineState}

/-- All links of native calls are moved, and the new segment has an upper end of its own. -/
theorem links_of_tryRealloc (hrunning : d.running = old :: outer)
    (hsep : Segment.Separate st.space (old :: (others ++ d.pool.segments)))
    (hrun : d.tryRealloc required st = .ok (true, d') st') :
    ∃ new, d'.running = new :: outer ∧ new.base ≤ new.high ∧
      d'.links = d.links.map (NativeLink.moved (.between old new)) ∧
      ∀ t ∈ old :: others, new.high ≠ t.high := by
  obtain ⟨words, new, d₁, journal, st₁, halloc, hmove⟩ := tryRealloc_eq_ok hrunning hrun
  have hamong : Segment.Separate { st with journal }.space ((old :: others) ++ d.pool.segments) :=
    hsep
  obtain ⟨hobtained, hpool, hseparate⟩ := allocated_among_of_allocNoExc hamong halloc
  obtain ⟨traps, framePointer, m, links, d₂, -, -, -, hlinks, -, rfl⟩ := moveTo_eq_ok hmove
  have hsame : d₁.links = d.links := by rw [hpool]
  refine ⟨Segment.filled old new, rfl, ?_, ?_, fun t ht => ?_⟩
  · exact hobtained.formed.base_le_sp.trans hobtained.formed.sp_le_high
  · rw [← hsame]
    exact NativeLink.mapM_relocate_eq_ok hlinks
  · exact hseparate.high_ne (List.mem_append_left _ ht)

end Domain

end FiberStacks
