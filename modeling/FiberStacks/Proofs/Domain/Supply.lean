import FiberStacks.Proofs.Domain.Segments
import FiberStacks.Proofs.Pool.SizeClass

/-!
# Where the segments of a domain come from

A request for a segment is met from the list of its class, or by building one at free addresses.
Either way the segment is what would be built for the request at some address, so a request cannot
tell the two apart. A segment that is freed goes back on the list of its class if the domain built
it, and is released if it did not, or if it has no class.
-/

namespace FiberStacks

/-! ### Building -/

/-- What a domain builds segments from, and on what terms it keeps them. -/
structure Supplier where
  id : DomainId
  policy : Policy
  /-- The domain whose segments are kept. -/
  owner : DomainId
  baseWords : Nat
  /-- Whether bodies are wiped when segments are kept. -/
  wipe : Bool

def Domain.supplier (d : Domain) : Supplier :=
  ⟨d.id, d.policy, d.pool.owner, d.pool.baseWords, d.pool.wipe⟩

namespace Segment

def requestBytes (words : Nat) : Nat := words * wordBytes + wordBytes + handlerBlockBytes

/-- The segment that is built for a request of `words` words at an address. -/
def built (o : Supplier) (words : Nat) (id : FiberId) (start : Nat) : Segment :=
  place (.sized o.policy (requestBytes words) start) words (SizeClass.forSize? words o.baseWords)
    o.id id

variable {o : Supplier} {words start : Nat} {id : FiberId}

theorem bodyWords_built (hstart : o.policy.align ∣ start) :
    (built o words id start).bodyWords = Size.roundUp words 2 := by
  have haligned := MemoryBlock.usableStart_sized hstart (requestBytes words)
  simp only [built, place, bodyWords, Size.roundUp, Size.ceilDiv, wordBytes]
  omega

/-- A segment without what changes while a fiber uses it. -/
def rested (s : Segment) : Segment := { s with sp := s.high, savedExn := 0 }

/-- A segment without what changes from one fiber to the next. -/
def bare (s : Segment) : Segment := { s.rested with id := .main }

/-- What stays is the memory of a segment, its class, its owner and its tag. -/
theorem bare_eq_iff {s t : Segment} : s.bare = t.bare ↔
    s.memory = t.memory ∧ s.base = t.base ∧ s.high = t.high ∧ s.poolClass = t.poolClass ∧
      s.owner = t.owner ∧ s.magic = t.magic := by
  simp only [bare, rested, mk.injEq]
  tauto

end Segment

/-- The segment was built by the supplier, whatever has been done with it since. -/
def Supplier.Makes (o : Supplier) (s : Segment) : Prop :=
  ∃ words start, o.policy.align ∣ start ∧ s.bare = (Segment.built o words .main start).bare

/-- What suppliers obtain from free addresses: nothing, or one segment. Some of the addresses may go
to other purposes. -/
inductive AddressSpace.Yields (space : AddressSpace) (suppliers : List Supplier) :
    List Segment → AddressSpace → Prop where
  | nothing {space' : AddressSpace} (grows : space.Grows space')
      (recorded : space'.segments = space.segments) : Yields space suppliers [] space'
  | segment {o : Supplier} {words start : Nat} {id : FiberId} {s : Segment} {space' : AddressSpace}
      (supplier : o ∈ suppliers) (aligned : o.policy.align ∣ start)
      (built : s = .built o words id start) (formed : s.Formed) (base_pos : 0 < s.base)
      (grants : space.Grants s.base (s.high + handlerBlockBytes) space')
      (recorded : space'.segments = s.footprint :: space.segments) :
      Yields space suppliers [s] space'

theorem AddressSpace.Yields.mono {space space' : AddressSpace} {suppliers more : List Supplier}
    {new : List Segment} (h : space.Yields suppliers new space') (hsub : suppliers ⊆ more) :
    space.Yields more new space' := by
  cases h with
  | nothing hgrows hrecorded => exact .nothing hgrows hrecorded
  | segment hmem haligned hbuilt hformed hpos hgrants hrecorded =>
      exact .segment (hsub hmem) haligned hbuilt hformed hpos hgrants hrecorded

theorem AddressSpace.Yields.grows {space space' : AddressSpace} {suppliers : List Supplier}
    {new : List Segment} (h : space.Yields suppliers new space') : space.Grows space' := by
  cases h with
  | nothing hgrows _ => exact hgrows
  | segment _ _ _ _ _ hgrants _ => exact hgrants.grows

theorem Segment.built_of_allocate {m₀ m : Memory} {space space' : AddressSpace} {o : Supplier}
    {words : Nat} {h : Handlers} {id : FiberId} {s : Segment}
    (hrun : allocate m₀ space o.policy words (SizeClass.forSize? words o.baseWords) o.id h id =
      .ok (.ok (s, m, space'))) :
    (∃ start, o.policy.align ∣ start ∧ s = built o words id start) ∧ m = (s.reinit m₀ h id).2 ∧
      space.Yields [o] [s] space' := by
  obtain ⟨hobtained, hpos, hgrants⟩ := obtained_of_allocate hrun
  suffices hbuilt : (∃ start, o.policy.align ∣ start ∧ s = built o words id start) ∧
      m = (s.reinit m₀ h id).2 ∧ space'.segments = s.footprint :: space.segments by
    obtain ⟨⟨start, hstart, hs⟩, hm, hrecorded⟩ := hbuilt
    exact ⟨⟨start, hstart, hs⟩, hm,
      .segment (by simp) hstart hs hobtained.formed hpos hgrants hrecorded⟩
  unfold allocate at hrun
  cases hbytes : Size.mul? words wordBytes with
  | none =>
      rw [hbytes] at hrun
      cases hrun
  | some bodyBytes =>
      have hbody := Size.eq_of_mul?_eq_some hbytes
      rw [hbytes] at hrun
      obtain ⟨grid, hgrid, hrun⟩ := Run.except_bind_eq_ok_iff.mp hrun
      obtain ⟨total, htotal, hrun⟩ := Run.except_bind_eq_ok_iff.mp hrun
      obtain ⟨result, hresult, hrun⟩ := Run.except_bind_eq_ok_iff.mp hrun
      have htotal : total = requestBytes words := by
        rw [Size.eq_of_add_eq_ok htotal, Size.eq_of_add_eq_ok hgrid, hbody, requestBytes]
      cases result with
      | error e => cases hrun
      | ok pair =>
          obtain ⟨block, after⟩ := pair
          obtain ⟨hsegments, start, hstart, hblock⟩ := AddressSpace.sized_of_allocate hresult
          rw [htotal] at hblock
          cases hrun
          refine ⟨⟨start, hstart, ?_⟩, rfl, ?_⟩
          · rw [hblock]
            rfl
          · rw [AddressSpace.recordSegment, hsegments]

end FiberStacks
