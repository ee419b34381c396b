import FiberStacks.Proofs.Growth.Moved

/-!
# Growth comes to an end

A body that is not empty grows to a size that is at least twice its own, or growth is refused. If
that size is one of the machine in bytes, no sum on the way leaves the range of sizes. Nothing has
to be relocated where no register and no native call points into the segment that is replaced.
-/

namespace FiberStacks

namespace GrowthTarget

variable {size max needed n : Nat}

/-- The size that is found is the old one, doubled as often as it takes. -/
theorem exists_of_find (h : find size max needed = .words n) :
    ∃ k, n = size * 2 ^ (k + 1) ∧ needed ≤ n := by
  fun_induction find size max needed with
  | case1 => cases h
  | case2 => cases h
  | case3 size hmax hlimit hneeded =>
      cases h
      exact ⟨0, by simp, hneeded⟩
  | case4 => cases h
  | case5 size hmax hlimit hneeded hzero ih =>
      obtain ⟨k, hn, hle⟩ := ih h
      exact ⟨k + 1, by rw [hn, Nat.pow_succ' (n := k + 1), Nat.mul_assoc], hle⟩

theorem lt_of_find (h : find size max needed = .words n) : n < max * 2 := by
  fun_induction find size max needed with
  | case1 => cases h
  | case2 => cases h
  | case3 size hmax hlimit hneeded =>
      cases h
      omega
  | case4 => cases h
  | case5 size hmax hlimit hneeded hzero ih => exact ih h

theorem find_ne_endless (hsize : 0 < size) : find size max needed ≠ .endless := by
  fun_induction find size max needed with
  | case1 => simp
  | case2 => simp
  | case3 => simp
  | case4 => omega
  | case5 size hmax hlimit hneeded hzero ih => exact ih (by omega)

end GrowthTarget

/-! ### Obtaining -/

theorem AddressSpace.checked_allocatePages (space : AddressSpace) (policy : Policy) (bytes : Nat) :
    Run.Checked
      ((if policy = .guarded then pageBytes else 0) + Size.roundUp bytes pageBytes < Size.limit)
      (fun _ => (if policy = .guarded then pageBytes else 0) + Size.roundUp bytes pageBytes <
        Size.limit)
      (space.allocatePages policy bytes) := by
  unfold allocatePages
  generalize (if policy = .guarded then pageBytes else 0) = guardLength
  refine (Size.checked_mul.of_imp fun h => ?_).bind fun body hbody => ?_
  · exact Nat.lt_of_le_of_lt (Nat.le_add_left _ guardLength) h
  · rw [hbody.1]
    refine Size.checked_add.bind fun length hlength => ?_
    split <;> exact .answer hlength.2

theorem AddressSpace.checked_allocate (space : AddressSpace) (policy : Policy) {bytes : Nat}
    (hbytes : 0 < bytes) (hlimit : bytes < Size.limit) :
    Run.Checked ((MemoryBlock.sized policy bytes 0).length < Size.limit)
      (fun _ => (MemoryBlock.sized policy bytes 0).length < Size.limit)
      (space.allocate policy bytes) := by
  unfold allocate
  rw [if_neg (Nat.ne_of_gt hbytes)]
  cases policy with
  | heap => exact .answer hlimit
  | mapped =>
      have hchecked := space.checked_allocatePages .mapped bytes
      simp only [reduceCtorEq, if_false, Nat.zero_add] at hchecked
      exact hchecked
  | guarded => exact space.checked_allocatePages .guarded bytes

namespace Segment

/-- Either the words of a request are no number of bytes, or the block for them is. In between one
of the sums leaves the range of sizes. -/
def Requestable (policy : Policy) (words : Nat) : Prop :=
  Size.limit ≤ words * wordBytes ∨
    (MemoryBlock.sized policy (requestBytes words) 0).length < Size.limit

theorem le_length_sized (policy : Policy) (bytes : Nat) :
    bytes ≤ (MemoryBlock.sized policy bytes 0).length := by
  have hround := Size.le_roundUp (show 0 < pageBytes by decide) bytes
  cases policy with
  | heap => exact Nat.le_refl _
  | mapped => exact hround
  | guarded => exact Nat.le_trans hround (Nat.le_add_left _ _)

theorem length_sized_lt (policy : Policy) (bytes : Nat) :
    (MemoryBlock.sized policy bytes 0).length < bytes + 2 * pageBytes := by
  have hround := Size.roundUp_lt (show 0 < pageBytes by decide) bytes
  have hpage : 0 < pageBytes := by decide
  cases policy with
  | heap =>
      change bytes < _
      omega
  | mapped =>
      change Size.roundUp bytes pageBytes < _
      omega
  | guarded =>
      change pageBytes + Size.roundUp bytes pageBytes < _
      omega

theorem checked_allocate (m : Memory) (space : AddressSpace) (policy : Policy) (words : Nat)
    (poolClass : Option SizeClass) (owner : DomainId) (h : Handlers) (id : FiberId) :
    Run.Checked (Requestable policy words) (fun _ => Requestable policy words)
      (allocate m space policy words poolClass owner h id) := by
  unfold allocate
  by_cases hlarge : Size.limit ≤ words * wordBytes
  · rw [Size.mul?, if_neg (Nat.not_lt.mpr hlarge)]
    exact .answer (.inl hlarge)
  · have hrequest : Requestable policy words → requestBytes words < Size.limit := fun h =>
      Nat.lt_of_le_of_lt (le_length_sized policy _) (h.resolve_left hlarge)
    rw [Size.mul?, if_pos (Nat.not_le.mp hlarge)]
    refine (Size.checked_add.of_imp fun h => ?_).bind fun grid hgrid => ?_
    · exact Nat.lt_of_le_of_lt (Nat.le_add_right _ handlerBlockBytes) (hrequest h)
    · rw [hgrid.1]
      refine (Size.checked_add.of_imp hrequest).bind fun total htotal => ?_
      rw [htotal.1]
      have hchecked := space.checked_allocate policy
        (show 0 < requestBytes words from Nat.succ_pos _) htotal.2
      refine (hchecked.of_imp fun h => h.resolve_left hlarge).bind fun result hlength => ?_
      cases result with
      | error => exact .answer (.inr hlength)
      | ok => exact .answer (.inr hlength)

/-- A size in memory can be requested, doubled any number of times. -/
theorem requestable_of_doubled {size words k : Nat} (policy : Policy)
    (hsize : size * wordBytes ≤ AddressSpace.limit) (hwords : words = size * 2 ^ k) :
    Requestable policy words := by
  by_cases hbytes : Size.limit ≤ words * wordBytes
  · exact .inl hbytes
  refine .inr (Nat.lt_of_lt_of_le (length_sized_lt policy _) ?_)
  simp only [requestBytes, handlerBlockBytes, pageBytes, Size.limit_eq, wordBytes,
    AddressSpace.limit] at *
  rcases Nat.lt_or_ge 16 k with hk | hk
  -- The size is a multiple of many pages, so it is pages away from the limit.
  · have hpow : 2 ^ k = 2 ^ 17 * 2 ^ (k - 17) := by
      rw [← Nat.pow_add, Nat.add_sub_cancel' hk]
    have hmul : words = 2 ^ 17 * (size * 2 ^ (k - 17)) := by
      rw [hwords, hpow, Nat.mul_left_comm]
    omega
  · have hpow : 2 ^ k ≤ 2 ^ 16 := Nat.pow_le_pow_right (by decide) hk
    have hmul : size * 2 ^ k ≤ size * 2 ^ 16 := Nat.mul_le_mul_left size hpow
    omega

end Segment

namespace Domain

variable {d : Domain} {old new : Segment} {outer : Chain} {words required : Nat}

theorem exists_allocNoExc (d : Domain) (h : Handlers) (id : FiberId) (st : MachineState)
    (hwords : Segment.Requestable d.policy words) :
    ∃ s? d' st', d.allocNoExc words h id st = .ok (s?, d') st' := by
  obtain ⟨s?, pool, j, hreuse, -⟩ := d.pool.reuse?_cases (d.pool.classFor? words) st
  unfold allocNoExc
  simp only
  rw [Run.bind_of_ok hreuse]
  cases s? with
  | some s => exact ⟨_, _, _, rfl⟩
  | none =>
      obtain ⟨r, hr, -⟩ := (Segment.checked_allocate st.memory st.space d.policy words
        (d.pool.classFor? words) d.id h id).exists_ok hwords
      have hget : (get : Machine MachineState) { st with journal := j } = .ok _ _ := rfl
      simp only
      unfold allocFresh
      rw [Run.bind_of_ok hget, Run.bind_lift_of_ok hr]
      rcases r with e | ⟨s, m, space⟩ <;> exact ⟨_, _, _, rfl⟩

/-- A request that is declined was made. -/
theorem requestable_of_declined {d' : Domain} {h : Handlers} {id : FiberId} {st st' : MachineState}
    (hrun : d.allocNoExc words h id st = .ok (none, d') st') :
    Segment.Requestable d.policy words := by
  unfold allocNoExc at hrun
  obtain ⟨⟨pooled, pool⟩, st₁, -, hrun⟩ := Run.bind_eq_ok_iff.mp hrun
  cases pooled with
  | some => cases hrun
  | none =>
      obtain ⟨r, st₂, -, hrun⟩ := Run.bind_eq_ok_iff.mp hrun
      obtain ⟨result, st₃, hresult, -⟩ := Run.bind_eq_ok_iff.mp hrun
      obtain ⟨hallocate, -⟩ := Run.lift_eq_ok_iff.mp hresult
      exact (Segment.checked_allocate _ _ _ _ _ _ _ _).of_eq_ok hallocate

/-! ### Moving -/

theorem exists_logGrowth {st : MachineState}
    (hwords : st.journal.wouldLog .info = true → words * wordBytes < Size.limit) :
    ∃ st', logGrowth words st = .ok () st' := by
  have hlevel : Machine.wouldLog .info st = .ok (st.journal.wouldLog .info) st := rfl
  unfold logGrowth
  rw [Run.bind_of_ok hlevel]
  split
  · rename_i hinfo
    rw [Run.bind_lift_of_ok (Size.mul_eq (hwords hinfo))]
    split <;> exact ⟨_, rfl⟩
  · exact ⟨_, rfl⟩

theorem lt_of_logGrowth {st st' : MachineState} (hinfo : st.journal.wouldLog .info = true)
    (hrun : logGrowth words st = .ok () st') : words * wordBytes < Size.limit := by
  unfold logGrowth at hrun
  obtain ⟨would, st₁, hwould, hlog⟩ := Run.bind_eq_ok_iff.mp hrun
  cases hwould
  rw [if_pos hinfo] at hlog
  obtain ⟨bytes, st₂, hbytes, -⟩ := Run.bind_eq_ok_iff.mp hlog
  exact (Size.checked_mul.of_eq_ok (Run.lift_eq_ok_iff.mp hbytes).1).2

theorem exists_moveTo {r : TrapWalk × (Nat × Memory) × List NativeLink}
    (hold : old.magic = segmentMagic) (hroom : old.usedWords * wordBytes ≤ new.high - new.base)
    {st : MachineState}
    (hrelocated : d.relocated old (Segment.filled old new) outer st.memory = .ok r) :
    ∃ d' st', d.moveTo old outer new st = .ok d' st' := by
  obtain ⟨traps, ⟨framePointer, m⟩, links⟩ := r
  rw [moveTo_run hroom, Run.bind_lift_of_ok hrelocated]
  simp only
  rw [Run.bind_of_ok (Machine.setMemory_run m st)]
  obtain ⟨d', st', hfree⟩ := d.exists_freeSegment hold _
  rw [Run.bind_of_ok hfree]
  exact ⟨_, _, rfl⟩

/-- Nothing is relocated where neither registers nor native calls point into the old segment. -/
theorem exists_relocated (hexn : old.contains d.exnHandler = false)
    (hpointers : d.framePointers = false) (hlinks : d.links = []) (m : Memory) :
    ∃ r, d.relocated old new outer m = .ok r := by
  unfold relocated relocatedRecords
  rw [TrapWalk.relocate_of_outside (by exact hexn), hpointers, hlinks]
  exact ⟨_, rfl⟩

/-- What the running segment would grow to is a number of bytes. -/
def Fits (d : Domain) (required : Nat) : Prop :=
  ∀ s outer needed words, d.running = s :: outer → Size.add? s.usedWords required = some needed →
    GrowthTarget.find s.bodyWords d.maxWords needed = .words words → words * wordBytes < Size.limit

theorem fits_of_maxWords (h : d.maxWords * 2 * wordBytes ≤ Size.limit) (required : Nat) :
    d.Fits required := by
  intro s outer needed words _ _ hfind
  have hlt := GrowthTarget.lt_of_find hfind
  simp only [wordBytes] at h ⊢
  omega

theorem fits_of_tryRealloc {st st' : MachineState} {r : Bool × Domain}
    (hinfo : st.journal.wouldLog .info = true) (hrun : d.tryRealloc required st = .ok r st') :
    d.Fits required := by
  intro s outer needed words hrunning hneeded hfind
  unfold tryRealloc at hrun
  rw [hrunning] at hrun
  simp only [hneeded, hfind] at hrun
  obtain ⟨_, st₁, hlog, -⟩ := Run.bind_eq_ok_iff.mp hrun
  exact lt_of_logGrowth hinfo hlog

/-- Growth succeeds or is refused, if what has to be relocated can be relocated to a segment of the
size that is asked for. -/
theorem exists_tryRealloc {st : MachineState} (hrunning : d.running = old :: outer)
    (hold : old.Formed) (htagged : old.magic = segmentMagic) (hbody : 0 < old.bodyWords)
    (hfits : st.journal.wouldLog .info = true → d.Fits required)
    (hmet : ∀ words h id journal new d₁ st₁, old.bodyWords * 2 ≤ words → old.usedWords ≤ words →
      d.allocNoExc words h id { st with journal } = .ok (some new, d₁) st₁ →
        old.usedWords * wordBytes ≤ new.high - new.base ∧
          ∃ r, d₁.relocated old (Segment.filled old new) outer st₁.memory = .ok r) :
    ∃ grown d' st', d.tryRealloc required st = .ok (grown, d') st' := by
  have hsize : old.bodyWords * wordBytes ≤ AddressSpace.limit := by
    have hlimit := hold.high_le
    have hdiv := Nat.div_mul_le_self (old.high - old.base) wordBytes
    unfold Segment.bodyWords
    omega
  unfold tryRealloc
  rw [hrunning]
  simp only
  cases hneeded : Size.add? old.usedWords required with
  | none => exact ⟨_, _, _, rfl⟩
  | some needed =>
      simp only
      cases hfind : GrowthTarget.find old.bodyWords d.maxWords needed with
      | refused => exact ⟨_, _, _, rfl⟩
      | endless => exact absurd hfind (GrowthTarget.find_ne_endless hbody)
      | words words =>
          obtain ⟨k, hwords, hroom⟩ := GrowthTarget.exists_of_find hfind
          obtain ⟨st₁, hlog⟩ := exists_logGrowth fun hinfo =>
            hfits hinfo old outer needed words hrunning hneeded hfind
          obtain ⟨journal, rfl⟩ := logGrowth_eq_ok hlog
          obtain ⟨new?, d₁, st₂, halloc⟩ := d.exists_allocNoExc (old.handlers st.memory) old.id
            { st with journal } (Segment.requestable_of_doubled d.policy hsize hwords)
          simp only
          rw [Run.bind_of_ok hlog, Run.bind_of_ok (Machine.memory_run _), Run.bind_of_ok halloc]
          cases new? with
          | none => exact ⟨_, _, _, rfl⟩
          | some new =>
              have hdouble : old.bodyWords * 2 ≤ words := by
                rw [hwords, Nat.pow_succ', ← Nat.mul_assoc]
                exact Nat.le_mul_of_pos_right _ (Nat.two_pow_pos k)
              have hused : old.usedWords ≤ words := by
                have hsum := Size.eq_of_add?_eq_some hneeded
                omega
              obtain ⟨hfit, r, hrelocated⟩ := hmet _ _ _ _ _ _ _ hdouble hused halloc
              obtain ⟨d', st', hmove⟩ := exists_moveTo htagged hfit hrelocated
              simp only
              rw [Run.bind_of_ok hmove]
              exact ⟨_, _, _, rfl⟩

end Domain

end FiberStacks
