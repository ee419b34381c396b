import FiberStacks.Proofs.Domain.Supply

/-!
# Obtaining and freeing, in full

A request for a segment and the return of a segment are told here with all that they leave: the
lists of the pool, memory, and the addresses that are handed out.
-/

namespace FiberStacks.Domain

variable {d d' : Domain} {words : Nat} {h : Handlers} {id : FiberId} {s : Segment}
  {st st' : MachineState}

/-- What a request leaves that is met. The segment was on the list of its class, or it is built. -/
inductive Obtains (d : Domain) (words : Nat) (h : Handlers) (id : FiberId) (st : MachineState) :
    Segment → Domain → MachineState → Prop
  | reused {k : SizeClass} {s : Segment} {pool : Pool} {journal : Journal} :
      d.pool.classFor? words = some k → pool.Gains k s d.pool →
      Obtains d words h id st (s.reinit st.memory h id).1 { d with pool }
        { st with memory := (s.reinit st.memory h id).2, journal }
  | built {start : Nat} {s : Segment} {space : AddressSpace} {stats : PoolStats}
      {journal : Journal} :
      d.supplier.policy.align ∣ start → s = .built d.supplier words id start →
      st.space.Yields [d.supplier] [s] space →
      Obtains d words h id st s { d with pool := { d.pool with stats } }
        { st with memory := (s.reinit st.memory h id).2, space, journal }

/-- Nothing changes but the journal and the counters of the pool. -/
def Quiet (d : Domain) (st : MachineState) (d' : Domain) (st' : MachineState) : Prop :=
  ∃ stats journal, d' = { d with pool := { d.pool with stats } } ∧ st' = { st with journal }

theorem Quiet.refl (d : Domain) (st : MachineState) : d.Quiet st d st :=
  ⟨d.pool.stats, st.journal, rfl, rfl⟩

/-- A request that is not met leaves no trace but in the journal and in the counters of the pool. -/
theorem quiet_of_allocNoExc (hrun : d.allocNoExc words h id st = .ok (none, d') st') :
    d.Quiet st d' st' := by
  unfold allocNoExc at hrun
  obtain ⟨⟨pooled, pool⟩, st₁, hreuse, hrun⟩ := Run.bind_eq_ok_iff.mp hrun
  obtain ⟨s?, q, j, hpick, hpool⟩ := d.pool.reuse?_cases (d.pool.classFor? words) st
  cases hpick.symm.trans hreuse
  cases pooled with
  | some s => cases hrun
  | none =>
      simp only at hpool hrun
      rw [hpool] at hrun
      unfold allocFresh at hrun
      obtain ⟨r, st₂, hget, hrun⟩ := Run.bind_eq_ok_iff.mp hrun
      cases hget
      obtain ⟨result, st₂, hresult, hrun⟩ := Run.bind_eq_ok_iff.mp hrun
      obtain ⟨-, rfl⟩ := Run.lift_eq_ok_iff.mp hresult
      cases result with
      | error e =>
          cases hrun
          exact ⟨_, _, rfl, rfl⟩
      | ok triple => cases hrun

theorem obtains_of_allocNoExc (hrun : d.allocNoExc words h id st = .ok (some s, d') st') :
    d.Obtains words h id st s d' st' := by
  unfold allocNoExc at hrun
  obtain ⟨⟨pooled, pool⟩, st₁, hreuse, hrun⟩ := Run.bind_eq_ok_iff.mp hrun
  obtain ⟨s?, q, j, hpick, hpool⟩ := d.pool.reuse?_cases (d.pool.classFor? words) st
  cases hpick.symm.trans hreuse
  cases pooled with
  | some t =>
      obtain ⟨k, hclass, hgains⟩ := hpool
      cases hrun
      exact .reused hclass hgains
  | none =>
      simp only at hpool hrun
      rw [hpool] at hrun
      unfold allocFresh at hrun
      obtain ⟨r, st₂, hget, hrun⟩ := Run.bind_eq_ok_iff.mp hrun
      cases hget
      obtain ⟨result, st₂, hresult, hrun⟩ := Run.bind_eq_ok_iff.mp hrun
      obtain ⟨hallocate, rfl⟩ := Run.lift_eq_ok_iff.mp hresult
      cases result with
      | error e =>
          obtain ⟨_, st₃, -, hrun⟩ := Run.bind_eq_ok_iff.mp hrun
          cases hrun
      | ok triple =>
          obtain ⟨t, m, space⟩ := triple
          cases hrun
          obtain ⟨⟨start, hstart, hbuilt⟩, rfl, hyields⟩ :=
            Segment.built_of_allocate (o := d.supplier) hallocate
          exact .built hstart hbuilt hyields

/-! ### What becomes of the segments -/

theorem Obtains.supplier_eq (hobtains : d.Obtains words h id st s d' st') :
    d'.supplier = d.supplier := by
  cases hobtains with
  | reused hclass hgains =>
      simp only [supplier, hgains.owner, hgains.baseWords, hgains.wipe]
  | built => rfl

/-- Requests take segments from the lists, and put none there. -/
theorem Obtains.list_subset (hobtains : d.Obtains words h id st s d' st') (k : SizeClass) :
    ∀ t ∈ d'.pool.list k, t ∈ d.pool.list k := by
  intro t ht
  cases hobtains with
  | reused hclass hgains => exact hgains.mem_list_of_mem ht
  | built => exact ht

/-- The memory of a segment comes from a pooled one, or from addresses that were free. -/
theorem Obtains.owns (hobtains : d.Obtains words h id st s d' st') :
    (∃ k, ∃ t ∈ d.pool.list k, ∀ a, s.Owns a → t.Owns a) ∨
      ∀ a, s.Owns a → ¬ st.space.Taken a := by
  cases hobtains with
  | @reused k t pool journal hclass hgains =>
      refine .inl ⟨k, t, ?_, fun a ha => ha⟩
      rw [hgains.front]
      exact List.mem_cons_self
  | built _ _ hyields =>
      refine .inr fun a ha => ?_
      cases hyields with
      | segment _ _ _ _ _ hgrants => exact hgrants.free a ha.1 ha.2

theorem Obtains.eq (hobtains : d.Obtains words h id st s d' st') :
    d' = { d with pool := d'.pool } := by
  cases hobtains <;> rfl

theorem Obtains.running_eq (hobtains : d.Obtains words h id st s d' st') :
    d'.running = d.running := by
  cases hobtains <;> rfl

theorem Obtains.id_eq (hobtains : d.Obtains words h id st s d' st') : s.id = id := by
  cases hobtains with
  | reused => rfl
  | built _ hbuilt => rw [hbuilt, Segment.built, Segment.place]

theorem Obtains.nextFiber_eq (hobtains : d.Obtains words h id st s d' st') :
    st'.nextFiber = st.nextFiber := by
  cases hobtains <;> rfl

theorem Obtains.nextDomain_eq (hobtains : d.Obtains words h id st s d' st') :
    st'.nextDomain = st.nextDomain := by
  cases hobtains <;> rfl

/-- Apart from new ones the segments are those that there were. -/
theorem Obtains.segments (hobtains : d.Obtains words h id st s d' st')
    (htagged : ∀ t ∈ d.segments, t.magic = segmentMagic) :
    ∃ new, st.space.Yields [d.supplier] new st'.space ∧
      ((s :: d'.segments).map Segment.bare).Perm ((new ++ d.segments).map Segment.bare) := by
  cases hobtains with
  | @reused k t pool journal hclass hgains =>
      refine ⟨[], .nothing (.refl _) rfl, ?_⟩
      have hsegments : (t :: Domain.segments { d with pool }).Perm d.segments :=
        List.perm_middle.symm.trans (hgains.segments.symm.append_left d.running)
      have ht := htagged t (hsegments.mem_iff.mp List.mem_cons_self)
      have hbare : (t.reinit st.memory h id).1.bare = t.bare := by
        simp only [Segment.reinit, Segment.bare, Segment.rested, ht]
      rw [List.map_cons, hbare]
      exact hsegments.map Segment.bare
  | built _ _ hyields => exact ⟨[s], hyields, List.Perm.refl _⟩

theorem Obtains.formed (hobtains : d.Obtains words h id st s d' st')
    (hformed : ∀ t ∈ d.segments, t.Formed) : s.Formed ∧ ∀ t ∈ d'.segments, t.Formed := by
  cases hobtains with
  | @reused k t pool journal hclass hgains =>
      have hmem : ∀ u ∈ t :: pool.segments, u ∈ d.segments := fun u hu =>
        List.mem_append_right _ (hgains.segments.mem_iff.mpr hu)
      have ht := hformed t (hmem t List.mem_cons_self)
      refine ⟨?_, fun u hu => ?_⟩
      · exact (Segment.obtained_reinit (m := st.memory) h id
          (Nat.le_trans ht.base_le_sp ht.sp_le_high) ht.high_aligned ht.high_le).formed
      · rcases List.mem_append.mp hu with hrunning | hpooled
        · exact hformed u (List.mem_append_left _ hrunning)
        · exact hformed u (hmem u (List.mem_cons_of_mem t hpooled))
  | built _ _ hyields =>
      refine ⟨?_, hformed⟩
      cases hyields with
      | segment _ _ _ hs => exact hs

theorem Frees.supplier_eq (hfrees : d.Frees s st d' st') : d'.supplier = d.supplier := by
  cases hfrees with
  | kept _ _ hgains => simp only [supplier, hgains.owner, hgains.baseWords, hgains.wipe]
  | released => rfl

/-- Freeing concerns the pool of a domain and nothing else of it. -/
theorem Frees.of_pool {d₀ : Domain} (hfrees : d.Frees s st d' st') (hpool : d₀.pool = d.pool) :
    d₀.Frees s st { d₀ with pool := d'.pool } st' := by
  cases hfrees with
  | kept hmagic hkeeps hgains =>
      rw [← hpool] at hkeeps hgains ⊢
      exact .kept hmagic hkeeps hgains
  | released hmagic hkeeps =>
      rw [← hpool] at hkeeps ⊢
      exact .released hmagic hkeeps

theorem Frees.running_eq (hfrees : d.Frees s st d' st') : d'.running = d.running := by
  cases hfrees <;> rfl

theorem Frees.space_eq (hfrees : d.Frees s st d' st') : st'.space = st.space := by
  cases hfrees <;> rfl

theorem Frees.nextFiber_eq (hfrees : d.Frees s st d' st') : st'.nextFiber = st.nextFiber := by
  cases hfrees <;> rfl

theorem Frees.nextDomain_eq (hfrees : d.Frees s st d' st') : st'.nextDomain = st.nextDomain := by
  cases hfrees <;> rfl

/-- A segment that is freed and kept is in front of the list of its class. -/
theorem Frees.list_eq (hfrees : d.Frees s st d' st') (k : SizeClass) :
    d'.pool.list k = ([s].filter fun t => d.pool.keeps? t = some k) ++ d.pool.list k := by
  cases hfrees with
  | @kept l pool journal hmagic hkeeps hgains =>
      by_cases hk : k = l
      · subst hk
        simpa [hkeeps] using hgains.front
      · simpa [hkeeps, Ne.symm hk] using hgains.other k hk
  | released hmagic hkeeps => simp [hkeeps, Pool.list]

/-- A segment that is freed goes to the pool, or is refused. -/
theorem Frees.pooled (hfrees : d.Frees s st d' st') :
    (d'.pool.segments ++ d.pool.refused [s]).Perm (s :: d.pool.segments) := by
  cases hfrees with
  | kept _ hkeeps hgains =>
      have hrefused : d.pool.refused [s] = [] := by simp [Pool.refused, hkeeps]
      rw [hrefused, List.append_nil]
      exact hgains.segments
  | released _ hkeeps =>
      have hrefused : d.pool.refused [s] = [s] := by simp [Pool.refused, hkeeps]
      rw [hrefused]
      exact List.perm_append_singleton s _

theorem Frees.segments (hfrees : d.Frees s st d' st') :
    (d'.segments ++ d.pool.refused [s]).Perm (s :: d.segments) := by
  rw [Domain.segments, hfrees.running_eq, List.append_assoc]
  exact (hfrees.pooled.append_left d.running).trans List.perm_middle

end FiberStacks.Domain
