import FiberStacks.Proofs.Domain.Exchange
import FiberStacks.Proofs.Domain.Switching

/-!
# Freeing chains

A chain is freed segment by segment, innermost first, whether a caller gives it up or a continuation
is discarded. Each segment goes to the pool of the domain that frees it, or is refused there.
-/

namespace FiberStacks.Domain

variable {d d' : Domain} {k k' : Continuation} {chain : Chain} {st st' : MachineState}

/-- What freeing a chain leaves. Each segment is in front of the list of its class, the one freed
last foremost, or it is refused. Memory changes on the chain, and nothing else changes but the
pool. -/
structure Reclaims (d : Domain) (chain : Chain) (st : MachineState) (d' : Domain)
    (st' : MachineState) : Prop where
  pool : d' = { d with pool := d'.pool }
  list : ∀ k, d'.pool.list k =
    (chain.filter fun s => d.pool.keeps? s = some k).reverse ++ d.pool.list k
  segments : (d'.pool.segments ++ d.pool.refused chain).Perm (chain ++ d.pool.segments)
  space : st'.space = st.space
  elsewhere : (∀ s ∈ chain, s.Formed) → ∀ {a}, (∀ s ∈ chain, ¬ s.Owns a) →
    st'.memory.read a = st.memory.read a

theorem reclaims_of_free (hrun : d.free chain st = .ok d' st') : d.Reclaims chain st d' st' := by
  induction chain generalizing d st with
  | nil =>
      cases hrun
      exact ⟨rfl, fun _ => rfl, by simp [Pool.refused], rfl, fun _ _ _ => rfl⟩
  | cons s outer ih =>
      rw [free, List.foldlM_cons] at hrun
      obtain ⟨d₁, st₁, hfirst, hrest⟩ := Run.bind_eq_ok_iff.mp hrun
      have hfrees := frees_of_freeSegment hfirst
      obtain ⟨hpool, hlist, hsegments, hspace, helsewhere⟩ := ih hrest
      -- What a pool keeps depends on its owner only, so it is the same at each segment.
      have howner : d₁.pool.owner = d.pool.owner := congrArg Supplier.owner hfrees.supplier_eq
      rw [Pool.refused_congr howner] at hsegments
      refine ⟨?_, fun k => ?_, ?_, hspace.trans hfrees.space_eq, fun hformed a ha => ?_⟩
      · rw [hpool, hfrees.eq.1]
      · rw [hlist, hfrees.list_eq, Pool.keeps?_congr howner, ← List.append_assoc]
        congr 1
        by_cases hkeeps : d.pool.keeps? s = some k <;> simp [hkeeps]
      · have hpooled := hfrees.pooled
        rw [Pool.refused_cons, List.cons_append]
        simp only [List.perm_iff_count, List.count_append, List.count_cons] at hpooled hsegments ⊢
        intro t
        have hhead := hpooled t
        have hrest := hsegments t
        omega
      · obtain ⟨hs, houter⟩ := List.forall_mem_cons.mp hformed
        obtain ⟨hown, hothers⟩ := List.forall_mem_cons.mp ha
        exact (helsewhere houter hothers).trans (hfrees.confines hs a hown)

/-- A chain of segments in use can be freed. -/
theorem exists_free (htagged : ∀ s ∈ chain, s.magic = segmentMagic) (d : Domain)
    (st : MachineState) : ∃ d' st', d.free chain st = .ok d' st' := by
  induction chain generalizing d st with
  | nil => exact ⟨d, st, rfl⟩
  | cons s outer ih =>
      obtain ⟨hs, houter⟩ := List.forall_mem_cons.mp htagged
      obtain ⟨d₁, st₁, hfree⟩ := d.exists_freeSegment hs st
      obtain ⟨d', st', hrest⟩ := ih houter d₁ st₁
      refine ⟨d', st', ?_⟩
      rw [free, List.foldlM_cons, Run.bind_of_ok hfree]
      exact hrest

/-! ### Dropping -/

theorem dropContinuation_of_taken (hk : k.stored = []) (st : MachineState) :
    ∃ j, d.dropContinuation k st =
      .ok (.error .continuationAlreadyResumed, d, k) { st with journal := j } := by
  obtain ⟨j, htake⟩ := Continuation.take_of_taken hk st
  refine ⟨j, ?_⟩
  unfold dropContinuation
  rw [Run.bind_of_ok htake]
  rfl

theorem dropContinuation_of_stored (hk : k.stored ≠ []) (st : MachineState) :
    d.dropContinuation k st = (do
      let d' ← d.free k.stored
      return (.ok (), d', { k with stored := [] }) :
        Machine (Except StackError Unit × Domain × Continuation)) st := by
  unfold dropContinuation
  rw [Run.bind_of_ok (Continuation.take_of_stored hk st)]

/-- What discarding can do: nothing, if the chain was taken before, or it frees the chain. -/
theorem dropContinuation_cases {r : Except StackError Unit}
    (hrun : d.dropContinuation k st = .ok (r, d', k') st') :
    (k.stored = [] ∧ r = .error .continuationAlreadyResumed ∧ d' = d ∧ k' = k ∧
        ∃ journal, st' = { st with journal }) ∨
      (k.stored ≠ [] ∧ r = .ok () ∧ k' = { k with stored := [] } ∧
        d.free k.stored st = .ok d' st') := by
  by_cases hk : k.stored = []
  · obtain ⟨journal, hrefused⟩ := dropContinuation_of_taken (d := d) hk st
    cases hrefused.symm.trans hrun
    exact .inl ⟨hk, rfl, rfl, rfl, journal, rfl⟩
  · rw [dropContinuation_of_stored hk] at hrun
    obtain ⟨d₁, st₁, hfree, hpure⟩ := Run.bind_eq_ok_iff.mp hrun
    cases hpure
    exact .inr ⟨hk, rfl, rfl, hfree⟩

theorem exists_dropContinuation (htagged : ∀ s ∈ k.stored, s.magic = segmentMagic) (d : Domain)
    (st : MachineState) : ∃ r d' k' st', d.dropContinuation k st = .ok (r, d', k') st' := by
  by_cases hk : k.stored = []
  · obtain ⟨j, hdrop⟩ := dropContinuation_of_taken (d := d) hk st
    exact ⟨_, _, _, _, hdrop⟩
  · obtain ⟨d', st', hfree⟩ := exists_free htagged d st
    refine ⟨.ok (), d', { k with stored := [] }, st', ?_⟩
    rw [dropContinuation_of_stored hk, Run.bind_of_ok hfree]
    rfl

end FiberStacks.Domain
