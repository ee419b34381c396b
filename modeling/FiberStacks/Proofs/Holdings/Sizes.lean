import FiberStacks.Proofs.Growth.Totality
import FiberStacks.Proofs.Holdings.Conservation
import FiberStacks.Proofs.Holdings.Stock

/-!
# Sizes of segments

Whatever is written on them, pooled segments stay on the lists of their classes. So a request is met
by a segment of the size that it asks for, and a stack that grows is at least as deep as before.
-/

namespace FiberStacks.Holdings

variable {careful : Prop} {w w' : Holdings} {added removed : List FiberId} {op : Operation}
  {i required : Nat} {d d' : Domain} {old new : Segment} {outer : Chain} {st : MachineState}

theorem Sorted.of_move (h : w.Sorted) (haccounted : w.Accounted)
    (hmove : w.Move careful added removed w') : w'.Sorted := by
  cases hmove with
  | regroup hregroups =>
      intro d' hd' k s hs
      obtain ⟨d, hd, hsupplier, hlist⟩ := hregroups.exists_shelves hd'
      rw [← hlist] at hs
      exact hsupplier ▸ h d hd k s hs
  | obtain hd hobtains =>
      intro d₁ hd₁
      rcases List.mem_or_eq_of_mem_set hd₁ with hmem | rfl
      · exact h d₁ hmem
      · exact (h _ (List.mem_of_getElem? hd)).of_obtains hobtains
  | free hd _ hfrees =>
      intro d₁ hd₁
      rcases List.mem_or_eq_of_mem_set hd₁ with hmem | rfl
      · exact h d₁ hmem
      · have hpresent := List.mem_of_getElem? hd
        obtain ⟨howner, -⟩ := haccounted.numbered _ (List.mem_map_of_mem hpresent)
        exact (h _ hpresent).of_frees howner hfrees
  | create =>
      intro d hd
      rcases List.mem_append.mp hd with hmem | hmem
      · exact h d hmem
      · intro k s hs
        rw [List.mem_singleton.mp hmem, Domain.list_ofSettings] at hs
        cases hs
  | drop => exact fun d hmem => h d (List.mem_of_mem_eraseIdx hmem)

/-- All segments are accounted for, the pooled ones are sorted, and bodies have no broken words. -/
structure InOrder (w : Holdings) : Prop where
  accounted : w.Accounted
  sorted : w.Sorted
  whole : ∀ s ∈ w.everything, wordBytes * s.bodyWords = s.high - s.base

theorem inOrder_start (source : AddressSource) : (start source).InOrder where
  accounted := accounted_start source
  sorted := by simp [Sorted, start]
  whole := by simp [everything_start]

theorem whole_built {o : Supplier} {words start : Nat} {id : FiberId}
    (hstart : o.policy.align ∣ start) :
    wordBytes * (Segment.built o words id start).bodyWords =
      (Segment.built o words id start).high - (Segment.built o words id start).base := by
  have haligned := MemoryBlock.usableStart_sized hstart (Segment.requestBytes words)
  simp only [Segment.built, Segment.place, Segment.bodyWords, wordBytes]
  omega

theorem InOrder.of_move (h : w.InOrder) (hmove : w.Move careful added removed w') :
    w'.InOrder where
  accounted := h.accounted.of_move hmove
  sorted := h.sorted.of_move h.accounted hmove
  whole := by
    refine (hmove.audit h.accounted.tagged).forall_everything
      (fun s t heq hs => ?_) h.whole fun _ _ _ _ _ haligned _ _ => whole_built haligned
    obtain ⟨-, hbase, hhigh, -⟩ := Segment.bare_eq_iff.mp heq
    rwa [Segment.bodyWords, hbase, hhigh] at hs

theorem InOrder.of_step (h : w.InOrder) (hstep : w.Step op w') : w'.InOrder := by
  obtain ⟨added, removed, hmoves, -⟩ := hstep.decomposes h.accounted
  clear hstep
  induction hmoves with
  | refl => exact h
  | tail _ hmove ih => exact ih.of_move hmove

/-- A request for twice the words, or more, is met by a segment that is as deep at least. -/
theorem InOrder.deep_of_tryRealloc (h : w.InOrder) (hd : w.domains[i]? = some d)
    (hrunning : d.running = old :: outer)
    (hrun : d.tryRealloc required w.machine = .ok (true, d') st)
    (hrunning' : d'.running = new :: outer) : old.high - old.base ≤ new.high - new.base := by
  rcases Domain.tryRealloc_cases hrun with ⟨hfalse, -⟩ | ⟨s, chain, needed, words, obtained, d₁,
    journal, st₁, -, hchain, -, hfind, halloc, hmove⟩
  · cases hfalse
  · cases hrunning.symm.trans hchain
    obtain ⟨_, _, _, _, _, -, -, -, -, -, rfl⟩ := Domain.moveTo_eq_ok hmove
    obtain ⟨rfl, -⟩ := List.cons_eq_cons.mp hrunning'
    have hsize := h.accounted.bodyWords_of_allocNoExc h.sorted (List.mem_of_getElem? hd) halloc
    have hroom := Size.le_roundUp (by decide : 0 < 2) words
    have hwhole := h.whole old (List.mem_append_left _ (List.mem_append_left _
      (mem_held_of_running hd (by simp [hrunning]))))
    obtain ⟨k, hwords, -⟩ := GrowthTarget.exists_of_find hfind
    have hdoubled : old.bodyWords ≤ words := hwords ▸ Nat.le_mul_of_pos_right _ (Nat.two_pow_pos _)
    rw [← hsize] at hroom
    simp only [Segment.filled, Segment.bodyWords, wordBytes] at *
    omega

end FiberStacks.Holdings
