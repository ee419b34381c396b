import FiberStacks.Proofs.Fibers.Registers
import FiberStacks.Proofs.Holdings.Sizes

/-!
# The account of stacks

Stacks are holdings whose callers have single segments in their hands. So what is known of holdings
in order is known of stacks, whatever was released on the way.
-/

namespace FiberStacks.Stacks

/-- The stacks as holdings, when some segments have been released. -/
def holdings (w : Stacks) (released : List Segment) : Holdings :=
  ⟨w.machine, w.domains, w.continuations, w.loose.map fun s => [s], released⟩

def InOrder (w : Stacks) : Prop := ∃ released, (w.holdings released).InOrder

variable {w w' : Stacks} {i : Nat} {d d' : Domain} {s s' t : Segment} {outer : Chain}
  {st : MachineState} {c : Call} {a : Answer}

/-! ### One domain among the others -/

theorem getElem?_put (hd : w.domains[i]? = some d) (d' : Domain) (st : MachineState) :
    (w.put i d' st).domains[i]? = some d' :=
  List.getElem?_set_self (List.getElem?_eq_some_iff.mp hd).1

theorem put_self (hd : w.domains[i]? = some d) : w.put i d w.machine = w := by
  obtain ⟨hi, rfl⟩ := List.getElem?_eq_some_iff.mp hd
  rw [put, List.set_getElem_self]

theorem put_put (w : Stacks) (i : Nat) (d d' : Domain) (st st' : MachineState) :
    (w.put i d st).put i d' st' = w.put i d' st' := by
  simp only [put, List.set_set]

theorem held_put_perm (hd : w.domains[i]? = some d) (h : d'.suspended = d.suspended)
    (st : MachineState) : (w.put i d' st).held.Perm w.held := by
  have hchains := chains_put hd d' st
  rw [h] at hchains
  exact (hchains.trans (chains_perm hd).symm).flatten

/-- The running segment stays where it is, whatever it does with its words. -/
theorem exists_of_mem_held_put (hd : w.domains[i]? = some d) (hrunning : d.running = s :: outer)
    (hrunning' : d'.running = s' :: outer) (hbase : s.base = s'.base) (hhigh : s.high = s'.high)
    {t : Segment} (ht : t ∈ (w.put i d' st).held) :
    ∃ u ∈ w.held, u.base = t.base ∧ u.high = t.high := by
  have hbefore := held_perm hd hrunning
  rcases List.mem_cons.mp ((held_put hd hrunning' st).mem_iff.mp ht) with rfl | hother
  · exact ⟨_, hbefore.mem_iff.mpr List.mem_cons_self, hbase, hhigh⟩
  · exact ⟨t, hbefore.mem_iff.mpr (List.mem_cons_of_mem _ hother), rfl, rfl⟩

theorem mem_held_of_running (hd : w.domains[i]? = some d) (hrunning : d.running = s :: outer) :
    { s with savedExn := d.exnHandler } ∈ w.held :=
  (held_perm hd hrunning).mem_iff.mpr List.mem_cons_self

/-! ### Steps -/

theorem inOrder_start (source : AddressSource) : InOrder ⟨.start source, [], [], []⟩ :=
  ⟨[], Holdings.inOrder_start source⟩

theorem InOrder.of_step (h : w.InOrder) (hstep : w.Step c a w') : w'.InOrder := by
  obtain ⟨released, h⟩ := h
  cases hstep with
  | @startMain i d d' r st hd hrun =>
      cases r with
      | ok => exact ⟨_, h.of_step (.startMain hd hrun)⟩
      | error => exact ⟨_, h.of_step (.startMainFailed hd hrun)⟩
  | alloc hd hrun =>
      have hnext := h.of_step (.alloc hd hrun)
      refine ⟨released, ?_⟩
      simp only [holdings, put, List.map_append]
      exact hnext
  | allocFailed hd hrun =>
      have hnext := h.of_step (.alloc hd hrun)
      refine ⟨released, ?_⟩
      simp only [Holdings.put, holdings, Except.toOption, Option.toList, List.map_nil,
        List.append_nil] at hnext
      exact hnext
  | allocNoExc hd hrun =>
      have hnext := h.of_step (.allocNoExc hd hrun)
      refine ⟨released, ?_⟩
      simp only [holdings, put, List.map_append]
      exact hnext
  | allocMain hd hrun =>
      have hnext := h.of_step (.allocNoExc hd hrun)
      refine ⟨released, ?_⟩
      simp only [holdings, put, List.map_append]
      exact hnext
  | @runFiber i j d d' s st hd hs hrun =>
      have hchain : (w.holdings released).hands[j]? = some [s] := by
        simp only [holdings, List.getElem?_map, hs, Option.map_some]
      have hnext := h.of_step (.runFiber hd hchain hrun)
      refine ⟨released ++ [], ?_⟩
      simp only [holdings, put, ← List.eraseIdx_map]
      exact hnext
  | @returnFromFiber i d d' h? st hd hrun =>
      cases h? with
      | none => exact ⟨_, h.of_step (.returnRefused hd hrun)⟩
      | some => exact ⟨_, h.of_step (.returnFromFiber hd hrun)⟩
  | capture hd hrun => exact ⟨_, h.of_step (.capture hd hrun)⟩
  | resume hd hk hrun => exact ⟨_, h.of_step (.resume hd hk hrun)⟩
  | @free i j d d' s st hd hs hrun =>
      have hchain : (w.holdings released).hands[j]? = some [s] := by
        simp only [holdings, List.getElem?_map, hs, Option.map_some]
      have hnext := h.of_step (.free hd hchain hrun)
      refine ⟨released ++ d.pool.refused [s], ?_⟩
      simp only [holdings, put, ← List.eraseIdx_map]
      exact hnext
  | dropContinuation hd hk hrun => exact ⟨_, h.of_step (.dropContinuation hd hk hrun)⟩

theorem InOrder.join {settings : Settings} (h : w.InOrder)
    (hrun : Domain.create settings w.machine = .ok d st) :
    InOrder { w with machine := st, domains := w.domains ++ [d] } := by
  obtain ⟨released, h⟩ := h
  exact ⟨released, h.of_step (.createDomain hrun)⟩

theorem InOrder.proceed (h : w.InOrder) (hmachine : w.machine.Proceeds st) :
    InOrder { w with machine := st } := by
  obtain ⟨released, h⟩ := h
  exact ⟨released, h.of_step (.elsewhere hmachine)⟩

theorem InOrder.adjust (h : w.InOrder) (hd : w.domains[i]? = some d) (hid : d'.id = d.id)
    (hpolicy : d'.policy = d.policy) (hpool : d'.pool = d.pool)
    (hrunning : d'.running = d.running) : (w.put i d' w.machine).InOrder := by
  obtain ⟨released, h⟩ := h
  exact ⟨released, h.of_step (.adjust hd hid hpolicy hpool hrunning)⟩

theorem InOrder.work {sp : Nat} (h : w.InOrder) (hd : w.domains[i]? = some d)
    (hrunning : d.running = s :: outer) (hformed : ({ s with sp } : Segment).Formed) :
    (w.put i (d.setCurrent { s with sp }) w.machine).InOrder := by
  obtain ⟨released, h⟩ := h
  exact ⟨released, h.of_step (.work hd hrunning hformed)⟩

theorem InOrder.tryRealloc {required : Nat} {grown : Bool} (h : w.InOrder)
    (hd : w.domains[i]? = some d) (hrun : d.tryRealloc required w.machine = .ok (grown, d') st) :
    (w.put i d' st).InOrder := by
  obtain ⟨released, h⟩ := h
  cases grown with
  | true => exact ⟨_, h.of_step (.grow hd hrun)⟩
  | false => exact ⟨_, h.of_step (.growFailed hd hrun)⟩

/-! ### Segments of stacks in order -/

theorem uses_suspended (domains : List Domain) :
    Segment.Uses (domains.flatMap Domain.running) (domains.map Domain.suspended).flatten := by
  induction domains with
  | nil => exact .refl []
  | cons d domains ih => exact (Segment.Uses.of_suspended d).append ih

theorem uses_segments (w : Stacks) (released : List Segment) :
    Segment.Uses ((w.holdings released).held ++ (w.holdings released).pooled) w.segments := by
  have hheld : w.held = (w.domains.map Domain.suspended).flatten ++
      (w.holdings released).stored ++ (w.holdings released).inHands := by
    simp only [held, chains, List.flatten_append]
    rfl
  rw [segments, hheld]
  exact (((uses_suspended w.domains).append_right _).append_right _).append_right _

theorem InOrder.separate (h : w.InOrder) : Segment.Separate w.machine.space w.segments := by
  obtain ⟨released, h⟩ := h
  have huses := w.uses_segments released
  have hsep := h.accounted.separate.sublist (List.sublist_append_left _ _)
  exact hsep.of_bare huses.bare (huses.formed hsep.formed)

/-- No body begins at address 0, so this address is in none. -/
theorem InOrder.contains_zero (h : w.InOrder) (hd : w.domains[i]? = some d) (hs : s ∈ d.running) :
    s.contains 0 = false := by
  obtain ⟨released, h⟩ := h
  have hheld : s ∈ (w.holdings released).held := Holdings.mem_held_of_running hd hs
  have hlow := h.accounted.low s (List.mem_append_left _ (List.mem_append_left _ hheld))
  rw [Segment.contains, decide_eq_false (by omega), Bool.false_and]

theorem InOrder.deep {required : Nat} {old new : Segment} (h : w.InOrder)
    (hd : w.domains[i]? = some d) (hrunning : d.running = old :: outer)
    (hrun : d.tryRealloc required w.machine = .ok (true, d') st)
    (hrunning' : d'.running = new :: outer) : old.high - old.base ≤ new.high - new.base := by
  obtain ⟨released, h⟩ := h
  exact h.deep_of_tryRealloc (w := w.holdings released) hd hrunning hrun hrunning'

end FiberStacks.Stacks
