import FiberStacks.Domain.Switch
import FiberStacks.Proofs.Continuation
import FiberStacks.Proofs.Domain.Segments

/-!
# Runs of the switching operations

Each operation that switches fibers is told by what it makes of the suspended chain of the domain,
that is of the running chain with the exception handler of the domain saved in its head.
-/

namespace FiberStacks.Domain

variable {d d' : Domain} {s finished parent : Segment} {outer : Chain} {st st' : MachineState}
  {depth : Nat} {k : Continuation} {h : Handlers}

@[simp]
theorem suspended_run (d : Domain) (chain : Chain) : (d.run chain).suspended = chain := by
  cases chain <;> rfl

theorem suspended_of_nil (h : d.running = []) : d.suspended = [] := by
  rw [suspended, h]

theorem suspended_of_cons (h : d.running = s :: outer) :
    d.suspended = { s with savedExn := d.exnHandler } :: outer := by
  rw [suspended, h]

@[simp]
theorem length_suspended (d : Domain) : d.suspended.length = d.running.length := by
  unfold suspended
  cases d.running <;> rfl

/-- Segments of the suspended chain lie where those of the running chain do. -/
theorem suspended_separate {space : AddressSpace} {others : List Segment} :
    Segment.Separate space (d.suspended ++ others) ↔
      Segment.Separate space (d.running ++ others) := by
  cases hrunning : d.running with
  | nil => rw [suspended_of_nil hrunning]
  | cons s outer =>
      rw [suspended_of_cons hrunning]
      constructor
      · intro hsep
        exact hsep.resave s.savedExn
      · intro hsep
        exact hsep.resave d.exnHandler

theorem savedExn_append {chain : Chain} (h : chain ≠ []) (outer : Chain) :
    savedExn (chain ++ outer) = savedExn chain := by
  cases chain with
  | nil => exact absurd rfl h
  | cons s rest => rfl

/-- A chain that ran goes on as it was when it runs again. -/
theorem run_suspended (h : d.running ≠ []) :
    d.run d.suspended = { d with running := d.suspended } := by
  cases hrunning : d.running with
  | nil => exact absurd hrunning h
  | cons s outer =>
      rw [suspended_of_cons hrunning]
      rfl

theorem runFiber_run (d : Domain) (s : Segment) (st : MachineState) :
    d.runFiber s st = .ok (d.run (s :: d.suspended))
      { st with memory := s.recordParent st.memory (Chain.link d.suspended) } := rfl

theorem runFiber_eq_ok (hrun : d.runFiber s st = .ok d' st') :
    d' = d.run (s :: d.suspended) ∧
      st' = { st with memory := s.recordParent st.memory (Chain.link d.suspended) } := by
  cases (d.runFiber_run s st).symm.trans hrun
  exact ⟨rfl, rfl⟩

/-! ### Refusals -/

/-- A call that was refused may exchange the pool for one of the same segments, and record once more
that a single fiber has no parent. -/
structure Refused (d : Domain) (st : MachineState) (d' : Domain) (st' : MachineState) : Prop where
  pool : d' = { d with pool := d'.pool }
  pooled : d'.pool.segments = d.pool.segments
  space : st'.space = st.space
  memory : st'.memory = st.memory ∨
    ∃ s, d.running = [s] ∧ st'.memory = s.recordParent st.memory 0

theorem Declined.refused (h : d.Declined st d' st') : d.Refused st d' st' :=
  ⟨h.pool, h.pooled, h.space, .inl h.memory⟩

theorem Refused.suspended (h : d.Refused st d' st') : d'.suspended = d.suspended := by
  rw [h.pool]
  rfl

/-! ### Return -/

theorem returnFromFiber_of_lone (h : d.running = [s]) (st : MachineState) :
    d.returnFromFiber st = .ok (none, d) { st with memory := s.recordParent st.memory 0 } := by
  unfold returnFromFiber
  rw [h]
  rfl

theorem returnFromFiber_of_idle (h : d.running = []) (st : MachineState) :
    d.returnFromFiber st = .ok (none, d) st := by
  unfold returnFromFiber
  rw [h]
  rfl

/-- A fiber above another one returns if its segment is one in use. -/
theorem exists_returnFromFiber (hrunning : d.running = finished :: parent :: outer)
    (htagged : finished.magic = segmentMagic) (st : MachineState) :
    ∃ d' st', d.returnFromFiber st = .ok (some (finished.handlers st.memory), d') st' := by
  obtain ⟨d', st', hfree⟩ := (d.run (parent :: outer)).exists_freeSegment htagged
    { st with memory := finished.recordParent st.memory 0 }
  refine ⟨d', st', ?_⟩
  unfold returnFromFiber
  rw [hrunning]
  simp only
  rw [Run.bind_of_ok (Machine.modifyMemory_run _ st), Run.bind_of_ok (Machine.memory_run _),
    Run.bind_of_ok hfree, Segment.handlers_recordParent]
  rfl

/-- What returning leaves: all as it was, with at most one fiber, or the innermost one is freed. -/
inductive Returns (d : Domain) (st : MachineState) :
    Option Handlers → Domain → MachineState → Prop
  | idle : d.running = [] → Returns d st none d st
  | lone {s : Segment} : d.running = [s] →
      Returns d st none d { st with memory := s.recordParent st.memory 0 }
  | ended {finished parent : Segment} {outer : Chain} {d' : Domain} {st' : MachineState} :
      d.running = finished :: parent :: outer →
      (d.run (parent :: outer)).Frees finished
        { st with memory := finished.recordParent st.memory 0 } d' st' →
      Returns d st (some (finished.handlers st.memory)) d' st'

theorem returns_of_returnFromFiber {h? : Option Handlers}
    (hrun : d.returnFromFiber st = .ok (h?, d') st') : d.Returns st h? d' st' := by
  cases hrunning : d.running with
  | nil =>
      cases (returnFromFiber_of_idle hrunning st).symm.trans hrun
      exact .idle hrunning
  | cons finished rest =>
      cases rest with
      | nil =>
          cases (returnFromFiber_of_lone hrunning st).symm.trans hrun
          exact .lone hrunning
      | cons parent outer =>
          unfold returnFromFiber at hrun
          rw [hrunning] at hrun
          obtain ⟨_, st₁, hunlink, hrun⟩ := Run.bind_eq_ok_iff.mp hrun
          cases hunlink
          obtain ⟨m, st₁, hmemory, hrun⟩ := Run.bind_eq_ok_iff.mp hrun
          cases hmemory
          obtain ⟨d₁, st₁, hfree, hpure⟩ := Run.bind_eq_ok_iff.mp hrun
          cases hpure
          rw [Segment.handlers_recordParent]
          exact .ended hrunning (frees_of_freeSegment hfree)

/-- What returning can do: nothing, with at most one fiber, or else it ends the innermost one. -/
theorem returnFromFiber_cases {h? : Option Handlers} (hformed : ∀ s ∈ d.running, s.Formed)
    (hrun : d.returnFromFiber st = .ok (h?, d') st') :
    (d.running.length < 2 ∧ h? = none ∧ d.Refused st d' st') ∨
      ∃ finished parent outer, d.running = finished :: parent :: outer ∧
        h? = some (finished.handlers st.memory) ∧
        d' = { d.run (parent :: outer) with pool := d'.pool } ∧ st'.space = st.space ∧
        (d'.pool.segments.Perm (finished :: d.pool.segments) ∨
          d'.pool.segments = d.pool.segments) ∧
        finished.Confines st.memory st'.memory := by
  cases returns_of_returnFromFiber hrun with
  | idle hrunning => exact .inl ⟨by simp [hrunning], rfl, rfl, rfl, rfl, .inl rfl⟩
  | lone hrunning => exact .inl ⟨by simp [hrunning], rfl, rfl, rfl, rfl, .inr ⟨_, hrunning, rfl⟩⟩
  | @ended finished parent outer d' st' hrunning hfrees =>
      have hfinished := hformed finished (by rw [hrunning]; exact List.mem_cons_self)
      obtain ⟨hpool, hspace, hpools⟩ := hfrees.eq
      refine .inr ⟨finished, parent, outer, hrunning, rfl, hpool, hspace, hpools, fun a ha => ?_⟩
      exact (hfrees.confines hfinished a ha).trans
        ((Segment.sameOutside_recordParent 0).confines hfinished a ha)

/-! ### Continuations -/

theorem capture_of_refused (h : ¬ (0 < depth ∧ depth < d.running.length)) (st : MachineState) :
    d.capture depth st = .ok (none, d) st := by
  unfold capture
  rw [if_pos (by omega)]
  rfl

theorem exists_cut (hpos : 0 < depth) (hlt : depth < d.running.length) :
    ∃ xs s ys, d.suspended = xs ++ s :: ys ∧ depth = xs.length + 1 ∧ ys ≠ [] := by
  rw [← length_suspended] at hlt
  refine ⟨d.suspended.take (depth - 1), d.suspended[depth - 1], d.suspended.drop depth, ?_, ?_, ?_⟩
  · have hcons := List.drop_eq_getElem_cons (show depth - 1 < d.suspended.length by omega)
    rw [Nat.sub_add_cancel hpos] at hcons
    rw [← hcons, List.take_append_drop]
  · rw [List.length_take]
    omega
  · rw [Ne, List.drop_eq_nil_iff]
    omega

/-- The chain is cut outward of its segment number `depth`. -/
theorem capture_run {xs ys : Chain} (hcut : d.suspended = xs ++ s :: ys)
    (hdepth : depth = xs.length + 1) (hrest : ys ≠ []) (st : MachineState) :
    ∃ j, d.capture depth st =
      .ok (some (.ofChain (xs ++ [s])), d.run ys)
        { st with memory := s.recordParent st.memory 0, journal := j } := by
  have hlength := d.length_suspended
  have hrestLength := List.length_pos_iff.mpr hrest
  rw [hcut, List.length_append, List.length_cons] at hlength
  have hlast : d.suspended[depth - 1]? = some s := by
    rw [hcut, hdepth, Nat.add_sub_cancel]
    simp
  have hsplit : Chain.splitAfter st.memory d.suspended depth =
      (xs ++ [s], ys, s.recordParent st.memory 0) := by
    rw [Chain.splitAfter, if_neg (by omega), hlast]
    simp [hcut, hdepth, List.take_append, List.take_of_length_le]
  unfold capture
  rw [if_neg (by omega), Run.bind_of_ok (Machine.memory_run st)]
  simp only [hsplit]
  cases xs <;> exact ⟨_, rfl⟩

theorem exists_capture (d : Domain) (depth : Nat) (st : MachineState) :
    ∃ k? d' st', d.capture depth st = .ok (k?, d') st' := by
  by_cases hdepth : 0 < depth ∧ depth < d.running.length
  · obtain ⟨xs, s, ys, hcut, hlength, hrest⟩ := exists_cut hdepth.1 hdepth.2
    obtain ⟨j, hcapture⟩ := capture_run hcut hlength hrest st
    exact ⟨_, _, _, hcapture⟩
  · exact ⟨_, _, _, capture_of_refused hdepth st⟩

/-- What capturing can do: nothing, or it cuts the chain and leaves fibers on both sides. -/
theorem capture_cases {k? : Option Continuation} (hrun : d.capture depth st = .ok (k?, d') st') :
    (¬ (0 < depth ∧ depth < d.running.length) ∧ k? = none ∧ d.Refused st d' st') ∨
      ∃ xs s ys j, d.suspended = xs ++ s :: ys ∧ depth = xs.length + 1 ∧ ys ≠ [] ∧
        k? = some (.ofChain (xs ++ [s])) ∧ d' = d.run ys ∧
        st' = { st with memory := s.recordParent st.memory 0, journal := j } := by
  by_cases hdepth : 0 < depth ∧ depth < d.running.length
  · obtain ⟨xs, s, ys, hcut, hlength, hrest⟩ := exists_cut hdepth.1 hdepth.2
    obtain ⟨j, hcapture⟩ := capture_run hcut hlength hrest st
    cases hcapture.symm.trans hrun
    exact .inr ⟨xs, s, ys, j, hcut, hlength, hrest, rfl, rfl, rfl⟩
  · cases (capture_of_refused hdepth st).symm.trans hrun
    exact .inl ⟨hdepth, rfl, rfl, rfl, rfl, .inl rfl⟩

theorem resume_of_taken (hk : k.stored = []) (st : MachineState) :
    ∃ j, d.resume k h st =
      .ok (.error .continuationAlreadyResumed, d, k) { st with journal := j } := by
  obtain ⟨j, htake⟩ := Continuation.takeRebound_of_taken hk h st
  refine ⟨j, ?_⟩
  unfold resume
  rw [Run.bind_of_ok htake]
  rfl

/-- The chain of the continuation, which ends with `s`, is put on top of the running one. -/
theorem resume_run {xs : Chain} (hk : k.stored = xs ++ [s]) (st : MachineState) :
    d.resume k h st = .ok (.ok (), d.run (xs ++ s :: d.suspended), { k with stored := [] })
      { st with
        memory := s.recordParent (s.setHandlers st.memory h) (Chain.link d.suspended) } := by
  have hrebound := Continuation.takeRebound_of_stored (k := k) (by simp [hk]) h st
  simp only [hk, Chain.rebind, List.getLast?_concat] at hrebound
  unfold resume
  rw [Run.bind_of_ok hrebound]
  simp only [Chain.append, List.getLast?_concat, List.append_assoc, List.cons_append,
    List.nil_append]
  rfl

theorem exists_resume (d : Domain) (k : Continuation) (h : Handlers) (st : MachineState) :
    ∃ r d' k' st', d.resume k h st = .ok (r, d', k') st' := by
  rcases List.eq_nil_or_concat' k.stored with hk | ⟨xs, s, hk⟩
  · obtain ⟨j, hresume⟩ := resume_of_taken (d := d) (h := h) hk st
    exact ⟨_, _, _, _, hresume⟩
  · exact ⟨_, _, _, _, resume_run hk st⟩

/-- What resuming can do: nothing, if the chain was taken before, or it puts the chain on top. -/
theorem resume_cases {r : Except StackError Unit} {k' : Continuation}
    (hrun : d.resume k h st = .ok (r, d', k') st') :
    (k.stored = [] ∧ r = .error .continuationAlreadyResumed ∧ k' = k ∧ d.Refused st d' st') ∨
      ∃ xs s, k.stored = xs ++ [s] ∧ r = .ok () ∧ d' = d.run (xs ++ s :: d.suspended) ∧
        k' = { k with stored := [] } ∧
        st' = { st with
          memory := s.recordParent (s.setHandlers st.memory h) (Chain.link d.suspended) } := by
  rcases List.eq_nil_or_concat' k.stored with hk | ⟨xs, s, hk⟩
  · obtain ⟨j, hresume⟩ := resume_of_taken (d := d) (h := h) hk st
    cases hresume.symm.trans hrun
    exact .inl ⟨hk, rfl, rfl, rfl, rfl, rfl, .inl rfl⟩
  · cases (resume_run hk st).symm.trans hrun
    exact .inr ⟨xs, s, hk, rfl, rfl, rfl, rfl⟩

/-- Fibers that are captured and resumed with the handlers of the outermost of them are back, and no
word of memory has changed. -/
theorem exists_capture_resume (hpos : 0 < depth) (hlt : depth < d.running.length)
    (hrecorded : Chain.Recorded st.memory d.suspended) :
    ∃ s k d₁ st₁ st₂, d.suspended[depth - 1]? = some s ∧
      d.capture depth st = .ok (some k, d₁) st₁ ∧
      d₁.resume k (s.handlers st.memory) st₁ =
        .ok (.ok (), { d with running := d.suspended }, { k with stored := [] }) st₂ ∧
      ∀ a, st₂.memory.read a = st.memory.read a := by
  obtain ⟨xs, s, ys, hcut, hlength, hrest⟩ := exists_cut hpos hlt
  obtain ⟨journal, hcapture⟩ := capture_run hcut hlength hrest st
  have hparent : Chain.link ys = s.recordedParent st.memory := by
    rw [hcut] at hrecorded
    exact hrecorded.of_append.1.symm
  have hdomain : (d.run ys).run (xs ++ s :: ys) = { d with running := d.suspended } := by
    rw [← hcut]
    exact d.run_suspended (List.ne_nil_of_length_pos (by omega))
  have hresume := resume_run (d := d.run ys) (k := .ofChain (xs ++ [s]))
    (h := s.handlers st.memory) rfl
    { st with memory := s.recordParent st.memory 0, journal := journal }
  rw [suspended_run, hdomain, hparent] at hresume
  refine ⟨s, _, _, _, _, ?_, hcapture, hresume, Segment.read_rejoined⟩
  rw [hcut, hlength, Nat.add_sub_cancel]
  simp

end FiberStacks.Domain
