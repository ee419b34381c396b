import FiberStacks.Proofs.Fibers.Effects

/-!
# Switching refines lists of fibers

Runs of calls on the stacks of a process are runs of the same calls, with the same answers, on lists
of fibers. A call that obtains no segment always returns. Fibers that are captured and resumed with
the handlers they had are back where they were, with every word of memory.
-/

namespace FiberStacks

namespace Stacks

/-- Segments have memory of their own, chains record their parents, and the segments in use are
tagged so. -/
structure Kept (w : Stacks) : Prop where
  separate : Segment.Separate w.machine.space w.segments
  recorded : Chain.AllRecorded w.machine.memory w.chains
  tagged : ∀ s ∈ w.held, s.magic = segmentMagic

variable {w w' : Stacks} {i j depth : Nat} {d : Domain} {k : Continuation} {s : Segment}
  {c : Call} {a : Answer} {calls : List (Call × Answer)}

def ofDomains (domains : List Domain) (st : MachineState) : Stacks := ⟨st, domains, [], []⟩

section

variable {domains : List Domain} {st : MachineState}

theorem chains_ofDomains (hnew : ∀ d ∈ domains, d.running = [] ∧ d.pool.segments = []) :
    ∀ c ∈ (ofDomains domains st).chains, c = [] := by
  intro c hc
  simp only [ofDomains, chains, List.map_nil, List.append_nil, List.mem_map] at hc
  obtain ⟨d, hd, rfl⟩ := hc
  exact Domain.suspended_of_nil (hnew d hd).1

theorem held_ofDomains (hnew : ∀ d ∈ domains, d.running = [] ∧ d.pool.segments = []) :
    (ofDomains domains st).held = [] :=
  List.flatten_eq_nil_iff.mpr (chains_ofDomains hnew)

theorem kept_ofDomains (hnew : ∀ d ∈ domains, d.running = [] ∧ d.pool.segments = []) :
    (ofDomains domains st).Kept := by
  have hheld : (ofDomains domains st).held = [] := held_ofDomains hnew
  have hpooled : (ofDomains domains st).pooled = [] :=
    List.flatMap_eq_nil_iff.mpr fun d hd => (hnew d hd).2
  refine ⟨?_, fun c hc => ?_, ?_⟩
  · rw [segments, hheld, hpooled]
    exact .nil _
  · rw [chains_ofDomains hnew c hc]
    trivial
  · simp [hheld]

end

theorem Step.kept (hstep : w.Step c a w') (hkept : w.Kept) : w'.Kept := by
  obtain ⟨hflow, hrecorded, -⟩ := hstep.effect hkept.separate
  refine ⟨hflow.separate, hrecorded hkept.recorded, fun s hs => ?_⟩
  rcases hflow.held s hs with hnew | ⟨hheld, -⟩
  · exact (hflow.fresh s hnew).2
  · exact hkept.tagged s hheld

/-! ### Calls return -/

/-- The call is for a domain, a segment and a continuation that there are, and obtains nothing. -/
def Switches (w : Stacks) : Call → Prop
  | .startMain _ | .alloc _ _ | .allocNoExc _ _ _ _ | .allocMain _ _ => False
  | .runFiber i j | .free i j => i < w.domains.length ∧ j < w.loose.length
  | .returnFromFiber i | .capture i _ => i < w.domains.length
  | .resume i j _ | .dropContinuation i j =>
      i < w.domains.length ∧ j < w.continuations.length

theorem exists_step_returnFromFiber (hkept : w.Kept) (hd : w.domains[i]? = some d) :
    ∃ a w', w.Step (.returnFromFiber i) a w' := by
  cases hrunning : d.running with
  | nil => exact ⟨_, _, .returnFromFiber hd (d.returnFromFiber_of_idle hrunning _)⟩
  | cons finished rest =>
      cases rest with
      | nil => exact ⟨_, _, .returnFromFiber hd (d.returnFromFiber_of_lone hrunning _)⟩
      | cons parent outer =>
          have htagged : ({ finished with savedExn := d.exnHandler } : Segment).magic =
              segmentMagic :=
            hkept.tagged _ (mem_held_of_domain hd (by simp [Domain.suspended_of_cons hrunning]))
          obtain ⟨d', st', hrun⟩ := Domain.exists_returnFromFiber hrunning htagged w.machine
          exact ⟨_, _, .returnFromFiber hd hrun⟩

theorem mem_held_of_loose (hs : w.loose[j]? = some s) : s ∈ w.held :=
  (chains_loose hs).flatten.mem_iff.mpr List.mem_cons_self

theorem mem_held_of_continuation (hk : w.continuations[j]? = some k) (hs : s ∈ k.stored) :
    s ∈ w.held := by
  obtain ⟨rest, hchains, -⟩ := chains_continuation hk k
  exact hchains.flatten.mem_iff.mpr (List.mem_append_left _ hs)

theorem exists_step (hkept : w.Kept) (hc : w.Switches c) : ∃ a w', w.Step c a w' := by
  cases c with
  | startMain i => exact hc.elim
  | alloc i h => exact hc.elim
  | allocNoExc i words h id => exact hc.elim
  | allocMain i words => exact hc.elim
  | runFiber i j =>
      exact ⟨_, _, .runFiber (List.getElem?_eq_getElem hc.1) (List.getElem?_eq_getElem hc.2)
        (Domain.runFiber_run _ _ _)⟩
  | returnFromFiber i => exact exists_step_returnFromFiber hkept (List.getElem?_eq_getElem hc)
  | capture i depth =>
      obtain ⟨k?, d', st', hrun⟩ := Domain.exists_capture w.domains[i] depth w.machine
      exact ⟨_, _, .capture (List.getElem?_eq_getElem hc) hrun⟩
  | resume i j h =>
      obtain ⟨hi, hj⟩ := hc
      obtain ⟨r, d', k', st', hrun⟩ :=
        Domain.exists_resume w.domains[i] w.continuations[j] h w.machine
      exact ⟨_, _, .resume (List.getElem?_eq_getElem hi) (List.getElem?_eq_getElem hj) hrun⟩
  | free i j =>
      obtain ⟨hi, hj⟩ := hc
      have hs := List.getElem?_eq_getElem hj
      have htagged : ∀ t ∈ [w.loose[j]], t.magic = segmentMagic :=
        List.forall_mem_singleton.mpr (hkept.tagged _ (mem_held_of_loose hs))
      obtain ⟨d', st', hrun⟩ := Domain.exists_free htagged w.domains[i] w.machine
      exact ⟨_, _, .free (List.getElem?_eq_getElem hi) hs hrun⟩
  | dropContinuation i j =>
      obtain ⟨hi, hj⟩ := hc
      have hk := List.getElem?_eq_getElem hj
      have htagged : ∀ t ∈ w.continuations[j].stored, t.magic = segmentMagic := fun t ht =>
        hkept.tagged t (mem_held_of_continuation hk ht)
      obtain ⟨r, d', k', st', hrun⟩ :=
        Domain.exists_dropContinuation htagged w.domains[i] w.machine
      exact ⟨_, _, .dropContinuation (List.getElem?_eq_getElem hi) hk hrun⟩

/-! ### Capture and resumption -/

/-- The stacks `w'` are the stacks `w` with one more continuation, which is empty, and with the
exception handler of domain `i` saved in the segment that it runs. -/
structure Restored (w : Stacks) (i : Nat) (d : Domain) (w' : Stacks) : Prop where
  domains : w'.domains = w.domains.set i { d with running := d.suspended }
  loose : w'.loose = w.loose
  continuations : ∃ fiber, w'.continuations = w.continuations ++ [⟨[], fiber⟩]
  memory : ∀ a, w'.machine.memory.read a = w.machine.memory.read a
  threads : w'.fibers.threads = w.fibers.threads

theorem restored_of_read (hd : w.domains[i]? = some d)
    (hmemory : ∀ a, w'.machine.memory.read a = w.machine.memory.read a)
    (hdomains : w'.domains = w.domains.set i { d with running := d.suspended })
    (hloose : w'.loose = w.loose)
    (hcontinuations : ∃ fiber, w'.continuations = w.continuations ++ [⟨[], fiber⟩]) :
    Restored w i d w' := by
  have hfiber := Segment.fiber_of_read hmemory
  have hthread : ({ d with running := d.suspended } : Domain).thread w.machine.memory =
      d.thread w.machine.memory := by
    have hsuspended : ({ d with running := d.suspended } : Domain).suspended = d.suspended := by
      cases hrunning : d.running <;> simp [Domain.suspended, hrunning]
    rw [Domain.thread, hsuspended]
    rfl
  have hthreads : Domain.thread w'.machine.memory = Domain.thread w.machine.memory := by
    funext e
    rw [Domain.thread, Domain.thread, Chain.fibers, Chain.fibers, hfiber]
  refine ⟨hdomains, hloose, hcontinuations, hmemory, ?_⟩
  calc
    w'.fibers.threads =
        ((w.fibersIn w.machine.memory).put i (d.thread w.machine.memory)).threads := by
      rw [fibers, fibersIn, hdomains, hthreads, List.map_set, hthread]
      rfl
    _ = w.fibers.threads := congrArg Fibers.threads (put_thread hd w.machine.memory)

/-- Fibers that are captured and resumed with the handlers of the outermost of them are back. -/
theorem exists_restored (hkept : w.Kept) (hd : w.domains[i]? = some d) (hpos : 0 < depth)
    (hlt : depth < d.running.length) :
    ∃ f w₁ w₂, (d.thread w.machine.memory).fibers[depth - 1]? = some f ∧
      w.Step (.capture i depth) (.captured true) w₁ ∧
      w₁.Step (.resume i w.continuations.length f.handlers) .done w₂ ∧ Restored w i d w₂ := by
  have hi : i < w.domains.length := (List.getElem?_eq_some_iff.mp hd).1
  have hrecorded : Chain.Recorded w.machine.memory d.suspended :=
    hkept.recorded d.suspended ((chains_perm hd).mem_iff.mpr List.mem_cons_self)
  obtain ⟨s, k, d₁, st₁, st₂, hs, hcapture, hresume, hmemory⟩ :=
    Domain.exists_capture_resume hpos hlt hrecorded
  have hcaptured : w.Step (.capture i depth) (.captured true)
      ({ w with continuations := w.continuations ++ [k] }.put i d₁ st₁) := .capture hd hcapture
  have hd₁ : ({ w with continuations := w.continuations ++ [k] }.put i d₁ st₁).domains[i]? =
      some d₁ := by simp [put, hi]
  have hk₁ : ({ w with continuations := w.continuations ++ [k] }.put i d₁ st₁).continuations[
      w.continuations.length]? = some k := by simp [put]
  refine ⟨s.fiber w.machine.memory, _, _, ?_, hcaptured, .resume hd₁ hk₁ hresume, ?_⟩
  · rw [Domain.thread, Chain.fibers, List.getElem?_map, hs]
    rfl
  · exact restored_of_read hd hmemory (by simp [put]) rfl ⟨k.fiber, by simp [put]⟩

/-- Switching refines lists of fibers. Every run of calls from stacks that are kept is a run on
lists of fibers, and keeps the stacks. At its end each call that switches returns, and any fibers
can be captured and resumed as they were. -/
theorem fibers_of_trace (hkept : w.Kept) (htrace : Trace Step w calls w') :
    Trace Fibers.Step w.fibers calls w'.fibers ∧ w'.Kept ∧
      (∀ c, w'.Switches c → ∃ a w'', w'.Step c a w'') ∧
      ∀ i d depth, w'.domains[i]? = some d → 0 < depth → depth < d.running.length →
        ∃ f w₁ w₂, (d.thread w'.machine.memory).fibers[depth - 1]? = some f ∧
          w'.Step (.capture i depth) (.captured true) w₁ ∧
          w₁.Step (.resume i w'.continuations.length f.handlers) .done w₂ ∧
          Restored w' i d w₂ := by
  -- Induction on the run. What its end allows follows from the stacks being kept, and so does that
  -- each step is one of lists.
  induction htrace with
  | nil =>
      exact ⟨.nil, hkept, fun c hc => exists_step hkept hc,
        fun i d depth hd hpos hlt => exists_restored hkept hd hpos hlt⟩
  | cons hstep _ ih =>
      obtain ⟨hfibers, hend⟩ := ih (hstep.kept hkept)
      exact ⟨.cons (hstep.effect hkept.separate).fibers hfibers, hend⟩

end Stacks

/-! ### Two threads -/

namespace TwoThreads

open Stacks

def thread (n : Nat) : Domain := .ofSettings ⟨n⟩ Settings.standard

def created : Stacks := .ofDomains [thread 1, thread 2] MachineState.initial

def handlers : Handlers := ⟨3, 5, 7⟩

theorem idle : ∀ d ∈ [thread 1, thread 2], d.running = [] ∧ d.pool.segments = [] := by
  simp [thread, Domain.running_ofSettings, Domain.pooled_ofSettings]

theorem kept : created.Kept := kept_ofDomains idle

theorem starts : ∃ d st s d' st', (thread 1).startMain MachineState.initial = .ok (.ok (), d) st ∧
    d.alloc handlers st = .ok (.ok s, d') st' ∧ d'.running.length = 1 := by
  have h : Run.succeeds (thread 1).startMain .initial (fun _ d st =>
      Run.succeeds (d.alloc handlers) st fun _ d' _ =>
        decide (d'.running.length = 1)) = true := by
    decide +kernel
  obtain ⟨_, d, st, hstart, h⟩ := Run.exists_of_succeeds h
  obtain ⟨s, d', st', halloc, h⟩ := Run.exists_of_succeeds h
  exact ⟨d, st, s, d', st', hstart, halloc, of_decide_eq_true h⟩

def calls : List (Call × Answer) :=
  [(.startMain 0, .done), (.alloc 0 handlers, .done), (.runFiber 0 0, .done),
    (.capture 0 1, .captured true), (.resume 1 0 .unit, .done),
    (.resume 1 0 .unit, .failed .continuationAlreadyResumed), (.returnFromFiber 1, .returned none)]

theorem exists_cons {w w' : Stacks} {c : Call} {a : Answer} {rest : List (Call × Answer)}
    (hstep : w.Step c a w') (hrest : ∃ w'', Trace Step w' rest w'') :
    ∃ w'', Trace Step w ((c, a) :: rest) w'' := by
  obtain ⟨w'', htrace⟩ := hrest
  exact ⟨w'', .cons hstep htrace⟩

/-- A fiber of the first thread is captured, resumed in the second, and is the last one there. -/
theorem exists_trace : ∃ w, Trace Step created calls w := by
  obtain ⟨d, st, s, d', st', hstart, halloc, hlength⟩ := starts
  have hrest : d'.suspended ≠ [] := List.ne_nil_of_length_pos (by simp [hlength])
  have hcut : (d'.run (s :: d'.suspended)).suspended = [] ++ s :: d'.suspended :=
    Domain.suspended_run d' _
  have hrun := d'.runFiber_run s st'
  obtain ⟨j, hcapture⟩ := Domain.capture_run hcut rfl hrest
    { st' with memory := s.recordParent st'.memory (Chain.link d'.suspended) }
  obtain ⟨resumed, hresume⟩ : ∃ st, (thread 2).resume (.ofChain ([] ++ [s])) .unit _ = .ok _ st :=
    ⟨_, Domain.resume_run rfl { st' with
      memory := s.recordParent (s.recordParent st'.memory (Chain.link d'.suspended)) 0
      journal := j }⟩
  obtain ⟨j', hagain⟩ := Domain.resume_of_taken
    (d := (thread 2).run ([] ++ s :: (thread 2).suspended))
    (k := { Continuation.ofChain ([] ++ [s]) with stored := [] }) (h := .unit) rfl resumed
  have hlone := Domain.returnFromFiber_of_lone
    (d := (thread 2).run ([] ++ s :: (thread 2).suspended)) rfl { resumed with journal := j' }
  refine exists_cons (Step.startMain (r := .ok ()) rfl hstart) ?_
  refine exists_cons (Step.alloc rfl halloc) ?_
  refine exists_cons (Step.runFiber rfl rfl hrun) ?_
  refine exists_cons (a := .captured (some (Continuation.ofChain ([] ++ [s]))).isSome)
    (Step.capture rfl hcapture) ?_
  refine exists_cons (Step.resume (r := .ok ()) rfl rfl hresume) ?_
  refine exists_cons (Step.resume (r := .error .continuationAlreadyResumed) rfl rfl hagain) ?_
  exact exists_cons (Step.returnFromFiber rfl hlone) ⟨_, .nil⟩

theorem fibers_of_calls : created.Kept ∧ ∃ w, Trace Step created calls w ∧ w.Kept ∧
    Trace Fibers.Step created.fibers calls w.fibers := by
  obtain ⟨w, htrace⟩ := exists_trace
  obtain ⟨hfibers, hkept, -⟩ := fibers_of_trace kept htrace
  exact ⟨kept, w, htrace, hkept, hfibers⟩

end TwoThreads

end FiberStacks
