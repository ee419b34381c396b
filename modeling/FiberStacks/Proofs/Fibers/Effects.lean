import FiberStacks.Proofs.Domain.Freeing
import FiberStacks.Proofs.Fibers.Lists

/-!
# What each call does to stacks

A call leaves segments apart from each other, the chains go on to record their parents, and on the
lists of fibers it does what it says.
-/

namespace FiberStacks.Stacks

variable {w w' : Stacks} {i j : Nat} {d d' : Domain} {k : Continuation} {s t : Segment}
  {st : MachineState} {m m' : Memory} {c : Call} {a : Answer}

/-- All that a step of stacks keeps and does. -/
structure Effect (w : Stacks) (c : Call) (a : Answer) (w' : Stacks) : Prop where
  flow : Flow w w' (w'.obtained c a)
  recorded : Chain.AllRecorded w.machine.memory w.chains →
    Chain.AllRecorded w'.machine.memory w'.chains
  fibers : w.fibers.Step c a w'.fibers

/-- A segment in use may change without a fiber taking notice, its own apart. -/
theorem fiber_of_confined {others : List Segment} {space : AddressSpace}
    (hsep : Segment.Separate space others) (hs : s ∈ others) (hm : s.Confines m m')
    (hown : s.fiber m' = s.fiber m) (ht : t ∈ others) : t.fiber m' = t.fiber m := by
  obtain ⟨before, after, rfl⟩ := List.append_of_mem hs
  have hfocus : Segment.Separate space (s :: (before ++ after)) := hsep.perm List.perm_middle
  rcases List.mem_cons.mp (List.perm_middle.mem_iff.mp ht) with rfl | hother
  · exact hown
  · exact hfocus.fiber_eq hm hother

theorem mem_held_of_domain (hd : w.domains[i]? = some d) (ht : t ∈ d.suspended) : t ∈ w.held :=
  (chains_perm hd).flatten.mem_iff.mpr (List.mem_append_left _ ht)

/-! ### Calls that are refused -/

section

variable (h : d.Refused w.machine d' st)

include h

theorem refused_thread (m : Memory) : d'.thread m = d.thread m := by
  rw [h.pool]
  rfl

theorem flow_of_refused (hd : w.domains[i]? = some d)
    (hsep : Segment.Separate w.machine.space w.segments) : Flow w (w.put i d' st) none := by
  have hchains := (chains_perm hd).flatten
  have hchains' := (chains_put hd d' st).flatten
  have hpooled := pooled_perm hd
  have hpooled' := pooled_put hd d' st
  rw [h.suspended] at hchains'
  rw [h.pooled] at hpooled'
  refine .of_held ?_ fun t ht => ?_
  · have hsame : w.segments.Perm (w.put i d' st).segments := by grind [segments, held]
    exact h.space ▸ hsep.perm hsame
  · exact (hchains'.trans hchains.symm).mem_iff.mp ht

theorem recorded_of_refused (hd : w.domains[i]? = some d)
    (hrecorded : Chain.AllRecorded w.machine.memory w.chains) :
    Chain.AllRecorded st.memory (w.put i d' st).chains := by
  have hchains := chains_put hd d' st
  rw [h.suspended] at hchains
  have hsame : ∀ a, st.memory.read a = w.machine.memory.read a := by
    rcases h.memory with hmemory | ⟨s, hrunning, hmemory⟩
    · exact fun a => congrArg (Memory.read · a) hmemory
    -- A fiber that is alone records once more that it has no parent, so this is no change.
    · have hlone := (hrecorded.perm (chains_perm hd)) d.suspended List.mem_cons_self
      rw [Domain.suspended_of_cons hrunning] at hlone
      have hparent : s.recordedParent w.machine.memory = 0 := hlone.1
      intro a
      rw [hmemory, ← hparent]
      exact Segment.read_recordParent_recorded a
  refine Chain.AllRecorded.perm ?_ ((chains_perm hd).trans hchains.symm)
  exact fun c hc => (hrecorded c hc).congr fun t _ => hsame t.parentSlot

theorem fibers_of_refused (hd : w.domains[i]? = some d)
    (hsep : Segment.Separate w.machine.space w.segments) : (w.put i d' st).fibers = w.fibers := by
  have hsame : ∀ t ∈ w.held, t.fiber st.memory = t.fiber w.machine.memory := by
    rcases h.memory with hmemory | ⟨s, hrunning, hmemory⟩
    · exact fun t _ => congrArg (Segment.fiber · t) hmemory
    · intro t ht
      have hs : { s with savedExn := d.exnHandler } ∈ w.held :=
        mem_held_of_domain hd (by simp [Domain.suspended_of_cons hrunning])
      have hformed := hsep.formed _ (List.mem_append_left _ hs)
      rw [hmemory]
      exact fiber_of_confined hsep (List.mem_append_left _ hs)
        ((Segment.sameOutside_recordParent 0).confines hformed)
        (Segment.fiber_recordParent hformed 0) (List.mem_append_left _ ht)
  calc
    (w.put i d' st).fibersIn st.memory = (w.fibersIn st.memory).put i (d'.thread st.memory) :=
      fibersIn_put w i d' st st.memory
    _ = w.fibersIn st.memory := by rw [refused_thread h, put_thread hd]
    _ = w.fibersIn w.machine.memory := fibersIn_congr hsame

theorem effect_of_refused (hd : w.domains[i]? = some d)
    (hsep : Segment.Separate w.machine.space w.segments)
    (hobtained : (w.put i d' st).obtained c a = none) (hstep : w.fibers.Step c a w.fibers) :
    Effect w c a (w.put i d' st) where
  flow := hobtained ▸ flow_of_refused h hd hsep
  recorded := recorded_of_refused h hd
  fibers := (fibers_of_refused h hd hsep).symm ▸ hstep

end

/-! ### Calls that obtain a segment -/

theorem effect_of_startMain {r : Except StackError Unit}
    (hsep : Segment.Separate w.machine.space w.segments) (hd : w.domains[i]? = some d)
    (hrun : d.startMain w.machine = .ok (r, d') st) :
    Effect w (.startMain i) (.ofExcept r) (w.put i d' st) := by
  rcases Domain.startMain_cases (separate_around hsep hd) hrun with
    ⟨s, d₁, rfl, ⟨hnew, hpool, hseparate⟩, hd'⟩ | ⟨rfl, hdeclined⟩
  · have hsuspended : d'.suspended = [s] := by
      simp [hd', Domain.suspended, ← hnew.unsaved]
    have hpools : d'.pool = d₁.pool := by rw [hd']
    have hm := hnew.kept.confines hnew.formed
    have hchains := chains_perm hd
    have hchains' := chains_put hd d' st
    have hpooled' := pooled_put hd d' st
    rw [hsuspended] at hchains'
    rw [hpools] at hpooled'
    rw [List.append_assoc] at hseparate
    refine ⟨?_, fun hrecorded => ?_, ?_⟩
    · have hobtained : (w.put i d' st).obtained (.startMain i) (.ofExcept (.ok ())) = some s := by
        obtain ⟨hi, -⟩ := List.getElem?_eq_some_iff.mp hd
        simp [obtained, Answer.ofExcept, put, hi, Domain.current?, hd']
      have hflat := hchains.flatten
      have hflat' := hchains'.flatten
      have hperm : (s :: (w.held ++ ((w.without i).pooled ++ d₁.pool.segments))).Perm
          ((w.put i d' st).segments ++ d.suspended) := by
        grind [segments, held]
      exact hobtained ▸ .of_obtained hseparate hperm (by grind [held]) ⟨hnew.unsaved, hnew.tagged⟩
    · have hrest := (hrecorded.perm hchains).tail
      refine (hrest.obtain hseparate hnew fun t ht => List.mem_append_left _ ?_).perm hchains'.symm
      exact hchains.flatten.mem_iff.mpr (List.mem_append_right _ ht)
    · have hsame : w.fibersIn st.memory = w.fibersIn w.machine.memory :=
        fibersIn_congr fun t ht => hseparate.fiber_eq hm (List.mem_append_left _ ht)
      have hthread : d'.thread st.memory = (d.thread st.memory).run [.fresh .main .unit] := by
        rw [Domain.thread, hsuspended, hd', hpool, Chain.fibers, List.map_singleton, hnew.fiber_eq]
        rfl
      have hfibers : (w.put i d' st).fibers =
          w.fibers.put i ((d.thread st.memory).run [.fresh .main .unit]) := by
        rw [fibers, fibers, ← hsame, ← hthread]
        exact fibersIn_put w i d' st st.memory
      rw [hfibers]
      refine .startMain ?_
      rw [fibers, ← hsame]
      exact getElem?_threads hd st.memory
  · exact effect_of_refused hdeclined.refused hd hsep rfl .startMainFailed

theorem fibers_of_obtained {w₁ : Stacks} {f : Fiber}
    (hw₁ : w₁ = { w with loose := w.loose ++ [s] }) (hd : w.domains[i]? = some d)
    (hthread : d'.thread st.memory = d.thread st.memory)
    (hsame : w.fibersIn st.memory = w.fibersIn w.machine.memory)
    (hfiber : s.fiber st.memory = f) :
    (w₁.put i d' st).fibers = { w.fibers with loose := w.fibers.loose ++ [f] } := by
  have hd₁ : w₁.domains[i]? = some d := by rwa [hw₁]
  calc
    (w₁.put i d' st).fibersIn st.memory = (w₁.fibersIn st.memory).put i (d.thread st.memory) := by
      rw [fibersIn_put, hthread]
    _ = w₁.fibersIn st.memory := put_thread hd₁ st.memory
    _ = { w.fibersIn st.memory with
          loose := (w.fibersIn st.memory).loose ++ [s.fiber st.memory] } := by
      rw [hw₁, fibersIn_append_loose]
    _ = { w.fibers with loose := w.fibers.loose ++ [f] } := by
      rw [hsame, hfiber]
      rfl

/-- A call that gets a segment to the caller. -/
theorem effect_of_allocated {w₁ : Stacks} {h : Handlers} {id : FiberId}
    (hw₁ : w₁ = { w with loose := w.loose ++ [s] }) (hd : w.domains[i]? = some d)
    (halloc : d.Allocated (w.held ++ (w.without i).pooled) w.machine h id s d' st)
    (hobtained : (w₁.put i d' st).obtained c a = (w₁.put i d' st).loose.getLast?)
    (hstep : w.fibers.Step c a { w.fibers with loose := w.fibers.loose ++ [.fresh id h] }) :
    Effect w c a (w₁.put i d' st) := by
  obtain ⟨hnew, hpool, hseparate⟩ := halloc
  rw [List.append_assoc] at hseparate
  have hsuspended : d'.suspended = d.suspended := by rw [hpool]; rfl
  have hd₁ : w₁.domains[i]? = some d := by rwa [hw₁]
  have hchains' : (w₁.put i d' st).chains.Perm ([s] :: w.chains) := by
    have hput := chains_put hd₁ d' st
    rw [hsuspended] at hput
    have hloose : w₁.chains.Perm ([s] :: w.chains) := hw₁ ▸ chains_append_loose w s
    exact (hput.trans (chains_perm hd₁).symm).trans hloose
  have hpooled' := pooled_put hd₁ d' st
  have hbesides : (w₁.without i).pooled = (w.without i).pooled := by rw [hw₁]; rfl
  rw [hbesides] at hpooled'
  refine ⟨?_, fun hrecorded => ?_, ?_⟩
  · have hlast : (w₁.put i d' st).loose.getLast? = some s := by simp [put, hw₁]
    have hflat' := hchains'.flatten
    have hperm : (s :: (w.held ++ ((w.without i).pooled ++ d'.pool.segments))).Perm
        ((w₁.put i d' st).segments ++ []) := by
      grind [segments, held]
    rw [hobtained, hlast]
    exact .of_obtained hseparate hperm (by grind [held]) ⟨hnew.unsaved, hnew.tagged⟩
  · exact (hrecorded.obtain hseparate hnew fun t ht => List.mem_append_left _ ht).perm hchains'.symm
  · have hm := hnew.kept.confines hnew.formed
    have hsame : w.fibersIn st.memory = w.fibersIn w.machine.memory :=
      fibersIn_congr fun t ht => hseparate.fiber_eq hm (List.mem_append_left _ ht)
    have hthread : d'.thread st.memory = d.thread st.memory := by rw [hpool]; rfl
    rw [fibers_of_obtained hw₁ hd hthread hsame hnew.fiber_eq]
    exact hstep

theorem effect_of_alloc {h : Handlers} (hsep : Segment.Separate w.machine.space w.segments)
    (hd : w.domains[i]? = some d) (hrun : d.alloc h w.machine = .ok (.ok s, d') st) :
    Effect w (.alloc i h) .done ({ w with loose := w.loose ++ [s] }.put i d' st) := by
  rcases Domain.alloc_cases (separate_around hsep hd) hrun with ⟨t, id, heq, halloc⟩ | ⟨herror, -⟩
  · cases heq
    exact effect_of_allocated rfl hd halloc rfl (.alloc id)
  · cases herror

theorem effect_of_allocNoExc {words : Nat} {h : Handlers} {id : FiberId} {s? : Option Segment}
    (hsep : Segment.Separate w.machine.space w.segments) (hd : w.domains[i]? = some d)
    (hrun : d.allocNoExc words h id w.machine = .ok (s?, d') st)
    (hobtained : ∀ w' : Stacks, w'.obtained c (.obtained true) = w'.loose.getLast? ∧
      w'.obtained c (.obtained false) = none)
    (hmet : w.fibers.Step c (.obtained true)
      { w.fibers with loose := w.fibers.loose ++ [.fresh id h] })
    (hfailed : w.fibers.Step c (.obtained false) w.fibers) :
    Effect w c (.obtained s?.isSome) ({ w with loose := w.loose ++ s?.toList }.put i d' st) := by
  cases s? with
  | some s =>
      have halloc := Domain.allocated_among_of_allocNoExc (separate_around hsep hd) hrun
      exact effect_of_allocated rfl hd halloc (hobtained _).1 hmet
  | none =>
      rw [Option.toList_none, List.append_nil]
      have hrefused := (Domain.declined_of_allocNoExc hrun).refused
      exact effect_of_refused hrefused hd hsep (hobtained _).2 hfailed

/-! ### Calls that move segments -/

/-- A segment in use records another parent, and all fibers stay what they are. -/
theorem fibersIn_recordParent {address : Nat} (hsep : Segment.Separate w.machine.space w.segments)
    (hs : s ∈ w.held) (hheld : ∀ t ∈ w'.held, t ∈ w.held)
    (hm : m = s.recordParent w.machine.memory address) :
    w'.fibersIn m = w'.fibersIn w.machine.memory := by
  have hformed := hsep.formed s (List.mem_append_left _ hs)
  refine fibersIn_congr fun t ht => ?_
  rw [hm]
  exact fiber_of_confined hsep (List.mem_append_left _ hs)
    ((Segment.sameOutside_recordParent address).confines hformed)
    (Segment.fiber_recordParent hformed address) (List.mem_append_left _ (hheld t ht))

theorem fibersIn_put_run (w : Stacks) (i : Nat) (d : Domain) (c : Chain) (st : MachineState)
    (m : Memory) :
    (w.put i (d.run c) st).fibersIn m =
      (w.fibersIn m).put i ((d.thread m).run (Chain.fibers m c)) := by
  rw [fibersIn_put, Domain.thread_run]

/-- A call that takes the chains `before` and leaves the chains `after` of the same segments. -/
theorem effect_of_moved {w₁ : Stacks} {before after : List Chain}
    (hsep : Segment.Separate w.machine.space w.segments) (hpooled : w₁.pooled = w.pooled)
    (hd : w₁.domains[i]? = some d) (hpool : d'.pool = d.pool) (hspace : st.space = w.machine.space)
    (hbefore : w.chains.Perm before) (hafter : (w₁.put i d' st).chains.Perm after)
    (hmoved : before.flatten.Perm after.flatten)
    (hobtained : (w₁.put i d' st).obtained c a = none)
    (hrecorded : Segment.Separate w.machine.space (before.flatten ++ w.pooled) →
      Chain.AllRecorded w.machine.memory before → Chain.AllRecorded st.memory after)
    (hfibers : w.fibers.Step c a (w₁.put i d' st).fibers) : Effect w c a (w₁.put i d' st) := by
  refine ⟨?_, fun hall => ?_, hfibers⟩
  · rw [hobtained]
    exact .of_moved hsep hspace (hpooled ▸ pooled_put_same hd hpool st) hbefore hafter hmoved
  · have hsegments : w.segments.Perm (before.flatten ++ w.pooled) := hbefore.flatten.append_right _
    exact (hrecorded (hsep.perm hsegments) (hall.perm hbefore)).perm hafter.symm

theorem effect_of_runFiber {w₁ : Stacks} (hw₁ : w₁ = { w with loose := w.loose.eraseIdx j })
    (hsep : Segment.Separate w.machine.space w.segments) (hd : w.domains[i]? = some d)
    (hs : w.loose[j]? = some s) (hrun : d.runFiber s w.machine = .ok d' st) :
    Effect w (.runFiber i j) .done (w₁.put i d' st) := by
  obtain ⟨rfl, hst⟩ := Domain.runFiber_eq_ok hrun
  have hmemory : st.memory = s.recordParent w.machine.memory (Chain.link d.suspended) := by rw [hst]
  have hd₁ : w₁.domains[i]? = some d := by rwa [hw₁]
  have hbefore : w.chains.Perm (d.suspended :: ([] ++ [s]) :: (w₁.without i).chains) := by
    have hloose := chains_loose hs
    rw [← hw₁] at hloose
    exact (hloose.trans ((chains_perm hd₁).cons _)).trans (List.Perm.swap _ _ _)
  have hheld : s ∈ w.held := hbefore.flatten.mem_iff.mpr (by simp)
  have hformed := hsep.formed s (List.mem_append_left _ hheld)
  have hafter : (w₁.put i (d.run (s :: d.suspended)) st).chains.Perm
      ((s :: d.suspended) :: (w₁.without i).chains) := by
    have hput := chains_put hd₁ (d.run (s :: d.suspended)) st
    rwa [Domain.suspended_run] at hput
  refine effect_of_moved hsep (by rw [hw₁]; rfl) hd₁ rfl (by rw [hst]) hbefore hafter (by grind) rfl
    (fun hbeforeSep hall => ?_) ?_
  · refine hall.join hbeforeSep ?_ ?_
    · rw [hmemory]
      exact (Segment.sameOutside_recordParent _).confines hformed
    · rw [hmemory]
      exact Segment.recordedParent_recordParent (hbeforeSep.link_lt (by grind))
  · have hsame : ∀ t ∈ (w₁.put i (d.run (s :: d.suspended)) st).held, t ∈ w.held := by
      have hflat := hbefore.flatten
      have hflat' := hafter.flatten
      grind [held]
    have hfibers : (w₁.put i (d.run (s :: d.suspended)) st).fibers =
        { w.fibers with loose := w.fibers.loose.eraseIdx j }.put i
          ((d.thread w.machine.memory).run
            (s.fiber w.machine.memory :: (d.thread w.machine.memory).fibers)) := by
      calc
        (w₁.put i (d.run (s :: d.suspended)) st).fibersIn st.memory =
            (w₁.put i (d.run (s :: d.suspended)) st).fibersIn w.machine.memory :=
          fibersIn_recordParent hsep hheld hsame hmemory
        _ = (w₁.fibersIn w.machine.memory).put i ((d.thread w.machine.memory).run
              (Chain.fibers w.machine.memory (s :: d.suspended))) :=
          fibersIn_put_run w₁ i d _ st _
        _ = _ := by
          rw [hw₁, fibersIn_erase_loose]
          rfl
    rw [hfibers]
    exact .runFiber (getElem?_threads hd _) (getElem?_loose hs _)

theorem effect_of_returnFromFiber {h? : Option Handlers}
    (hsep : Segment.Separate w.machine.space w.segments) (hd : w.domains[i]? = some d)
    (hrun : d.returnFromFiber w.machine = .ok (h?, d') st) :
    Effect w (.returnFromFiber i) (.returned h?) (w.put i d' st) := by
  have hformed : ∀ s ∈ d.running, s.Formed := by
    have hdomain : Segment.Separate w.machine.space (d.suspended ++ (w.without i).held) :=
      (hsep.sublist (List.sublist_append_left _ _)).perm (chains_perm hd).flatten
    exact fun s hs => (Domain.suspended_separate.mp hdomain).formed s (List.mem_append_left _ hs)
  rcases Domain.returnFromFiber_cases hformed hrun with
    ⟨hlength, rfl, hrefused⟩ | ⟨finished, parent, outer, hrunning, rfl, hd', hspace, hpools, hm⟩
  · refine effect_of_refused hrefused hd hsep rfl (.returnRefused (getElem?_threads hd _) ?_)
    rwa [Domain.length_fibers, Domain.length_suspended]
  · have hsuspended := Domain.suspended_of_cons hrunning
    have hsuspended' : d'.suspended = parent :: outer := by rw [hd']; rfl
    have hchains := chains_perm hd
    have hchains' := chains_put hd d' st
    have hpooled := pooled_perm hd
    have hpooled' := pooled_put hd d' st
    rw [hsuspended] at hchains
    rw [hsuspended'] at hchains'
    have hflat := hchains.flatten
    have hflat' := hchains'.flatten
    have hfocus : Segment.Separate w.machine.space
        (finished :: ((w.put i d' st).held ++ (d.pool.segments ++ (w.without i).pooled))) := by
      have hperm : w.segments.Perm ({ finished with savedExn := d.exnHandler } ::
          ((w.put i d' st).held ++ (d.pool.segments ++ (w.without i).pooled))) := by
        grind [segments, held]
      exact (hsep.perm hperm).resave finished.savedExn
    refine ⟨.of_held ?_ (by grind [held]), fun hrecorded => ?_, ?_⟩
    · have hsep' : Segment.Separate w.machine.space (w.put i d' st).segments := by
        rcases hpools with hpooled'' | hgone
        · refine hfocus.perm ?_
          grind [segments]
        · refine (hfocus.sublist (List.sublist_cons_self _ _)).perm ?_
          rw [hgone] at hpooled'
          exact (hpooled'.append_left _).symm
      exact hspace ▸ hsep'
    · have hall := hrecorded.perm hchains
      have htail : Chain.AllRecorded w.machine.memory (w.put i d' st).chains :=
        (hall.tail.cons (hall _ List.mem_cons_self).2).perm hchains'.symm
      exact htail.frame hfocus hm fun t ht => List.mem_append_left _ ht
    · have hfibers : (w.put i d' st).fibers = w.fibers.put i
          ((d.thread w.machine.memory).run (Chain.fibers w.machine.memory (parent :: outer))) := by
        calc
          (w.put i d' st).fibersIn st.memory = (w.put i d' st).fibersIn w.machine.memory :=
            fibersIn_congr fun t ht => hfocus.fiber_eq hm (List.mem_append_left _ ht)
          _ = (w.fibersIn w.machine.memory).put i (d'.thread w.machine.memory) :=
            fibersIn_put w i d' st _
          _ = _ := by
            rw [hd']
            exact congrArg _ (Domain.thread_run _ d (parent :: outer))
      have hthread : (d.thread w.machine.memory).fibers =
          ({ finished with savedExn := d.exnHandler } : Segment).fiber w.machine.memory ::
            Chain.fibers w.machine.memory (parent :: outer) := by
        rw [Domain.thread, hsuspended]
        rfl
      rw [hfibers]
      exact .returnFromFiber (getElem?_threads hd _) hthread

/-- The fibers of the innermost segments of a domain are those of a new continuation. -/
theorem fibers_of_captured {w₁ : Stacks} {xs ys : Chain}
    (hw₁ : w₁ = { w with continuations := w.continuations ++ [.ofChain (xs ++ [s])] })
    (hcut : d.suspended = xs ++ s :: ys)
    (hsame : (w₁.put i (d.run ys) st).fibersIn st.memory =
      (w₁.put i (d.run ys) st).fibersIn w.machine.memory) :
    (w₁.put i (d.run ys) st).fibers =
      { w.fibers with suspended := w.fibers.suspended ++
          [(d.thread w.machine.memory).fibers.take (xs.length + 1)] }.put i
        ((d.thread w.machine.memory).run
          ((d.thread w.machine.memory).fibers.drop (xs.length + 1))) := by
  calc
    (w₁.put i (d.run ys) st).fibersIn st.memory =
        (w₁.put i (d.run ys) st).fibersIn w.machine.memory := hsame
    _ = (w₁.fibersIn w.machine.memory).put i ((d.thread w.machine.memory).run
          (Chain.fibers w.machine.memory ys)) := fibersIn_put_run w₁ i d ys st _
    _ = _ := by
      rw [hw₁, Domain.take_fibers hcut, Domain.drop_fibers hcut]
      exact congrArg (Fibers.put · i _)
        (fibersIn_append_continuation w (.ofChain (xs ++ [s])) w.machine.memory)

theorem effect_of_capture {w₁ : Stacks} {depth : Nat} {k? : Option Continuation}
    (hw₁ : w₁ = { w with continuations := w.continuations ++ k?.toList })
    (hsep : Segment.Separate w.machine.space w.segments) (hd : w.domains[i]? = some d)
    (hrun : d.capture depth w.machine = .ok (k?, d') st) :
    Effect w (.capture i depth) (.captured k?.isSome) (w₁.put i d' st) := by
  rcases Domain.capture_cases hrun with
    ⟨hdepth, rfl, hrefused⟩ | ⟨xs, s, ys, journal, hcut, hdepth, hrest, rfl, rfl, hst⟩
  · have hsame : w₁ = w := by rw [hw₁, Option.toList_none, List.append_nil]
    rw [hsame]
    refine effect_of_refused hrefused hd hsep rfl (.captureRefused (getElem?_threads hd _) ?_)
    rwa [Domain.length_fibers, Domain.length_suspended]
  · have hmemory : st.memory = s.recordParent w.machine.memory 0 := by rw [hst]
    have hd₁ : w₁.domains[i]? = some d := by rwa [hw₁]
    have hbefore : w.chains.Perm ((xs ++ s :: ys) :: (w.without i).chains) := hcut ▸ chains_perm hd
    have hafter : (w₁.put i (d.run ys) st).chains.Perm
        (ys :: (xs ++ [s]) :: (w.without i).chains) := by
      have hput := chains_put hd₁ (d.run ys) st
      rw [Domain.suspended_run, hw₁] at hput
      rw [hw₁]
      exact hput.trans ((chains_append_continuation (w.without i) (.ofChain (xs ++ [s]))).cons _)
    have hheld : s ∈ w.held := mem_held_of_domain hd (by rw [hcut]; simp)
    have hformed := hsep.formed s (List.mem_append_left _ hheld)
    refine effect_of_moved hsep (by rw [hw₁]; rfl) hd₁ rfl (by rw [hst]) hbefore hafter (by grind)
      rfl (fun hbeforeSep hall => ?_) ?_
    · rw [hmemory]
      exact hall.split hbeforeSep ((Segment.sameOutside_recordParent 0).confines hformed)
        (Segment.recordedParent_recordParent (by decide))
    · have hsame : ∀ t ∈ (w₁.put i (d.run ys) st).held, t ∈ w.held := by
        have hflat := hbefore.flatten
        have hflat' := hafter.flatten
        grind [held]
      have hcount : (d.thread w.machine.memory).fibers.length = depth + ys.length := by
        rw [Domain.length_fibers, hcut, List.length_append, List.length_cons]
        omega
      have hpos := List.length_pos_iff.mpr hrest
      rw [fibers_of_captured hw₁ hcut (fibersIn_recordParent hsep hheld hsame hmemory), hdepth]
      exact .capture (getElem?_threads hd _) (by omega) (by omega)

/-- The fibers of a continuation run on top of those that ran, and the continuation has none
left. -/
theorem fibers_of_resumed {w₁ : Stacks} {k' : Continuation} {chain : Chain} {fs : List Fiber}
    (hw₁ : w₁ = { w with continuations := w.continuations.set j k' }) (hstored : k'.stored = [])
    (hothers : w₁.fibersIn st.memory = w₁.fibersIn w.machine.memory)
    (hchain : Chain.fibers st.memory chain = fs) :
    (w₁.put i (d.run chain) st).fibers =
      { w.fibers with suspended := w.fibers.suspended.set j [] }.put i
        ((d.thread w.machine.memory).run fs) := by
  calc
    (w₁.put i (d.run chain) st).fibersIn st.memory =
        (w₁.fibersIn st.memory).put i
          ((d.thread st.memory).run (Chain.fibers st.memory chain)) :=
      fibersIn_put_run w₁ i d chain st _
    _ = (w₁.fibersIn w.machine.memory).put i ((d.thread w.machine.memory).run fs) := by
      rw [hothers, hchain]
      rfl
    _ = _ := by
      rw [hw₁, fibersIn_set_continuation, hstored]
      rfl

theorem effect_of_resume {w₁ : Stacks} {k' : Continuation} {h : Handlers}
    {r : Except StackError Unit}
    (hw₁ : w₁ = { w with continuations := w.continuations.set j k' })
    (hsep : Segment.Separate w.machine.space w.segments) (hd : w.domains[i]? = some d)
    (hk : w.continuations[j]? = some k) (hrun : d.resume k h w.machine = .ok (r, d', k') st) :
    Effect w (.resume i j h) (.ofExcept r) (w₁.put i d' st) := by
  rcases Domain.resume_cases hrun with
    ⟨hstored, rfl, rfl, hrefused⟩ | ⟨xs, s, hstored, rfl, rfl, rfl, hst⟩
  · have hsame : w₁ = w := by
      obtain ⟨hj, rfl⟩ := List.getElem?_eq_some_iff.mp hk
      rw [hw₁, List.set_getElem_self]
    rw [hsame]
    refine effect_of_refused hrefused hd hsep rfl (.resumeRefused ?_)
    have hget := getElem?_suspended hk w.machine.memory
    rwa [hstored] at hget
  · have hd₁ : w₁.domains[i]? = some d := by rwa [hw₁]
    have hmemory : st.memory =
        s.recordParent (s.setHandlers w.machine.memory h) (Chain.link d.suspended) := by rw [hst]
    obtain ⟨rest, hwithout, hset⟩ :=
      chains_continuation (w := w.without i) hk { k with stored := [] }
    rw [hstored] at hwithout
    have hrest : (w₁.without i).chains.Perm ([] :: rest) := hw₁ ▸ hset
    have hbefore : w.chains.Perm (d.suspended :: (xs ++ [s]) :: rest) :=
      (chains_perm hd).trans (hwithout.cons _)
    have hafter : (w₁.put i (d.run (xs ++ s :: d.suspended)) st).chains.Perm
        ((xs ++ s :: d.suspended) :: [] :: rest) := by
      have hput := chains_put hd₁ (d.run (xs ++ s :: d.suspended)) st
      rw [Domain.suspended_run] at hput
      exact hput.trans (hrest.cons _)
    have hfocus : Segment.Separate w.machine.space
        (s :: (xs ++ d.suspended ++ rest.flatten ++ w.pooled)) := by
      have hflat := hbefore.flatten
      exact hsep.perm (by grind [segments, held])
    have hformed := hfocus.formed s List.mem_cons_self
    -- Only the outermost segment of the continuation is written, so `hfocus` is all that is needed
    -- for the fibers of the others.
    have hm : s.Confines w.machine.memory st.memory := by
      rw [hmemory]
      exact ((Segment.sameOutside_setHandlers h).trans
        (Segment.sameOutside_recordParent _)).confines hformed
    refine effect_of_moved hsep (by rw [hw₁]; rfl) hd₁ rfl (by rw [hst]) hbefore hafter (by grind)
      rfl (fun hbeforeSep hall => ?_) ?_
    · have hparent : s.recordedParent st.memory = Chain.link d.suspended := by
        rw [hmemory]
        exact Segment.recordedParent_recordParent (hbeforeSep.link_lt (by grind))
      have hjoined := hall.join hbeforeSep hm hparent
      have hempty : Chain.Recorded st.memory [] := trivial
      exact (hjoined.cons hempty).perm (List.Perm.swap _ _ _)
    · have hself : s.fiber st.memory = { s.fiber w.machine.memory with handlers := h } := by
        rw [hmemory, Segment.fiber_recordParent hformed, Segment.fiber_setHandlers hformed]
      have hchain : Chain.fibers st.memory (xs ++ s :: d.suspended) =
          Fiber.rebind (Chain.fibers w.machine.memory k.stored) h ++
            (d.thread w.machine.memory).fibers := by
        rw [hstored]
        exact hfocus.fibers_rebound hm hself (by grind) (by grind)
      have hothers : w₁.fibersIn st.memory = w₁.fibersIn w.machine.memory := by
        refine fibersIn_congr fun t ht => hfocus.fiber_eq hm (List.mem_append_left _ ?_)
        have hflat := ((chains_perm hd₁).trans (hrest.cons _)).flatten
        grind [held]
      rw [fibers_of_resumed hw₁ rfl hothers hchain]
      refine .resume (getElem?_threads hd _) (getElem?_suspended hk _) ?_
      rw [hstored, Chain.fibers_append]
      exact List.append_ne_nil_of_right_ne_nil _ (List.cons_ne_nil _ _)

/-! ### Calls that give segments up

Below, `w₁` are the stacks without the chain that is freed. -/

section

variable {w₁ : Stacks} {chain : Chain} (hreclaims : d.Reclaims chain w.machine d' st)

include hreclaims

/-- Memory changes on the chain only, and no segment still in use lies there. -/
theorem read_of_reclaimed (hfocus : Segment.Separate w.machine.space (chain ++ w₁.held))
    (ht : t ∈ w₁.held) (a : Nat) (ha : t.Owns a) :
    st.memory.read a = w.machine.memory.read a := by
  refine hreclaims.elsewhere (fun s hs => hfocus.formed s (List.mem_append_left _ hs))
    fun s hs hown => ?_
  exact (List.pairwise_append.mp hfocus.apart).2.2 s hs t ht a hown ha

theorem chains_of_reclaimed (hd : w₁.domains[i]? = some d) :
    (w₁.put i d' st).chains.Perm w₁.chains := by
  have hsuspended : d'.suspended = d.suspended := by rw [hreclaims.pool]; rfl
  have hput := chains_put hd d' st
  rw [hsuspended] at hput
  exact hput.trans (chains_perm hd).symm

/-- A segment of the chain is pooled, or it is refused. -/
theorem segments_of_reclaimed (hdomains : w₁.domains = w.domains) (hd : w.domains[i]? = some d)
    (hheld : w.held.Perm (chain ++ w₁.held)) :
    w.segments.Perm ((w₁.put i d' st).segments ++ d.pool.refused chain) := by
  have hd₁ : w₁.domains[i]? = some d := by rwa [hdomains]
  have hheld' : (w₁.put i d' st).held.Perm w₁.held := (chains_of_reclaimed hreclaims hd₁).flatten
  have hpooled := pooled_perm hd
  have hpooled' := pooled_put hd₁ d' st
  have hbesides : (w₁.without i).pooled = (w.without i).pooled := by
    rw [without, without, hdomains]
    rfl
  rw [hbesides] at hpooled'
  calc
    w.segments.Perm (chain ++ w₁.held ++ (d.pool.segments ++ (w.without i).pooled)) :=
      hheld.append hpooled
    List.Perm _ (w₁.held ++ (w.without i).pooled ++ (chain ++ d.pool.segments)) := by grind
    List.Perm _ (w₁.held ++ (w.without i).pooled ++ (d'.pool.segments ++ d.pool.refused chain)) :=
      hreclaims.segments.symm.append_left _
    List.Perm _ ((w₁.put i d' st).segments ++ d.pool.refused chain) := by grind [segments]

theorem fibers_of_reclaimed (hd : w₁.domains[i]? = some d)
    (hfocus : Segment.Separate w.machine.space (chain ++ w₁.held)) :
    (w₁.put i d' st).fibers = w₁.fibersIn w.machine.memory := by
  have hthread : d'.thread st.memory = d.thread st.memory := by rw [hreclaims.pool]; rfl
  calc
    (w₁.put i d' st).fibersIn st.memory = (w₁.fibersIn st.memory).put i (d.thread st.memory) := by
      rw [fibersIn_put, hthread]
    _ = w₁.fibersIn st.memory := put_thread hd st.memory
    _ = w₁.fibersIn w.machine.memory := fibersIn_congr fun t ht =>
      Segment.fiber_of_owns (hfocus.formed t (List.mem_append_right _ ht))
        (read_of_reclaimed hreclaims hfocus ht)

/-- A call that frees a chain. -/
theorem effect_of_reclaimed (hsep : Segment.Separate w.machine.space w.segments)
    (hdomains : w₁.domains = w.domains) (hd : w.domains[i]? = some d)
    (hheld : w.held.Perm (chain ++ w₁.held))
    (hrecorded : Chain.AllRecorded w.machine.memory w.chains →
      Chain.AllRecorded w.machine.memory w₁.chains)
    (hobtained : (w₁.put i d' st).obtained c a = none)
    (hfibers : w.fibers.Step c a (w₁.fibersIn w.machine.memory)) :
    Effect w c a (w₁.put i d' st) := by
  have hd₁ : w₁.domains[i]? = some d := by rwa [hdomains]
  have hchains := chains_of_reclaimed hreclaims hd₁
  have hfocus : Segment.Separate w.machine.space (chain ++ w₁.held) :=
    (hsep.sublist (List.sublist_append_left _ _)).perm hheld
  refine ⟨?_, fun hall => ?_, fibers_of_reclaimed hreclaims hd₁ hfocus ▸ hfibers⟩
  · rw [hobtained]
    refine .of_held ?_ fun t ht =>
      hheld.mem_iff.mpr (List.mem_append_right _ (hchains.flatten.mem_iff.mp ht))
    have hperm := segments_of_reclaimed hreclaims hdomains hd hheld
    exact hreclaims.space ▸ hsep.of_perm_append hperm
  · refine Chain.AllRecorded.perm (fun c hc => ?_) hchains.symm
    refine (hrecorded hall c hc).congr fun t ht => ?_
    have hmem : t ∈ w₁.held := List.mem_flatten_of_mem hc ht
    have hformed := hfocus.formed t (List.mem_append_right _ hmem)
    exact read_of_reclaimed hreclaims hfocus hmem _ (Segment.owns_parentSlot hformed)

end

theorem effect_of_free (hsep : Segment.Separate w.machine.space w.segments)
    (hd : w.domains[i]? = some d) (hs : w.loose[j]? = some s)
    (hrun : d.free [s] w.machine = .ok d' st) :
    Effect w (.free i j) .done ({ w with loose := w.loose.eraseIdx j }.put i d' st) := by
  have hchains := chains_loose hs
  refine effect_of_reclaimed (Domain.reclaims_of_free hrun) hsep rfl hd hchains.flatten
    (fun hall => (hall.perm hchains).tail) rfl ?_
  rw [fibersIn_erase_loose]
  exact .free (getElem?_loose hs _)

theorem effect_of_dropContinuation {k' : Continuation} {r : Except StackError Unit}
    (hsep : Segment.Separate w.machine.space w.segments) (hd : w.domains[i]? = some d)
    (hk : w.continuations[j]? = some k)
    (hrun : d.dropContinuation k w.machine = .ok (r, d', k') st) :
    Effect w (.dropContinuation i j) (.ofExcept r)
      ({ w with continuations := w.continuations.set j k' }.put i d' st) := by
  rcases Domain.dropContinuation_cases hrun with
    ⟨hstored, rfl, rfl, rfl, journal, rfl⟩ | ⟨hstored, rfl, rfl, hfree⟩
  · have hsame : w.continuations.set j k' = w.continuations := by
      obtain ⟨hj, rfl⟩ := List.getElem?_eq_some_iff.mp hk
      rw [List.set_getElem_self]
    rw [hsame]
    refine effect_of_refused ⟨rfl, rfl, rfl, .inl rfl⟩ hd hsep rfl (.dropRefused ?_)
    have hget := getElem?_suspended hk w.machine.memory
    rwa [hstored] at hget
  · obtain ⟨rest, hchains, hset⟩ := chains_continuation hk { k with stored := [] }
    have hflat := hset.flatten
    refine effect_of_reclaimed (Domain.reclaims_of_free hfree) hsep rfl hd ?_ (fun hall => ?_) rfl
      ?_
    · exact hchains.flatten.trans (hflat.symm.append_left k.stored)
    · have hempty : Chain.Recorded w.machine.memory [] := trivial
      exact ((hall.perm hchains).tail.cons hempty).perm hset.symm
    · rw [fibersIn_set_continuation]
      refine .dropContinuation (getElem?_suspended hk _) fun hnil => hstored ?_
      exact List.map_eq_nil_iff.mp hnil

/-- Every step of stacks keeps what an effect says, and is the step of their lists of fibers. -/
theorem Step.effect (hstep : w.Step c a w')
    (hsep : Segment.Separate w.machine.space w.segments) : Effect w c a w' := by
  cases hstep with
  | startMain hd hrun => exact effect_of_startMain hsep hd hrun
  | alloc hd hrun => exact effect_of_alloc hsep hd hrun
  | allocFailed hd hrun =>
      rcases Domain.alloc_cases (separate_around hsep hd) hrun with
        ⟨s, id, hok, -⟩ | ⟨heq, hdeclined⟩
      · cases hok
      · cases heq
        exact effect_of_refused hdeclined.refused hd hsep rfl .allocFailed
  | allocNoExc hd hrun =>
      exact effect_of_allocNoExc hsep hd hrun (fun _ => ⟨rfl, rfl⟩) .allocNoExc .allocNoExcFailed
  | allocMain hd hrun =>
      exact effect_of_allocNoExc hsep hd hrun (fun _ => ⟨rfl, rfl⟩) .allocMain .allocMainFailed
  | runFiber hd hs hrun => exact effect_of_runFiber rfl hsep hd hs hrun
  | returnFromFiber hd hrun => exact effect_of_returnFromFiber hsep hd hrun
  | capture hd hrun => exact effect_of_capture rfl hsep hd hrun
  | resume hd hk hrun => exact effect_of_resume rfl hsep hd hk hrun
  | free hd hs hrun => exact effect_of_free hsep hd hs hrun
  | dropContinuation hd hk hrun => exact effect_of_dropContinuation hsep hd hk hrun

end FiberStacks.Stacks
