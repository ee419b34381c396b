import FiberStacks.Proofs.Fibers.Accounts
import FiberStacks.Proofs.Growth.Links
import FiberStacks.Proofs.Holdings.Works
import Mathlib.Data.List.Forall2

/-!
# Native calls of fibers

A domain keeps the links of its native calls as addresses, and addresses say nothing about fibers: a
segment that was freed is used again, and a fiber that grows goes elsewhere. Here a monitor numbers
the fibers and takes down which of them made a native call. The links turn out to lead to the
segments that these fibers have now.
-/

namespace FiberStacks

/-! ### The monitor -/

/-- A native call in progress: the number of the fiber that made it, and the link at that time. It
is kept until the fiber grows in another domain. -/
structure NativeCall where
  fiber : Nat
  pushed : NativeLink
  kept : Bool

def NativeCall.leave (fiber : Nat) (call : NativeCall) : NativeCall :=
  { call with kept := call.kept && call.fiber != fiber }

/-- The monitor numbers fibers in the order in which their segments are obtained, and has the native
calls in progress of each domain, oldest first. Segments in use are told by the upper end of their
body. -/
structure Monitor where
  number : Nat → Nat
  next : Nat
  calls : Nat → List NativeCall

namespace Monitor

def start : Monitor := ⟨fun _ => 0, 0, fun _ => []⟩

def fiberOf (o : Monitor) (s : Segment) : Nat := o.number s.high

def obtain (o : Monitor) : Option Segment → Monitor
  | none => o
  | some s => { o with number := Function.update o.number s.high o.next, next := o.next + 1 }

/-- In domain `i` the fiber of `old` goes on in `new`. -/
def grow (o : Monitor) (i : Nat) (old new : Segment) : Monitor :=
  { o with
    number := Function.update o.number new.high (o.fiberOf old)
    calls := fun j =>
      if j = i ∨ new.high = old.high then o.calls j
      else (o.calls j).map (NativeCall.leave (o.fiberOf old)) }

/-- In domain `i` the fiber of `s` makes a native call. -/
def enter (o : Monitor) (i : Nat) (s : Segment) (link : NativeLink) : Monitor :=
  { o with calls := Function.update o.calls i (o.calls i ++ [⟨o.fiberOf s, link, true⟩]) }

/-- The last native call of domain `i` returns. -/
def leave (o : Monitor) (i : Nat) : Monitor :=
  { o with calls := Function.update o.calls i (o.calls i).dropLast }

variable {o : Monitor} {i : Nat} {s t old new : Segment} {new? : Option Segment}

theorem next_le_obtain (o : Monitor) (new? : Option Segment) : o.next ≤ (o.obtain new?).next := by
  cases new? with
  | none => exact Nat.le_refl _
  | some s => exact Nat.le_succ _

theorem calls_obtain (o : Monitor) (new? : Option Segment) : (o.obtain new?).calls = o.calls := by
  cases new? <;> rfl

theorem fiberOf_obtain_of_new (o : Monitor) (s : Segment) :
    (o.obtain (some s)).fiberOf s = o.next := by
  simp only [obtain, fiberOf, Function.update_self]

theorem fiberOf_obtain_of_ne (hhigh : s.high = t.high) (hne : ∀ u ∈ new?, u.high ≠ t.high) :
    (o.obtain new?).fiberOf t = o.fiberOf s := by
  cases new? with
  | none => simp only [obtain, fiberOf, hhigh]
  | some u => simp only [obtain, fiberOf, hhigh, Function.update_of_ne (hne u rfl).symm]

theorem fiberOf_grow_of_eq (h : t.high = new.high) :
    (o.grow i old new).fiberOf t = o.fiberOf old := by
  simp only [grow, fiberOf, h, Function.update_self]

theorem fiberOf_grow_of_ne (h : new.high ≠ t.high) :
    (o.grow i old new).fiberOf t = o.fiberOf t := by
  simp only [grow, fiberOf, Function.update_of_ne h.symm]

theorem grow_of_high_eq (h : new.high = old.high) : o.grow i old new = o := by
  simp only [grow, fiberOf, h, Function.update_eq_self, or_true, if_true]

end Monitor

namespace Stacks

/-- The links of domain `i`, oldest first. -/
def links (w : Stacks) (i : Nat) : List NativeLink := (w.domains[i]?.map Domain.links).getD []

/-- Runs of a process from its start, with the monitor. Domains come, fibers are switched, and in
between running segments are used. A native call leaves the running segment at an address of its
body or at the end of it, and has no asynchronous handler or one in the body. -/
inductive Watched : Stacks → Monitor → Prop
  | start (source : AddressSource) : Watched ⟨.start source, [], [], []⟩ .start
  | joined {w : Stacks} {o : Monitor} {settings : Settings} {d : Domain} {st : MachineState} :
      Watched w o → Domain.create settings w.machine = .ok d st →
      Watched { w with machine := st, domains := w.domains ++ [d] } o
  | called {w w' : Stacks} {o : Monitor} {c : Call} {a : Answer} :
      Watched w o → w.Step c a w' → Watched w' (o.obtain (w'.obtained c a))
  | served {w : Stacks} {o : Monitor} {i : Nat} {call : StackCall} {answer : StackAnswer}
      {d d' : Domain} {old new : Segment} {st : MachineState} :
      Watched w o → w.domains[i]? = some d → d.serve call w.machine = .ok (answer, d') st →
      d.current? = some old → d'.current? = some new →
      Watched (w.put i d' st) (o.grow i old new)
  | computed {w : Stacks} {o : Monitor} {i sp : Nat} {d d' : Domain} {s : Segment}
      {outer : Chain} :
      Watched w o → w.domains[i]? = some d → d.running = s :: outer →
      ({ s with sp } : Segment).Formed → d'.running = { s with sp } :: outer → d'.id = d.id →
      d'.policy = d.policy → d'.pool = d.pool → d'.links = d.links →
      Watched (w.put i d' w.machine) o
  | entered {w : Stacks} {o : Monitor} {i sp async : Nat} {d : Domain} {s : Segment} :
      Watched w o → w.domains[i]? = some d → d.current? = some s → s.base ≤ sp ∧ sp ≤ s.high →
      async = 0 ∨ s.contains async = true →
      Watched (w.put i (d.pushLink ⟨s.high, sp, async⟩) w.machine)
        (o.enter i s ⟨s.high, sp, async⟩)
  | left {w : Stacks} {o : Monitor} {i : Nat} {d : Domain} :
      Watched w o → w.domains[i]? = some d →
      Watched (w.put i d.popLink.2 w.machine) (o.leave i)
  | elsewhere {w : Stacks} {o : Monitor} {st : MachineState} :
      Watched w o → w.machine.Proceeds st → Watched { w with machine := st } o

/-- The link leads to the segment of the fiber that made the call, if the call is kept and the fiber
has a segment in use. -/
def Follows (w : Stacks) (o : Monitor) (call : NativeCall) (link : NativeLink) : Prop :=
  call.kept = true → ∀ s ∈ w.held, o.fiberOf s = call.fiber → link.LeadsTo call.pushed s

structure Tracks (w : Stacks) (o : Monitor) (call : NativeCall) (link : NativeLink) : Prop where
  numbered : call.fiber < o.next
  follows : w.Follows o call link

structure Monitored (w : Stacks) (o : Monitor) : Prop where
  inOrder : w.InOrder
  distinct : ∀ s ∈ w.held, ∀ t ∈ w.held, o.fiberOf s = o.fiberOf t → s.high = t.high
  numbered : ∀ s ∈ w.held, o.fiberOf s < o.next
  calls : ∀ i, List.Forall₂ (w.Tracks o) (o.calls i) (w.links i)

variable {w w' : Stacks} {o : Monitor} {i : Nat} {d d' : Domain} {s s' old new : Segment}
  {outer : Chain} {st : MachineState} {c : Call} {a : Answer}

/-! ### Links of stacks -/

theorem links_of_getElem? (hd : w.domains[i]? = some d) : w.links i = d.links := by
  rw [links, hd]
  rfl

theorem links_put (hd : w.domains[i]? = some d) (d' : Domain) (st : MachineState) :
    (w.put i d' st).links = Function.update w.links i d'.links := by
  obtain ⟨hi, -⟩ := List.getElem?_eq_some_iff.mp hd
  funext j
  by_cases hj : j = i
  · subst hj
    rw [Function.update_self]
    exact links_of_getElem? (List.getElem?_set_self hi)
  · rw [Function.update_of_ne hj, links, put, List.getElem?_set_ne (Ne.symm hj)]
    rfl

theorem links_put_same (hd : w.domains[i]? = some d) (h : d'.links = d.links)
    (st : MachineState) : (w.put i d' st).links = w.links := by
  rw [links_put hd, h, ← links_of_getElem? hd, Function.update_eq_self]

theorem links_join (h : d.links = []) :
    links { w with machine := st, domains := w.domains ++ [d] } = w.links := by
  funext j
  rcases Nat.lt_trichotomy j w.domains.length with hlt | rfl | hgt
  · simp only [links, List.getElem?_append_left hlt]
  · simp [links, h]
  · rw [links, links, List.getElem?_eq_none (by simp; omega), List.getElem?_eq_none (by omega)]

/-- Switching fibers concerns no native call. -/
theorem Step.links_eq (hstep : w.Step c a w')
    (hsep : Segment.Separate w.machine.space w.segments) : w'.links = w.links := by
  cases hstep with
  | startMain hd hrun =>
      refine links_put_same hd ?_ _
      rcases Domain.startMain_cases (separate_around hsep hd) hrun with
        ⟨s, d₁, -, ⟨-, hpool, -⟩, hd'⟩ | ⟨-, hdeclined⟩
      · rw [hd', hpool]
      · rw [hdeclined.pool]
  | @alloc i d d' h s st hd hrun =>
      refine links_put_same (w := { w with loose := w.loose ++ [s] }) hd ?_ _
      rcases Domain.alloc_cases (separate_around hsep hd) hrun with
        ⟨_, _, -, -, hpool, -⟩ | ⟨herr, -⟩
      · rw [hpool]
      · cases herr
  | allocFailed hd hrun =>
      refine links_put_same hd ?_ _
      rcases Domain.alloc_cases (separate_around hsep hd) hrun with ⟨_, _, hok, -⟩ | ⟨-, hdeclined⟩
      · cases hok
      · rw [hdeclined.pool]
  | @allocNoExc i words d d' h id s? st hd hrun =>
      refine links_put_same (w := { w with loose := w.loose ++ s?.toList }) hd ?_ _
      rw [Domain.eq_of_allocNoExc hrun]
  | @allocMain i words d d' s? st hd hrun =>
      refine links_put_same (w := { w with loose := w.loose ++ s?.toList }) hd ?_ _
      rw [Domain.eq_of_allocNoExc hrun]
  | @runFiber i j d d' s st hd _ hrun =>
      refine links_put_same (w := { w with loose := w.loose.eraseIdx j }) hd ?_ _
      obtain ⟨rfl, -⟩ := Domain.runFiber_eq_ok hrun
      rfl
  | returnFromFiber hd hrun =>
      refine links_put_same hd ?_ _
      cases Domain.returns_of_returnFromFiber hrun with
      | idle => rfl
      | lone => rfl
      | ended _ hfrees =>
          obtain ⟨hpool, -⟩ := hfrees.eq
          rw [hpool]
          rfl
  | @capture i depth d d' k? st hd hrun =>
      refine links_put_same (w := { w with continuations := w.continuations ++ k?.toList }) hd ?_ _
      rcases Domain.capture_cases hrun with ⟨-, -, hrefused⟩ | ⟨_, _, _, _, -, -, -, -, rfl, -⟩
      · rw [hrefused.pool]
      · rfl
  | @resume i j d d' k k' h r st hd _ hrun =>
      refine links_put_same (w := { w with continuations := w.continuations.set j k' }) hd ?_ _
      rcases Domain.resume_cases hrun with ⟨-, -, -, hrefused⟩ | ⟨_, _, -, -, rfl, -⟩
      · rw [hrefused.pool]
      · rfl
  | @free i j d d' s st hd _ hrun =>
      refine links_put_same (w := { w with loose := w.loose.eraseIdx j }) hd ?_ _
      rw [(Domain.reclaims_of_free hrun).pool]
  | @dropContinuation i j d d' k k' r st hd _ hrun =>
      refine links_put_same (w := { w with continuations := w.continuations.set j k' }) hd ?_ _
      rcases Domain.dropContinuation_cases hrun with ⟨-, -, rfl, -⟩ | ⟨-, -, -, hfree⟩
      · rfl
      · rw [(Domain.reclaims_of_free hfree).pool]

namespace Monitored

theorem start (source : AddressSource) : Monitored ⟨.start source, [], [], []⟩ .start where
  inOrder := inOrder_start source
  distinct := nofun
  numbered := nofun
  calls := fun _ => .nil

/-- Segments in use stay where they are, or one of them was obtained. -/
theorem carry (h : Monitored w o) (new? : Option Segment) (horder : w'.InOrder)
    (hlinks : w'.links = w.links)
    (hheld : ∀ t ∈ w'.held, new? = some t ∨
      ∃ s ∈ w.held, s.base = t.base ∧ s.high = t.high ∧ ∀ u ∈ new?, u.high ≠ t.high) :
    Monitored w' (o.obtain new?) := by
  have hnext := o.next_le_obtain new?
  have hfibers : ∀ t ∈ w'.held, (new? = some t ∧ (o.obtain new?).fiberOf t = o.next) ∨
      ∃ s ∈ w.held, s.base = t.base ∧ s.high = t.high ∧
        (o.obtain new?).fiberOf t = o.fiberOf s := by
    intro t ht
    rcases hheld t ht with rfl | ⟨s, hs, hbase, hhigh, hne⟩
    · exact .inl ⟨rfl, o.fiberOf_obtain_of_new t⟩
    · exact .inr ⟨s, hs, hbase, hhigh, Monitor.fiberOf_obtain_of_ne hhigh hne⟩
  refine ⟨horder, fun s hs t ht heq => ?_, fun t ht => ?_, fun i => ?_⟩
  · rcases hfibers s hs with ⟨hnew, hs'⟩ | ⟨u, hu, -, hhigh, hs'⟩ <;>
      rcases hfibers t ht with ⟨hnew', ht'⟩ | ⟨v, hv, -, hhigh', ht'⟩
    · cases hnew.symm.trans hnew'
      rfl
    · have hlt := h.numbered v hv
      omega
    · have hlt := h.numbered u hu
      omega
    · rw [← hhigh, ← hhigh']
      exact h.distinct u hu v hv (by rw [← hs', ← ht', heq])
  · rcases hfibers t ht with ⟨rfl, ht'⟩ | ⟨s, hs, -, -, ht'⟩
    · rw [ht']
      exact Nat.lt_succ_self _
    · rw [ht']
      exact Nat.lt_of_lt_of_le (h.numbered s hs) hnext
  · rw [hlinks, Monitor.calls_obtain]
    refine (h.calls i).imp fun call link hcall => ⟨Nat.lt_of_lt_of_le hcall.numbered hnext, ?_⟩
    intro hkept t ht heq
    have hnumbered := hcall.numbered
    -- A new segment has a number that no call has.
    rcases hfibers t ht with ⟨-, ht'⟩ | ⟨s, hs, hbase, hhigh, ht'⟩
    · omega
    · exact (hcall.follows hkept s hs (ht'.symm.trans heq)).congr hbase.symm hhigh.symm

theorem of_join {settings : Settings} (h : Monitored w o)
    (hrun : Domain.create settings w.machine = .ok d st) :
    Monitored { w with machine := st, domains := w.domains ++ [d] } o := by
  have horder := h.inOrder.join hrun
  obtain ⟨hidle, hlinks⟩ : d.suspended = [] ∧ d.links = [] := by
    cases hrun
    exact ⟨rfl, rfl⟩
  refine h.carry none horder (links_join hlinks) fun t ht => .inr ⟨t, ?_, rfl, rfl, nofun⟩
  simpa [held, chains, hidle] using ht

theorem of_step (h : Monitored w o) (hstep : w.Step c a w') :
    Monitored w' (o.obtain (w'.obtained c a)) := by
  have hsep := h.inOrder.separate
  refine h.carry _ (h.inOrder.of_step hstep) (hstep.links_eq hsep) fun t ht => ?_
  exact ((hstep.effect hsep).flow.held t ht).imp_right fun ⟨hmem, hne⟩ => ⟨t, hmem, rfl, rfl, hne⟩

theorem of_work (h : Monitored w o) (hd : w.domains[i]? = some d)
    (hrunning : d.running = s :: outer) (hrunning' : d'.running = s' :: outer)
    (hbase : s.base = s'.base) (hhigh : s.high = s'.high) (hlinks : d'.links = d.links)
    (horder : (w.put i d' st).InOrder) : Monitored (w.put i d' st) o := by
  refine h.carry none horder (links_put_same hd hlinks st) fun t ht => .inr ?_
  obtain ⟨u, hu, hsame⟩ := exists_of_mem_held_put hd hrunning hrunning' hbase hhigh ht
  exact ⟨u, hu, hsame.1, hsame.2, nofun⟩

/-- The links of one fiber move with it, and those of all others stay. -/
theorem of_growth {required : Nat} (h : Monitored w o) (hd : w.domains[i]? = some d)
    (hrunning : d.running = old :: outer)
    (hrun : d.tryRealloc required w.machine = .ok (true, d') st) :
    ∃ new, d'.running = new :: outer ∧ Monitored (w.put i d' st) (o.grow i old new) := by
  have hsep := separate_running h.inOrder.separate hd hrunning
  have hzero := h.inOrder.contains_zero hd (by simp [hrunning] : old ∈ d.running)
  obtain ⟨new, hrunning', hnew, hlinks, hfresh⟩ := Domain.links_of_tryRealloc hrunning hsep hrun
  have hdeep := h.inOrder.deep hd hrunning hrun hrunning'
  have hold := mem_held_of_running hd hrunning
  have hne : new.high ≠ old.high := hfresh old List.mem_cons_self
  have hheld : ∀ t ∈ (w.put i d' st).held,
      (t.base = new.base ∧ t.high = new.high ∧ (o.grow i old new).fiberOf t = o.fiberOf old) ∨
        (t ∈ w.held ∧ old.Apart t ∧ old.high ≠ t.high ∧
          (o.grow i old new).fiberOf t = o.fiberOf t) := by
    intro t ht
    rcases List.mem_cons.mp ((held_put hd hrunning' st).mem_iff.mp ht) with rfl | hother
    · exact .inl ⟨rfl, rfl, Monitor.fiberOf_grow_of_eq rfl⟩
    · have hrest : t ∈ outer ++ (w.without i).held ++ (w.without i).pooled ++ d.pool.segments :=
        List.mem_append_left _ (List.mem_append_left _ hother)
      refine .inr ⟨(held_perm hd hrunning).mem_iff.mpr (List.mem_cons_of_mem _ hother),
        (List.pairwise_cons.mp hsep.apart).1 t hrest, hsep.high_ne hrest,
        Monitor.fiberOf_grow_of_ne (hfresh t (List.mem_cons_of_mem _ ?_))⟩
      exact List.mem_append_left _ hother
  refine ⟨new, hrunning', h.inOrder.tryRealloc hd hrun, fun s hs t ht heq => ?_, fun t ht => ?_,
    fun j => ?_⟩
  · rcases hheld s hs with ⟨-, hhigh, hs'⟩ | ⟨hs₀, -, hne₀, hs'⟩ <;>
      rcases hheld t ht with ⟨-, hhigh', ht'⟩ | ⟨ht₀, -, hne₁, ht'⟩
    · exact hhigh.trans hhigh'.symm
    · exact absurd (h.distinct _ hold t ht₀ (by rw [hs', ht'] at heq; exact heq)) hne₁
    · exact absurd (h.distinct _ hold s hs₀ (by rw [hs', ht'] at heq; exact heq.symm)) hne₀
    · exact h.distinct s hs₀ t ht₀ (by rw [← hs', ← ht', heq])
  · rcases hheld t ht with ⟨-, -, ht'⟩ | ⟨ht₀, -, -, ht'⟩
    · rw [ht']
      exact h.numbered { old with savedExn := d.exnHandler } hold
    · rw [ht']
      exact h.numbered t ht₀
  · rw [links_put hd]
    by_cases hj : j = i
    -- In the domain itself all links are moved, but only those of the fiber change.
    · subst hj
      have hcalls : (o.grow j old new).calls j = o.calls j := if_pos (.inl rfl)
      rw [hcalls, Function.update_self, hlinks, List.forall₂_map_right_iff,
        ← links_of_getElem? hd]
      refine (h.calls j).imp fun call link hcall => ⟨hcall.numbered, fun hkept t ht heq => ?_⟩
      rcases hheld t ht with ⟨hbase, hhigh, ht'⟩ | ⟨ht₀, hapart, hother, ht'⟩
      · have hlead := hcall.follows hkept _ hold (ht'.symm.trans heq)
        exact ((hlead.congr rfl rfl).moved hzero hdeep hnew).congr hbase hhigh
      · have hlead := hcall.follows hkept t ht₀ (ht'.symm.trans heq)
        rwa [hlead.moved_eq hzero hother hapart]
    -- In other domains nothing is moved, and calls of the fiber are no longer kept.
    · have hcalls : (o.grow i old new).calls j = (o.calls j).map (.leave (o.fiberOf old)) :=
        if_neg (not_or.mpr ⟨hj, hne⟩)
      rw [hcalls, Function.update_of_ne hj, List.forall₂_map_left_iff]
      refine (h.calls j).imp fun call link hcall => ⟨hcall.numbered, fun hkept t ht heq => ?_⟩
      obtain ⟨hkept, hleft⟩ := (Bool.and_eq_true _ _).mp hkept
      rcases hheld t ht with ⟨-, -, ht'⟩ | ⟨ht₀, -, -, ht'⟩
      · exact absurd (heq.symm.trans ht') (bne_iff_ne.mp hleft)
      · exact hcall.follows hkept t ht₀ (ht'.symm.trans heq)

theorem of_works (h : Monitored w o) (hd : w.domains[i]? = some d)
    (hrunning : d.running = old :: outer) (hworks : d.Works w.machine d' st) :
    ∃ new, d'.running = new :: outer ∧ Monitored (w.put i d' st) (o.grow i old new) := by
  induction hworks with
  | rests =>
      refine ⟨old, hrunning, ?_⟩
      rw [Monitor.grow_of_high_eq rfl]
      rw [put_self hd]
      exact h
  | @grows required grown d' st hrun =>
      cases grown with
      | true => exact h.of_growth hd hrunning hrun
      | false =>
          rcases Domain.tryRealloc_cases hrun with ⟨-, hquiet⟩ | ⟨_, _, _, _, _, _, _, _, htrue, -⟩
          · have horder := h.inOrder.tryRealloc hd hrun
            obtain ⟨stats, journal, rfl, rfl⟩ := hquiet
            refine ⟨old, hrunning, ?_⟩
            rw [Monitor.grow_of_high_eq rfl]
            exact h.of_work hd hrunning hrunning rfl rfl rfl horder
          · cases htrue
  | @moves d₁ st₁ s outer' sp m hworks hrunning₁ hformed ih =>
      obtain ⟨new, hnew, hmonitored⟩ := ih
      obtain ⟨rfl, rfl⟩ := List.cons_eq_cons.mp (hrunning₁.symm.trans hnew)
      have hd₁ := getElem?_put hd d₁ st₁
      have hsep := separate_running hmonitored.inOrder.separate hd₁ hrunning₁
      have hformed₁ := hformed (hsep.formed s List.mem_cons_self)
      have horder := (hmonitored.inOrder.work hd₁ hrunning₁ hformed₁).proceed
        (st₁.proceeds_memory m st₁.journal)
      have hrunning₂ := Domain.running_setCurrent hrunning₁ { s with sp }
      have hworked : Monitored ((w.put i d₁ st₁).put i (d₁.setCurrent { s with sp })
          { st₁ with memory := m }) (o.grow i old s) :=
        hmonitored.of_work hd₁ hrunning₁ hrunning₂ rfl rfl rfl horder
      rw [put_put] at hworked
      exact ⟨{ s with sp }, hrunning₂, hworked⟩

/-- The calls of one domain may change along with their links. -/
theorem of_calls {calls : List NativeCall} (h : Monitored w o) (hd : w.domains[i]? = some d)
    (hid : d'.id = d.id) (hpolicy : d'.policy = d.policy) (hpool : d'.pool = d.pool)
    (hrunning : d'.running = d.running) (hexn : d'.exnHandler = d.exnHandler)
    (hcalls : List.Forall₂ (w.Tracks o) calls d'.links) :
    Monitored (w.put i d' w.machine) { o with calls := Function.update o.calls i calls } := by
  have hsuspended : d'.suspended = d.suspended := by
    rw [Domain.suspended, hrunning, hexn]
    rfl
  have hheld := held_put_perm hd hsuspended w.machine
  refine ⟨h.inOrder.adjust hd hid hpolicy hpool hrunning, fun s hs t ht => ?_, fun s hs => ?_,
    fun j => ?_⟩
  · exact h.distinct s (hheld.mem_iff.mp hs) t (hheld.mem_iff.mp ht)
  · exact h.numbered s (hheld.mem_iff.mp hs)
  · rw [links_put hd]
    by_cases hj : j = i
    · subst hj
      simp only [Function.update_self]
      exact hcalls.imp fun call link hcall =>
        ⟨hcall.numbered, fun hkept s hs => hcall.follows hkept s (hheld.mem_iff.mp hs)⟩
    · simp only [Function.update_of_ne hj]
      exact (h.calls j).imp fun call link hcall =>
        ⟨hcall.numbered, fun hkept s hs => hcall.follows hkept s (hheld.mem_iff.mp hs)⟩

theorem of_enter {sp async : Nat} (h : Monitored w o) (hd : w.domains[i]? = some d)
    (hrunning : d.running = s :: outer) (hsp : s.base ≤ sp ∧ sp ≤ s.high)
    (hasync : async = 0 ∨ s.contains async = true) :
    Monitored (w.put i (d.pushLink ⟨s.high, sp, async⟩) w.machine)
      (o.enter i s ⟨s.high, sp, async⟩) := by
  have hs := mem_held_of_running hd hrunning
  refine h.of_calls hd rfl rfl rfl rfl rfl ?_
  refine List.rel_append (links_of_getElem? hd ▸ h.calls i) (.cons ⟨?_, ?_⟩ .nil)
  · exact h.numbered { s with savedExn := d.exnHandler } hs
  · intro _ t ht heq
    have hhigh := h.distinct t ht { s with savedExn := d.exnHandler } hs heq
    rcases List.mem_cons.mp ((held_perm hd hrunning).mem_iff.mp ht) with rfl | hother
    · exact ⟨rfl, hsp, rfl, id, fun hset => ⟨hasync.resolve_left hset, rfl⟩⟩
    · have hsep := separate_running h.inOrder.separate hd hrunning
      refine absurd hhigh.symm (hsep.high_ne ?_)
      exact List.mem_append_left _ (List.mem_append_left _ hother)

theorem of_leave (h : Monitored w o) (hd : w.domains[i]? = some d) :
    Monitored (w.put i d.popLink.2 w.machine) (o.leave i) := by
  refine h.of_calls hd rfl rfl rfl rfl rfl ?_
  have hcalls := h.calls i
  rw [links_of_getElem? hd] at hcalls
  change List.Forall₂ _ (o.calls i).dropLast d.links.dropLast
  rw [List.dropLast_eq_take, List.dropLast_eq_take, hcalls.length_eq]
  exact List.forall₂_take _ hcalls

end Monitored

theorem monitored_of_watched (h : Watched w o) : Monitored w o := by
  induction h with
  | start source => exact .start source
  | joined _ hrun ih => exact ih.of_join hrun
  | called _ hstep ih => exact ih.of_step hstep
  | @served w o i call answer d d' old new st _ hd hrun hold hnew ih =>
      obtain ⟨outer, hrunning⟩ := Domain.current?_eq_some_iff.mp hold
      obtain ⟨new', hrunning', hmonitored⟩ :=
        ih.of_works hd hrunning (Domain.works_of_serve hrun)
      obtain ⟨outer', hnew⟩ := Domain.current?_eq_some_iff.mp hnew
      obtain ⟨rfl, -⟩ := List.cons_eq_cons.mp (hnew.symm.trans hrunning')
      exact hmonitored
  | @computed w o i sp d d' s outer _ hd hrunning hformed hrunning' hid hpolicy hpool hlinks ih =>
      have hworked := ih.inOrder.work hd hrunning hformed
      have hd' := getElem?_put hd (d.setCurrent { s with sp }) w.machine
      have horder := hworked.adjust hd' hid hpolicy hpool
        (hrunning'.trans (Domain.running_setCurrent hrunning _).symm)
      rw [put_put] at horder
      exact ih.of_work hd hrunning hrunning' rfl rfl hlinks horder
  | entered _ hd hs hsp hasync ih =>
      obtain ⟨outer, hrunning⟩ := Domain.current?_eq_some_iff.mp hs
      exact ih.of_enter hd hrunning hsp hasync
  | left _ hd ih => exact ih.of_leave hd
  | elsewhere _ hmachine ih =>
      have horder := ih.inOrder.proceed hmachine
      exact ih.carry none horder rfl fun t ht => .inr ⟨t, ht, rfl, rfl, nofun⟩

/-- Native calls stay valid. No two segments in use are of one fiber. At any time the links of a
domain are those of the native calls in progress, one for each call in its turn. As long as a call
is kept and its fiber has a segment, the link names the upper end of that segment, and its addresses
have the distances from there that they had when the call was made. -/
theorem links_of_watched (h : Watched w o) :
    (w.held.map o.fiberOf).Nodup ∧ ∀ i, List.Forall₂ (w.Follows o) (o.calls i) (w.links i) := by
  have hmonitored := monitored_of_watched h
  refine ⟨?_, fun i => (hmonitored.calls i).imp fun _ _ => Tracks.follows⟩
  have hhighs := (hmonitored.inOrder.separate.sublist (List.sublist_append_left _ _)).nodup_highs
  refine List.Nodup.map_on (fun s hs t ht heq => ?_) hhighs.of_map
  exact List.inj_on_of_nodup_map hhighs hs ht (hmonitored.distinct s hs t ht heq)

end Stacks

/-! ### Two native calls, one below the other

A main stack makes a native call, with an asynchronous handler. The call runs a fiber, which makes a
native call as well and grows. -/

namespace TwoCalls

open Stacks

def outer (s : Segment) : NativeLink := ⟨s.high, s.high - 16, s.high - 8⟩

def inner (s : Segment) : NativeLink := ⟨s.high, s.high - 24, 0⟩

/-- The domain runs the fiber, which has made its call. -/
def calling (d : Domain) (s : Segment) : Domain := (d.run (s :: d.suspended)).pushLink (inner s)

def running (d : Domain) (s : Segment) (st : MachineState) : MachineState :=
  { st with memory := s.recordParent st.memory (Chain.link d.suspended) }

theorem grows : ∃ d₀ st₀ d₁ st₁ main s d₂ st₂ d₃ st₃ new main',
    Domain.create Settings.standard MachineState.initial = .ok d₀ st₀ ∧
    d₀.startMain st₀ = .ok (.ok (), d₁) st₁ ∧ d₁.current? = some main ∧
    main.base + 16 ≤ main.high ∧
    (d₁.pushLink (outer main)).alloc .unit st₁ = .ok (.ok s, d₂) st₂ ∧
    s.base + 24 ≤ s.high ∧ s.high ≠ main.high ∧
    (calling d₂ s).serve (.tryRealloc 100) (running d₂ s st₂) = .ok (.grown true, d₃) st₃ ∧
    d₃.running = [new, main'] ∧ main'.high = main.high ∧ new.high ≠ main.high := by
  have h : Run.answers (Domain.create Settings.standard) .initial (fun d₀ st₀ =>
      Run.succeeds d₀.startMain st₀ fun _ d₁ st₁ => d₁.current?.any fun main =>
      Run.succeeds ((d₁.pushLink (outer main)).alloc .unit) st₁ fun s d₂ st₂ =>
      Run.answers ((calling d₂ s).serve (.tryRealloc 100)) (running d₂ s st₂) fun r _ =>
        decide (main.base + 16 ≤ main.high ∧ s.base + 24 ≤ s.high ∧ s.high ≠ main.high ∧
          r.1 = .grown true ∧ r.2.running.length = 2 ∧
          r.2.running.tail.map Segment.high = [main.high] ∧
          r.2.current?.map Segment.high ≠ some main.high)) = true := by
    decide +kernel
  obtain ⟨d₀, st₀, hcreate, h⟩ := Run.exists_of_answers h
  obtain ⟨_, d₁, st₁, hstart, h⟩ := Run.exists_of_succeeds h
  obtain ⟨main, hmain, h⟩ := (Option.any_eq_true _ _).mp h
  obtain ⟨s, d₂, st₂, halloc, h⟩ := Run.exists_of_succeeds h
  obtain ⟨⟨_, d₃⟩, st₃, hserve, h⟩ := Run.exists_of_answers h
  obtain ⟨hroom, hroom', hne, rfl, hlength, htail, hnew⟩ := of_decide_eq_true h
  obtain ⟨new, main', hrunning⟩ := List.length_eq_two.mp hlength
  change d₃.running = [new, main'] at hrunning
  rw [hrunning] at htail
  rw [Domain.current?, hrunning] at hnew
  exact ⟨d₀, st₀, d₁, st₁, main, s, d₂, st₂, d₃, st₃, new, main', hcreate, hstart, hmain, hroom,
    halloc, hroom', hne, hserve, hrunning, List.singleton_inj.mp htail,
    fun heq => hnew (congrArg some heq)⟩

/-- What the monitor has taken down in the end. -/
def monitor (main s new : Segment) : Monitor :=
  ((((Monitor.start.obtain (some main)).enter 0 main (outer main)).obtain (some s)).enter 0 s
    (inner s)).grow 0 s new

theorem calls_monitor (main s new : Segment) : (monitor main s new).calls 0 =
    [⟨0, outer main, true⟩, ⟨1, inner s, true⟩] := by
  simp [monitor, Monitor.grow, Monitor.enter, Monitor.obtain, Monitor.start, Monitor.fiberOf]

theorem fiberOf_monitor {main s new : Segment} (hs : s.high ≠ main.high)
    (hnew : new.high ≠ main.high) :
    (monitor main s new).fiberOf main = 0 ∧ (monitor main s new).fiberOf new = 1 := by
  simp [monitor, Monitor.grow, Monitor.enter, Monitor.obtain, Monitor.start, Monitor.fiberOf,
    hs.symm, hnew.symm]

theorem exists_watched : ∃ w d main s new main', Watched w (monitor main s new) ∧
    w.domains[0]? = some d ∧ d.running = [new, main'] ∧ main'.high = main.high ∧
    s.high ≠ main.high ∧ new.high ≠ main.high ∧ 16 ≤ main.high ∧ 24 ≤ s.high := by
  obtain ⟨d₀, st₀, d₁, st₁, main, s, d₂, st₂, d₃, st₃, new, main', hcreate, hstart, hmain, hroom,
    halloc, hroom', hne, hserve, hrunning, hsame, hnew⟩ := grows
  have hlower : main.base ≤ main.high - 16 ∧ main.high - 16 ≤ main.high := by omega
  have hhandler : main.contains (main.high - 8) = true := by
    rw [Segment.contains_eq_true_iff]
    omega
  have hupper : s.base ≤ s.high - 24 ∧ s.high - 24 ≤ s.high := by omega
  have hcurrent : d₃.current? = some new := by
    rw [Domain.current?, hrunning]
    rfl
  have hjoined := (Watched.start .ascending).joined hcreate
  have hstarted := hjoined.called (Step.startMain (i := 0) (r := .ok ()) rfl hstart)
  change Watched _ (Monitor.start.obtain d₁.current?) at hstarted
  rw [hmain] at hstarted
  have hleft := hstarted.entered (i := 0) rfl hmain hlower (.inr hhandler)
  have hallocated := hleft.called (Step.alloc (i := 0) rfl halloc)
  have hran := hallocated.called (Step.runFiber (i := 0) (j := 0) rfl rfl (d₂.runFiber_run s st₂))
  have hcalled := hran.entered (i := 0) rfl rfl hupper (.inl rfl)
  have hgrown := hcalled.served (i := 0) rfl hserve rfl hcurrent
  exact ⟨_, d₃, main, s, new, main', hgrown, rfl, hrunning, hsame, hne, hnew, by omega, by omega⟩

/-- The link of the fiber has moved with it, that of the main stack has stayed. -/
theorem links_of_grown : ∃ w d main s new main' l l', Watched w (monitor main s new) ∧
    w.domains[0]? = some d ∧ d.running = [new, main'] ∧ d.links = [l, l'] ∧
    l.stackHigh = main'.high ∧ l.stackHigh - l.sp = 16 ∧ l.stackHigh - l.asyncExn = 8 ∧
    l'.stackHigh = new.high ∧ l'.stackHigh - l'.sp = 24 ∧ l'.asyncExn = 0 := by
  obtain ⟨w, d, main, s, new, main', hwatched, hd, hrunning, hsame, hne, hnew, hlow, hlow'⟩ :=
    exists_watched
  obtain ⟨-, hlinks⟩ := links_of_watched hwatched
  have hfollows := hlinks 0
  rw [calls_monitor, links_of_getElem? hd] at hfollows
  obtain ⟨l, rest, hl, hrest, hlinks⟩ := List.forall₂_cons_left_iff.mp hfollows
  obtain ⟨l', rest, hl', hnil, rfl⟩ := List.forall₂_cons_left_iff.mp hrest
  obtain rfl := List.forall₂_nil_left_iff.mp hnil
  obtain ⟨hnumber, hnumber'⟩ := fiberOf_monitor hne hnew
  have hheld := held_perm hd hrunning
  have hlead := hl rfl main' (hheld.mem_iff.mpr (by simp))
    (by rw [Monitor.fiberOf, hsame]; exact hnumber)
  have hlead' := hl' rfl { new with savedExn := d.exnHandler } (hheld.mem_iff.mpr (by simp))
    hnumber'
  have hset : (outer main).asyncExn ≠ 0 := by
    simp only [outer]
    omega
  have hdepth := hlead.depth
  have hasync := (hlead.async hset).2
  have hdepth' := hlead'.depth
  simp only [outer, inner] at hdepth hasync hdepth'
  exact ⟨w, d, main, s, new, main', l, l', hwatched, hd, hrunning, hlinks, hlead.stackHigh,
    by omega, by omega, hlead'.stackHigh, by omega, hlead'.unset rfl⟩

end TwoCalls

end FiberStacks
