import FiberStacks.Proofs.Fibers.Refinement
import FiberStacks.Proofs.Growth.Register
import Mathlib.Logic.Function.Basic

/-!
# Exception registers of fibers

A domain has one exception handler for all its fibers. Here every segment gets a register of its
own, which is 0 when the segment is obtained, changes when the handler is set while the segment
runs, and follows the segment when it grows. The exception handler of a domain turns out to be the
register of the segment that it runs, whatever was run, captured and resumed in between.
-/

namespace FiberStacks

/-- A register for each segment. Segments in use are told by the upper end of their body. -/
structure Registers where
  value : Nat → Nat

namespace Registers

variable {ρ : Registers} {s t : Segment} {v : Nat}

def of (ρ : Registers) (s : Segment) : Nat := ρ.value s.high

def set (ρ : Registers) (s : Segment) (v : Nat) : Registers :=
  ⟨Function.update ρ.value s.high v⟩

def obtain (ρ : Registers) : Option Segment → Registers
  | none => ρ
  | some s => ρ.set s 0

/-- The registers after `new` took the place of `old`. An address in the old body keeps its distance
from the upper end. -/
def grow (ρ : Registers) (old new : Segment) : Registers :=
  ρ.set new (if old.contains (ρ.of old) then new.high - (old.high - ρ.of old) else ρ.of old)

theorem of_set_same (h : t.high = s.high) : (ρ.set s v).of t = v := by
  simp only [of, set, h, Function.update_self]

theorem of_set_of_ne (h : s.high ≠ t.high) : (ρ.set s v).of t = ρ.of t := by
  simp only [of, set, Function.update_of_ne h.symm]

theorem set_of_self (ρ : Registers) (s : Segment) : ρ.set s (ρ.of s) = ρ :=
  congrArg mk (Function.update_eq_self s.high ρ.value)

end Registers

namespace Stacks

/-- The stacks that come by from new domains, with the registers of their segments. Fibers are
switched, and in between a running segment uses its stack and memory, sets the exception handler and
grows. -/
inductive Tracked : Stacks → Registers → Prop
  | created {domains : List Domain} {st : MachineState} (ρ : Registers) :
      (∀ d ∈ domains, d.running = [] ∧ d.pool.segments = []) →
      Tracked (ofDomains domains st) ρ
  | called {w w' : Stacks} {ρ : Registers} {c : Call} {a : Answer} :
      Tracked w ρ → w.Step c a w' → Tracked w' (ρ.obtain (w'.obtained c a))
  | set {w : Stacks} {ρ : Registers} {i : Nat} {d : Domain} {s : Segment} {outer : Chain}
      (v : Nat) :
      Tracked w ρ → w.domains[i]? = some d → d.running = s :: outer →
      Tracked (w.put i { d with exnHandler := v } w.machine) (ρ.set s v)
  | worked {w : Stacks} {ρ : Registers} {i : Nat} {d : Domain} {s : Segment} {outer : Chain}
      (sp : Nat) (m : Memory) :
      Tracked w ρ → w.domains[i]? = some d → d.running = s :: outer →
      ({ s with sp } : Segment).Formed →
      Tracked (w.put i (d.setCurrent { s with sp }) { w.machine with memory := m }) ρ
  | grown {w : Stacks} {ρ : Registers} {i required : Nat} {d d' : Domain} {old new : Segment}
      {outer : Chain} {st : MachineState} :
      Tracked w ρ → w.domains[i]? = some d → d.running = old :: outer →
      d.tryRealloc required w.machine = .ok (true, d') st → d'.current? = some new →
      Tracked (w.put i d' st) (ρ.grow old new)

/-- Segments have memory of their own, and what is saved in those in use is in their registers. The
exception handler of a domain counts as saved in the segment that it runs. -/
structure Registered (w : Stacks) (ρ : Registers) : Prop where
  separate : Segment.Separate w.machine.space w.segments
  saved : ∀ s ∈ w.held, s.savedExn = ρ.of s

variable {w w' : Stacks} {ρ : Registers} {i : Nat} {d d' : Domain} {s old new : Segment}
  {outer : Chain} {st : MachineState} {c : Call} {a : Answer}

/-- The segments in use, with that which domain `i` runs in front. -/
theorem held_perm (hd : w.domains[i]? = some d) (hrunning : d.running = s :: outer) :
    w.held.Perm ({ s with savedExn := d.exnHandler } :: (outer ++ (w.without i).held)) := by
  have hchains := (chains_perm hd).flatten
  rwa [Domain.suspended_of_cons hrunning] at hchains

theorem held_put (hd : w.domains[i]? = some d) (hrunning : d'.running = s :: outer)
    (st : MachineState) :
    (w.put i d' st).held.Perm
      ({ s with savedExn := d'.exnHandler } :: (outer ++ (w.without i).held)) := by
  have hchains := (chains_put hd d' st).flatten
  rwa [Domain.suspended_of_cons hrunning] at hchains

/-- The segments around the running one of domain `i`, that domain's pool last. -/
theorem separate_running (hsep : Segment.Separate w.machine.space w.segments)
    (hd : w.domains[i]? = some d) (hrunning : d.running = s :: outer) :
    Segment.Separate w.machine.space
      (s :: (outer ++ (w.without i).held ++ (w.without i).pooled ++ d.pool.segments)) := by
  have hheld := held_perm hd hrunning
  have hpooled := pooled_perm hd
  have haround : Segment.Separate w.machine.space ({ s with savedExn := d.exnHandler } ::
      (outer ++ (w.without i).held ++ (w.without i).pooled ++ d.pool.segments)) :=
    hsep.perm (by grind [segments])
  exact haround.resave s.savedExn

namespace Registered

theorem exnHandler_eq (h : Registered w ρ) (hd : w.domains[i]? = some d)
    (hrunning : d.running = s :: outer) : d.exnHandler = ρ.of s :=
  h.saved { s with savedExn := d.exnHandler }
    ((held_perm hd hrunning).mem_iff.mpr List.mem_cons_self)

/-- The running segment is replaced by one that stays apart from the others. -/
theorem replace (h : Registered w ρ) (hd : w.domains[i]? = some d)
    (hrunning : d.running = old :: outer) (hrunning' : d'.running = new :: outer)
    (hsep : Segment.Separate st.space
      (new :: (outer ++ (w.without i).held ++ (w.without i).pooled ++ d'.pool.segments))) :
    Registered (w.put i d' st) (ρ.set new d'.exnHandler) := by
  have hheld := held_put hd hrunning' st
  have hpooled := pooled_put hd d' st
  refine ⟨(hsep.resave d'.exnHandler).perm (by grind [segments]), fun t ht => ?_⟩
  rcases List.mem_cons.mp (hheld.mem_iff.mp ht) with rfl | hother
  · exact (Registers.of_set_same rfl).symm
  · have hbefore : t ∈ w.held := (held_perm hd hrunning).mem_iff.mpr (List.mem_cons_of_mem _ hother)
    have hne : new.high ≠ t.high := hsep.high_ne (by grind)
    rw [h.saved t hbefore, Registers.of_set_of_ne hne]

theorem of_step (h : Registered w ρ) (hstep : w.Step c a w') :
    Registered w' (ρ.obtain (w'.obtained c a)) := by
  obtain ⟨hsep, hheld, hfresh⟩ := (hstep.effect h.separate).flow
  refine ⟨hsep, fun t ht => ?_⟩
  -- A segment may come from the pool or from where another one was, but its register starts anew.
  rcases hheld t ht with hnew | ⟨hold, hne⟩
  · rw [hnew, (hfresh t hnew).1]
    exact (Registers.of_set_same rfl).symm
  · rw [h.saved t hold]
    cases hobtained : w'.obtained c a with
    | none => rfl
    | some s => exact (Registers.of_set_of_ne (hne s hobtained)).symm

theorem of_set (h : Registered w ρ) (hd : w.domains[i]? = some d)
    (hrunning : d.running = s :: outer) (v : Nat) :
    Registered (w.put i { d with exnHandler := v } w.machine) (ρ.set s v) := by
  have hsep := separate_running h.separate hd hrunning
  exact h.replace hd hrunning hrunning hsep

/-- What a running segment does to its words and to memory concerns no register. -/
theorem of_work (h : Registered w ρ) (hd : w.domains[i]? = some d)
    (hrunning : d.running = s :: outer) {sp : Nat} (m : Memory)
    (hformed : ({ s with sp } : Segment).Formed) :
    Registered (w.put i (d.setCurrent { s with sp }) { w.machine with memory := m }) ρ := by
  have hrunning' : (d.setCurrent { s with sp }).running = { s with sp } :: outer := by
    rw [Domain.setCurrent, hrunning]
    rfl
  have hsep := (separate_running h.separate hd hrunning).replace hformed rfl rfl
  have hreplaced : Registered (w.put i (d.setCurrent { s with sp }) { w.machine with memory := m })
      (ρ.set { s with sp } d.exnHandler) := h.replace hd hrunning hrunning' hsep
  have hsame : ρ.set { s with sp } d.exnHandler = ρ := by
    rw [h.exnHandler_eq hd hrunning]
    exact Registers.set_of_self ρ s
  rwa [hsame] at hreplaced

theorem of_growth {required : Nat} (h : Registered w ρ) (hd : w.domains[i]? = some d)
    (hrunning : d.running = old :: outer)
    (hrun : d.tryRealloc required w.machine = .ok (true, d') st) (hnew : d'.current? = some new) :
    Registered (w.put i d' st) (ρ.grow old new) := by
  obtain ⟨replacement, hrunning', hexn, hsep⟩ :=
    Domain.replaced_of_tryRealloc hrunning (separate_running h.separate hd hrunning) hrun
  obtain rfl : new = replacement := by
    rw [Domain.current?, hrunning'] at hnew
    exact (Option.some.inj hnew).symm
  have hgrow : ρ.set new d'.exnHandler = ρ.grow old new := by
    rw [hexn, h.exnHandler_eq hd hrunning]
    rfl
  exact hgrow ▸ h.replace hd hrunning hrunning' hsep

end Registered

theorem registered_of_tracked (h : Tracked w ρ) : Registered w ρ := by
  induction h with
  | created ρ hnew =>
      refine ⟨(kept_ofDomains hnew).separate, ?_⟩
      simp [held_ofDomains hnew]
  | called _ hstep ih => exact ih.of_step hstep
  | set v _ hd hrunning ih => exact ih.of_set hd hrunning v
  | worked sp m _ hd hrunning hformed ih => exact ih.of_work hd hrunning m hformed
  | grown _ hd hrunning hrun hnew ih => exact ih.of_growth hd hrunning hrun hnew

/-- Each fiber keeps its own exception register. In whatever order fibers are switched, within a
domain and between domains, and segments grow, the exception handler of a domain is the register of
the segment that it runs. No two segments in use share a register. -/
theorem exnHandler_eq_register (h : Tracked w ρ) :
    (w.held.map Segment.high).Nodup ∧
      ∀ d ∈ w.domains, ∀ s, d.current? = some s → d.exnHandler = ρ.of s := by
  have hregistered := registered_of_tracked h
  refine ⟨?_, fun d hd s hs => ?_⟩
  · exact (hregistered.separate.sublist (List.sublist_append_left _ _)).nodup_highs
  · obtain ⟨i, hi⟩ := List.mem_iff_getElem?.mp hd
    obtain ⟨outer, hrunning⟩ := List.head?_eq_some_iff.mp hs
    exact hregistered.exnHandler_eq hi hrunning

end Stacks

/-! ### A fiber that grew and moved to another thread -/

namespace TwoThreads

open Stacks

def used (s : Segment) : Segment := { s with sp := s.high - 16 }

/-- The domain runs the segment, and the handler names the lower one of two live words. -/
def trapping (d : Domain) (s : Segment) : Domain :=
  { (d.run (s :: d.suspended)).setCurrent (used s) with exnHandler := s.high - 16 }

theorem grows : ∃ d st s d₁ st₁ d₂ st₂ new main,
    (thread 1).startMain MachineState.initial = .ok (.ok (), d) st ∧
    d.alloc handlers st = .ok (.ok s, d₁) st₁ ∧ d₁.running = [main] ∧ (used s).Formed ∧
    (trapping d₁ s).tryRealloc 3
        { st₁ with memory := s.recordParent st₁.memory (Chain.link d₁.suspended) } =
      .ok (true, d₂) st₂ ∧
    d₂.running = [new, { main with savedExn := d₁.exnHandler }] ∧
    d₂.exnHandler = new.high - 16 := by
  have h : Run.succeeds (thread 1).startMain .initial (fun _ d st =>
      Run.succeeds (d.alloc handlers) st fun s d₁ st₁ =>
      Run.answers ((trapping d₁ s).tryRealloc 3)
        { st₁ with memory := s.recordParent st₁.memory (Chain.link d₁.suspended) } fun r _ =>
      r.1 && r.2.current?.any fun new => decide (d₁.running.length = 1 ∧
        r.2.running.tail = d₁.running.map (fun s => { s with savedExn := d₁.exnHandler }) ∧
        r.2.exnHandler = new.high - 16 ∧ s.base + 16 ≤ s.high ∧ s.high % 8 = 0 ∧
        s.high + handlerBlockBytes ≤ AddressSpace.limit)) = true := by
    decide +kernel
  obtain ⟨_, d, st, hstart, h⟩ := Run.exists_of_succeeds h
  obtain ⟨s, d₁, st₁, halloc, h⟩ := Run.exists_of_succeeds h
  obtain ⟨⟨_, d₂⟩, st₂, hgrow, h⟩ := Run.exists_of_answers h
  obtain ⟨rfl, h⟩ := (Bool.and_eq_true _ _).mp h
  obtain ⟨new, hnew, h⟩ := (Option.any_eq_true _ _).mp h
  obtain ⟨hlength, htail, hexn, hbase, haligned, hhigh⟩ := of_decide_eq_true h
  obtain ⟨main, hmain⟩ := List.length_eq_one_iff.mp hlength
  obtain ⟨outer, hrunning⟩ := List.head?_eq_some_iff.mp hnew
  rw [hmain, hrunning] at htail
  refine ⟨d, st, s, d₁, st₁, d₂, st₂, new, main, hstart, halloc, hmain, ?_, hgrow, ?_, hexn⟩
  · constructor <;> simp only [used, wordBytes] <;> omega
  · exact hrunning.trans (congrArg (new :: ·) htail)

/-- A fiber sets the handler and grows, is captured, and is resumed in the other thread. -/
theorem exists_tracked : ∃ w ρ d new, Tracked w ρ ∧ d ∈ w.domains ∧ d.current? = some new ∧
    d.exnHandler = new.high - 16 := by
  obtain ⟨d, st, s, d₁, st₁, d₂, st₂, new, main, hstart, halloc, hmain, hformed, hgrow, hgrown,
    hexn⟩ := grows
  have hcreated : Tracked created ⟨fun _ => 0⟩ := .created _ idle
  have hstarted := hcreated.called (Step.startMain (i := 0) (r := .ok ()) rfl hstart)
  have hallocated := hstarted.called (Step.alloc (i := 0) rfl halloc)
  have hran := hallocated.called (Step.runFiber (i := 0) (j := 0) rfl rfl (d₁.runFiber_run s st₁))
  have hworked := hran.worked (i := 0) (s.high - 16)
    (s.recordParent st₁.memory (Chain.link d₁.suspended)) rfl rfl hformed
  have hset := hworked.set (i := 0) (s.high - 16) rfl rfl
  have hgrew := hset.grown (i := 0) rfl rfl hgrow (by rw [Domain.current?, hgrown]; rfl)
  have hcut : d₂.suspended = [] ++ { new with savedExn := d₂.exnHandler } ::
      [{ main with savedExn := d₁.exnHandler }] := by
    rw [Domain.suspended_of_cons hgrown]
    rfl
  obtain ⟨j, hcapture⟩ := Domain.capture_run hcut rfl (by simp) st₂
  obtain ⟨resumed, hresume⟩ : ∃ st, (thread 2).resume
      (.ofChain ([] ++ [{ new with savedExn := d₂.exnHandler }])) .unit _ = .ok _ st :=
    ⟨_, Domain.resume_run rfl
      { st₂ with memory := Segment.recordParent _ st₂.memory 0, journal := j }⟩
  have hcaptured := hgrew.called (Step.capture (i := 0) rfl hcapture)
  have hresumed := hcaptured.called (Step.resume (i := 1) (j := 0) (r := .ok ()) rfl rfl hresume)
  exact ⟨_, _, _, { new with savedExn := d₂.exnHandler }, hresumed,
    List.mem_of_getElem? (i := 1) rfl, rfl, hexn⟩

theorem exnHandler_of_resumed : ∃ w ρ d new, Tracked w ρ ∧ (w.held.map Segment.high).Nodup ∧
    d ∈ w.domains ∧ d.current? = some new ∧ d.exnHandler = new.high - 16 ∧
    ρ.of new = new.high - 16 := by
  obtain ⟨w, ρ, d, new, htracked, hd, hnew, hexn⟩ := exists_tracked
  obtain ⟨hnodup, hregister⟩ := exnHandler_eq_register htracked
  exact ⟨w, ρ, d, new, htracked, hnodup, hd, hnew, hexn, (hregister d hd new hnew).symm.trans hexn⟩

end TwoThreads

end FiberStacks
