import FiberStacks.Proofs.Holdings.Sizes

/-!
# Domains with valid settings

A domain that is created from valid settings makes fibers of the size of the smallest class of its
pool. No operation changes the size of its fibers, nor the terms on which it builds and keeps
segments. So this holds in all states that are reached with valid settings.
-/

namespace FiberStacks

namespace Domain

/-- The words of a fiber, and the terms on which segments are built and kept. -/
def terms (d : Domain) : Nat × Supplier := (d.fiberWords, d.supplier)

/-- Fibers have the size of the smallest class, and hold the words used between two checks. -/
structure Tuned (d : Domain) : Prop where
  same : d.fiberWords = d.pool.baseWords
  enough : stackThresholdWords ≤ d.pool.baseWords

variable {d d' : Domain} {words required depth : Nat} {h : Handlers} {id : FiberId} {s : Segment}
  {chain : Chain} {k k' : Continuation} {st st' : MachineState}

theorem terms_eq_iff :
    d'.terms = d.terms ↔ d'.fiberWords = d.fiberWords ∧ d'.supplier = d.supplier :=
  Prod.mk_inj

theorem Tuned.congr (htuned : d.Tuned) (hterms : d'.terms = d.terms) : d'.Tuned := by
  obtain ⟨hwords, hsupplier⟩ := terms_eq_iff.mp hterms
  have hbase : d'.pool.baseWords = d.pool.baseWords := congrArg Supplier.baseWords hsupplier
  exact ⟨hwords.trans (htuned.same.trans hbase.symm), hbase.symm ▸ htuned.enough⟩

theorem tuned_ofSettings {settings : Settings} (hvalid : settings.validate = .ok ())
    (id : DomainId) : (ofSettings id settings).Tuned := by
  unfold Settings.validate at hvalid
  split at hvalid
  · cases hvalid
  · exact ⟨rfl, Nat.le_of_not_lt ‹_›⟩

theorem Obtains.terms_eq (hobtains : d.Obtains words h id st s d' st') : d'.terms = d.terms := by
  refine terms_eq_iff.mpr ⟨?_, hobtains.supplier_eq⟩
  cases hobtains <;> rfl

theorem Frees.terms_eq (hfrees : d.Frees s st d' st') : d'.terms = d.terms := by
  refine terms_eq_iff.mpr ⟨?_, hfrees.supplier_eq⟩
  cases hfrees <;> rfl

theorem Quiet.terms_eq (hquiet : d.Quiet st d' st') : d'.terms = d.terms := by
  obtain ⟨stats, journal, rfl, rfl⟩ := hquiet
  rfl

theorem terms_of_allocNoExc {s? : Option Segment}
    (hrun : d.allocNoExc words h id st = .ok (s?, d') st') : d'.terms = d.terms := by
  cases s? with
  | none => exact (quiet_of_allocNoExc hrun).terms_eq
  | some s => exact (obtains_of_allocNoExc hrun).terms_eq

theorem terms_of_alloc {r : Except StackError Segment}
    (hrun : d.alloc h st = .ok (r, d') st') : d'.terms = d.terms := by
  unfold alloc at hrun
  obtain ⟨id, st₁, hfresh, hrun⟩ := Run.bind_eq_ok_iff.mp hrun
  cases hfresh
  obtain ⟨⟨s?, d₁⟩, st₂, halloc, hpure⟩ := Run.bind_eq_ok_iff.mp hrun
  have hterms := terms_of_allocNoExc halloc
  cases s? <;> cases hpure <;> exact hterms

theorem terms_of_startMain {r : Except StackError Unit}
    (hrun : d.startMain st = .ok (r, d') st') : d'.terms = d.terms := by
  unfold startMain allocMain at hrun
  obtain ⟨⟨s?, d₁⟩, st₁, halloc, hpure⟩ := Run.bind_eq_ok_iff.mp hrun
  have hterms := terms_of_allocNoExc halloc
  cases s? <;> cases hpure <;> exact hterms

theorem terms_of_free (hrun : d.free chain st = .ok d' st') :
    d'.terms = d.terms := by
  induction chain generalizing d st with
  | nil =>
      cases hrun
      rfl
  | cons s chain ih =>
      obtain ⟨d₁, st₁, hfirst, hrest⟩ := Run.bind_eq_ok_iff.mp
        (show (d.freeSegment s >>= fun d => d.free chain) st = .ok d' st' from hrun)
      exact (ih hrest).trans (frees_of_freeSegment hfirst).terms_eq

theorem terms_of_runFiber (hrun : d.runFiber s st = .ok d' st') :
    d'.terms = d.terms := by
  obtain ⟨rfl, -⟩ := runFiber_eq_ok hrun
  rfl

theorem terms_of_returnFromFiber {h? : Option Handlers}
    (hrun : d.returnFromFiber st = .ok (h?, d') st') : d'.terms = d.terms := by
  cases returns_of_returnFromFiber hrun with
  | idle => rfl
  | lone => rfl
  | ended _ hfrees => exact hfrees.terms_eq

theorem terms_of_capture {k? : Option Continuation}
    (hrun : d.capture depth st = .ok (k?, d') st') : d'.terms = d.terms := by
  by_cases hdepth : 0 < depth ∧ depth < d.running.length
  · obtain ⟨xs, s, ys, hcut, hlength, hrest⟩ := exists_cut hdepth.1 hdepth.2
    obtain ⟨journal, hcapture⟩ := capture_run hcut hlength hrest st
    cases hcapture.symm.trans hrun
    rfl
  · cases (capture_of_refused hdepth st).symm.trans hrun
    rfl

theorem terms_of_resume {r : Except StackError Unit}
    (hrun : d.resume k h st = .ok (r, d', k') st') : d'.terms = d.terms := by
  rcases List.eq_nil_or_concat' k.stored with hstored | ⟨xs, s, hstored⟩
  · obtain ⟨journal, hresume⟩ := resume_of_taken (d := d) (h := h) hstored st
    cases hresume.symm.trans hrun
    rfl
  · cases (resume_run (d := d) (h := h) hstored st).symm.trans hrun
    rfl

theorem terms_of_dropContinuation {r : Except StackError Unit}
    (hrun : d.dropContinuation k st = .ok (r, d', k') st') : d'.terms = d.terms := by
  rcases dropContinuation_cases hrun with ⟨-, -, rfl, -⟩ | ⟨-, -, -, hfree⟩
  · rfl
  · exact terms_of_free hfree

theorem terms_of_tryRealloc {grown : Bool}
    (hrun : d.tryRealloc required st = .ok (grown, d') st') : d'.terms = d.terms := by
  rcases tryRealloc_cases hrun with ⟨-, hquiet⟩ | ⟨old, outer, needed, words, new, d₁, journal, st₁,
    -, -, -, -, halloc, hmove⟩
  · exact hquiet.terms_eq
  · obtain ⟨_, _, _, _, d₂, -, -, -, -, hfree, rfl⟩ := moveTo_eq_ok hmove
    exact (frees_of_freeSegment hfree).terms_eq.trans (terms_of_allocNoExc halloc)

theorem terms_setCurrent : (d.setCurrent s).terms = d.terms := rfl

end Domain

namespace Holdings

variable {w w' : Holdings} {op : Operation} {i : Nat} {d d' : Domain} {st : MachineState}

/-- The settings of a domain that is created are valid, and callers leave the size of fibers
alone. -/
def Admits (w w' : Holdings) : Operation → Prop
  | .createDomain settings => settings.validate = .ok ()
  | .createDefault => (w.machine.settings.getD Settings.standard).validate = .ok ()
  | .adjust _ => w'.domains.map Domain.fiberWords = w.domains.map Domain.fiberWords
  | _ => True

/-- The states that are reached with valid settings. -/
inductive Configured : Holdings → Prop
  | start (source : AddressSource) : Configured (start source)
  | step {w w' : Holdings} {op : Operation} :
      Configured w → w.Step op w' → w.Admits w' op → Configured w'

theorem tuned_put (htuned : ∀ d ∈ w.domains, d.Tuned) (hd : w.domains[i]? = some d)
    (hterms : d'.terms = d.terms) : ∀ d₁ ∈ (w.put i d' st).domains, d₁.Tuned := by
  intro d₁ hd₁
  rcases List.mem_or_eq_of_mem_set hd₁ with hmem | rfl
  · exact htuned d₁ hmem
  · exact (htuned d (List.mem_of_getElem? hd)).congr hterms

theorem tuned_create {settings : Settings} (htuned : ∀ d ∈ w.domains, d.Tuned)
    (hvalid : settings.validate = .ok ())
    (hrun : Domain.create settings w.machine = .ok d st) : ∀ d₁ ∈ w.domains ++ [d], d₁.Tuned := by
  cases hrun
  refine List.forall_mem_append.mpr ⟨htuned, fun d₁ hd₁ => ?_⟩
  rw [List.mem_singleton.mp hd₁]
  exact Domain.tuned_ofSettings hvalid _

theorem tuned_of_step (htuned : ∀ d ∈ w.domains, d.Tuned) (hstep : w.Step op w')
    (hadmits : w.Admits w' op) : ∀ d ∈ w'.domains, d.Tuned := by
  cases hstep with
  | createDomain hrun => exact tuned_create htuned hadmits hrun
  | createDefault hrun =>
      obtain ⟨r, st₁, hget, hrun⟩ := Run.bind_eq_ok_iff.mp hrun
      cases hget
      exact tuned_create htuned hadmits hrun
  | dropDomain => exact fun d hd => htuned d (List.mem_of_mem_eraseIdx hd)
  | startMain hd hrun => exact tuned_put htuned hd (Domain.terms_of_startMain hrun)
  | startMainFailed hd hrun => exact tuned_put htuned hd (Domain.terms_of_startMain hrun)
  | alloc hd hrun => exact tuned_put htuned hd (Domain.terms_of_alloc hrun)
  | allocNoExc hd hrun => exact tuned_put htuned hd (Domain.terms_of_allocNoExc hrun)
  | free hd _ hrun => exact tuned_put htuned hd (Domain.terms_of_free hrun)
  | runFiber hd _ hrun => exact tuned_put htuned hd (Domain.terms_of_runFiber hrun)
  | returnFromFiber hd hrun =>
      exact tuned_put htuned hd (Domain.terms_of_returnFromFiber hrun)
  | returnRefused hd hrun => exact tuned_put htuned hd (Domain.terms_of_returnFromFiber hrun)
  | capture hd hrun => exact tuned_put htuned hd (Domain.terms_of_capture hrun)
  | resume hd _ hrun => exact tuned_put htuned hd (Domain.terms_of_resume hrun)
  | dropContinuation hd _ hrun =>
      exact tuned_put htuned hd (Domain.terms_of_dropContinuation hrun)
  | grow hd hrun => exact tuned_put htuned hd (Domain.terms_of_tryRealloc hrun)
  | growFailed hd hrun => exact tuned_put htuned hd (Domain.terms_of_tryRealloc hrun)
  | work hd => exact tuned_put htuned hd Domain.terms_setCurrent
  | @adjust i d d' hd hid hpolicy hpool =>
      have hsupplier : d'.supplier = d.supplier := by
        simp only [Domain.supplier, hid, hpolicy, hpool]
      have hwords : d'.fiberWords = d.fiberWords := by
        have hsame := congrArg (·[i]?) hadmits
        simpa [getElem?_put hd, hd] using hsame
      exact tuned_put htuned hd (Domain.terms_eq_iff.mpr ⟨hwords, hsupplier⟩)
  | newContinuation => exact htuned
  | emptyContinuation => exact htuned
  | take => exact htuned
  | takeRebound => exact htuned
  | replace => exact htuned
  | forget => exact htuned
  | letGo => exact htuned
  | prepare => exact htuned
  | rearrange => exact htuned
  | elsewhere => exact htuned

/-- All segments are in order, and all domains make fibers of the smallest class. -/
theorem Configured.inOrder (h : Configured w) : w.InOrder ∧ ∀ d ∈ w.domains, d.Tuned := by
  induction h with
  | start source => exact ⟨inOrder_start source, by simp [Holdings.start]⟩
  | step _ hstep hadmits ih =>
      obtain ⟨horder, htuned⟩ := ih
      exact ⟨horder.of_step hstep, tuned_of_step htuned hstep hadmits⟩

end Holdings

end FiberStacks
