import FiberStacks.Proofs.Growth.Ending

/-!
# Running out of memory

A request that cannot be met is reported, and the domain goes on as before. But before memory runs
out the range of sizes may: the sums for the block of a request and the numbers of bytes in log
messages have to be sizes. Exactly when they are, the operations that obtain segments, that grow the
running one and that change the maximum answer.
-/

namespace FiberStacks

open Run

namespace Domain

variable {d d' : Domain} {st st' : MachineState} {words required : Nat}

/-- The operation answers if and only if `c` holds. It succeeds or reports the failure, and a domain
that it fails for has lost nothing. -/
structure Reports {α : Type} (d : Domain) (st : MachineState) (op : Machine (α × Domain)) (c : Prop)
    (succeeds : α → Bool) (failure : α) : Prop where
  answers_iff : (∃ r st', op st = .ok r st') ↔ c
  of_answer : ∀ r d' st', op st = .ok (r, d') st' →
    succeeds r = true ∨ (r = failure ∧ d.Declined st d' st')

theorem Quiet.declined (h : d.Quiet st d' st') : d.Declined st d' st' := by
  obtain ⟨stats, journal, rfl, rfl⟩ := h
  exact ⟨rfl, rfl, rfl, rfl⟩

/-! ### Requests -/

theorem alloc_answers_iff (h : Handlers) (st : MachineState) :
    (∃ r st', d.alloc h st = .ok r st') ↔
      ∃ r st', d.allocNoExc d.fiberWords h ⟨st.nextFiber⟩
        { st with nextFiber := st.nextFiber + 1 } = .ok r st' := by
  have hfresh : Machine.freshFiber st =
      .ok ⟨st.nextFiber⟩ { st with nextFiber := st.nextFiber + 1 } := rfl
  unfold alloc
  rw [bind_of_ok hfresh]
  refine exists_bind_eq_ok_iff ?_
  rintro ⟨_ | s, d'⟩ st'
  · exact ⟨_, _, rfl⟩
  · exact ⟨_, _, rfl⟩

theorem startMain_answers_iff (st : MachineState) :
    (∃ r st', d.startMain st = .ok r st') ↔
      ∃ r st', d.allocMain (d.initialWords none) st = .ok r st' := by
  refine exists_bind_eq_ok_iff ?_
  rintro ⟨_ | s, d'⟩ st'
  · exact ⟨_, _, rfl⟩
  · exact ⟨_, _, rfl⟩

/-! ### Growth -/

theorem ensureCapacity_answers_iff (st : MachineState) :
    (∃ r st', d.ensureCapacity required st = .ok r st') ↔
      required ≤ d.availableWords ∨ ∃ r st', d.tryRealloc required st = .ok r st' := by
  unfold ensureCapacity
  by_cases havailable : required ≤ d.availableWords
  · rw [if_pos havailable]
    exact iff_of_true ⟨_, _, rfl⟩ (.inl havailable)
  · rw [if_neg havailable, or_iff_right havailable]
    refine exists_bind_eq_ok_iff ?_
    rintro ⟨_ | _, d'⟩ st'
    · exact ⟨_, _, rfl⟩
    · exact ⟨_, _, rfl⟩

/-- Room is there or is made, or its absence is reported. -/
theorem ensureCapacity_cases {r : Except StackError Unit}
    (hrun : d.ensureCapacity required st = .ok (r, d') st') :
    r = .ok () ∨ (r = .error (.stackOverflow required d.maxWords) ∧ d.Declined st d' st') := by
  unfold ensureCapacity at hrun
  split at hrun
  · cases hrun
    exact .inl rfl
  · obtain ⟨⟨grown, d₁⟩, st₁, hgrow, hpure⟩ := bind_eq_ok_iff.mp hrun
    cases grown with
    | true =>
        cases hpure
        exact .inl rfl
    | false =>
        cases hpure
        rcases tryRealloc_cases hgrow with ⟨-, hquiet⟩ | ⟨_, _, _, _, _, _, _, _, htrue, -⟩
        · have hdeclined := hquiet.declined
          have hmax : d'.maxWords = d.maxWords := by rw [hdeclined.pool]
          rw [hmax]
          exact .inr ⟨rfl, hdeclined⟩
        · cases htrue

/-! ### The maximum -/

/-- The maximum that a change to `words` leads to. -/
def nextMax (d : Domain) (words : Nat) : Nat := max words (d.usedWords + stackThresholdWords)

theorem changeMax_answers_iff (hused : d.usedWords + stackThresholdWords < Size.limit)
    (st : MachineState) : (∃ d' st', d.changeMax words st = .ok d' st') ↔
      d.nextMax words = d.maxWords ∨
        (st.journal.wouldLog .info = true → d.nextMax words * wordBytes < Size.limit) := by
  have hlevel : Machine.wouldLog .info st = .ok (st.journal.wouldLog .info) st := rfl
  unfold changeMax
  rw [bind_lift_of_ok (Size.add_eq hused)]
  simp only
  rw [show max words (d.usedWords + stackThresholdWords) = d.nextMax words from rfl]
  by_cases hsame : d.nextMax words = d.maxWords
  · rw [if_neg (not_not.mpr hsame)]
    exact iff_of_true ⟨_, _, rfl⟩ (.inl hsame)
  · rw [if_pos hsame, or_iff_right hsame, bind_of_ok hlevel]
    by_cases hinfo : st.journal.wouldLog .info = true
    · rw [if_pos hinfo]
      constructor
      · rintro ⟨d', st', hrun⟩ -
        obtain ⟨bytes, st₁, hbytes, -⟩ := bind_eq_ok_iff.mp hrun
        exact (Size.checked_mul.of_eq_ok (lift_eq_ok_iff.mp hbytes).1).2
      · intro hfits
        rw [bind_lift_of_ok (Size.mul_eq (hfits hinfo))]
        exact ⟨_, _, rfl⟩
    · rw [if_neg hinfo]
      exact iff_of_true ⟨_, _, rfl⟩ fun h => absurd h hinfo

end Domain

namespace Holdings

variable {w : Holdings} {d d₁ : Domain} {i words : Nat} {old new : Segment} {outer : Chain}
  {hs : Handlers} {fiber : FiberId} {journal : Journal} {st : MachineState} {rs : List Nat}

theorem Reached.allocNoExc_answers_iff (h : Reached w) (hd : w.domains[i]? = some d)
    (words : Nat) (hs : Handlers) (id : FiberId) (n : Nat) :
    (∃ r st, d.allocNoExc words hs id { w.machine with nextFiber := n } = .ok r st) ↔
      Segment.Requestable d.policy words := by
  constructor
  · rintro ⟨⟨s?, d'⟩, st, hrun⟩
    cases s? with
    | none => exact Domain.requestable_of_declined hrun
    | some s =>
        have hsep := h.stocked.1.kept_apart hd
        have hroom := h.words_le (List.mem_of_getElem? hd) hrun
        obtain ⟨hobtained, -⟩ := Domain.allocated_of_allocNoExc (by exact hsep) hrun
        have hhigh := hobtained.formed.high_le
        exact Segment.requestable_of_doubled (k := 0) d.policy (by omega) (Nat.mul_one words).symm
  · intro hwords
    obtain ⟨s?, d', st, hrun⟩ := d.exists_allocNoExc hs id _ hwords
    exact ⟨_, st, hrun⟩

/-- All that can be followed is relocated to a segment that growth obtains. -/
theorem Reached.exists_relocated (h : Reached w) (hd : w.domains[i]? = some d)
    (hrunning : d.running = old :: outer) (hbody : 0 < old.bodyWords)
    (hfollow : d.Followable w.machine.memory old rs)
    (hlists : d.Lists w.machine.memory (fun a =>
      ¬ w.machine.space.Taken a ∨ ∃ s ∈ w.pooled, s.Owns a) old rs)
    (hdouble : old.bodyWords * 2 ≤ words) (hused : old.usedWords ≤ words)
    (halloc : d.allocNoExc words hs fiber { w.machine with journal } = .ok (some new, d₁) st) :
    old.usedWords * wordBytes ≤ new.high - new.base ∧
      ∃ r, d₁.relocated old (Segment.filled old new) outer st.memory = .ok r := by
  have hroom : words * wordBytes ≤ new.high - new.base :=
    h.words_le (List.mem_of_getElem? hd) halloc
  have hfit := (Nat.mul_le_mul_right wordBytes hused).trans hroom
  have hdeep : old.high - old.base ≤ new.high - new.base := by
    simp only [Segment.bodyWords, wordBytes] at hbody hdouble hroom
    omega
  obtain ⟨r, hrelocated, -⟩ :=
    (h.checked_relocated hd hrunning hlists halloc hfit).exists_ok ⟨hfollow, hdeep⟩
  exact ⟨hfit, r, hrelocated⟩

/-- The running segment, if there is one, has words in its body, and what points into it can be
followed. -/
def Growable (w : Holdings) (d : Domain) : Prop :=
  ∀ old outer, d.running = old :: outer → 0 < old.bodyWords ∧
    ∃ rs, d.Followable w.machine.memory old rs ∧
      d.Lists w.machine.memory
        (fun a => ¬ w.machine.space.Taken a ∨ ∃ s ∈ w.pooled, s.Owns a) old rs

theorem Reached.tryRealloc_answers_iff (h : Reached w) (hd : w.domains[i]? = some d)
    (hgrowable : w.Growable d) (required : Nat) :
    (∃ r st, d.tryRealloc required w.machine = .ok r st) ↔
      (w.machine.journal.wouldLog .info = true → d.Fits required) := by
  constructor
  · rintro ⟨r, st, hrun⟩ hinfo
    exact Domain.fits_of_tryRealloc hinfo hrun
  · intro hfits
    cases hrunning : d.running with
    | nil =>
        unfold Domain.tryRealloc
        rw [hrunning]
        exact ⟨_, _, rfl⟩
    | cons old outer =>
        obtain ⟨hold, htagged⟩ := h.formed_of_running hd (show old ∈ d.running by simp [hrunning])
        obtain ⟨hbody, rs, hfollow, hlists⟩ := hgrowable old outer hrunning
        obtain ⟨grown, d', st, hrun⟩ := Domain.exists_tryRealloc hrunning hold htagged hbody hfits
          fun _ _ _ _ _ _ _ hdouble hused halloc =>
            h.exists_relocated hd hrunning hbody hfollow hlists hdouble hused halloc
        exact ⟨_, st, hrun⟩

theorem Reached.usedWords_lt (h : Reached w) (hd : w.domains[i]? = some d) :
    d.usedWords + stackThresholdWords < Size.limit := by
  unfold Domain.usedWords Domain.current?
  cases hrunning : d.running with
  | nil => decide
  | cons s outer =>
      obtain ⟨hformed, -⟩ := h.formed_of_running hd (show s ∈ d.running by simp [hrunning])
      have hhigh := hformed.high_le
      simp only [List.head?_cons, Option.map_some, Option.getD_some, Segment.usedWords,
        stackThresholdWords, wordBytes, Size.limit_eq, AddressSpace.limit] at *
      omega

/-- Operations that obtain or replace a segment report what they cannot do, and leave the domain as
it was. They answer if and only if the sizes on the way are machine sizes, and so does a change of
the maximum. -/
theorem answers_of_reached (hreached : Reached w) (hd : w.domains[i]? = some d)
    (hgrowable : w.Growable d) :
    d.Reports w.machine d.startMain (Segment.Requestable d.policy (d.initialWords none))
        Except.isOk (.error (.outOfMemory (d.initialWords none))) ∧
      (∀ words, d.Reports w.machine (d.allocMain words) (Segment.Requestable d.policy words)
        Option.isSome none) ∧
      (∀ words h id, d.Reports w.machine (d.allocNoExc words h id)
        (Segment.Requestable d.policy words) Option.isSome none) ∧
      (∀ h, d.Reports w.machine (d.alloc h) (Segment.Requestable d.policy d.fiberWords)
        Except.isOk (.error (.outOfMemory d.fiberWords))) ∧
      (∀ required, d.Reports w.machine (d.tryRealloc required)
        (w.machine.journal.wouldLog .info = true → d.Fits required) id false) ∧
      (∀ required, d.Reports w.machine (d.ensureCapacity required)
        (required ≤ d.availableWords ∨
          (w.machine.journal.wouldLog .info = true → d.Fits required))
        Except.isOk (.error (.stackOverflow required d.maxWords))) ∧
      ∀ words, (∃ d' st, d.changeMax words w.machine = .ok d' st) ↔
        d.nextMax words = d.maxWords ∨
          (w.machine.journal.wouldLog .info = true →
            d.nextMax words * wordBytes < Size.limit) := by
  have hsep := hreached.stocked.1.kept_apart hd
  have hrequests : ∀ words h id, d.Reports w.machine (d.allocNoExc words h id)
      (Segment.Requestable d.policy words) Option.isSome none := by
    refine fun words h id => ⟨hreached.allocNoExc_answers_iff hd words h id _, ?_⟩
    rintro (_ | s) d' st hrun
    · exact .inr ⟨rfl, Domain.declined_of_allocNoExc hrun⟩
    · exact .inl rfl
  have hgrows := hreached.tryRealloc_answers_iff hd hgrowable
  refine ⟨⟨?_, fun r d' st hrun => ?_⟩, fun words => hrequests words _ _, hrequests,
    fun h => ⟨?_, fun r d' st hrun => ?_⟩, fun required => ⟨hgrows required, ?_⟩,
    fun required => ⟨?_, fun r d' st hrun => ?_⟩,
    fun words => Domain.changeMax_answers_iff (hreached.usedWords_lt hd) _⟩
  · rw [Domain.startMain_answers_iff]
    exact (hrequests _ _ _).answers_iff
  · rcases Domain.startMain_cases hsep hrun with ⟨s, d₁, rfl, -⟩ | hdeclined
    · exact .inl rfl
    · exact .inr hdeclined
  · rw [Domain.alloc_answers_iff]
    exact hreached.allocNoExc_answers_iff hd _ _ _ _
  · rcases Domain.alloc_cases hsep hrun with ⟨s, id, rfl, -⟩ | hdeclined
    · exact .inl rfl
    · exact .inr hdeclined
  · intro grown d' st hrun
    rcases Domain.tryRealloc_cases hrun with ⟨rfl, hquiet⟩ | ⟨_, _, _, _, _, _, _, _, rfl, -⟩
    · exact .inr ⟨rfl, hquiet.declined⟩
    · exact .inl rfl
  · rw [Domain.ensureCapacity_answers_iff, hgrows]
  · rcases Domain.ensureCapacity_cases hrun with rfl | hdeclined
    · exact .inl rfl
    · exact .inr hdeclined

/-! ### The last sizes

The bytes of a request are a size, and the bytes of its block are not. The next request is of so
many words that their bytes are no size, and that is reported. -/

namespace LastSizes

def settings : Settings :=
  { Settings.standard with fiberWords := 32, mainWords := 32, maxWords := 1000 }

theorem starts : ∃ d₀ st₀ d₁ st₁,
    Domain.create settings MachineState.initial = .ok d₀ st₀ ∧
      d₀.startMain st₀ = .ok (.ok (), d₁) st₁ ∧ d₁.policy = .guarded ∧
      d₁.framePointers = false ∧ d₁.links = [] ∧ d₁.running.length = 1 ∧
      (∀ s ∈ d₁.running, 0 < s.bodyWords ∧ s.contains d₁.exnHandler = false) ∧
      cause? (d₁.allocMain (2 ^ 61 - 1)) st₁ = some (.fault (.overflow .add)) ∧
      cause? (d₁.changeMax (2 ^ 64 - 1)) st₁ = some (.fault (.overflow .multiply)) := by
  have h : answers (Domain.create settings) .initial (fun d₀ st₀ =>
      succeeds d₀.startMain st₀ fun _ d₁ st₁ => decide (d₁.policy = .guarded ∧
        d₁.framePointers = false ∧ d₁.links = [] ∧ d₁.running.length = 1 ∧
        (∀ s ∈ d₁.running, 0 < s.bodyWords ∧ s.contains d₁.exnHandler = false) ∧
        cause? (d₁.allocMain (2 ^ 61 - 1)) st₁ = some (.fault (.overflow .add)) ∧
        cause? (d₁.changeMax (2 ^ 64 - 1)) st₁ = some (.fault (.overflow .multiply)))) = true := by
    decide +kernel
  obtain ⟨d₀, st₀, hcreate, h⟩ := exists_of_answers h
  obtain ⟨_, d₁, st₁, hstart, h⟩ := exists_of_succeeds h
  exact ⟨d₀, st₀, d₁, st₁, hcreate, hstart, of_decide_eq_true h⟩

/-- The settings are valid, and neither a request nor a change of the maximum is reported. -/
theorem not_reported : settings.validate = .ok () ∧
    ∃ d₀ st₀ d₁ st₁ st₂ st₃, Domain.create settings MachineState.initial = .ok d₀ st₀ ∧
      d₀.startMain st₀ = .ok (.ok (), d₁) st₁ ∧
      (∀ s ∈ d₁.running, 0 < s.bodyWords) ∧
      d₁.allocMain (2 ^ 61 - 1) st₁ = .error (.fault (.overflow .add)) st₂ ∧
      d₁.changeMax (2 ^ 64 - 1) st₁ = .error (.fault (.overflow .multiply)) st₃ := by
  obtain ⟨d₀, st₀, d₁, st₁, hcreate, hstart, -, -, -, -, hrunning, hrequest, hchange⟩ := starts
  obtain ⟨st₂, hrequest⟩ := exists_of_cause? hrequest
  obtain ⟨st₃, hchange⟩ := exists_of_cause? hchange
  exact ⟨by decide, d₀, st₀, d₁, st₁, st₂, st₃, hcreate, hstart, fun s hs => (hrunning s hs).1,
    hrequest, hchange⟩

/-- The request for the next size answers, the one for the last does not. -/
theorem next_request_answers : ∃ w d, Reached w ∧ w.domains[0]? = some d ∧ w.Growable d ∧
    d.running ≠ [] ∧ (∃ r st, d.allocMain (2 ^ 61) w.machine = .ok r st) ∧
    ¬ ∃ r st, d.allocMain (2 ^ 61 - 1) w.machine = .ok r st := by
  obtain ⟨d₀, st₀, d, st, hcreate, hstart, hpolicy, hpointers, hlinks, hlength, hrunning, -⟩ :=
    starts
  have hcreated := (Reached.start .ascending).step (.createDomain hcreate) trivial
  have hstarted := hcreated.step (.startMain (i := 0) rfl hstart) trivial
  have hnonempty : d.running ≠ [] := List.ne_nil_of_length_pos (by omega)
  have hgrowable : ∀ w : Holdings, w.Growable d := by
    intro w old outer hrun
    obtain ⟨hbody, houtside⟩ := hrunning old (by simp [hrun])
    refine ⟨hbody, [], ⟨⟨[], _, rfl, List.nodup_nil, nofun, houtside⟩, nofun, ?_⟩, ?_⟩
    · rw [hlinks]
      exact nofun
    · exact fun h => absurd (hpointers.symm.trans h) Bool.false_ne_true
  obtain ⟨-, hmain, -⟩ := answers_of_reached (i := 0) hstarted rfl (hgrowable _)
  refine ⟨_, d, hstarted, rfl, hgrowable _, hnonempty, (hmain (2 ^ 61)).answers_iff.mpr ?_, ?_⟩
  · exact .inl (by decide)
  · rw [(hmain (2 ^ 61 - 1)).answers_iff, hpolicy]
    unfold Segment.Requestable
    decide +kernel

end LastSizes

end Holdings

end FiberStacks
