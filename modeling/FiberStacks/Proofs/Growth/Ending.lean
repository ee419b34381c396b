import FiberStacks.Proofs.Growth.Relocated
import FiberStacks.Proofs.Growth.Totality
import FiberStacks.Proofs.Holdings.Stock

/-!
# Whether growth ends

Growth doubles a size until it suffices, and then follows the trap frames and the saved base
pointers of the old segment. The walk over the trap frames ends, whatever they hold, since each step
but the first takes a link into the old segment away. The walk over the base pointers ends if their
chain does. Doubling ends too, unless it starts from a body without words: that stays empty however
often it is doubled.
-/

namespace FiberStacks

open Run

/-! ### Doubling -/

namespace GrowthTarget

variable {size max needed : Nat}

/-- One turn of the search for a size: its verdict, or the size that the next turn starts with. -/
def turn (max needed size : Nat) : Except GrowthTarget Nat :=
  if max ≤ size then
    .error .refused
  else if Size.limit ≤ size * 2 then
    .error .refused
  else if needed ≤ size * 2 then
    .error (.words (size * 2))
  else
    .ok (size * 2)

def turns (max needed : Nat) : Nat → Nat → Except GrowthTarget Nat
  | 0, size => .ok size
  | n + 1, size => do turns max needed n (← turn max needed size)

/-- A search that does not go on forever comes to its verdict after a number of turns. -/
theorem exists_turns (h : find size max needed ≠ .endless) :
    ∃ n, turns max needed n size = .error (find size max needed) := by
  fun_induction find size max needed with
  | case1 size hmax => exact ⟨1, by rw [turns, turn, if_pos hmax]; rfl⟩
  | case2 size hmax hlimit => exact ⟨1, by rw [turns, turn, if_neg hmax, if_pos hlimit]; rfl⟩
  | case3 size hmax hlimit hneeded =>
      exact ⟨1, by rw [turns, turn, if_neg hmax, if_neg hlimit, if_pos hneeded]; rfl⟩
  | case4 => exact absurd rfl h
  | case5 size hmax hlimit hneeded hzero ih =>
      obtain ⟨n, hn⟩ := ih h
      refine ⟨n + 1, ?_⟩
      rw [turns, turn, if_neg hmax, if_neg hlimit, if_neg hneeded]
      exact hn

theorem find_eq_endless_iff :
    find size max needed = .endless ↔ size = 0 ∧ 0 < max ∧ 0 < needed := by
  by_cases hsize : 0 < size
  · exact iff_of_false (find_ne_endless hsize) fun h => absurd h.1 (Nat.ne_of_gt hsize)
  · obtain rfl : size = 0 := by omega
    have hlimit : ¬ Size.limit ≤ 0 * 2 := by decide
    rw [find]
    by_cases hmax : max ≤ 0
    · rw [dif_pos hmax]
      exact iff_of_false nofun fun h => absurd h.2.1 (Nat.not_lt.mpr hmax)
    · by_cases hneeded : needed ≤ 0
      · rw [dif_neg hmax, if_neg hlimit, if_pos hneeded]
        exact iff_of_false nofun fun h => absurd h.2.2 (Nat.not_lt.mpr hneeded)
      · rw [dif_neg hmax, if_neg hlimit, if_neg hneeded, dif_pos rfl]
        exact iff_of_true rfl ⟨rfl, Nat.not_le.mp hmax, Nat.not_le.mp hneeded⟩

/-- Every turn of a search that starts with no words ends with no words. -/
theorem turns_of_endless (h : find size max needed = .endless) (n : Nat) :
    turns max needed n size = .ok size := by
  obtain ⟨rfl, hmax, hneeded⟩ := find_eq_endless_iff.mp h
  induction n with
  | zero => rfl
  | succ n ih =>
      have hlimit : ¬ Size.limit ≤ 0 * 2 := by decide
      rw [turns, turn, if_neg (by omega), if_neg hlimit, if_neg (by omega)]
      exact ih

theorem exists_verdict_iff : (∃ n verdict, turns max needed n size = .error verdict) ↔
    ¬ (size = 0 ∧ 0 < max ∧ 0 < needed) := by
  rw [← find_eq_endless_iff]
  constructor
  · rintro ⟨n, verdict, hverdict⟩ hendless
    cases hverdict.symm.trans (turns_of_endless hendless n)
  · intro h
    obtain ⟨n, hn⟩ := exists_turns h
    exact ⟨n, _, hn⟩

end GrowthTarget

theorem Segment.Formed.usedWords_le {s : Segment} (h : s.Formed) : s.usedWords ≤ s.bodyWords :=
  Nat.div_le_div_right (Nat.sub_le_sub_left h.base_le_sp s.high)

theorem Segment.Formed.availableWords_le {s : Segment} (h : s.Formed) :
    s.availableWords ≤ s.bodyWords :=
  Nat.div_le_div_right (Nat.sub_le_sub_right h.sp_le_high s.base)

namespace Domain

variable {d d' : Domain} {old : Segment} {outer : Chain} {st st' : MachineState}
  {words required : Nat}

/-- A move to a segment with room ends if what it relocates does. -/
theorem endsFrom_moveTo (htagged : old.magic = segmentMagic)
    (hroom : old.usedWords * wordBytes ≤ new.high - new.base)
    {c : Prop} (hrelocated : Checked c (fun _ => True)
      (d.relocated old (Segment.filled old new) outer st.memory)) :
    EndsFrom st (d.moveTo old outer new) := by
  generalize hx : d.relocated old (Segment.filled old new) outer st.memory = x at hrelocated
  cases hrelocated with
  | answer =>
      obtain ⟨d', st', hmove⟩ := exists_moveTo htagged hroom hx
      exact .of_ok hmove
  | fault e =>
      intro st' hends
      rw [moveTo_run hroom, bind_of_error (lift_of_error hx st)] at hends
      cases hends

theorem endsFrom_allocNoExc (d : Domain) (words : Nat) (h : Handlers) (id : FiberId)
    (st : MachineState) : EndsFrom st (d.allocNoExc words h id) := by
  obtain ⟨s?, pool, j, hreuse, -⟩ := d.pool.reuse?_cases (d.pool.classFor? words) st
  refine EndsFrom.bind (.of_ok hreuse) fun picked st' hpicked => ?_
  cases hreuse.symm.trans hpicked
  cases s? with
  | some s => exact .of_ok rfl
  | none =>
      have hget : (get : Machine MachineState) { st with journal := j } = .ok _ _ := rfl
      refine EndsFrom.bind (.of_ok hget) fun r st' _ => ?_
      refine EndsFrom.bind (Segment.checked_allocate _ _ _ _ _ _ _ _).endsFrom ?_
      rintro (e | ⟨s, m, space⟩) st' -
      · exact .of_ok rfl
      · exact .of_ok rfl

theorem endsFrom_logGrowth (words : Nat) (st : MachineState) :
    EndsFrom st (logGrowth words) := by
  have hlevel : Machine.wouldLog .info st = .ok (st.journal.wouldLog .info) st := rfl
  refine EndsFrom.bind (.of_ok hlevel) fun would st' _ => ?_
  split
  · refine EndsFrom.bind Size.checked_mul.endsFrom fun bytes st' _ => ?_
    split <;> exact .of_ok rfl
  · exact .of_ok rfl

/-! ### Growth -/

/-- The running segment has no words in its body, and growth is asked for some. -/
def Stuck (d : Domain) (required : Nat) : Prop :=
  ∃ s outer, d.running = s :: outer ∧ s.bodyWords = 0 ∧ 0 < d.maxWords ∧ 0 < required ∧
    required < Size.limit

theorem tryRealloc_of_stuck (hformed : ∀ s ∈ d.running, s.Formed) (h : d.Stuck required)
    (st : MachineState) : d.tryRealloc required st = .error .endless st := by
  obtain ⟨s, outer, hrunning, hbody, hmax, hrequired, hlimit⟩ := h
  have hused : s.usedWords = 0 :=
    Nat.eq_zero_of_le_zero (hbody ▸ (hformed s (by simp [hrunning])).usedWords_le)
  have hneeded : Size.add? s.usedWords required = some required := by
    rw [hused, Size.add?, Nat.zero_add, if_pos hlimit]
  have hfind : GrowthTarget.find s.bodyWords d.maxWords required = .endless :=
    GrowthTarget.find_eq_endless_iff.mpr ⟨hbody, hmax, hrequired⟩
  unfold tryRealloc
  rw [hrunning]
  simp only [hneeded, hfind]
  rfl

theorem ensureCapacity_of_stuck (hformed : ∀ s ∈ d.running, s.Formed) (h : d.Stuck required)
    (st : MachineState) : d.ensureCapacity required st = .error .endless st := by
  have hends := tryRealloc_of_stuck hformed h st
  obtain ⟨s, outer, hrunning, hbody, -, hrequired, -⟩ := h
  have havailable : d.availableWords ≤ 0 := by
    rw [availableWords, current?, hrunning]
    exact hbody ▸ (hformed s (by simp [hrunning])).availableWords_le
  unfold ensureCapacity
  rw [if_neg (by omega)]
  exact bind_of_error hends _

theorem push_of_stuck (hformed : ∀ s ∈ d.running, s.Formed) (h : d.Stuck 1) (x : Word)
    (st : MachineState) : d.push x st = .error .endless st :=
  bind_of_error (ensureCapacity_of_stuck hformed h st) _

theorem endsFrom_ensureCapacity (h : EndsFrom st (d.tryRealloc required)) :
    EndsFrom st (d.ensureCapacity required) := by
  unfold ensureCapacity
  split
  · exact .of_ok rfl
  · refine h.bind fun grown st' _ => ?_
    obtain ⟨success, d'⟩ := grown
    cases success <;> exact .of_ok rfl

theorem endsFrom_push (h : EndsFrom st (d.ensureCapacity 1)) (x : Word) :
    EndsFrom st (d.push x) := by
  refine h.bind fun ensured st' _ => ?_
  obtain ⟨r, d'⟩ := ensured
  cases r with
  | error error => exact .of_ok rfl
  | ok =>
      cases hrunning : d'.running with
      | nil =>
          simp only [hrunning]
          exact .of_ok rfl
      | cons s outer =>
          simp only [hrunning]
          refine EndsFrom.bind (.of_ok (Machine.memory_run st')) fun m st'' _ => ?_
          cases s.push m x <;> exact .of_ok rfl

end Domain

namespace Holdings

variable {w : Holdings} {d d₁ : Domain} {i required words : Nat} {old new : Segment}
  {outer : Chain} {hs : Handlers} {id : FiberId} {journal : Journal} {st : MachineState}
  {rs : List Nat}

/-- Relocation to a segment that was obtained for growth ends, and it succeeds where all can be
followed. -/
theorem Reached.checked_relocated (h : Reached w) (hd : w.domains[i]? = some d)
    (hrunning : d.running = old :: outer)
    (hlists : d.Lists w.machine.memory (fun a =>
      ¬ w.machine.space.Taken a ∨ ∃ s ∈ w.pooled, s.Owns a) old rs)
    (halloc : d.allocNoExc words hs id { w.machine with journal } = .ok (some new, d₁) st)
    (hroom : old.usedWords * wordBytes ≤ new.high - new.base) :
    Checked (d.Followable w.machine.memory old rs ∧ old.high - old.base ≤ new.high - new.base)
      (fun _ => True) (d₁.relocated old (Segment.filled old new) outer st.memory) := by
  obtain ⟨haccounted, -⟩ := h.stocked
  have hsep := haccounted.kept_apart hd
  have hobtains := Domain.obtains_of_allocNoExc halloc
  obtain ⟨hobtained, hpool, hseparate⟩ := Domain.allocated_of_allocNoExc (by exact hsep) halloc
  have hapart : new.Apart old := (List.pairwise_cons.mp hseparate.apart).1 old
    (List.mem_append_left _ (by simp [hrunning]))
  have hnew : ∀ a, new.Owns a → ¬ w.machine.space.Taken a ∨ ∃ s ∈ w.pooled, s.Owns a := fun _ =>
    owns_of_obtains (w := { w with machine := { w.machine with journal } }) hd hobtains
  obtain ⟨hold, -⟩ := h.formed_of_running hd (show old ∈ d.running by simp [hrunning])
  obtain ⟨hfilled, hsp⟩ := Segment.filled_formed hobtained.formed hroom
  have hkept := hlists.of_confines (hobtained.kept.confines hobtained.formed) hnew hapart
  rw [hpool]
  refine (Domain.checked_relocated hold hfilled hsp hapart hkept hnew).of_imp fun hc => ?_
  refine ⟨hc.1.congr fun a ha => ?_, hc.2⟩
  exact hobtained.read_of_apart hapart (Segment.owns_of_contains
    (hold.isWord_of_mem_liveSlots ha).contains)

theorem Reached.endsFrom_tryRealloc (h : Reached w) (hd : w.domains[i]? = some d)
    (hrecords : d.RecordsAvoid w.machine.memory fun a =>
      ¬ w.machine.space.Taken a ∨ ∃ s ∈ w.pooled, s.Owns a)
    (hstuck : ¬ d.Stuck required) : EndsFrom w.machine (d.tryRealloc required) := by
  obtain ⟨haccounted, -⟩ := h.stocked
  have hsep := haccounted.kept_apart hd
  unfold Domain.tryRealloc
  cases hrunning : d.running with
  | nil => exact .of_ok rfl
  | cons old outer =>
      obtain ⟨hold, htagged⟩ := h.formed_of_running hd (show old ∈ d.running by simp [hrunning])
      simp only
      cases hneeded : Size.add? old.usedWords required with
      | none => exact .of_ok rfl
      | some needed =>
          obtain rfl := Size.eq_of_add?_eq_some hneeded
          simp only
          cases hfind : GrowthTarget.find old.bodyWords d.maxWords (old.usedWords + required) with
          | refused => exact .of_ok rfl
          | endless =>
              obtain ⟨hbody, hmax, hpositive⟩ := GrowthTarget.find_eq_endless_iff.mp hfind
              have hused := hold.usedWords_le
              have hlimit : old.usedWords + required < Size.limit := by
                by_contra hbeyond
                rw [Size.add?, if_neg hbeyond] at hneeded
                cases hneeded
              exact absurd ⟨old, outer, hrunning, hbody, hmax, by omega, by omega⟩ hstuck
          | words words =>
              obtain ⟨k, -, hneededRoom⟩ := GrowthTarget.exists_of_find hfind
              refine EndsFrom.bind (Domain.endsFrom_logGrowth words _) fun _ st hlog => ?_
              obtain ⟨journal, rfl⟩ := Domain.logGrowth_eq_ok hlog
              refine EndsFrom.bind (.of_ok (Machine.memory_run _)) fun m st hm => ?_
              cases hm
              refine EndsFrom.bind (d.endsFrom_allocNoExc words _ _ _) fun obtained st halloc => ?_
              obtain ⟨new?, d₁⟩ := obtained
              cases new? with
              | none => exact .of_ok rfl
              | some new =>
                  refine EndsFrom.bind ?_ fun _ _ _ => .of_ok rfl
                  have hroom : old.usedWords * wordBytes ≤ new.high - new.base :=
                    (Nat.mul_le_mul_right _ (by omega)).trans
                      (h.words_le (List.mem_of_getElem? hd) halloc)
                  obtain ⟨rs, hlists⟩ := hrecords.exists_lists hrunning
                  exact Domain.endsFrom_moveTo htagged hroom
                    (h.checked_relocated hd hrunning hlists halloc hroom)

/-- Growth goes on forever if the running segment is stuck, and only then. That is so if it was
obtained with no words, since its body has words if it was asked for any. -/
theorem endless_iff_stuck (hreached : Reached w) (hd : w.domains[i]? = some d)
    (hrecords : d.RecordsAvoid w.machine.memory fun a =>
      ¬ w.machine.space.Taken a ∨ ∃ s ∈ w.pooled, s.Owns a) :
    (∀ s outer needed, d.running = s :: outer →
      ((∃ n verdict, GrowthTarget.turns d.maxWords needed n s.bodyWords = .error verdict) ↔
        ¬ (s.bodyWords = 0 ∧ 0 < d.maxWords ∧ 0 < needed))) ∧
      (∀ required, (∃ st, d.tryRealloc required w.machine = .error .endless st) ↔
        d.Stuck required) ∧
      (∀ required, (∃ st, d.ensureCapacity required w.machine = .error .endless st) ↔
        d.Stuck required) ∧
      ((∃ st, d.maybeExpand w.machine = .error .endless st) ↔
        d.Stuck (stackThresholdWords + nativeSlackWords)) ∧
      (∀ x, (∃ st, d.push x w.machine = .error .endless st) ↔ d.Stuck 1) ∧
      ∀ words h id s d' st, d.allocNoExc words h id w.machine = .ok (some s, d') st →
        (s.bodyWords = 0 ↔ words = 0) := by
  have hformed : ∀ s ∈ d.running, s.Formed := fun s hs => (hreached.formed_of_running hd hs).1
  have hends : ∀ required, ¬ d.Stuck required →
      EndsFrom w.machine (d.tryRealloc required) := fun required =>
    hreached.endsFrom_tryRealloc hd hrecords
  have hensures : ∀ required, (∃ st, d.ensureCapacity required w.machine = .error .endless st) ↔
      d.Stuck required := fun required =>
    endless_iff (fun hstuck => Domain.endsFrom_ensureCapacity (hends required hstuck))
      fun hstuck => Domain.ensureCapacity_of_stuck hformed hstuck _
  refine ⟨fun _ _ _ _ => GrowthTarget.exists_verdict_iff, fun required => ?_, hensures,
    hensures _, fun x => ?_, fun words h id s d' st halloc => ?_⟩
  · exact endless_iff (hends required) fun hstuck => Domain.tryRealloc_of_stuck hformed hstuck _
  · exact endless_iff
      (fun hstuck => Domain.endsFrom_push (Domain.endsFrom_ensureCapacity (hends 1 hstuck)) x)
      fun hstuck => Domain.push_of_stuck hformed hstuck x _
  · rw [hreached.bodyWords_of_allocNoExc (List.mem_of_getElem? hd) halloc, Size.roundUp,
      Size.ceilDiv]
    omega

/-! ### A fiber without words

A thread whose creator asks for no words runs on a segment with an empty body, and pushes. -/

namespace NoWords

def settings : Settings :=
  { Settings.standard with fiberWords := 32, mainWords := 32, maxWords := 1000 }

theorem starts : ∃ d₀ st₀ s d₁ st₁ d₂ st₂,
    Domain.create settings MachineState.initial = .ok d₀ st₀ ∧ d₀.initialWords (some 0) = 0 ∧
      d₀.allocMain 0 st₀ = .ok (some s, d₁) st₁ ∧ d₁.runFiber s st₁ = .ok d₂ st₂ ∧
      s.bodyWords = 0 ∧ d₂.maxWords = 1000 ∧ d₂.framePointers = false := by
  have h : answers (Domain.create settings) .initial (fun d₀ st₀ =>
      answers (d₀.allocMain 0) st₀ fun r st₁ => r.1.any fun s =>
      answers (r.2.runFiber s) st₁ fun d₂ _ =>
        decide (d₀.initialWords (some 0) = 0 ∧ s.bodyWords = 0 ∧ d₂.maxWords = 1000 ∧
          d₂.framePointers = false)) = true := by
    decide +kernel
  obtain ⟨d₀, st₀, hcreate, h⟩ := exists_of_answers h
  obtain ⟨⟨s?, d₁⟩, st₁, halloc, h⟩ := exists_of_answers h
  obtain ⟨s, rfl, h⟩ := (Option.any_eq_true _ _).mp h
  obtain ⟨d₂, st₂, hrun, h⟩ := exists_of_answers h
  obtain ⟨hwords, hbody, hmax, hpointers⟩ := of_decide_eq_true h
  exact ⟨d₀, st₀, s, d₁, st₁, d₂, st₂, hcreate, hwords, halloc, hrun, hbody, hmax, hpointers⟩

/-- The fiber runs, and is stuck. -/
theorem reached : ∃ d₀ st₀ s d₁ st₁ w d,
    Domain.create settings MachineState.initial = .ok d₀ st₀ ∧ d₀.initialWords (some 0) = 0 ∧
      d₀.allocMain 0 st₀ = .ok (some s, d₁) st₁ ∧ d₁.runFiber s st₁ = .ok d w.machine ∧
      Reached w ∧ w.domains[0]? = some d ∧ d.framePointers = false ∧ d.Stuck 1 := by
  obtain ⟨d₀, st₀, s, d₁, st₁, d, st, hcreate, hwords, halloc, hrun, hbody, hmax, hpointers⟩ :=
    starts
  have hcreated := (Reached.start .ascending).step (.createDomain hcreate) trivial
  have hallocated := hcreated.step (.allocNoExc (i := 0) rfl halloc) trivial
  have hran := hallocated.step (.runFiber (i := 0) (j := 0) rfl rfl hrun) trivial
  obtain ⟨hd, -⟩ := Domain.runFiber_eq_ok hrun
  exact ⟨d₀, st₀, s, d₁, st₁, _, d, hcreate, hwords, halloc, hrun, hran, rfl, hpointers, s, _,
    congrArg Domain.running hd, hbody, by omega, by decide, by decide⟩

/-- The settings are valid, and growth of the fiber never ends: no turn of the search for a size
comes to a verdict. -/
theorem grows_forever : settings.validate = .ok () ∧
    ∃ d₀ st₀ s d₁ st₁ d st, Domain.create settings MachineState.initial = .ok d₀ st₀ ∧
      d₀.initialWords (some 0) = 0 ∧ d₀.allocMain 0 st₀ = .ok (some s, d₁) st₁ ∧
      d₁.runFiber s st₁ = .ok d st ∧ (∃ st', d.tryRealloc 1 st = .error .endless st') ∧
      ∃ t outer, d.running = t :: outer ∧
        ∀ n, GrowthTarget.turns d.maxWords (t.usedWords + 1) n t.bodyWords = .ok t.bodyWords := by
  obtain ⟨d₀, st₀, s, d₁, st₁, w, d, hcreate, hwords, halloc, hrun, hreached, hd, -, hstuck⟩ :=
    reached
  have hformed : ∀ s ∈ d.running, s.Formed := fun s hs => (hreached.formed_of_running hd hs).1
  have hends := Domain.tryRealloc_of_stuck hformed hstuck w.machine
  obtain ⟨t, outer, hrunning, hbody, hmax, -⟩ := hstuck
  have hfind : GrowthTarget.find t.bodyWords d.maxWords (t.usedWords + 1) = .endless :=
    GrowthTarget.find_eq_endless_iff.mpr ⟨hbody, hmax, Nat.succ_pos _⟩
  exact ⟨by decide, d₀, st₀, s, d₁, st₁, d, _, hcreate, hwords, halloc, hrun, ⟨_, hends⟩, t, outer,
    hrunning, GrowthTarget.turns_of_endless hfind⟩

/-- The fiber cannot push either. -/
theorem push_never_ends : ∃ w d, Reached w ∧ w.domains[0]? = some d ∧
    d.RecordsAvoid w.machine.memory (fun a =>
      ¬ w.machine.space.Taken a ∨ ∃ s ∈ w.pooled, s.Owns a) ∧
    ∃ st, d.push 5 w.machine = .error .endless st := by
  obtain ⟨_, _, _, _, _, w, d, -, -, -, -, hreached, hd, hpointers, hstuck⟩ := reached
  have hrecords : d.RecordsAvoid w.machine.memory fun a =>
      ¬ w.machine.space.Taken a ∨ ∃ s ∈ w.pooled, s.Owns a := fun h =>
    absurd (hpointers.symm.trans h) Bool.false_ne_true
  obtain ⟨-, -, -, -, hpush, -⟩ := endless_iff_stuck hreached hd hrecords
  exact ⟨w, d, hreached, hd, hrecords, (hpush 5).mpr hstuck⟩

end NoWords

end Holdings

end FiberStacks
