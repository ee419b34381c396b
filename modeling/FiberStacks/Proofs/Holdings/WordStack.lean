import FiberStacks.Proofs.Growth.Totality
import FiberStacks.Proofs.Holdings.Stock

/-!
# A domain as a stack of words

Code that pushes, pops and asks for room sees a list of words. The running segment may be replaced
any number of times by larger ones, new or recycled, and requests for room may be refused: the list
changes with pushes and pops alone.
-/

namespace FiberStacks

/-! ### Calls on lists -/

inductive StackCall where
  | push (x : Word)
  | pop
  | peek (n : Nat)
  | ensureCapacity (required : Nat)
  | maybeExpand
  | tryRealloc (required : Nat)

inductive StackAnswer where
  | done
  | failed (error : StackError)
  | word (x? : Option Word)
  | grown (success : Bool)
  deriving DecidableEq

namespace StackAnswer

def ofExcept : Except StackError Unit → StackAnswer
  | .ok () => done
  | .error error => failed error

end StackAnswer

/-- What a call makes of a list, for a maximum of `max` words. -/
inductive StackCall.OnList (max : Nat) (l : List Word) :
    StackCall → StackAnswer → List Word → Prop
  | pushed {x : Word} : OnList max l (.push x) .done (x :: l)
  | overflowed {x : Word} : OnList max l (.push x) (.failed (.stackOverflow 1 max)) l
  | popped : OnList max l .pop (.word l.head?) l.tail
  | peeked {n : Nat} : OnList max l (.peek n) (.word l[n]?) l
  | ensured {required : Nat} : OnList max l (.ensureCapacity required) .done l
  | refused {required : Nat} :
      OnList max l (.ensureCapacity required) (.failed (.stackOverflow required max)) l
  | expanded : OnList max l .maybeExpand .done l
  | limited :
      OnList max l .maybeExpand
        (.failed (.stackOverflow (stackThresholdWords + nativeSlackWords) max)) l
  | grown {required : Nat} {success : Bool} : OnList max l (.tryRealloc required) (.grown success) l

/-- What calls make of a list, one after the other. -/
inductive StackCall.AllOnList (max : Nat) :
    List Word → List StackCall → List StackAnswer → List Word → Prop
  | nil {l : List Word} : AllOnList max l [] [] l
  | cons {l l' l'' : List Word} {call : StackCall} {answer : StackAnswer} {calls : List StackCall}
      {answers : List StackAnswer} :
      call.OnList max l answer l' → AllOnList max l' calls answers l'' →
      AllOnList max l (call :: calls) (answer :: answers) l''

/-! ### Words of a segment -/

namespace Segment

variable {s : Segment} {m : Memory}

theorem liveWords_of_empty (h : s.sp = s.high) (m : Memory) : s.liveWords m = [] := by
  rw [liveWords, usedWords, h, Nat.sub_self]
  rfl

theorem liveWords_of_lt (hs : s.Formed) (hlt : s.sp < s.high) (m : Memory) :
    s.liveWords m =
      m.read s.sp :: ({ s with sp := s.sp + wordBytes } : Segment).liveWords m := by
  have hused : s.usedWords = 1 + (s.high - (s.sp + wordBytes)) / wordBytes := by
    have hsp := hs.sp_aligned
    have hhigh := hs.high_aligned
    simp only [usedWords, wordBytes] at *
    omega
  rw [liveWords, hused, Memory.load_add, Memory.load_one, Nat.mul_one]
  rfl

theorem push_run (hs : s.Formed) (hroom : wordBytes ≤ s.sp - s.base) (m : Memory) (x : Word) :
    ∃ sp, s.push m x = .ok ({ s with sp }, m.write sp x) ∧ ({ s with sp } : Segment).Formed ∧
      s.Confines m (m.write sp x) ∧
      ({ s with sp } : Segment).liveWords (m.write sp x) = x :: s.liveWords m := by
  have hbase := hs.base_le_sp
  have hhigh := hs.sp_le_high
  have haligned := hs.sp_aligned
  have hpush : s.push m x =
      .ok ({ s with sp := s.sp - wordBytes }, m.write (s.sp - wordBytes) x) :=
    if_neg (Nat.not_lt.mpr hroom)
  simp only [wordBytes] at hroom haligned hpush
  have hdeeper : ({ s with sp := s.sp - 8 } : Segment).Formed :=
    ⟨by simp only; omega, by simp only; omega, by simp only [wordBytes]; omega, hs.high_aligned,
      hs.high_le⟩
  refine ⟨s.sp - 8, hpush, hdeeper, fun a ha => Memory.read_write_of_ne _ _ ?_, ?_⟩
  · rintro rfl
    unfold Owns at ha
    omega
  · rw [liveWords_of_lt hdeeper (by simp only; omega)]
    simp only [wordBytes, Nat.sub_add_cancel (show 8 ≤ s.sp by omega)]
    refine List.cons_eq_cons.mpr ⟨Memory.read_write_same _ _ _, ?_⟩
    refine List.map_congr_left fun a ha => Memory.read_write_of_ne _ _ ?_
    obtain ⟨i, -, rfl⟩ := Memory.mem_span_iff.mp ha
    simp only [wordBytes]
    omega

theorem pop?_run (hs : s.Formed) (m : Memory) :
    (s.liveWords m = [] ∧ s.pop? m = none) ∨
      ∃ sp x, s.pop? m = some (x, { s with sp }) ∧ ({ s with sp } : Segment).Formed ∧
        s.liveWords m = x :: ({ s with sp } : Segment).liveWords m := by
  by_cases hsp : s.sp = s.high
  · exact .inl ⟨liveWords_of_empty hsp m, if_pos hsp⟩
  · have hbase := hs.base_le_sp
    have hhigh := hs.sp_le_high
    have haligned := hs.sp_aligned
    have hend := hs.high_aligned
    refine .inr ⟨_, _, if_neg hsp, ?_, liveWords_of_lt hs (by omega) m⟩
    simp only [wordBytes] at haligned hend
    exact ⟨by simp only; omega, by simp only [wordBytes]; omega, by simp only [wordBytes]; omega,
      hs.high_aligned, hs.high_le⟩

theorem peek?_eq (hs : s.Formed) (m : Memory) (n : Nat) : s.peek? m n = (s.liveWords m)[n]? := by
  have hused := hs.used_bytes
  simp only [wordBytes] at hused
  rw [hs.peek?_eq_ite]
  by_cases hn : n < s.usedWords
  · have hword : (s.liveWords m)[n]? = some (m.read (s.sp + wordBytes * n)) := by
      simp [liveWords, Memory.load, Memory.span, hn]
    rw [hword, if_pos (by simp only [wordBytes]; omega), Nat.mul_comm n]
  · have hnone : (s.liveWords m)[n]? = none := by
      rw [List.getElem?_eq_none_iff, liveWords, Memory.length_load]
      exact Nat.not_lt.mp hn
    rw [hnone, if_neg (by simp only [wordBytes]; omega)]

end Segment

/-! ### Calls on domains -/

/-- The free words that a call asks for, if it asks for room. -/
def StackCall.required? : StackCall → Option Nat
  | push _ => some 1
  | pop => none
  | peek _ => none
  | ensureCapacity required => some required
  | maybeExpand => some (stackThresholdWords + nativeSlackWords)
  | tryRealloc required => some required

namespace Domain

def serve (d : Domain) : StackCall → Machine (StackAnswer × Domain)
  | .push x => do
    let (r, d) ← d.push x
    return (.ofExcept r, d)
  | .pop => do
    let (x?, d) ← d.pop
    return (.word x?, d)
  | .peek n => return (.word (d.peek? (← Machine.memory) n), d)
  | .ensureCapacity required => do
    let (r, d) ← d.ensureCapacity required
    return (.ofExcept r, d)
  | .maybeExpand => do
    let (r, d) ← d.maybeExpand
    return (.ofExcept r, d)
  | .tryRealloc required => do
    let (success, d) ← d.tryRealloc required
    return (.grown success, d)

def serveAll (d : Domain) : List StackCall → Machine (List StackAnswer × Domain)
  | [] => return ([], d)
  | call :: calls => do
    let (answer, d) ← d.serve call
    let (answers, d) ← d.serveAll calls
    return (answer :: answers, d)

/-- Wherever a call asks for room, what the segment would grow to is a number of bytes. -/
def AllFit : List StackCall → Domain → MachineState → Prop
  | [], _, _ => True
  | call :: calls, d, st =>
    (∀ required ∈ call.required?, d.Fits required) ∧
      ∀ answer d' st', d.serve call st = .ok (answer, d') st' → AllFit calls d' st'

section

variable {d d' : Domain} {st st' : MachineState} {required : Nat}

theorem maxWords_setCurrent (d : Domain) (s : Segment) : (d.setCurrent s).maxWords = d.maxWords :=
  rfl

theorem maxWords_of_ensureCapacity {r : Except StackError Unit}
    (hrun : d.ensureCapacity required st = .ok (r, d') st') : d'.maxWords = d.maxWords := by
  unfold ensureCapacity at hrun
  split at hrun
  · cases hrun
    rfl
  · obtain ⟨⟨success, d₁⟩, st₁, hgrow, hpure⟩ := Run.bind_eq_ok_iff.mp hrun
    cases success <;> (cases hpure; exact maxWords_of_tryRealloc hgrow)

theorem maxWords_of_push {x : Word} {r : Except StackError Unit}
    (hrun : d.push x st = .ok (r, d') st') : d'.maxWords = d.maxWords := by
  unfold push at hrun
  obtain ⟨⟨ensured, d₁⟩, st₁, hensure, hrun⟩ := Run.bind_eq_ok_iff.mp hrun
  have hmax := maxWords_of_ensureCapacity hensure
  cases ensured with
  | error e =>
      cases hrun
      exact hmax
  | ok u =>
      cases hrunning : d₁.running with
      | nil =>
          simp only [hrunning] at hrun
          cases hrun
          exact hmax
      | cons s outer =>
          simp only [hrunning] at hrun
          obtain ⟨m, st₂, -, hrun⟩ := Run.bind_eq_ok_iff.mp hrun
          cases hpush : s.push m x with
          | error e =>
              simp only [hpush] at hrun
              cases hrun
              exact hmax
          | ok pushed =>
              simp only [hpush] at hrun
              cases hrun
              exact (maxWords_setCurrent d₁ _).trans hmax

theorem maxWords_of_pop {x? : Option Word} (hrun : d.pop st = .ok (x?, d') st') :
    d'.maxWords = d.maxWords := by
  unfold pop at hrun
  cases hcurrent : d.current? with
  | none =>
      simp only [hcurrent] at hrun
      cases hrun
      rfl
  | some s =>
      simp only [hcurrent] at hrun
      obtain ⟨m, st₁, -, hrun⟩ := Run.bind_eq_ok_iff.mp hrun
      cases hpop : s.pop? m with
      | none =>
          simp only [hpop] at hrun
          cases hrun
          rfl
      | some popped =>
          simp only [hpop] at hrun
          cases hrun
          exact maxWords_setCurrent d _

/-- No call changes the maximum. -/
theorem maxWords_of_serve {call : StackCall} {answer : StackAnswer}
    (hrun : d.serve call st = .ok (answer, d') st') : d'.maxWords = d.maxWords := by
  cases call with
  | push x =>
      obtain ⟨⟨r, d₁⟩, st₁, hpush, hpure⟩ := Run.bind_eq_ok_iff.mp hrun
      cases hpure
      exact maxWords_of_push hpush
  | pop =>
      obtain ⟨⟨x?, d₁⟩, st₁, hpop, hpure⟩ := Run.bind_eq_ok_iff.mp hrun
      cases hpure
      exact maxWords_of_pop hpop
  | peek n =>
      obtain ⟨m, st₁, -, hpure⟩ := Run.bind_eq_ok_iff.mp hrun
      cases hpure
      rfl
  | ensureCapacity required =>
      obtain ⟨⟨r, d₁⟩, st₁, hensure, hpure⟩ := Run.bind_eq_ok_iff.mp hrun
      cases hpure
      exact maxWords_of_ensureCapacity hensure
  | maybeExpand =>
      obtain ⟨⟨r, d₁⟩, st₁, hensure, hpure⟩ := Run.bind_eq_ok_iff.mp hrun
      cases hpure
      exact maxWords_of_ensureCapacity hensure
  | tryRealloc required =>
      obtain ⟨⟨success, d₁⟩, st₁, hgrow, hpure⟩ := Run.bind_eq_ok_iff.mp hrun
      cases hpure
      exact maxWords_of_tryRealloc hgrow

/-- All calls fit if twice the maximum is a number of bytes. -/
theorem allFit_of_maxWords (hmax : d.maxWords * 2 * wordBytes ≤ Size.limit)
    (calls : List StackCall) (st : MachineState) : AllFit calls d st := by
  induction calls generalizing d st with
  | nil => exact trivial
  | cons call calls ih =>
      refine ⟨fun required _ => fits_of_maxWords hmax required, fun answer d' st' hrun => ?_⟩
      exact ih (maxWords_of_serve hrun ▸ hmax) st'

end

/-- The live words of the running segment, innermost first. -/
def contents (d : Domain) (m : Memory) : List Word :=
  (d.current?.map fun s => s.liveWords m).getD []

/-- No register and no native call points into the running segment, and its body is not empty. -/
structure Plain (d : Domain) : Prop where
  exnHandler : d.exnHandler = 0
  framePointers : d.framePointers = false
  links : d.links = []
  runs : ∃ s outer, d.running = s :: outer ∧ 0 < s.bodyWords

theorem contents_of_cons {d : Domain} {s : Segment} {outer : Chain} (h : d.running = s :: outer)
    (m : Memory) : d.contents m = s.liveWords m := by
  rw [contents, current?, h]
  rfl

theorem availableWords_of_cons {d : Domain} {s : Segment} {outer : Chain}
    (h : d.running = s :: outer) : d.availableWords = s.availableWords := by
  rw [availableWords, current?, h]
  rfl

/-- A plain domain is plain after its running segment has moved, and has the same contents. -/
theorem Plain.of_moveTo {d d' : Domain} {old new : Segment} {outer : Chain}
    {st st' : MachineState} (h : d.Plain) (hrunning : d.running = old :: outer) (hold : old.Formed)
    (hnew : new.Formed) (hbody : 0 < new.bodyWords) (hexn : old.contains d.exnHandler = false)
    (hapart : new.Apart old) (hmove : d.moveTo old outer new st = .ok d' st') :
    d'.Plain ∧ d'.running = Segment.filled old new :: outer ∧
      d'.contents st'.memory = d.contents st.memory := by
  obtain ⟨-, hmoved, hlinks, hd'⟩ :=
    moved_of_moveTo h.framePointers hexn hold hnew hapart hmove
  have hrunning' : d'.running = Segment.filled old new :: outer := by rw [hd']
  rw [h.links, List.mapM_nil] at hlinks
  refine ⟨⟨?_, ?_, (Except.ok.inj hlinks).symm, _, _, hrunning', hbody⟩, hrunning', ?_⟩
  · rw [hd']
    exact h.exnHandler
  · rw [hd']
    exact h.framePointers
  · rw [contents_of_cons hrunning', hmoved.liveWords, contents_of_cons hrunning]

end Domain

namespace Holdings

variable {w w' : Holdings} {i required words : Nat} {d d' : Domain} {l : List Word} {s : Segment}
  {outer : Chain} {x : Word}

/-- The domain serves calls with the list as its contents. -/
structure Serves (w : Holdings) (i : Nat) (d : Domain) (l : List Word) : Prop where
  reached : Reached w
  present : w.domains[i]? = some d
  plain : d.Plain
  contents : d.contents w.machine.memory = l

/-- The running segment of a plain domain is formed and tagged, and no register points into it. -/
theorem Serves.current (h : Serves w i d l) (hrunning : d.running = s :: outer) :
    s ∈ w.held ∧ s.Formed ∧ s.magic = segmentMagic ∧ s.contains d.exnHandler = false := by
  obtain ⟨haccounted, -⟩ := h.reached.stocked
  have hheld : s ∈ w.held := mem_held_of_running h.present (by simp [hrunning])
  have heverything : s ∈ w.everything := List.mem_append_left _ (List.mem_append_left _ hheld)
  refine ⟨hheld, haccounted.formed_of_held hheld, haccounted.tagged s heverything, ?_⟩
  have hlow := haccounted.low s heverything
  rw [h.plain.exnHandler, Segment.contains, decide_eq_false (by omega), Bool.false_and]

/-- Growth of a plain domain has nothing to relocate, so it succeeds or is refused. -/
theorem Serves.exists_tryRealloc (h : Serves w i d l) (hfits : d.Fits required) :
    ∃ success d' st', d.tryRealloc required w.machine = .ok (success, d') st' := by
  obtain ⟨-, hpointers, hlinks, s, outer, hrunning, hbody⟩ := h.plain
  obtain ⟨-, hformed, htagged, houtside⟩ := h.current hrunning
  refine Domain.exists_tryRealloc hrunning hformed htagged hbody (fun _ => hfits) ?_
  intro words hs id journal new d₁ st₁ _ hused halloc
  have hlarge : words * wordBytes ≤ new.high - new.base :=
    h.reached.words_le (List.mem_of_getElem? h.present) halloc
  refine ⟨(Nat.mul_le_mul_right _ hused).trans hlarge, ?_⟩
  rw [(Domain.obtains_of_allocNoExc halloc).eq]
  exact Domain.exists_relocated houtside hpointers hlinks _

theorem Serves.respects_tryRealloc (h : Serves w i d l) (w' : Holdings) :
    w.Respects w' (.tryRealloc i required) := by
  intro d₀ hd₀ hp
  cases h.present.symm.trans hd₀
  exact absurd (h.plain.framePointers.symm.trans hp) Bool.false_ne_true

/-- Growth leaves the list as it is, and makes the room that was asked for if it succeeds. -/
theorem Serves.tryRealloc (h : Serves w i d l) (hfits : d.Fits required) :
    ∃ success d' st' w', d.tryRealloc required w.machine = .ok (success, d') st' ∧
      (success = true → required ≤ d'.availableWords) ∧ w'.machine = st' ∧ Serves w' i d' l := by
  obtain ⟨hexn, hpointers, hlinks, s, outer, hrunning, hbody⟩ := h.plain
  obtain ⟨-, hformed, -, houtside⟩ := h.current hrunning
  obtain ⟨success, d', st', hrun⟩ := h.exists_tryRealloc hfits
  rcases Domain.tryRealloc_cases hrun with ⟨rfl, stats, journal, rfl, rfl⟩ | ⟨old, chain, needed,
    words, new, d₁, journal, st₁, rfl, hchain, hneeded, hfind, halloc, hmove⟩
  · exact ⟨false, _, _, w.put i _ _, hrun, by simp, rfl,
      h.reached.step (.growFailed h.present hrun) (h.respects_tryRealloc _),
      getElem?_put h.present _ _,
      ⟨hexn, hpointers, hlinks, s, outer, hrunning, hbody⟩, h.contents⟩
  · cases hrunning.symm.trans hchain
    have hlarge := h.reached.words_le (List.mem_of_getElem? h.present) halloc
    obtain ⟨hobtained, hpool, hseparate⟩ := Domain.allocated_of_allocNoExc
      (by exact h.reached.stocked.1.kept_apart h.present) halloc
    have hapart : new.Apart s := (List.pairwise_cons.mp hseparate.apart).1 s
      (List.mem_append_left _ (by simp [hrunning]))
    obtain ⟨k, hdoubled, hroom⟩ := GrowthTarget.exists_of_find hfind
    -- The new body has the doubled size at least, so it is not empty and has the room.
    have hbody' : 0 < new.bodyWords := by
      have hwords : 0 < words := hdoubled ▸ Nat.mul_pos hbody (Nat.two_pow_pos _)
      refine Nat.div_pos ?_ (by decide)
      simp only [wordBytes] at hlarge ⊢
      omega
    have hplain₁ : d₁.Plain := by
      rw [hpool]
      exact ⟨hexn, hpointers, hlinks, s, outer, hrunning, hbody⟩
    have hrunning₁ : d₁.running = s :: outer := by
      rw [hpool]
      exact hrunning
    obtain ⟨hplain', hrunning', hcontents⟩ := hplain₁.of_moveTo hrunning₁ hformed
      hobtained.formed hbody' (by rw [hpool]; exact houtside) hapart hmove
    refine ⟨true, d', st', ({ w with
        released := w.released ++ d.pool.refused (d.running.take 1) }.put i d' st'),
      hrun, fun _ => ?_, rfl,
      h.reached.step (.grow h.present hrun) (h.respects_tryRealloc _),
      getElem?_put (w := { w with
        released := w.released ++ d.pool.refused (d.running.take 1) }) h.present _ _,
      hplain', ?_⟩
    · rw [Domain.availableWords_of_cons hrunning', Segment.availableWords,
        Nat.le_div_iff_mul_le (by decide)]
      have hsum := Size.eq_of_add?_eq_some hneeded
      simp only [Segment.filled, wordBytes] at hlarge ⊢
      omega
    · change d'.contents st'.memory = l
      rw [hcontents, Domain.contents_of_cons hrunning₁, ← h.contents,
        Domain.contents_of_cons hrunning]
      refine hformed.liveWords_congr fun a ha => ?_
      exact hobtained.read_of_apart hapart ha

/-- Room for more words leaves the list as it is. -/
theorem Serves.ensureCapacity (h : Serves w i d l) (hfits : d.Fits required) :
    ∃ r d' st' w', d.ensureCapacity required w.machine = .ok (r, d') st' ∧
      (r = .ok () ∧ required ≤ d'.availableWords ∨
        r = .error (.stackOverflow required d.maxWords)) ∧
      w'.machine = st' ∧ Serves w' i d' l := by
  unfold Domain.ensureCapacity
  split
  · rename_i hroom
    exact ⟨_, _, _, w, rfl, .inl ⟨rfl, hroom⟩, rfl, h⟩
  · obtain ⟨success, d', st', w', hrun, hroom, hmachine, hserves⟩ := h.tryRealloc hfits
    have hmax := Domain.maxWords_of_tryRealloc hrun
    rw [Run.bind_of_ok hrun]
    cases success with
    | true => exact ⟨_, _, _, w', rfl, .inl ⟨rfl, hroom rfl⟩, hmachine, hserves⟩
    | false => exact ⟨_, _, _, w', rfl, .inr (by rw [hmax]), hmachine, hserves⟩

/-- The running segment works, and memory changes on it. -/
theorem Serves.work {sp : Nat} {m : Memory} (h : Serves w i d l) (hrunning : d.running = s :: outer)
    (hformed : ({ s with sp } : Segment).Formed) (hm : s.Confines w.machine.memory m) :
    ∃ w', w'.machine = { w.machine with memory := m } ∧
      Serves w' i (d.setCurrent { s with sp }) (({ s with sp } : Segment).liveWords m) := by
  obtain ⟨hexn, hpointers, hlinks, s', outer', hrunning', hbody⟩ := h.plain
  cases hrunning.symm.trans hrunning'
  obtain ⟨haccounted, -⟩ := h.reached.stocked
  obtain ⟨hheld, -⟩ := h.current hrunning
  have hspared := haccounted.spared hheld rfl hm
  have hset : (d.setCurrent { s with sp }).running = { s with sp } :: outer := by
    rw [Domain.setCurrent, hrunning]
    rfl
  have hworked : Reached (w.put i (d.setCurrent { s with sp }) w.machine) :=
    h.reached.step (.work h.present hrunning hformed) trivial
  have hpooled : (w.put i (d.setCurrent { s with sp }) w.machine).pooled = w.pooled :=
    congrArg List.flatten (map_put h.present rfl)
  have hwritten := hworked.step (.elsewhere (w.machine.proceeds_memory m w.machine.journal))
    (by rw [Respects, hpooled]; exact hspared)
  exact ⟨_, rfl, hwritten, getElem?_put h.present _ w.machine,
    ⟨hexn, hpointers, hlinks, _, _, hset, hbody⟩, Domain.contents_of_cons hset m⟩

theorem Serves.push (h : Serves w i d l) (hfits : d.Fits 1) :
    ∃ r d' st' w' l', d.push x w.machine = .ok (r, d') st' ∧
      StackCall.OnList d.maxWords l (.push x) (.ofExcept r) l' ∧ w'.machine = st' ∧
      Serves w' i d' l' := by
  obtain ⟨r, d₁, st₁, w₁, hensure, hroom, rfl, hserves⟩ := h.ensureCapacity hfits
  unfold Domain.push
  rw [Run.bind_of_ok hensure]
  rcases hroom with ⟨rfl, hroom⟩ | rfl
  · obtain ⟨-, -, -, s, outer, hrunning, -⟩ := hserves.plain
    obtain ⟨-, hformed, -, -⟩ := hserves.current hrunning
    rw [Domain.availableWords_of_cons hrunning, Segment.availableWords,
      Nat.le_div_iff_mul_le (by decide), Nat.one_mul] at hroom
    obtain ⟨sp, hpush, hdeeper, hwritten, hwords⟩ :=
      Segment.push_run hformed hroom w₁.machine.memory x
    obtain ⟨w', hmachine, hworked⟩ := hserves.work hrunning hdeeper hwritten
    rw [hwords, ← Domain.contents_of_cons hrunning, hserves.contents] at hworked
    refine ⟨.ok (), d₁.setCurrent { s with sp }, _, w', x :: l, ?_, .pushed, hmachine, hworked⟩
    simp only [hrunning]
    rw [Run.bind_of_ok (Machine.memory_run _), hpush]
    rfl
  · exact ⟨_, _, _, w₁, l, rfl, .overflowed, rfl, hserves⟩

theorem Serves.pop (h : Serves w i d l) :
    ∃ d' w', d.pop w.machine = .ok (l.head?, d') w'.machine ∧ Serves w' i d' l.tail := by
  obtain ⟨-, -, -, s, outer, hrunning, -⟩ := h.plain
  obtain ⟨-, hformed, -, -⟩ := h.current hrunning
  have hcurrent : d.current? = some s := by rw [Domain.current?, hrunning, List.head?_cons]
  have hwords := (Domain.contents_of_cons hrunning w.machine.memory).symm.trans h.contents
  unfold Domain.pop
  simp only [hcurrent]
  rw [Run.bind_of_ok (Machine.memory_run _)]
  rcases Segment.pop?_run hformed w.machine.memory with
    ⟨hnone, hpop⟩ | ⟨sp, x, hpop, hpopped, hcons⟩
  · obtain rfl : l = [] := hwords.symm.trans hnone
    rw [hpop]
    exact ⟨_, w, rfl, h⟩
  · obtain rfl : l = _ := hwords.symm.trans hcons
    obtain ⟨w', hmachine, hworked⟩ := h.work hrunning hpopped fun _ _ => rfl
    rw [hpop]
    refine ⟨d.setCurrent { s with sp }, w', ?_, hworked⟩
    rw [hmachine]
    rfl

theorem Serves.peek (h : Serves w i d l) (n : Nat) : d.peek? w.machine.memory n = l[n]? := by
  obtain ⟨-, -, -, s, outer, hrunning, -⟩ := h.plain
  obtain ⟨-, hformed, -, -⟩ := h.current hrunning
  have hcurrent : d.current? = some s := by rw [Domain.current?, hrunning, List.head?_cons]
  rw [← h.contents, Domain.contents_of_cons hrunning, ← Segment.peek?_eq hformed, Domain.peek?,
    hcurrent, Option.bind_eq_bind, Option.bind_some]

/-- Each call is answered as the list answers it. -/
theorem Serves.serve {call : StackCall} (h : Serves w i d l)
    (hfits : ∀ required ∈ call.required?, d.Fits required) :
    ∃ answer d' w' l', d.serve call w.machine = .ok (answer, d') w'.machine ∧
      call.OnList d.maxWords l answer l' ∧ Serves w' i d' l' := by
  cases call with
  | push x =>
      obtain ⟨r, d', _, w', l', hrun, hlist, rfl, hserves⟩ := h.push (hfits _ rfl)
      simp only [Domain.serve]
      rw [Run.bind_of_ok hrun]
      exact ⟨_, d', w', l', rfl, hlist, hserves⟩
  | pop =>
      obtain ⟨d', w', hrun, hserves⟩ := h.pop
      simp only [Domain.serve]
      rw [Run.bind_of_ok hrun]
      exact ⟨_, d', w', _, rfl, .popped, hserves⟩
  | peek n =>
      refine ⟨.word l[n]?, d, w, l, ?_, .peeked, h⟩
      rw [← h.peek n]
      rfl
  | ensureCapacity required =>
      obtain ⟨r, d', _, w', hrun, hroom, rfl, hserves⟩ := h.ensureCapacity (hfits _ rfl)
      simp only [Domain.serve]
      rw [Run.bind_of_ok hrun]
      rcases hroom with ⟨rfl, -⟩ | rfl
      · exact ⟨_, d', w', l, rfl, .ensured, hserves⟩
      · exact ⟨_, d', w', l, rfl, .refused, hserves⟩
  | maybeExpand =>
      obtain ⟨r, d', _, w', hrun, hroom, rfl, hserves⟩ := h.ensureCapacity (hfits _ rfl)
      simp only [Domain.serve, Domain.maybeExpand]
      rw [Run.bind_of_ok hrun]
      rcases hroom with ⟨rfl, -⟩ | rfl
      · exact ⟨_, d', w', l, rfl, .expanded, hserves⟩
      · exact ⟨_, d', w', l, rfl, .limited, hserves⟩
  | tryRealloc required =>
      obtain ⟨success, d', _, w', hrun, -, rfl, hserves⟩ := h.tryRealloc (hfits _ rfl)
      simp only [Domain.serve]
      rw [Run.bind_of_ok hrun]
      exact ⟨_, d', w', l, rfl, .grown, hserves⟩

theorem Serves.serveAll {calls : List StackCall} (h : Serves w i d l)
    (hfits : Domain.AllFit calls d w.machine) :
    ∃ answers d' w' l', d.serveAll calls w.machine = .ok (answers, d') w'.machine ∧
      StackCall.AllOnList d.maxWords l calls answers l' ∧ Serves w' i d' l' := by
  induction calls generalizing w d l with
  | nil => exact ⟨[], d, w, l, rfl, .nil, h⟩
  | cons call calls ih =>
      obtain ⟨hcall, hcalls⟩ := hfits
      obtain ⟨answer, d₁, w₁, l₁, hrun, hlist, hserves⟩ := h.serve hcall
      have hmax := Domain.maxWords_of_serve hrun
      obtain ⟨answers, d', w', l', hrest, hlists, hend⟩ := ih hserves (hcalls _ _ _ hrun)
      refine ⟨answer :: answers, d', w', l', ?_, .cons hlist (hmax ▸ hlists), hend⟩
      unfold Domain.serveAll
      rw [Run.bind_of_ok hrun]
      simp only
      rw [Run.bind_of_ok hrest]
      rfl

/-- A domain that pushes, pops and asks for room refines a list. It answers every call as the list
does, and counts the elements. -/
theorem list_of_serveAll {calls : List StackCall} (hreached : Reached w)
    (hd : w.domains[i]? = some d) (hplain : d.Plain) (hfits : Domain.AllFit calls d w.machine) :
    ∃ answers d' st', d.serveAll calls w.machine = .ok (answers, d') st' ∧
      StackCall.AllOnList d.maxWords (d.contents w.machine.memory) calls answers
        (d'.contents st'.memory) ∧
      d'.usedWords = (d'.contents st'.memory).length := by
  obtain ⟨answers, d', w', l', hrun, hlists, hserves⟩ :=
    Serves.serveAll ⟨hreached, hd, hplain, rfl⟩ hfits
  refine ⟨answers, d', w'.machine, hrun, hserves.contents ▸ hlists, ?_⟩
  obtain ⟨-, -, -, s, outer, hrunning, -⟩ := hserves.plain
  rw [Domain.contents_of_cons hrunning, Segment.liveWords, Memory.length_load, Domain.usedWords,
    Domain.current?, hrunning]
  rfl

/-! ### A fiber that outgrows its segment -/

namespace Outgrown

def calls : List StackCall :=
  [.push 5, .ensureCapacity 100, .push 7, .peek 1, .pop, .pop, .pop]

def answers : List StackAnswer :=
  [.done, .done, .done, .word (some 5), .word (some 7), .word (some 5), .word none]

theorem runs : ∃ d₀ st₀ d₁ st₁ s d₂ st₂ d₃ st₃ d₄ st₄,
    Domain.create Settings.standard MachineState.initial = .ok d₀ st₀ ∧
      d₀.startMain st₀ = .ok (.ok (), d₁) st₁ ∧ d₁.alloc .unit st₁ = .ok (.ok s, d₂) st₂ ∧
      d₂.runFiber s st₂ = .ok d₃ st₃ ∧ d₃.serveAll calls st₃ = .ok (answers, d₄) st₄ ∧
      d₃.Plain ∧ d₃.maxWords * 2 * wordBytes ≤ Size.limit := by
  have h : Run.answers (Domain.create Settings.standard) .initial (fun d₀ st₀ =>
      Run.succeeds d₀.startMain st₀ fun _ d₁ st₁ =>
      Run.succeeds (d₁.alloc .unit) st₁ fun s d₂ st₂ =>
      Run.answers (d₂.runFiber s) st₂ fun d₃ st₃ =>
      Run.answers (d₃.serveAll calls) st₃ fun r _ =>
        decide (r.1 = answers ∧ d₃.exnHandler = 0 ∧ d₃.framePointers = false ∧ d₃.links = [] ∧
          0 < s.bodyWords ∧ d₃.maxWords * 2 * wordBytes ≤ Size.limit)) = true := by
    decide +kernel
  obtain ⟨d₀, st₀, hcreate, h⟩ := Run.exists_of_answers h
  obtain ⟨_, d₁, st₁, hstart, h⟩ := Run.exists_of_succeeds h
  obtain ⟨s, d₂, st₂, halloc, h⟩ := Run.exists_of_succeeds h
  obtain ⟨d₃, st₃, hrun, h⟩ := Run.exists_of_answers h
  obtain ⟨⟨given, d₄⟩, st₄, hserve, h⟩ := Run.exists_of_answers h
  obtain ⟨rfl, hexn, hpointers, hlinks, hbody, hmax⟩ := of_decide_eq_true h
  obtain ⟨rfl, -⟩ := Domain.runFiber_eq_ok hrun
  exact ⟨d₀, st₀, d₁, st₁, s, d₂, st₂, _, st₃, d₄, st₄, hcreate, hstart, halloc, hrun, hserve,
    ⟨hexn, hpointers, hlinks, s, _, rfl, hbody⟩, hmax⟩

/-- The list of the fiber survives the growth between two pushes. -/
theorem list_of_outgrown : ∃ w d d' st', Reached w ∧ w.domains[0]? = some d ∧ d.Plain ∧
    Domain.AllFit calls d w.machine ∧ d.serveAll calls w.machine = .ok (answers, d') st' ∧
    StackCall.AllOnList d.maxWords (d.contents w.machine.memory) calls answers
      (d'.contents st'.memory) := by
  obtain ⟨d₀, st₀, d₁, st₁, s, d₂, st₂, d₃, st₃, d₄, st₄, hcreate, hstart, halloc, hrun, hserve,
    hplain, hmax⟩ := runs
  have hcreated := (Reached.start .ascending).step (.createDomain hcreate) trivial
  have hstarted := hcreated.step (.startMain (i := 0) rfl hstart) trivial
  have hallocated := hstarted.step (.alloc (i := 0) rfl halloc) trivial
  have hran := hallocated.step (.runFiber (i := 0) (j := 0) rfl rfl hrun) trivial
  have hserves : Serves _ 0 d₃ _ := ⟨hran, rfl, hplain, rfl⟩
  have hfits := Domain.allFit_of_maxWords hmax calls st₃
  obtain ⟨given, d', st', hserved, hlists, -⟩ :=
    list_of_serveAll hran hserves.present hplain hfits
  cases hserved.symm.trans hserve
  exact ⟨_, d₃, _, _, hran, hserves.present, hplain, hfits, hserve, hlists⟩

end Outgrown

/-! ### A segment that is shorter than its class

A segment of 32 words that was built by hand with the class of 128 words is on the list of that
class. A main stack of 64 words that is full takes it to grow. -/

namespace Undersized

def settings : Settings :=
  { Settings.standard with fiberWords := 32, mainWords := 64, maxWords := 1000, wipe := false }

def calls : List StackCall := List.replicate 65 (.push 5)

/-- The domain fits all conditions on the calls, but the last push finds no room for the words of
the stack in the segment that it takes. -/
theorem no_list_of_undersized : ∃ d₀ st₀ s m space d₁ st₁ d st st',
    Domain.create settings MachineState.initial = .ok d₀ st₀ ∧
      Segment.allocate st₀.memory st₀.space .guarded 32 (some 2) d₀.id .unit ⟨1⟩ =
        .ok (.ok (s, m, space)) ∧
      d₀.free [s] { st₀ with memory := m, space } = .ok d₁ st₁ ∧
      d₁.startMain st₁ = .ok (.ok (), d) st ∧
      d.Plain ∧ Domain.AllFit calls d st ∧
      d.serveAll calls st = .error (.fault .liveWordsExceedBody) st' := by
  have h : Run.answers (Domain.create settings) .initial (fun d₀ st₀ =>
      match Segment.allocate st₀.memory st₀.space .guarded 32 (some 2) d₀.id .unit ⟨1⟩ with
      | .ok (.ok (s, m, space)) =>
        Run.answers (d₀.free [s]) { st₀ with memory := m, space } fun d₁ st₁ =>
        Run.succeeds d₁.startMain st₁ fun _ d st =>
          decide (Run.cause? (d.serveAll calls) st = some (.fault .liveWordsExceedBody) ∧
            d.exnHandler = 0 ∧ d.framePointers = false ∧ d.links = [] ∧
            d.running.map (fun t => t.bodyWords) = [64] ∧
            d.maxWords * 2 * wordBytes ≤ Size.limit)
      | _ => false) = true := by
    decide +kernel
  obtain ⟨d₀, st₀, hcreate, h⟩ := Run.exists_of_answers h
  split at h
  · rename_i s m space hallocate
    obtain ⟨d₁, st₁, hfree, h⟩ := Run.exists_of_answers h
    obtain ⟨_, d, st, hstart, h⟩ := Run.exists_of_succeeds h
    obtain ⟨hcause, hexn, hpointers, hlinks, hwords, hmax⟩ := of_decide_eq_true h
    obtain ⟨st', hfault⟩ := Run.exists_of_cause? hcause
    obtain ⟨t, hrunning, hbody⟩ := List.map_eq_singleton_iff.mp hwords
    exact ⟨d₀, st₀, s, m, space, d₁, st₁, d, st, st', hcreate, hallocate, hfree, hstart,
      ⟨hexn, hpointers, hlinks, t, [], hrunning, by omega⟩, Domain.allFit_of_maxWords hmax calls st,
      hfault⟩
  · cases h

end Undersized

end Holdings

end FiberStacks
