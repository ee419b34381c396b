import FiberStacks.Proofs.Growth.Limit
import FiberStacks.Proofs.Growth.Recovery
import FiberStacks.Proofs.Holdings.WordStack
import Mathlib.Order.Bounds.Defs

/-!
# Exactly when a stack grows

A body is doubled at least once, and then as often as it takes to have the room. If the size before
the last doubling is below the maximum, it is up to memory whether the stack grows. A stack that
does not grow stays as it was, and so does one that has no room for a word that is pushed.
-/

namespace FiberStacks

namespace GrowthTarget

variable {size max needed k : Nat}

/-- The numbers of doublings, at least one, after which there is room for `needed` words. -/
def Suffices (size needed : Nat) : Set Nat := {k | 1 ≤ k ∧ needed ≤ size * 2 ^ k}

theorem exists_isLeast_suffices (hsize : 0 < size) (needed : Nat) :
    ∃ k, IsLeast (Suffices size needed) k := by
  have hroom : ∃ k, 1 ≤ k ∧ needed ≤ size * 2 ^ k := by
    refine ⟨needed + 1, Nat.le_add_left 1 needed, ?_⟩
    calc needed ≤ 2 ^ (needed + 1) := Nat.le_of_lt (Nat.lt_of_succ_lt Nat.lt_two_pow_self)
      _ ≤ size * 2 ^ (needed + 1) := Nat.le_mul_of_pos_left _ hsize
  exact ⟨Nat.find hroom, Nat.find_spec hroom, fun _ hk => Nat.find_min' hroom hk⟩

theorem isLeast_suffices (hroom : needed ≤ size * 2 ^ (k + 1))
    (hshort : ∀ j < k, size * 2 ^ (j + 1) < needed) :
    IsLeast (Suffices size needed) (k + 1) := by
  refine ⟨⟨Nat.le_add_left 1 k, hroom⟩, ?_⟩
  rintro i ⟨hpos, hi⟩
  obtain ⟨i, rfl⟩ := Nat.exists_eq_add_of_le' hpos
  by_contra hlt
  exact absurd hi (Nat.not_le.mpr (hshort i (by omega)))

/-- Each turn of the search takes one doubling off. -/
theorem find_of_first (hmax : size * 2 ^ k < max) (hlimit : size * 2 ^ (k + 1) < Size.limit)
    (hroom : needed ≤ size * 2 ^ (k + 1)) (hshort : ∀ j < k, size * 2 ^ (j + 1) < needed) :
    find size max needed = .words (size * 2 ^ (k + 1)) := by
  induction k generalizing size with
  | zero =>
      simp only [Nat.pow_zero, Nat.zero_add, Nat.pow_one, Nat.mul_one] at hmax hlimit hroom ⊢
      rw [find, dif_neg (Nat.not_le.mpr hmax), if_neg (Nat.not_le.mpr hlimit), if_pos hroom]
  | succ k ih =>
      have hdouble : ∀ j, size * 2 * 2 ^ j = size * 2 ^ (j + 1) := fun j => by
        rw [Nat.pow_succ', Nat.mul_assoc]
      have hfirst := hshort 0 (Nat.succ_pos k)
      have hbelow : size ≤ size * 2 ^ (k + 1) := Nat.le_mul_of_pos_right _ (Nat.two_pow_pos _)
      have htwice : size * 2 ≤ size * 2 ^ (k + 1 + 1) := by
        rw [← hdouble]
        exact Nat.le_mul_of_pos_right _ (Nat.two_pow_pos _)
      rw [find, dif_neg (by omega), if_neg (by omega), if_neg (by simpa using hfirst),
        dif_neg (by rintro rfl; omega), ← hdouble]
      refine ih ?_ ?_ ?_ fun j hj => ?_
      all_goals rw [hdouble]
      · exact hmax
      · exact hlimit
      · exact hroom
      · exact hshort (j + 1) (Nat.succ_lt_succ hj)

/-- The first size that suffices is found if the size before it is below the maximum. -/
theorem find_of_isLeast (hk : IsLeast (Suffices size needed) k) (hmax : size * 2 ^ (k - 1) < max)
    (hlimit : size * 2 ^ k < Size.limit) : find size max needed = .words (size * 2 ^ k) := by
  obtain ⟨⟨hpos, hroom⟩, hleast⟩ := hk
  obtain ⟨k, rfl⟩ := Nat.exists_eq_add_of_le' hpos
  refine find_of_first hmax hlimit hroom fun j hj => Nat.not_le.mp fun hle => ?_
  have hearlier := hleast ⟨Nat.le_add_left 1 j, hle⟩
  omega

/-- The size that is found is the first that suffices. -/
theorem isLeast_of_find {n : Nat} (hk : IsLeast (Suffices size needed) k)
    (h : find size max needed = .words n) : n = size * 2 ^ k ∧ size * 2 ^ (k - 1) < max := by
  obtain ⟨j, rfl, hroom, hmax, hshort⟩ := first_of_find h
  obtain rfl := hk.unique (isLeast_suffices hroom hshort)
  exact ⟨rfl, hmax⟩

end GrowthTarget

/-! ### Requests and the journal -/

theorem Pool.reuse?_of_journal {p : Pool} {k? : Option SizeClass} {st st' : MachineState}
    {r : Option Segment × Pool} (hrun : p.reuse? k? st = .ok r st') (journal : Journal) :
    ∃ journal', p.reuse? k? { st with journal } = .ok r { st' with journal := journal' } := by
  cases k? with
  | none =>
      cases hrun
      exact ⟨journal, rfl⟩
  | some k =>
      rcases htake : p.take k with ⟨_ | s, q⟩ <;>
        simp only [Pool.reuse?, Pool.reuse, htake] at hrun ⊢
      · cases hrun
        exact ⟨journal, rfl⟩
      · cases hrun
        exact ⟨_, rfl⟩

namespace Domain

variable {d d' : Domain} {old : Segment} {outer : Chain} {words required : Nat}
  {st st' : MachineState}

/-- What a request leads to does not depend on what has been logged. -/
theorem allocNoExc_of_journal {h : Handlers} {id : FiberId} {r : Option Segment × Domain}
    (hrun : d.allocNoExc words h id st = .ok r st') (journal : Journal) :
    ∃ journal', d.allocNoExc words h id { st with journal } =
      .ok r { st' with journal := journal' } := by
  unfold allocNoExc at hrun ⊢
  obtain ⟨⟨pooled, pool⟩, st₁, hreuse, hrun⟩ := Run.bind_eq_ok_iff.mp hrun
  obtain ⟨j₁, hreused⟩ := Pool.reuse?_of_journal hreuse journal
  simp only
  rw [Run.bind_of_ok hreused]
  cases pooled with
  | some s =>
      cases hrun
      exact ⟨j₁, rfl⟩
  | none =>
      simp only at hrun ⊢
      unfold allocFresh at hrun ⊢
      obtain ⟨m, st₂, hget, hrun⟩ := Run.bind_eq_ok_iff.mp hrun
      cases hget
      obtain ⟨result, st₂, hresult, hrun⟩ := Run.bind_eq_ok_iff.mp hrun
      obtain ⟨hallocate, rfl⟩ := Run.lift_eq_ok_iff.mp hresult
      have hget : (get : Machine MachineState) { st₁ with journal := j₁ } = .ok _ _ := rfl
      rw [Run.bind_of_ok hget, Run.bind_lift_of_ok hallocate]
      rcases result with e | ⟨s, m, space⟩
      · cases hrun
        exact ⟨_, rfl⟩
      · cases hrun
        exact ⟨_, rfl⟩

/-- Growth to a size that was found is refused only if there is no segment of that size. -/
theorem declined_of_tryRealloc {needed : Nat} (hrunning : d.running = old :: outer)
    (hneeded : Size.add? old.usedWords required = some needed)
    (hfind : GrowthTarget.find old.bodyWords d.maxWords needed = .words words)
    (hrun : d.tryRealloc required st = .ok (false, d') st') :
    ∃ journal d₁ st₁, d.allocNoExc words (old.handlers st.memory) old.id { st with journal } =
      .ok (none, d₁) st₁ := by
  unfold tryRealloc at hrun
  rw [hrunning] at hrun
  simp only [hneeded, hfind] at hrun
  obtain ⟨_, st₁, hlog, hrun⟩ := Run.bind_eq_ok_iff.mp hrun
  obtain ⟨journal, rfl⟩ := logGrowth_eq_ok hlog
  obtain ⟨m, st₂, hmemory, hrun⟩ := Run.bind_eq_ok_iff.mp hrun
  cases hmemory
  obtain ⟨⟨new?, d₁⟩, st₃, halloc, hrun⟩ := Run.bind_eq_ok_iff.mp hrun
  cases new? with
  | none => exact ⟨journal, d₁, st₃, halloc⟩
  | some new =>
      obtain ⟨d₂, st₄, -, hpure⟩ := Run.bind_eq_ok_iff.mp hrun
      cases hpure

theorem filled_of_tryRealloc (hrun : d.tryRealloc required st = .ok (true, d') st') :
    ∃ old outer new, d.running = old :: outer ∧ d'.running = Segment.filled old new :: outer ∧
      old.usedWords * wordBytes ≤ new.high - new.base := by
  rcases tryRealloc_cases hrun with ⟨hfalse, -⟩ | ⟨old, outer, _, _, new, _, _, _, -, hrunning, -,
    -, -, hmove⟩
  · cases hfalse
  · obtain ⟨_, _, _, _, _, hroom, -, -, -, -, rfl⟩ := moveTo_eq_ok hmove
    exact ⟨old, outer, new, hrunning, rfl, hroom⟩

end Domain

namespace Holdings

variable {w : Holdings} {d d' : Domain} {i k required : Nat} {s : Segment} {outer : Chain}
  {st : MachineState}

theorem Reached.contains_zero (h : Reached w) (hd : w.domains[i]? = some d) (hs : s ∈ d.running) :
    s.contains 0 = false := by
  have hheld := mem_held_of_running hd hs
  have hlow := h.stocked.1.low s (List.mem_append_left _ (List.mem_append_left _ hheld))
  rw [Segment.contains, decide_eq_false (by omega), Bool.false_and]

/-- No exception handler and no frame record has to follow a segment that grows, and native calls
left it at one of its addresses. -/
theorem Reached.growable (h : Reached w) (hd : w.domains[i]? = some d)
    (hrunning : d.running = s :: outer) (hbody : 0 < s.bodyWords) (hexn : d.exnHandler = 0)
    (hpointers : d.framePointers = false)
    (hlinks : ∀ link ∈ d.links, link.stackHigh = s.high → s.base ≤ link.sp ∧ link.sp ≤ s.high) :
    w.Growable d := by
  intro old chain hchain
  cases hrunning.symm.trans hchain
  have houtside : s.contains d.exnHandler = false := by
    rw [hexn]
    exact h.contains_zero hd (by simp [hrunning])
  refine ⟨hbody, [], ⟨⟨[], _, rfl, List.nodup_nil, nofun, houtside⟩, nofun, hlinks⟩, ?_⟩
  exact fun hp => absurd (hpointers.symm.trans hp) Bool.false_ne_true

/-- A stack that has grown has the room that was asked for. -/
theorem Reached.le_availableWords (h : Reached w) (hd : w.domains[i]? = some d)
    (hrun : d.tryRealloc required w.machine = .ok (true, d') st) :
    required ≤ d'.availableWords := by
  obtain ⟨s, outer, new, hrunning, hrunning', -, hfind⟩ := h.grown (List.mem_of_getElem? hd) hrun
  obtain ⟨s', outer', new', hsame, hfilled, hfits⟩ := Domain.filled_of_tryRealloc hrun
  cases hrunning.symm.trans hsame
  cases hrunning'.symm.trans hfilled
  obtain ⟨-, -, hroom⟩ := GrowthTarget.exists_of_find hfind
  rw [Domain.availableWords_of_cons hrunning', Segment.availableWords,
    Nat.le_div_iff_mul_le (by decide)]
  simp only [Segment.bodyWords, Segment.filled, wordBytes] at hroom hfits ⊢
  omega

/-- Where room is lacking and the stack does not grow, nothing changes that lasts. -/
theorem quiet_of_ensureCapacity {error : StackError}
    (hrun : d.ensureCapacity required w.machine = .ok (.error error, d') st) :
    d.Quiet w.machine d' st := by
  unfold Domain.ensureCapacity at hrun
  split at hrun
  · cases hrun
  · obtain ⟨⟨grown, d₁⟩, st₁, hgrow, hpure⟩ := Run.bind_eq_ok_iff.mp hrun
    rcases Domain.tryRealloc_cases hgrow with ⟨rfl, hquiet⟩ | ⟨_, _, _, _, _, _, _, _, rfl, -⟩
    · cases hpure
      exact hquiet
    · cases hpure

theorem Reached.le_of_ensureCapacity (h : Reached w) (hd : w.domains[i]? = some d)
    (hrun : d.ensureCapacity required w.machine = .ok (.ok (), d') st) :
    required ≤ d'.availableWords := by
  unfold Domain.ensureCapacity at hrun
  split at hrun
  · cases hrun
    assumption
  · obtain ⟨⟨grown, d₁⟩, st₁, hgrow, hpure⟩ := Run.bind_eq_ok_iff.mp hrun
    cases grown with
    | true =>
        cases hpure
        exact h.le_availableWords hd hgrow
    | false => cases hpure

/-- A word that cannot be pushed leaves nothing that lasts. The stack has not grown for it. -/
theorem Reached.quiet_of_push (h : Reached w) (hd : w.domains[i]? = some d) {x : Word}
    {error : StackError} (hrun : d.push x w.machine = .ok (.error error, d') st) :
    d.Quiet w.machine d' st := by
  unfold Domain.push at hrun
  obtain ⟨⟨_ | _, d₁⟩, st₁, hensure, hrun⟩ := Run.bind_eq_ok_iff.mp hrun
  · cases hrun
    exact quiet_of_ensureCapacity hensure
  · -- There is room for the word now.
    have hroom := h.le_of_ensureCapacity hd hensure
    simp only at hrun
    cases hrunning : d₁.running with
    | nil =>
        rw [Domain.availableWords, Domain.current?, hrunning] at hroom
        cases hroom
    | cons s outer =>
        rw [Domain.availableWords_of_cons hrunning, Segment.availableWords,
          Nat.le_div_iff_mul_le (by decide), Nat.one_mul] at hroom
        rw [hrunning] at hrun
        obtain ⟨m, st₂, hmemory, hrun⟩ := Run.bind_eq_ok_iff.mp hrun
        rw [Segment.push, if_neg (Nat.not_lt.mpr hroom)] at hrun
        cases hrun

/-- A segment of `words` words can be had for the fiber of `s`. -/
def Obtainable (w : Holdings) (d : Domain) (s : Segment) (words : Nat) : Prop :=
  ∃ new d' st, d.allocNoExc words (s.handlers w.machine.memory) s.id w.machine =
    .ok (some new, d') st

theorem Reached.lt_of_obtainable {words : Nat} (h : Reached w) (hd : w.domains[i]? = some d)
    (hwords : w.Obtainable d s words) : words < Size.limit := by
  obtain ⟨new, d', st, halloc⟩ := hwords
  have hsep := h.stocked.1.kept_apart hd
  have hroom := h.words_le (List.mem_of_getElem? hd) halloc
  have hhigh := (Domain.allocated_of_allocNoExc hsep halloc).obtained.formed.high_lt
  simp only [wordBytes] at hroom
  omega

/-- Growth that is refused could not get the first size that suffices. -/
theorem Reached.not_obtainable (h : Reached w) (hd : w.domains[i]? = some d)
    (hrunning : d.running = s :: outer)
    (hk : IsLeast (GrowthTarget.Suffices s.bodyWords (s.usedWords + required)) k)
    (hsum : s.usedWords + required < Size.limit) (hmax : s.bodyWords * 2 ^ (k - 1) < d.maxWords)
    (hrun : d.tryRealloc required w.machine = .ok (false, d') st) :
    ¬ w.Obtainable d s (s.bodyWords * 2 ^ k) := by
  intro hwords
  have hfind := GrowthTarget.find_of_isLeast hk hmax (h.lt_of_obtainable hd hwords)
  obtain ⟨journal, d₁, st₁, hdeclined⟩ :=
    Domain.declined_of_tryRealloc hrunning (if_pos hsum) hfind hrun
  obtain ⟨new, d₂, st₂, halloc⟩ := hwords
  obtain ⟨journal', halloc⟩ := Domain.allocNoExc_of_journal halloc journal
  cases hdeclined.symm.trans halloc

/-- Growth that succeeds has found the first size that suffices, and makes the room. -/
theorem Reached.exactly_of_grown (h : Reached w) (hd : w.domains[i]? = some d)
    (hrunning : d.running = s :: outer)
    (hk : IsLeast (GrowthTarget.Suffices s.bodyWords (s.usedWords + required)) k)
    (hrun : d.tryRealloc required w.machine = .ok (true, d') st) :
    s.usedWords + required < Size.limit ∧ s.bodyWords * 2 ^ (k - 1) < d.maxWords ∧
      w.Obtainable d s (s.bodyWords * 2 ^ k) ∧
      ∃ new, d'.running = new :: outer ∧ new.bodyWords = s.bodyWords * 2 ^ k ∧
        required ≤ d'.availableWords := by
  rcases Domain.tryRealloc_cases hrun with ⟨hfalse, -⟩ | ⟨old, chain, needed, words, _, _, journal,
    _, -, hchain, hneeded, hfind, halloc, -⟩
  · cases hfalse
  · cases hrunning.symm.trans hchain
    obtain ⟨hsum, rfl⟩ := Size.add?_eq_some_iff.mp hneeded
    obtain ⟨rfl, hmax⟩ := GrowthTarget.isLeast_of_find hk hfind
    obtain ⟨_, halloc⟩ := Domain.allocNoExc_of_journal halloc w.machine.journal
    obtain ⟨s', outer', new, hsame, hrunning', -, hsize⟩ :=
      h.grown (List.mem_of_getElem? hd) hrun
    cases hrunning.symm.trans hsame
    obtain ⟨hwords, -⟩ := GrowthTarget.isLeast_of_find hk hsize
    exact ⟨hsum, hmax, ⟨_, _, _, halloc⟩, new, hrunning', hwords, h.le_availableWords hd hrun⟩

/-- A running segment with words in its body grows exactly if what is needed is a size, the size
before the last doubling is below the maximum, and the doubled one can be had. Where the bytes of
that one are logged, they have to be a size. -/
theorem tryRealloc_exactly (hreached : Reached w) (hd : w.domains[i]? = some d)
    (hrunning : d.running = s :: outer) (hbody : 0 < s.bodyWords) (hexn : d.exnHandler = 0)
    (hpointers : d.framePointers = false)
    (hlinks : ∀ link ∈ d.links, link.stackHigh = s.high → s.base ≤ link.sp ∧ link.sp ≤ s.high)
    (required : Nat) :
    (∃ k, IsLeast (GrowthTarget.Suffices s.bodyWords (s.usedWords + required)) k ∧
      ((w.machine.journal.wouldLog .info = true → s.usedWords + required < Size.limit →
          s.bodyWords * 2 ^ (k - 1) < d.maxWords →
            s.bodyWords * 2 ^ k * wordBytes < Size.limit) →
        ∃ grown d' st, d.tryRealloc required w.machine = .ok (grown, d') st ∧
          (grown = true ↔ s.usedWords + required < Size.limit ∧
            s.bodyWords * 2 ^ (k - 1) < d.maxWords ∧
            w.Obtainable d s (s.bodyWords * 2 ^ k)) ∧
          (grown = true → ∃ new, d'.running = new :: outer ∧
            new.bodyWords = s.bodyWords * 2 ^ k ∧ required ≤ d'.availableWords))) ∧
    (∀ d' st, d.tryRealloc required w.machine = .ok (false, d') st →
      d.Quiet w.machine d' st) ∧
    (∀ error d' st, d.ensureCapacity required w.machine = .ok (.error error, d') st →
      d.Quiet w.machine d' st) ∧
    ∀ x error d' st, d.push x w.machine = .ok (.error error, d') st →
      d.Quiet w.machine d' st := by
  refine ⟨?_, fun d' st hrun => ?_, fun _ _ _ => quiet_of_ensureCapacity,
    fun _ _ _ _ => hreached.quiet_of_push hd⟩
  · obtain ⟨k, hk⟩ := GrowthTarget.exists_isLeast_suffices hbody (s.usedWords + required)
    refine ⟨k, hk, fun hbytes => ?_⟩
    have hgrowable := hreached.growable hd hrunning hbody hexn hpointers hlinks
    have hfits : w.machine.journal.wouldLog .info = true → d.Fits required := by
      intro hinfo old chain needed words hchain hneeded hfind
      cases hrunning.symm.trans hchain
      obtain ⟨hsum, rfl⟩ := Size.add?_eq_some_iff.mp hneeded
      obtain ⟨rfl, hmax⟩ := GrowthTarget.isLeast_of_find hk hfind
      exact hbytes hinfo hsum hmax
    obtain ⟨⟨grown, d'⟩, st, hrun⟩ :=
      (hreached.tryRealloc_answers_iff hd hgrowable required).mpr hfits
    refine ⟨grown, d', st, hrun, ?_⟩
    cases grown with
    | false =>
        refine ⟨iff_of_false Bool.false_ne_true ?_, nofun⟩
        rintro ⟨hsum, hmax, hwords⟩
        exact hreached.not_obtainable hd hrunning hk hsum hmax hrun hwords
    | true =>
        obtain ⟨hsum, hmax, hwords, hnew⟩ := hreached.exactly_of_grown hd hrunning hk hrun
        exact ⟨iff_of_true rfl ⟨hsum, hmax, hwords⟩, fun _ => hnew⟩
  · rcases Domain.tryRealloc_cases hrun with ⟨-, hquiet⟩ | ⟨_, _, _, _, _, _, _, _, htrue, -⟩
    · exact hquiet
    · cases htrue

/-! ### A request that is met and one that is not

A main stack of 32 words is left by a native call, while the maximum is 1000 words. It grows for 100
words, and it does not for 5000. -/

namespace MetAndRefused

def settings : Settings :=
  { Settings.standard with fiberWords := 32, mainWords := 32, maxWords := 1000 }

def link (s : Segment) : NativeLink := ⟨s.high, s.high - 16, 0⟩

theorem starts : ∃ d₀ st₀ d₁ st₁ s d₂ st₂,
    Domain.create settings MachineState.initial = .ok d₀ st₀ ∧
    d₀.startMain st₀ = .ok (.ok (), d₁) st₁ ∧ d₁.running = [s] ∧ s.bodyWords = 32 ∧
    s.usedWords = 0 ∧ s.base ≤ s.high - 16 ∧ d₁.exnHandler = 0 ∧ d₁.framePointers = false ∧
    d₁.links = [] ∧ d₁.maxWords = 1000 ∧
    (d₁.pushLink (link s)).tryRealloc 100 st₁ = .ok (true, d₂) st₂ := by
  have h : Run.answers (Domain.create settings) .initial (fun d₀ st₀ =>
      Run.succeeds d₀.startMain st₀ fun _ d₁ st₁ => d₁.running.any fun s =>
        decide (d₁.running = [s] ∧ s.bodyWords = 32 ∧ s.usedWords = 0 ∧ s.base ≤ s.high - 16 ∧
          d₁.exnHandler = 0 ∧ d₁.framePointers = false ∧ d₁.links = [] ∧ d₁.maxWords = 1000) &&
        Run.answers ((d₁.pushLink (link s)).tryRealloc 100) st₁ fun r _ => r.1) = true := by
    decide +kernel
  obtain ⟨d₀, st₀, hcreate, h⟩ := Run.exists_of_answers h
  obtain ⟨_, d₁, st₁, hstart, h⟩ := Run.exists_of_succeeds h
  obtain ⟨s, -, h⟩ := List.any_eq_true.mp h
  obtain ⟨hstarted, h⟩ := (Bool.and_eq_true _ _).mp h
  obtain ⟨hrunning, hbody, hused, hbase, hexn, hpointers, hlinks, hmax⟩ :=
    of_decide_eq_true hstarted
  obtain ⟨⟨_, d₂⟩, st₂, hgrow, rfl⟩ := Run.exists_of_answers h
  exact ⟨d₀, st₀, d₁, st₁, s, d₂, st₂, hcreate, hstart, hrunning, hbody, hused, hbase, hexn,
    hpointers, hlinks, hmax, hgrow⟩

/-- Two doublings make room for 100 words. Eight would for 5000, and seven lead beyond the
maximum. -/
theorem grows_and_stays : ∃ w d s, Reached w ∧ w.domains[0]? = some d ∧ d.running = [s] ∧
    d.links = [link s] ∧ s.bodyWords = 32 ∧ d.maxWords = 1000 ∧
    (∃ d' st new, d.tryRealloc 100 w.machine = .ok (true, d') st ∧ d'.running = [new] ∧
      new.bodyWords = 128 ∧ 100 ≤ d'.availableWords) ∧
    ∃ d' st, d.tryRealloc 5000 w.machine = .ok (false, d') st ∧ d.Quiet w.machine d' st := by
  obtain ⟨d₀, st₀, d, st₁, s, d₂, st₂, hcreate, hstart, hrunning, hbody, hused, hbase, hexn,
    hpointers, hlinks, hmax, hgrow⟩ := starts
  have hcreated := (Reached.start .ascending).step (.createDomain hcreate) trivial
  have hstarted := hcreated.step (.startMain (i := 0) rfl hstart) trivial
  have hadjust : ∀ w : Holdings, w.domains[0]? = some d →
      w.Step (.adjust 0) (w.put 0 (d.pushLink (link s)) w.machine) :=
    fun w hd => .adjust hd rfl rfl rfl rfl
  have hleft := hstarted.step (hadjust _ rfl) trivial
  have hbounds : ∀ l ∈ (d.pushLink (link s)).links,
      l.stackHigh = s.high → s.base ≤ l.sp ∧ l.sp ≤ s.high := by
    intro l hl _
    rw [Domain.pushLink, hlinks, List.nil_append, List.mem_singleton] at hl
    rw [hl]
    exact ⟨hbase, Nat.sub_le _ _⟩
  have hfew : IsLeast (GrowthTarget.Suffices s.bodyWords (s.usedWords + 100)) 2 := by
    rw [hbody, hused]
    exact GrowthTarget.isLeast_suffices (by decide) (by decide)
  have hmany : IsLeast (GrowthTarget.Suffices s.bodyWords (s.usedWords + 5000)) 8 := by
    rw [hbody, hused]
    exact GrowthTarget.isLeast_suffices (by decide) (by decide)
  have hexactly := tryRealloc_exactly (i := 0) hleft rfl hrunning (by omega) hexn hpointers hbounds
  obtain ⟨⟨k, hk, hmet⟩, -⟩ := hexactly 100
  obtain ⟨⟨l, hl, hrefused⟩, hquiet, -⟩ := hexactly 5000
  obtain rfl := hk.unique hfew
  obtain rfl := hl.unique hmany
  rw [hbody, show (d.pushLink (link s)).maxWords = 1000 from hmax] at hmet hrefused
  obtain ⟨_, d₃, st₃, hmet, -, hgrown⟩ := hmet fun _ _ _ => by decide
  obtain ⟨grown, d₄, st₄, hrefused, hiff, -⟩ := hrefused fun _ _ _ => by decide
  cases hgrow.symm.trans hmet
  obtain ⟨new, hnew, hsize, hroom⟩ := hgrown rfl
  refine ⟨_, d.pushLink (link s), s, hleft, rfl, hrunning, ?_, hbody, hmax,
    ⟨d₂, st₂, new, hmet, hnew, hsize, hroom⟩, ?_⟩
  · rw [Domain.pushLink, hlinks, List.nil_append]
  · obtain rfl : grown = false := by
      rw [← Bool.not_eq_true, hiff]
      exact fun h => absurd h.2.1 (by decide)
    exact ⟨d₄, st₄, hrefused, hquiet d₄ st₄ hrefused⟩

end MetAndRefused

end Holdings

end FiberStacks
