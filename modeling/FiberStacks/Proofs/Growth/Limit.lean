import FiberStacks.Proofs.Growth.Totality
import FiberStacks.Proofs.Holdings.Stock

/-!
# Growth and the maximum

Growth doubles the size of a body as often as it takes, and the maximum is compared with a size
before it is doubled. So the size that is found is less than twice the maximum. It is within the
maximum exactly if one of the doubled sizes both suffices and is.
-/

namespace FiberStacks

namespace GrowthTarget

variable {size max needed n : Nat}

/-- The size that is found is the first among the doubled ones that suffices, and the size before it
is below the maximum. -/
theorem first_of_find (h : find size max needed = .words n) :
    ∃ k, n = size * 2 ^ (k + 1) ∧ needed ≤ n ∧ size * 2 ^ k < max ∧
      ∀ j < k, size * 2 ^ (j + 1) < needed := by
  fun_induction find size max needed with
  | case1 => cases h
  | case2 => cases h
  | case3 size hmax hlimit hneeded =>
      cases h
      exact ⟨0, by simp, hneeded, by simpa using hmax, by simp⟩
  | case4 => cases h
  | case5 size hmax hlimit hneeded hzero ih =>
      have hdouble : ∀ j, size * 2 * 2 ^ j = size * 2 ^ (j + 1) := fun j => by
        rw [Nat.pow_succ', Nat.mul_assoc]
      obtain ⟨k, hn, hle, hlt, hshort⟩ := ih h
      rw [hdouble] at hn hlt
      refine ⟨k + 1, hn, hle, hlt, fun j hj => ?_⟩
      cases j with
      | zero => simpa using hneeded
      | succ j =>
          rw [← hdouble]
          exact hshort j (Nat.lt_of_succ_lt_succ hj)

/-- The size that is found is within the maximum exactly if a doubled size within it suffices. -/
theorem le_max_iff_of_find (h : find size max needed = .words n) :
    n ≤ max ↔ ∃ j, needed ≤ size * 2 ^ (j + 1) ∧ size * 2 ^ (j + 1) ≤ max := by
  obtain ⟨k, rfl, hle, -, hshort⟩ := first_of_find h
  constructor
  · exact fun hmax => ⟨k, hle, hmax⟩
  · rintro ⟨j, hneeded, hmax⟩
    have hkj : k ≤ j := by
      by_contra hlt
      exact absurd hneeded (Nat.not_le.mpr (hshort j (Nat.not_le.mp hlt)))
    calc size * 2 ^ (k + 1) ≤ size * 2 ^ (j + 1) :=
          Nat.mul_le_mul_left size (Nat.pow_le_pow_right (by decide) (Nat.succ_le_succ hkj))
      _ ≤ max := hmax

end GrowthTarget

namespace Holdings

variable {w : Holdings} {d d' : Domain} {required : Nat} {st : MachineState}

/-- A running segment that grows gets the first doubled size that suffices, with its fiber, its
parents and the maximum as they were. -/
theorem Reached.grown (h : Reached w) (hd : d ∈ w.domains)
    (hrun : d.tryRealloc required w.machine = .ok (true, d') st) :
    ∃ s outer new, d.running = s :: outer ∧ d'.running = new :: outer ∧
      d'.maxWords = d.maxWords ∧
      GrowthTarget.find s.bodyWords d.maxWords (s.usedWords + required) = .words new.bodyWords := by
  rcases Domain.tryRealloc_cases hrun with ⟨hfalse, -⟩ | ⟨s, outer, needed, words, new, d₁, journal,
    st₁, -, hrunning, hneeded, hfind, halloc, hmove⟩
  · cases hfalse
  · obtain rfl := Size.eq_of_add?_eq_some hneeded
    obtain ⟨traps, framePointer, m, links, d₂, -, -, -, -, -, rfl⟩ := Domain.moveTo_eq_ok hmove
    have hsize : new.bodyWords = words := by
      obtain ⟨k, hwords, -⟩ := GrowthTarget.exists_of_find hfind
      have heven : words % 2 = 0 := by
        rw [hwords, Nat.pow_succ, ← Nat.mul_assoc]
        exact Nat.mul_mod_left _ 2
      rw [h.bodyWords_of_allocNoExc hd halloc, Size.roundUp, Size.ceilDiv]
      omega
    refine ⟨s, outer, _, hrunning, rfl, Domain.maxWords_of_tryRealloc hrun, ?_⟩
    change _ = GrowthTarget.words new.bodyWords
    rw [hsize, hfind]

/-- A running segment that grows has room for what is required and less than twice the maximum. It
is within the maximum exactly if its old size, doubled a number of times, both suffices and is
within it. -/
theorem limit_of_tryRealloc (hreached : Reached w) (hd : d ∈ w.domains)
    (hrun : d.tryRealloc required w.machine = .ok (true, d') st) :
    ∃ s outer new, d.running = s :: outer ∧ d'.running = new :: outer ∧
      d'.maxWords = d.maxWords ∧ s.usedWords + required ≤ new.bodyWords ∧
      (∃ k, new.bodyWords = s.bodyWords * 2 ^ (k + 1) ∧ s.bodyWords * 2 ^ k < d.maxWords) ∧
      new.bodyWords < d.maxWords * 2 ∧
      (new.bodyWords ≤ d'.maxWords ↔
        ∃ j, s.usedWords + required ≤ s.bodyWords * 2 ^ (j + 1) ∧
          s.bodyWords * 2 ^ (j + 1) ≤ d'.maxWords) := by
  obtain ⟨s, outer, new, hrunning, hrunning', hmax, hfind⟩ := hreached.grown hd hrun
  obtain ⟨k, hsize, hroom, hbelow, -⟩ := GrowthTarget.first_of_find hfind
  refine ⟨s, outer, new, hrunning, hrunning', hmax, hroom, ⟨k, hsize, hbelow⟩,
    GrowthTarget.lt_of_find hfind, ?_⟩
  rw [hmax]
  exact GrowthTarget.le_max_iff_of_find hfind

/-! ### A segment above the maximum

A main stack of 40 words is asked for one more word, while the maximum is 50 words. -/

namespace AboveMaximum

def settings : Settings :=
  { Settings.standard with fiberWords := 32, mainWords := 40, maxWords := 50 }

theorem grows : ∃ d₀ st₀ d₁ st₁ d₂ st₂ s new,
    Domain.create settings MachineState.initial = .ok d₀ st₀ ∧
      d₀.startMain st₀ = .ok (.ok (), d₁) st₁ ∧ d₁.tryRealloc 1 st₁ = .ok (true, d₂) st₂ ∧
      d₁.running = [s] ∧ s.bodyWords = 40 ∧ d₂.running = [new] ∧ new.bodyWords = 80 ∧
      d₂.maxWords = 50 := by
  have h : Run.answers (Domain.create settings) .initial (fun d₀ st₀ =>
      Run.succeeds d₀.startMain st₀ fun _ d₁ st₁ =>
      Run.answers (d₁.tryRealloc 1) st₁ fun r _ => r.1 && decide (r.2.maxWords = 50 ∧
        d₁.running.map Segment.bodyWords = [40] ∧
        r.2.running.map Segment.bodyWords = [80])) = true := by
    decide +kernel
  obtain ⟨d₀, st₀, hcreate, h⟩ := Run.exists_of_answers h
  obtain ⟨_, d₁, st₁, hstart, h⟩ := Run.exists_of_succeeds h
  obtain ⟨⟨_, d₂⟩, st₂, hgrow, h⟩ := Run.exists_of_answers h
  obtain ⟨rfl, h⟩ := (Bool.and_eq_true _ _).mp h
  obtain ⟨hmax, hbefore, hafter⟩ := of_decide_eq_true h
  obtain ⟨s, hs, hold⟩ := List.map_eq_singleton_iff.mp hbefore
  obtain ⟨new, hnew, hsize⟩ := List.map_eq_singleton_iff.mp hafter
  exact ⟨d₀, st₀, d₁, st₁, d₂, st₂, s, new, hcreate, hstart, hgrow, hs, hold, hnew, hsize, hmax⟩

theorem reached : ∃ w d d' st s new, Reached w ∧ d ∈ w.domains ∧
    d.tryRealloc 1 w.machine = .ok (true, d') st ∧ d.running = [s] ∧ s.bodyWords = 40 ∧
    d'.running = [new] ∧ new.bodyWords = 80 ∧ d'.maxWords = 50 := by
  obtain ⟨d₀, st₀, d₁, st₁, d₂, st₂, s, new, hcreate, hstart, hgrow, hrest⟩ := grows
  have hcreated := (Reached.start .ascending).step (.createDomain hcreate) trivial
  have hstarted := hcreated.step (.startMain (i := 0) rfl hstart) trivial
  exact ⟨_, d₁, d₂, st₂, s, new, hstarted, List.mem_singleton_self d₁, hgrow, hrest⟩

/-- The settings are valid, and the segment that is run in the end has more words than the
maximum. -/
theorem grows_above_maximum : settings.validate = .ok () ∧
    ∃ d₀ st₀ d₁ st₁ d₂ st₂ new, Domain.create settings MachineState.initial = .ok d₀ st₀ ∧
      d₀.startMain st₀ = .ok (.ok (), d₁) st₁ ∧ d₁.tryRealloc 1 st₁ = .ok (true, d₂) st₂ ∧
      d₂.running = [new] ∧ d₂.maxWords < new.bodyWords := by
  obtain ⟨d₀, st₀, d₁, st₁, d₂, st₂, s, new, hcreate, hstart, hgrow, -, -, hafter, hnew, hmax⟩ :=
    grows
  exact ⟨by decide, d₀, st₀, d₁, st₁, d₂, st₂, new, hcreate, hstart, hgrow, hafter, by omega⟩

/-- No doubled size suffices within the maximum. -/
theorem no_size_suffices : ∃ w d d' st s, Reached w ∧ d ∈ w.domains ∧
    d.tryRealloc 1 w.machine = .ok (true, d') st ∧ d.running = [s] ∧
    ¬ ∃ j, s.usedWords + 1 ≤ s.bodyWords * 2 ^ (j + 1) ∧
      s.bodyWords * 2 ^ (j + 1) ≤ d'.maxWords := by
  obtain ⟨w, d, d', st, s, new, hreached, hd, hrun, hbefore, -, hafter, hnew, hmax⟩ := reached
  obtain ⟨s', outer, new', hrunning, hrunning', -, -, -, -, hiff⟩ :=
    limit_of_tryRealloc hreached hd hrun
  cases hbefore.symm.trans hrunning
  cases hafter.symm.trans hrunning'
  exact ⟨w, d, d', st, s, hreached, hd, hrun, hbefore, fun hfits => by
    have hle := hiff.mpr hfits
    omega⟩

end AboveMaximum

end Holdings

end FiberStacks
