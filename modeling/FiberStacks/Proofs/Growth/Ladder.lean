import FiberStacks.Proofs.Growth.Limit
import FiberStacks.Proofs.Holdings.Configured

/-!
# Growth and the classes of the pool

A fiber starts with the words of the smallest class and doubles them as it grows, so it might be
expected to go through the classes one by one. But growth doubles the words that its body has, and a
body has an even number of them. If the words of a fiber are even too, each doubled segment is of
the next class. If they are odd, no doubled segment has a class, and none of them goes to the pool.
-/

namespace FiberStacks

/-! ### Doublings of an odd size -/

namespace SizeClass

/-- An odd size that is rounded up to an even one and doubled is no doubling of the odd size. -/
theorem succ_mul_two_pow_ne {base : Nat} (hbase : 1 < base) (n k : Nat) :
    (base + 1) * 2 ^ n ≠ base * 2 ^ k := by
  have hpow := Nat.two_pow_pos n
  rcases Nat.lt_or_ge n k with hlt | hle
  · have hdouble : base * 2 * 2 ^ n ≤ base * 2 ^ k := by
      rw [Nat.mul_assoc, ← Nat.pow_succ']
      exact Nat.mul_le_mul_left _ (Nat.pow_le_pow_right (by decide) hlt)
    have hroom : (base + 1) * 2 ^ n < base * 2 * 2 ^ n :=
      Nat.mul_lt_mul_of_pos_right (by omega) hpow
    exact (Nat.lt_of_lt_of_le hroom hdouble).ne
  · have hsmall : base * 2 ^ k ≤ base * 2 ^ n :=
      Nat.mul_le_mul_left _ (Nat.pow_le_pow_right (by decide) hle)
    have hroom : base * 2 ^ n < (base + 1) * 2 ^ n :=
      Nat.mul_lt_mul_of_pos_right (Nat.lt_succ_self _) hpow
    exact (Nat.lt_of_le_of_lt hsmall hroom).ne'

end SizeClass

theorem Size.roundUp_two_of_even {n : Nat} (h : n % 2 = 0) : Size.roundUp n 2 = n := by
  unfold roundUp ceilDiv
  omega

/-! ### Doubled fibers -/

namespace Supplier

variable {o : Supplier} {n : Nat} {s t : Segment}

/-- The words asked for when a fiber is obtained (`n = 0`), and when it is doubled for the `n`-th
time. A body is rounded up to an even number of words before it is doubled. -/
def rungWords (o : Supplier) (n : Nat) : Nat :=
  if n = 0 then o.baseWords else Size.roundUp o.baseWords 2 * 2 ^ n

/-- The doubled sizes of a fiber are those of the classes, as far as class `n`. -/
def InStep (o : Supplier) (n : Nat) : Prop := n = 0 ∨ o.baseWords % 2 = 0

instance (o : Supplier) (n : Nat) : Decidable (o.InStep n) :=
  inferInstanceAs (Decidable (n = 0 ∨ o.baseWords % 2 = 0))

theorem rungWords_of_inStep (h : o.InStep n) : o.rungWords n = o.baseWords * 2 ^ n := by
  unfold rungWords
  split
  · simp [*]
  · rw [Size.roundUp_two_of_even (h.resolve_left ‹_›)]

theorem rungWords_of_not_inStep (h : ¬ o.InStep n) :
    o.rungWords n = (o.baseWords + 1) * 2 ^ n := by
  obtain ⟨hn, hodd⟩ := not_or.mp h
  have hround : Size.roundUp o.baseWords 2 = o.baseWords + 1 := by
    unfold Size.roundUp Size.ceilDiv
    omega
  rw [rungWords, if_neg hn, hround]

/-- A doubled fiber has its class if the sizes are in step, and none if they are not. -/
theorem forSize?_rungWords (hbase : 1 < o.baseWords) (hn : n < SizeClass.count)
    (hlimit : o.rungWords n < Size.limit) :
    SizeClass.forSize? (o.rungWords n) o.baseWords =
      if o.InStep n then some ⟨n, hn⟩ else none := by
  split
  · rename_i hstep
    rw [rungWords_of_inStep hstep] at hlimit ⊢
    exact SizeClass.forSize?_mul_two_pow (k := ⟨n, hn⟩) (by omega) hlimit
  · rename_i hstep
    refine Option.eq_none_iff_forall_ne_some.mpr fun k hk => ?_
    have hsize := SizeClass.eq_of_forSize?_eq_some hk
    rw [rungWords_of_not_inStep hstep] at hsize
    exact SizeClass.succ_mul_two_pow_ne hbase n k.val hsize

/-- What a fiber of a domain is that was doubled `n` times. -/
structure Rung (o : Supplier) (n : Nat) (s : Segment) : Prop where
  owner : s.owner = o.id
  size : s.bodyWords = Size.roundUp o.baseWords 2 * 2 ^ n
  poolClass : s.poolClass = SizeClass.forSize? (o.rungWords n) o.baseWords

theorem Rung.of_bare (h : o.Rung n s) (heq : s.bare = t.bare) : o.Rung n t := by
  obtain ⟨-, hbase, hhigh, hclass, howner, -⟩ := Segment.bare_eq_iff.mp heq
  refine ⟨howner ▸ h.owner, ?_, hclass ▸ h.poolClass⟩
  rw [← h.size, Segment.bodyWords, Segment.bodyWords, hbase, hhigh]

theorem rungWords_mod_two (hn : n ≠ 0) : o.rungWords n % 2 = 0 := by
  have hround := Size.roundUp_mod o.baseWords 2
  rw [rungWords, if_neg hn, Nat.mul_mod, hround, Nat.zero_mul]

theorem roundUp_rungWords :
    Size.roundUp (o.rungWords n) 2 = Size.roundUp o.baseWords 2 * 2 ^ n := by
  by_cases hn : n = 0
  · simp [rungWords, hn]
  · rw [Size.roundUp_two_of_even (rungWords_mod_two hn), rungWords, if_neg hn]

theorem rung_built {start : Nat} {id : FiberId} (hstart : o.policy.align ∣ start) :
    o.Rung n (.built o (o.rungWords n) id start) where
  owner := rfl
  size := (Segment.bodyWords_built hstart).trans roundUp_rungWords
  poolClass := rfl

theorem Rung.rungWords_lt (h : o.Rung n s) (hs : s.Formed) : o.rungWords n < Size.limit := by
  have hle := Size.le_roundUp (by decide : 0 < 2) (o.rungWords n)
  rw [roundUp_rungWords, ← h.size, Segment.bodyWords] at hle
  have hhigh := hs.high_lt
  simp only [wordBytes] at hle
  omega

end Supplier

namespace Domain

variable {d d' : Domain} {s : Segment} {k : SizeClass} {st st' : MachineState}

theorem Frees.mem_list (h : d.Frees s st d' st') (hkeeps : d.pool.keeps? s = some k) :
    s ∈ d'.pool.list k := by
  cases h with
  | kept _ hkept hgains =>
      cases hkept.symm.trans hkeeps
      rw [hgains.front]
      exact List.mem_cons_self
  | released _ hrefused => cases hrefused.symm.trans hkeeps

theorem Frees.segments_eq (h : d.Frees s st d' st') (hkeeps : d.pool.keeps? s = none) :
    d'.pool.segments = d.pool.segments := by
  cases h with
  | kept _ hkept => cases hkept.symm.trans hkeeps
  | released => rfl

end Domain

namespace Holdings

variable {careful : Prop} {w w' : Holdings} {added removed : List FiberId} {op : Operation}
  {o : Supplier} {d d' : Domain} {s s' new : Segment} {outer : Chain} {n required : Nat}
  {st : MachineState}

/-! ### Segments stay what they are -/

/-- A segment was there before, or lies at addresses that were free. -/
theorem Moves.origin (haccounted : w.Accounted) (hmoves : Moves careful w added removed w') :
    w.machine.space.Grows w'.machine.space ∧ ∀ s' ∈ w'.everything,
      (∃ s ∈ w.everything, s.bare = s'.bare) ∨ ∀ a, s'.Owns a → ¬ w.machine.space.Taken a := by
  induction hmoves with
  | refl => exact ⟨.refl _, fun s hs => .inl ⟨s, hs, rfl⟩⟩
  | tail hbefore hmove ih =>
      obtain ⟨hgrows, horigin⟩ := ih
      have haudit := hmove.audit (haccounted.of_moves hbefore).1.tagged
      refine ⟨hgrows.trans haudit.grows, haudit.forall_everything (fun s t heq hs => ?_) horigin
        fun o _ words start id _ _ hfree => .inr fun a ha => mt (hgrows a) (hfree a ha)⟩
      obtain ⟨-, hbase, hhigh, -⟩ := Segment.bare_eq_iff.mp heq
      refine hs.imp (fun ⟨u, hu, hbare⟩ => ⟨u, hu, hbare.trans heq⟩) fun hfree a ha => hfree a ?_
      rwa [Segment.Owns, hbase, hhigh]

/-- A segment that has the handler block of an earlier one is that one. -/
theorem Step.bare_eq (haccounted : w.Accounted) (hstep : w.Step op w') (hs : s ∈ w.everything)
    (hs' : s' ∈ w'.everything) (hhigh : s'.high = s.high) : s.bare = s'.bare := by
  obtain ⟨added, removed, hmoves, -⟩ := hstep.decomposes haccounted
  rcases (hmoves.origin haccounted).2 s' hs' with ⟨t, ht, hbare⟩ | hfree
  · obtain ⟨-, -, hsame, -⟩ := Segment.bare_eq_iff.mp hbare
    have hst : t = s := List.inj_on_of_nodup_map haccounted.separate.nodup_highs ht hs
      (hsame.trans hhigh)
    exact hst ▸ hbare
  · have hformed := (haccounted.of_moves hmoves).1.separate.formed s' hs'
    have howns := (haccounted.separate.formed s hs).owns_high
    exact absurd (haccounted.separate.handed s hs _ howns) (hhigh ▸ hfree _ hformed.owns_high)

/-! ### The ladder -/

/-- In state `w`, the segment `s` is that of a fiber which a domain obtained and then doubled `n`
times. Whatever happened in between, the segment is known by the address of its handler block. -/
inductive Climbs (o : Supplier) : Nat → Holdings → Segment → Prop
  | obtain {w : Holdings} {i : Nat} {d d' : Domain} {h : Handlers} {s : Segment}
      {st : MachineState} :
      Configured w → w.domains[i]? = some d → d.supplier = o →
      d.alloc h w.machine = .ok (.ok s, d') st →
      Climbs o 0 ({ w with hands := w.hands ++ [[s]] }.put i d' st) s
  | wait {n : Nat} {w w' : Holdings} {op : Operation} {s s' : Segment} :
      Climbs o n w s → w.Step op w' → w.Admits w' op → s' ∈ w'.everything → s'.high = s.high →
      Climbs o n w' s'
  | grow {n i required : Nat} {w : Holdings} {d d' : Domain} {s new : Segment} {outer : Chain}
      {st : MachineState} :
      Climbs o n w s → w.domains[i]? = some d → d.supplier = o → d.running = s :: outer →
      d.tryRealloc required w.machine = .ok (true, d') st → d'.running = new :: outer →
      new.bodyWords = 2 * s.bodyWords →
      Climbs o (n + 1)
        ({ w with released := w.released ++ d.pool.refused (d.running.take 1) }.put i d' st) new

theorem InOrder.exists_built {words : Nat} {h : Handlers} {id : FiberId} {st' : MachineState}
    (horder : w.InOrder) (hd : d ∈ w.domains)
    (hrun : d.allocNoExc words h id st = .ok (some s, d') st') :
    ∃ start, d.policy.align ∣ start ∧ s = .built d.supplier words id start :=
  (Domain.obtains_of_allocNoExc hrun).exists_built
    (horder.accounted.made_of_sorted horder.sorted hd)

theorem InOrder.rung_of_alloc {h : Handlers} (horder : w.InOrder) (hd : d ∈ w.domains)
    (htuned : d.Tuned) (hrun : d.alloc h w.machine = .ok (.ok s, d') st) :
    d.supplier.Rung 0 s := by
  unfold Domain.alloc at hrun
  obtain ⟨id, st₁, hfresh, hrun⟩ := Run.bind_eq_ok_iff.mp hrun
  cases hfresh
  obtain ⟨⟨s?, d₁⟩, st₂, halloc, hpure⟩ := Run.bind_eq_ok_iff.mp hrun
  cases s? with
  | none => cases hpure
  | some s =>
      cases hpure
      obtain ⟨start, haligned, rfl⟩ := horder.exists_built hd halloc
      rw [htuned.same]
      exact Supplier.rung_built haligned

/-- A segment that grows by one doubling is replaced by one of the next rung. -/
theorem InOrder.rung_of_tryRealloc (horder : w.InOrder) (hd : d ∈ w.domains)
    (hrung : d.supplier.Rung n s) (hrunning : d.running = s :: outer)
    (hrun : d.tryRealloc required w.machine = .ok (true, d') st)
    (hrunning' : d'.running = new :: outer) (hdoubled : new.bodyWords = 2 * s.bodyWords) :
    d.supplier.Rung (n + 1) new := by
  rcases Domain.tryRealloc_cases hrun with ⟨hfalse, -⟩ | ⟨old, chain, needed, words, obtained, d₁,
    journal, st₁, -, hchain, -, hfind, halloc, hmove⟩
  · cases hfalse
  · cases hrunning.symm.trans hchain
    obtain ⟨_, _, _, _, _, -, -, -, -, -, rfl⟩ := Domain.moveTo_eq_ok hmove
    obtain ⟨rfl, -⟩ := List.cons_eq_cons.mp hrunning'
    obtain ⟨start, haligned, rfl⟩ := horder.exists_built hd halloc
    -- The size that growth looked for is even, so the new body is not rounded up.
    obtain ⟨k, hpower, -⟩ := GrowthTarget.exists_of_find hfind
    have heven : words % 2 = 0 := by
      rw [hpower, Nat.pow_succ, ← Nat.mul_assoc, Nat.mul_mod_left]
    have hsize : (Segment.built d.supplier words s.id start).bodyWords = words :=
      (Segment.bodyWords_built haligned).trans (Size.roundUp_two_of_even heven)
    have hwords : words = d.supplier.rungWords (n + 1) := by
      have hdoubled : (Segment.built d.supplier words s.id start).bodyWords = 2 * s.bodyWords :=
        hdoubled
      rw [Supplier.rungWords, if_neg (Nat.succ_ne_zero n), Nat.pow_succ, ← Nat.mul_assoc,
        ← hrung.size, ← hsize, hdoubled, Nat.mul_comm]
    have hrung' : d.supplier.Rung (n + 1) (.built d.supplier words s.id start) := by
      rw [hwords]
      exact Supplier.rung_built haligned
    exact hrung'.of_bare rfl

/-- A segment that climbs is at its rung, whatever happens meanwhile. -/
theorem Climbs.rung (h : Climbs o n w s) :
    Configured w ∧ o.owner = o.id ∧ stackThresholdWords ≤ o.baseWords ∧ s ∈ w.everything ∧
      o.Rung n s := by
  induction h with
  | @obtain w i d d' h s st hconfigured hd hsupplier hrun =>
      obtain ⟨horder, htuned⟩ := hconfigured.inOrder
      have hmem := List.mem_of_getElem? hd
      obtain ⟨howner, -⟩ := horder.accounted.numbered _ (List.mem_map_of_mem hmem)
      subst hsupplier
      refine ⟨hconfigured.step (.alloc hd hrun) trivial, howner, (htuned d hmem).enough, ?_,
        horder.rung_of_alloc hmem (htuned d hmem) hrun⟩
      exact List.mem_append_left _ (List.mem_append_left _ (List.mem_append_right _
        (List.mem_flatten_of_mem (List.mem_append_right _ (List.mem_singleton_self [s]))
          (List.mem_singleton_self s))))
  | wait _ hstep hadmits hs' hhigh ih =>
      obtain ⟨hconfigured, howner, hbase, hs, hrung⟩ := ih
      have hbare := hstep.bare_eq hconfigured.inOrder.1.accounted hs hs' hhigh
      exact ⟨hconfigured.step hstep hadmits, howner, hbase, hs', hrung.of_bare hbare⟩
  | @grow n i required w d d' s new outer st _ hd hsupplier hrunning hrun hrunning' hdoubled ih =>
      obtain ⟨hconfigured, howner, hbase, -, hrung⟩ := ih
      subst hsupplier
      refine ⟨hconfigured.step (.grow hd hrun) trivial, howner, hbase, ?_,
        hconfigured.inOrder.1.rung_of_tryRealloc (List.mem_of_getElem? hd) hrung hrunning hrun
          hrunning' hdoubled⟩
      refine List.mem_append_left _ (List.mem_append_left _
        (mem_held_of_running (getElem?_put hd d' st) ?_))
      rw [hrunning']
      exact List.mem_cons_self

/-- The class of a fiber that was doubled `n` times. -/
theorem Climbs.poolClass (h : Climbs o n w s) (hn : n < SizeClass.count) :
    s.poolClass = if o.InStep n then some ⟨n, hn⟩ else none := by
  obtain ⟨hconfigured, -, hbase, hs, hrung⟩ := h.rung
  have hformed := hconfigured.inOrder.1.accounted.separate.formed s hs
  have henough : 1 < o.baseWords := Nat.lt_of_lt_of_le (by decide) hbase
  rw [hrung.poolClass, Supplier.forSize?_rungWords henough hn (hrung.rungWords_lt hformed)]

/-- Freeing in the domain that obtained the segment keeps it exactly if it has a class. -/
theorem Climbs.keeps? (h : Climbs o n w s) (hn : n < SizeClass.count) (hsupplier : d.supplier = o) :
    d.pool.keeps? s = if o.InStep n then some ⟨n, hn⟩ else none := by
  obtain ⟨-, howner, -, -, hrung⟩ := h.rung
  have hsame : s.owner = d.pool.owner := by
    rw [hrung.owner, ← howner, ← hsupplier]
    rfl
  rw [Pool.keeps?, if_pos hsame, h.poolClass hn]

/-- A fiber is obtained in a domain with valid settings and then grown by `n` doublings, fewer than
there are classes. It has class `n` exactly if it has not been doubled yet or the domain's fibers
have an even number of words, and no class otherwise. If it is freed in that domain, or replaced
there as it grows again, it goes to the list of class `n` in the first case, and the pool keeps
nothing of it in the second. -/
theorem ladder_iff (hclimbs : Climbs o n w s) (hn : n < SizeClass.count) :
    (s.poolClass = some ⟨n, hn⟩ ↔ n = 0 ∨ o.baseWords % 2 = 0) ∧
      (s.poolClass = none ↔ ¬ (n = 0 ∨ o.baseWords % 2 = 0)) ∧
      (∀ (d : Domain) (st : MachineState), d.supplier = o →
        ∃ d' st', d.free [s] st = .ok d' st' ∧
          (n = 0 ∨ o.baseWords % 2 = 0 → s ∈ d'.pool.list ⟨n, hn⟩) ∧
          (¬ (n = 0 ∨ o.baseWords % 2 = 0) → d'.pool.segments = d.pool.segments)) ∧
      ∀ (d d' : Domain) (outer : Chain) (required : Nat) (st : MachineState), d ∈ w.domains →
        d.supplier = o → d.running = s :: outer →
        d.tryRealloc required w.machine = .ok (true, d') st →
          (n = 0 ∨ o.baseWords % 2 = 0 → s ∈ d'.pool.list ⟨n, hn⟩) ∧
          (¬ (n = 0 ∨ o.baseWords % 2 = 0) → d'.pool.segments ⊆ d.pool.segments) := by
  obtain ⟨hconfigured, -, -, hs, -⟩ := hclimbs.rung
  have haccounted := hconfigured.inOrder.1.accounted
  have hfate : ∀ {d d' : Domain} {st st' : MachineState}, d.supplier = o → d.Frees s st d' st' →
      (o.InStep n → s ∈ d'.pool.list ⟨n, hn⟩) ∧
        (¬ o.InStep n → d'.pool.segments = d.pool.segments) := by
    intro d d' st st' hsupplier hfrees
    have hkeeps := hclimbs.keeps? hn hsupplier
    exact ⟨fun hstep => hfrees.mem_list (hkeeps.trans (if_pos hstep)),
      fun hstep => hfrees.segments_eq (hkeeps.trans (if_neg hstep))⟩
  refine ⟨?_, ?_, fun d st hsupplier => ?_, fun d d' outer required st hd hsupplier hrunning hrun =>
    ?_⟩
  · rw [hclimbs.poolClass hn, Option.ite_none_right_eq_some]
    exact and_iff_left rfl
  · rw [hclimbs.poolClass hn, ite_eq_right_iff]
    exact forall_congr' fun _ => iff_false_intro nofun
  · obtain ⟨d', st', hfree⟩ := d.exists_freeSegment (haccounted.tagged s hs) st
    exact ⟨d', st', Run.bind_of_ok hfree pure, hfate hsupplier (Domain.frees_of_freeSegment hfree)⟩
  · obtain ⟨words, new, d₁, journal, st₁, halloc, hmove⟩ :=
      Domain.tryRealloc_eq_ok hrunning hrun
    obtain ⟨_, _, _, _, d₂, -, -, -, -, hfree, rfl⟩ := Domain.moveTo_eq_ok hmove
    have hobtains := Domain.obtains_of_allocNoExc halloc
    obtain ⟨hkept, hgone⟩ := hfate (hobtains.supplier_eq.trans hsupplier)
      (Domain.frees_of_freeSegment hfree)
    refine ⟨hkept, fun hstep t ht => ?_⟩
    obtain ⟨k, -, ht⟩ := List.mem_flatMap.mp (hgone hstep ▸ ht)
    exact List.mem_flatMap.mpr ⟨k, List.mem_finRange k, hobtains.list_subset k t ht⟩

/-! ### Fibers of 33 words, and of 32

A fiber is run and asked for one more word, twice. -/

namespace DoubledTwice

def settings (words : Nat) : Settings :=
  { Settings.standard with fiberWords := words, mainWords := words, maxWords := 1000 }

def handlers : Handlers := ⟨3, 5, 7⟩

/-- The classes of the segments of a fiber that is doubled twice, from the first to the last, and
those of the pool in the end. -/
def Doubles (words : Nat) (classes pooled : List (Option SizeClass)) : Prop :=
  ∃ d₀ st₀ d₁ st₁ d₂ st₂ d₃ st₃ d₄ st₄ s t u,
    Domain.create (settings words) MachineState.initial = .ok d₀ st₀ ∧
      d₀.alloc handlers st₀ = .ok (.ok s, d₁) st₁ ∧ d₁.runFiber s st₁ = .ok d₂ st₂ ∧
      d₂.tryRealloc 1 st₂ = .ok (true, d₃) st₃ ∧ d₃.tryRealloc 40 st₃ = .ok (true, d₄) st₄ ∧
      d₂.running = [s] ∧ d₃.running = [t] ∧ d₄.running = [u] ∧
      t.bodyWords = 2 * s.bodyWords ∧ u.bodyWords = 2 * t.bodyWords ∧
      [s, t, u].map Segment.poolClass = classes ∧
      d₄.pool.segments.map Segment.poolClass = pooled

theorem doubles_of_answers {words : Nat} {classes pooled : List (Option SizeClass)}
    (h : Run.answers (Domain.create (settings words)) .initial (fun d₀ st₀ =>
      Run.succeeds (d₀.alloc handlers) st₀ fun s d₁ st₁ =>
      Run.answers (d₁.runFiber s) st₁ fun d₂ st₂ =>
      Run.answers (d₂.tryRealloc 1) st₂ fun r st₃ => r.1 &&
      Run.answers (r.2.tryRealloc 40) st₃ fun q _ => q.1 &&
        r.2.running.any fun t => q.2.running.any fun u => decide (d₂.running = [s] ∧
          r.2.running = [t] ∧ q.2.running = [u] ∧ t.bodyWords = 2 * s.bodyWords ∧
          u.bodyWords = 2 * t.bodyWords ∧ [s, t, u].map Segment.poolClass = classes ∧
          q.2.pool.segments.map Segment.poolClass = pooled)) = true) :
    Doubles words classes pooled := by
  obtain ⟨d₀, st₀, hcreate, h⟩ := Run.exists_of_answers h
  obtain ⟨s, d₁, st₁, halloc, h⟩ := Run.exists_of_succeeds h
  obtain ⟨d₂, st₂, hrun, h⟩ := Run.exists_of_answers h
  obtain ⟨⟨_, d₃⟩, st₃, hgrow, h⟩ := Run.exists_of_answers h
  obtain ⟨rfl, h⟩ := (Bool.and_eq_true _ _).mp h
  obtain ⟨⟨_, d₄⟩, st₄, hagain, h⟩ := Run.exists_of_answers h
  obtain ⟨rfl, h⟩ := (Bool.and_eq_true _ _).mp h
  obtain ⟨t, -, h⟩ := List.any_eq_true.mp h
  obtain ⟨u, -, h⟩ := List.any_eq_true.mp h
  exact ⟨d₀, st₀, d₁, st₁, d₂, st₂, d₃, st₃, d₄, st₄, s, t, u, hcreate, halloc, hrun, hgrow,
    hagain, of_decide_eq_true h⟩

/-- The settings are valid. The fiber has class 0, but once it is doubled it has no class, and the
pool keeps its first segment only. -/
theorem odd_fiber_leaves_classes : (settings 33).validate = .ok () ∧
    Doubles 33 [some 0, none, none] [some 0] :=
  ⟨by decide, doubles_of_answers (by decide +kernel)⟩

/-- With one word less the second and the third segment have the next classes, and freeing the last
one puts it on its list. -/
theorem even_fiber_climbs : ∃ w d u, Climbs d.supplier 2 w u ∧ 2 < SizeClass.count ∧
    d ∈ w.domains ∧ d.running = [u] ∧ u.poolClass = some 2 ∧
    ∃ d' st', d.free [u] w.machine = .ok d' st' ∧ u ∈ d'.pool.list 2 := by
  have hdoubles : Doubles 32 [some 0, some 1, some 2] [some 0, some 1] :=
    doubles_of_answers (by decide +kernel)
  obtain ⟨d₀, st₀, d₁, st₁, d₂, st₂, d₃, st₃, d₄, st₄, s, t, u, hcreate, halloc, hrun, hgrow,
    hagain, hfirst, hsecond, hthird, hdouble, hdouble', -, -⟩ := hdoubles
  have heven : d₀.supplier.baseWords % 2 = 0 := by
    cases hcreate
    rfl
  have hcreated := (Configured.start .ascending).step (.createDomain hcreate) (by exact rfl)
  have hobtained : Climbs d₀.supplier 0 _ s := .obtain (i := 0) hcreated rfl rfl halloc
  have hran : Climbs d₀.supplier 0 _ s := hobtained.wait (.runFiber (i := 0) (j := 0) rfl rfl hrun)
    trivial (List.mem_append_left _ (List.mem_append_left _
      (mem_held_of_running (i := 0) rfl (by rw [hfirst]; exact List.mem_singleton_self s)))) rfl
  have hsupplier₂ : d₂.supplier = d₀.supplier := (Domain.terms_eq_iff.mp
    ((Domain.terms_of_runFiber hrun).trans (Domain.terms_of_alloc halloc))).2
  have hsupplier₃ : d₃.supplier = d₀.supplier :=
    (Domain.terms_eq_iff.mp (Domain.terms_of_tryRealloc hgrow)).2.trans hsupplier₂
  have honce := hran.grow (i := 0) rfl hsupplier₂ hfirst hgrow hsecond hdouble
  have hsupplier₄ : d₄.supplier = d₀.supplier :=
    (Domain.terms_eq_iff.mp (Domain.terms_of_tryRealloc hagain)).2.trans hsupplier₃
  have htwice := honce.grow (i := 0) rfl hsupplier₃ hsecond hagain hthird hdouble'
  obtain ⟨hclass, -, hfree, -⟩ := ladder_iff htwice (by decide)
  obtain ⟨d', st', hfreed, hlisted, -⟩ := hfree d₄ _ hsupplier₄
  exact ⟨_, d₄, u, hsupplier₄ ▸ htwice, by decide, List.mem_singleton_self d₄, hthird,
    hclass.mpr (.inr heven), d', st', hfreed, hlisted (.inr heven)⟩

end DoubledTwice

end Holdings

end FiberStacks
