import FiberStacks.Proofs.Holdings.Decomposition

/-!
# The stock of a pool

A pooled segment is on the list of its class, in the pool of the domain that built it, and nothing
of its last fiber shows: it has no parent, and its body is wiped where that is asked for. So a
segment that is taken from the pool is one that would be built for the same request, at another
address.
-/

namespace FiberStacks

/-- What a segment is that is kept on a list of a pool. -/
structure Supplier.Shelves (o : Supplier) (k : SizeClass) (m : Memory) (s : Segment) : Prop where
  owner : s.owner = o.id
  poolClass : s.poolClass = some k
  tagged : s.magic = segmentMagic
  unparented : s.recordedParent m = 0
  wiped : o.wipe = true → ∀ x ∈ s.body m, x = Word.wiped

namespace Segment

variable {s t : Segment} {o : Supplier} {k : SizeClass} {m : Memory} {words : Nat}

theorem owns_of_mem_body {a : Nat} (ha : a ∈ Memory.span s.base s.bodyWords) : s.Owns a := by
  obtain ⟨i, hi, rfl⟩ := Memory.mem_span_iff.mp ha
  simp only [bodyWords, wordBytes] at hi
  simp only [Owns, wordBytes, handlerBlockBytes]
  omega

theorem parentSlot_not_mem_body : s.parentSlot ∉ Memory.span s.base s.bodyWords := by
  intro hmem
  obtain ⟨i, hi, heq⟩ := Memory.mem_span_iff.mp hmem
  simp only [bodyWords, parentSlot, wordBytes] at hi heq
  omega

/-- A segment that was built for a class and is used again is one built for a request of that
class. -/
theorem exists_built_of_makes (hmade : o.Makes t) (hclass : t.poolClass = some k)
    (hwords : SizeClass.forSize? words o.baseWords = some k) (h : Handlers) (id : FiberId) :
    ∃ start, o.policy.align ∣ start ∧ (t.reinit m h id).1 = built o words id start := by
  obtain ⟨built, start, haligned, hbare⟩ := hmade
  obtain ⟨hmemory, hbase, hhigh, hclasses, howner, -⟩ := bare_eq_iff.mp hbare
  have hbuilt : SizeClass.forSize? built o.baseWords = some k := hclasses.symm.trans hclass
  have hsize : built = words :=
    (SizeClass.eq_of_forSize?_eq_some hbuilt).trans (SizeClass.eq_of_forSize?_eq_some hwords).symm
  subst hsize
  refine ⟨start, haligned, ?_⟩
  simp only [reinit, hmemory, hbase, hhigh, hclasses, howner]
  rfl

end Segment

namespace Supplier

variable {o : Supplier} {k : SizeClass} {s : Segment} {m m' : Memory}

/-- A segment stays on its shelf while nobody writes on it. -/
theorem Shelves.congr (h : o.Shelves k m s) (hs : s.Formed)
    (heq : ∀ a, s.Owns a → m'.read a = m.read a) : o.Shelves k m' s where
  owner := h.owner
  poolClass := h.poolClass
  tagged := h.tagged
  unparented := by
    rw [Segment.recordedParent, heq _ (Segment.owns_parentSlot hs)]
    exact h.unparented
  wiped := by
    intro hwipe x hx
    obtain ⟨a, ha, rfl⟩ := List.mem_map.mp hx
    rw [heq a (Segment.owns_of_mem_body ha)]
    exact h.wiped hwipe _ (List.mem_map_of_mem ha)

/-- A segment that goes to the pool has forgotten its parent, and is wiped where that is asked
for. -/
theorem shelves_of_kept (howner : s.owner = o.id) (hclass : s.poolClass = some k)
    (hmagic : s.magic = segmentMagic) :
    o.Shelves k (if o.wipe then s.wipe (s.recordParent m 0) else s.recordParent m 0) s where
  owner := howner
  poolClass := hclass
  tagged := hmagic
  unparented := by
    have hnone : s.recordedParent (s.recordParent m 0) = 0 :=
      Segment.recordedParent_recordParent (by decide)
    split
    · rw [Segment.recordedParent, Segment.wipe,
        Memory.read_fill_of_not_mem _ _ Segment.parentSlot_not_mem_body]
      exact hnone
    · exact hnone
  wiped := by
    intro hwipe x hx
    rw [if_pos hwipe] at hx
    obtain ⟨a, ha, rfl⟩ := List.mem_map.mp hx
    rw [Segment.wipe, Memory.read_fill, if_pos ha]

end Supplier

namespace Domain

variable {d d' : Domain} {words : Nat} {h hs : Handlers} {id : FiberId} {s : Segment}
  {st st' : MachineState}

/-- Obtaining writes on the segment that is obtained. -/
theorem Obtains.confines (hobtains : d.Obtains words h id st s d' st') (hs : s.Formed) :
    s.Confines st.memory st'.memory := by
  have hreinit := ((Segment.sameOutside_setHandlers (s := s) (m := st.memory) h).trans
    (Segment.sameOutside_recordParent 0)).confines hs
  cases hobtains with
  | reused => exact hreinit
  | built => exact hreinit

/-- A request is met with a segment that could have been built for it. -/
theorem Obtains.exists_built (hobtains : d.Obtains words h id st s d' st')
    (hmade : ∀ k, ∀ t ∈ d.pool.list k, d.supplier.Makes t ∧ t.poolClass = some k) :
    ∃ start, d.policy.align ∣ start ∧ s = .built d.supplier words id start := by
  cases hobtains with
  | @reused k t pool journal hclass hgains =>
      obtain ⟨hmakes, hlisted⟩ := hmade k t (by rw [hgains.front]; exact List.mem_cons_self)
      exact Segment.exists_built_of_makes hmakes hlisted hclass h id
  | built hstart hbuilt hyields => exact ⟨_, hstart, hbuilt⟩

theorem list_ofSettings (id : DomainId) (settings : Settings) (k : SizeClass) :
    (ofSettings id settings).pool.list k = [] := by
  have hnone := pooled_ofSettings id settings
  exact List.flatMap_eq_nil_iff.mp hnone k (List.mem_finRange k)

def Sorted (d : Domain) : Prop :=
  ∀ k, ∀ s ∈ d.pool.list k, s.owner = d.supplier.id ∧ s.poolClass = some k

theorem Sorted.of_obtains (h : d.Sorted) (hobtains : d.Obtains words hs id st s d' st') :
    d'.Sorted := by
  intro k t ht
  rw [hobtains.supplier_eq]
  exact h k t (hobtains.list_subset k t ht)

theorem Sorted.of_frees (h : d.Sorted) (howner : d.supplier.owner = d.supplier.id)
    (hfrees : d.Frees s st d' st') : d'.Sorted := by
  intro k t ht
  rw [hfrees.supplier_eq]
  cases hfrees with
  | released => exact h k t ht
  | kept _ hkeeps hgains =>
      rcases hgains.mem_list ht with ⟨rfl, rfl⟩ | hmem
      · obtain ⟨hsame, hclass⟩ := Pool.keeps?_eq_some_iff.mp hkeeps
        exact ⟨hsame.trans howner, hclass⟩
      · exact h k t hmem

end Domain

namespace Holdings

/-- All pooled segments are on their shelves. -/
def Stocked (w : Holdings) : Prop :=
  ∀ d ∈ w.domains, ∀ k, ∀ s ∈ d.pool.list k, d.supplier.Shelves k w.machine.memory s

/-- All pooled segments are on the list of their class, in the pool of their owner. -/
def Sorted (w : Holdings) : Prop := ∀ d ∈ w.domains, d.Sorted

/-- The states that careful callers get to. -/
inductive Reached : Holdings → Prop
  | start (source : AddressSource) : Reached (start source)
  | step {w w' : Holdings} {op : Operation} :
      Reached w → w.Step op w' → w.Respects w' op → Reached w'

variable {w w' : Holdings} {added removed : List FiberId} {d : Domain} {s : Segment}
  {op : Operation} {i : Nat} {k : SizeClass}

theorem mem_pooled (hd : d ∈ w.domains) (hs : s ∈ d.pool.list k) : s ∈ w.pooled :=
  mem_pooled_iff.mpr ⟨d, hd, k, hs⟩

theorem Accounted.formed_of_pooled (h : w.Accounted) (hs : s ∈ w.pooled) : s.Formed :=
  h.separate.formed s (List.mem_append_left _ (List.mem_append_right _ hs))

/-- Where segments change places, no shelf does. -/
theorem Regroups.exists_shelves {careful : Prop} {gone : List Segment}
    (h : w.Regroups careful gone w') (hd : d ∈ w'.domains) :
    ∃ d₀ ∈ w.domains, d₀.supplier = d.supplier ∧ d₀.pool.list = d.pool.list := by
  have hmem : d.shelves ∈ w.domains.map Domain.shelves := h.shelves ▸ List.mem_map_of_mem hd
  obtain ⟨d₀, hd₀, heq⟩ := List.mem_map.mp hmem
  exact ⟨d₀, hd₀, congrArg Prod.fst heq, congrArg Prod.snd heq⟩

theorem Stocked.of_regroups {gone : List Segment} (h : w.Stocked) (haccounted : w.Accounted)
    (hregroups : w.Regroups True gone w') : w'.Stocked := by
  intro d' hd' k s hs
  obtain ⟨d, hd, hsupplier, hlist⟩ := hregroups.exists_shelves hd'
  rw [← hlist] at hs
  have hpooled := mem_pooled hd hs
  exact hsupplier ▸ (h d hd k s hs).congr (haccounted.formed_of_pooled hpooled)
    (hregroups.spared trivial s hpooled)

theorem Stocked.of_obtains {words : Nat} {d' : Domain} {h : Handlers} {id : FiberId}
    {st : MachineState} (hstocked : w.Stocked) (haccounted : w.Accounted)
    (hd : w.domains[i]? = some d) (hobtains : d.Obtains words h id w.machine s d' st) :
    ({ w with hands := [s] :: w.hands }.put i d' st).Stocked := by
  intro d₁ hd₁ k t ht
  have hmove : w.Move True [id] [] ({ w with hands := [s] :: w.hands }.put i d' st) :=
    .obtain hd hobtains
  have hafter := haccounted.of_move hmove
  have hs : s ∈ ({ w with hands := [s] :: w.hands }.put i d' st).held :=
    mem_held_of_hands (j := 0) rfl (List.mem_singleton_self s)
  obtain ⟨d₀, hd₀, hsupplier, ht₀⟩ : ∃ d₀ ∈ w.domains, d₀.supplier = d₁.supplier ∧
      t ∈ d₀.pool.list k := by
    rcases List.mem_or_eq_of_mem_set hd₁ with hmem | rfl
    · exact ⟨d₁, hmem, rfl, ht⟩
    · exact ⟨d, List.mem_of_getElem? hd, hobtains.supplier_eq.symm, hobtains.list_subset k t ht⟩
  have hpooled := mem_pooled hd₁ ht
  -- Obtaining writes on the segment that is obtained, and the pooled one is apart from it.
  refine hsupplier ▸
    (hstocked d₀ hd₀ k t ht₀).congr (hafter.formed_of_pooled hpooled) fun a ha => ?_
  exact hobtains.confines (hafter.formed_of_held hs) a fun hown =>
    hafter.apart_of_held hs hpooled a hown ha

theorem Stocked.of_frees {d' : Domain} {st : MachineState} {hands : List Chain}
    (hstocked : w.Stocked) (haccounted : w.Accounted) (hd : w.domains[i]? = some d)
    (hhands : w.hands = [s] :: hands) (hfrees : d.Frees s w.machine d' st) :
    ({ w with hands, released := w.released ++ d.pool.refused [s] }.put i d' st).Stocked := by
  intro d₁ hd₁ k t ht
  have hs : s ∈ w.held := mem_held_of_hands (j := 0) (congrArg (·[0]?) hhands)
    (List.mem_singleton_self s)
  have hpresent := List.mem_of_getElem? hd
  obtain ⟨howner, -⟩ := haccounted.numbered d.supplier (List.mem_map_of_mem hpresent)
  -- What was pooled before stays so, since freeing writes on the freed segment.
  have hold : ∀ d₀ ∈ w.domains, d₀.supplier = d₁.supplier → t ∈ d₀.pool.list k →
      d₁.supplier.Shelves k st.memory t := by
    intro d₀ hd₀ hsupplier ht₀
    have hpooled := mem_pooled hd₀ ht₀
    refine hsupplier ▸ (hstocked d₀ hd₀ k t ht₀).congr (haccounted.formed_of_pooled hpooled)
      fun a ha => ?_
    exact hfrees.confines (haccounted.formed_of_held hs) a fun hown =>
      haccounted.apart_of_held hs hpooled a hown ha
  rcases List.mem_or_eq_of_mem_set hd₁ with hmem | rfl
  · exact hold d₁ hmem rfl ht
  · have hsupplier := hfrees.supplier_eq
    cases hfrees with
    | released hmagic hkeeps => exact hold d hpresent hsupplier.symm ht
    | @kept j pool journal hmagic hkeeps hgains =>
        rcases hgains.mem_list ht with ⟨rfl, rfl⟩ | hmem
        · obtain ⟨hsame, hclass⟩ := Pool.keeps?_eq_some_iff.mp hkeeps
          rw [hsupplier]
          exact Supplier.shelves_of_kept (hsame.trans howner) hclass hmagic
        · exact hold d hpresent hsupplier.symm hmem

theorem Stocked.of_move (h : w.Stocked) (haccounted : w.Accounted)
    (hmove : w.Move True added removed w') : w'.Stocked := by
  cases hmove with
  | regroup hregroups => exact h.of_regroups haccounted hregroups
  | obtain hd hobtains => exact h.of_obtains haccounted hd hobtains
  | free hd hhands hfrees => exact h.of_frees haccounted hd hhands hfrees
  | create =>
      intro d hd k s hs
      rcases List.mem_append.mp hd with hmem | hmem
      · exact h d hmem k s hs
      · rw [List.mem_singleton.mp hmem, Domain.list_ofSettings] at hs
        cases hs
  | drop hd => exact fun d hmem => h d (List.mem_of_mem_eraseIdx hmem)

/-- In the states that careful callers get to, all segments are accounted for and all pooled ones
are on their shelves. -/
theorem Reached.stocked (h : Reached w) : w.Accounted ∧ w.Stocked := by
  induction h with
  | start source => exact ⟨accounted_start source, by simp [Stocked, Holdings.start]⟩
  | step _ hstep hrespects ih =>
      obtain ⟨haccounted, hstocked⟩ := ih
      have hdecomposes : Decomposes True _ _ _ :=
        decomposes_of_step haccounted hstep fun _ => hrespects
      obtain ⟨added, removed, hmoves, -⟩ := hdecomposes
      clear hstep hrespects
      induction hmoves with
      | refl => exact ⟨haccounted, hstocked⟩
      | tail _ hmove ih =>
          obtain ⟨hbefore, hstock⟩ := ih
          exact ⟨hbefore.of_move hmove, hstock.of_move hbefore hmove⟩

theorem Reached.formed_of_running (h : Reached w) (hd : w.domains[i]? = some d)
    (hs : s ∈ d.running) : s.Formed ∧ s.magic = segmentMagic := by
  obtain ⟨haccounted, -⟩ := h.stocked
  have hheld := mem_held_of_running hd hs
  exact ⟨haccounted.formed_of_held hheld,
    haccounted.tagged s (List.mem_append_left _ (List.mem_append_left _ hheld))⟩

theorem Stocked.sorted (h : w.Stocked) : w.Sorted :=
  fun d hd k s hs => ⟨(h d hd k s hs).owner, (h d hd k s hs).poolClass⟩

theorem Accounted.made_of_sorted (h : w.Accounted) (hsorted : w.Sorted) (hd : d ∈ w.domains)
    (k : SizeClass) : ∀ s ∈ d.pool.list k, d.supplier.Makes s ∧ s.poolClass = some k := by
  intro s hs
  obtain ⟨howner, hclass⟩ := hsorted d hd k s hs
  refine ⟨h.made s ?_ d.supplier (List.mem_map_of_mem hd) howner, hclass⟩
  exact List.mem_append_left _ (List.mem_append_right _ (mem_pooled hd hs))

/-- A request is met by a segment of the size that it asks for. -/
theorem Accounted.bodyWords_of_allocNoExc {words : Nat} {hs : Handlers} {id : FiberId}
    {d' : Domain} {st st' : MachineState} (h : w.Accounted) (hsorted : w.Sorted)
    (hd : d ∈ w.domains) (hrun : d.allocNoExc words hs id st = .ok (some s, d') st') :
    s.bodyWords = Size.roundUp words 2 := by
  obtain ⟨start, haligned, hbuilt⟩ :=
    (Domain.obtains_of_allocNoExc hrun).exists_built (h.made_of_sorted hsorted hd)
  rw [hbuilt, Segment.bodyWords_built haligned]

theorem Reached.made (h : Reached w) (hd : d ∈ w.domains) (k : SizeClass) :
    ∀ s ∈ d.pool.list k, d.supplier.Makes s ∧ s.poolClass = some k :=
  h.stocked.1.made_of_sorted h.stocked.2.sorted hd k

theorem Reached.bodyWords_of_allocNoExc {words : Nat} {hs : Handlers} {id : FiberId} {d' : Domain}
    {st st' : MachineState} (h : Reached w) (hd : d ∈ w.domains)
    (hrun : d.allocNoExc words hs id st = .ok (some s, d') st') :
    s.bodyWords = Size.roundUp words 2 :=
  h.stocked.1.bodyWords_of_allocNoExc h.stocked.2.sorted hd hrun

theorem Reached.words_le {words : Nat} {hs : Handlers} {id : FiberId} {d' : Domain}
    {st st' : MachineState} (h : Reached w) (hd : d ∈ w.domains)
    (hrun : d.allocNoExc words hs id st = .ok (some s, d') st') :
    words * wordBytes ≤ s.high - s.base := by
  have hwords : words ≤ s.bodyWords := by
    rw [h.bodyWords_of_allocNoExc hd hrun]
    exact Size.le_roundUp (by decide) words
  exact (Nat.mul_le_mul_right _ hwords).trans (Nat.div_mul_le_self _ _)

/-- Every pooled segment is on its shelf and has the size of its class. So a request is met, from
the pool or not, with a segment of the size that is asked for that differs from a new one in its
address and in the words of its body. -/
theorem stock_of_reached (hreached : Reached w) :
    (∀ d ∈ w.domains, ∀ k, ∀ s ∈ d.pool.list k,
      d.supplier.Shelves k w.machine.memory s ∧
        s.bodyWords = Size.roundUp (d.pool.baseWords <<< k.val) 2) ∧
      ∀ d ∈ w.domains, ∀ words h id s d' st,
        d.allocNoExc words h id w.machine = .ok (some s, d') st →
          s.Obtained w.machine.memory st.memory h id ∧
            s.bodyWords = Size.roundUp words 2 ∧
            s.owner = d.id ∧
            s.poolClass = d.pool.classFor? words ∧
            ∃ start, d.policy.align ∣ start ∧ s = .built d.supplier words id start := by
  obtain ⟨haccounted, hstocked⟩ := hreached.stocked
  refine ⟨fun d hd k s hs => ⟨hstocked d hd k s hs, ?_⟩, fun d hd words h id s d' st hrun => ?_⟩
  · obtain ⟨⟨words, start, haligned, hbare⟩, hclass⟩ := hreached.made hd k s hs
    obtain ⟨-, hbase, hhigh, hclasses, -⟩ := Segment.bare_eq_iff.mp hbare
    have hbuilt : SizeClass.forSize? words d.pool.baseWords = some k := hclasses.symm.trans hclass
    rw [Nat.shiftLeft_eq, ← SizeClass.eq_of_forSize?_eq_some hbuilt,
      ← Segment.bodyWords_built haligned, Segment.bodyWords, Segment.bodyWords, hbase, hhigh]
  · obtain ⟨i, hi⟩ := List.mem_iff_getElem?.mp hd
    have hobtains := Domain.obtains_of_allocNoExc hrun
    obtain ⟨hobtained, -, -⟩ := Domain.allocated_of_allocNoExc (haccounted.kept_apart hi) hrun
    obtain ⟨start, haligned, hbuilt⟩ := hobtains.exists_built (hreached.made hd)
    refine ⟨hobtained, ?_, ?_, ?_, start, haligned, hbuilt⟩
    · rw [hbuilt, Segment.bodyWords_built haligned]
    · rw [hbuilt]
      rfl
    · rw [hbuilt]
      rfl

/-! ### A fiber that is freed and obtained again -/

namespace Recycled

def handlers : Handlers := ⟨3, 5, 7⟩

theorem recycles : ∃ d₀ st₀ d₁ st₁ s d₂ st₂ d₃ st₃ t d₄ st₄,
    Domain.create Settings.standard MachineState.initial = .ok d₀ st₀ ∧
      d₀.startMain st₀ = .ok (.ok (), d₁) st₁ ∧ d₁.alloc handlers st₁ = .ok (.ok s, d₂) st₂ ∧
      d₂.free [s] st₂ = .ok d₃ st₃ ∧
      d₃.allocNoExc d₃.fiberWords handlers ⟨2⟩ st₃ = .ok (some t, d₄) st₄ ∧
      s ∈ d₃.pool.list 0 ∧ t.base = s.base := by
  have h : Run.answers (Domain.create Settings.standard) .initial (fun d₀ st₀ =>
      Run.succeeds d₀.startMain st₀ fun _ d₁ st₁ =>
      Run.succeeds (d₁.alloc handlers) st₁ fun s d₂ st₂ =>
      Run.answers (d₂.free [s]) st₂ fun d₃ st₃ =>
      Run.answers (d₃.allocNoExc d₃.fiberWords handlers ⟨2⟩) st₃ fun r _ => r.1.any fun t =>
        decide (s ∈ d₃.pool.list 0 ∧ t.base = s.base)) = true := by
    decide +kernel
  obtain ⟨d₀, st₀, hcreate, h⟩ := Run.exists_of_answers h
  obtain ⟨_, d₁, st₁, hstart, h⟩ := Run.exists_of_succeeds h
  obtain ⟨s, d₂, st₂, halloc, h⟩ := Run.exists_of_succeeds h
  obtain ⟨d₃, st₃, hfree, h⟩ := Run.exists_of_answers h
  obtain ⟨⟨t?, d₄⟩, st₄, hagain, h⟩ := Run.exists_of_answers h
  obtain ⟨t, rfl, h⟩ := (Option.any_eq_true _ _).mp h
  obtain ⟨hpooled, hbase⟩ := of_decide_eq_true h
  exact ⟨d₀, st₀, d₁, st₁, s, d₂, st₂, d₃, st₃, t, d₄, st₄, hcreate, hstart, halloc, hfree, hagain,
    hpooled, hbase⟩

/-- The second fiber gets the memory of the first one, and a segment as good as new. -/
theorem obtained_again : ∃ w d s t d' st, Reached w ∧ d ∈ w.domains ∧ s ∈ d.pool.list 0 ∧
    d.allocNoExc d.fiberWords handlers ⟨2⟩ w.machine = .ok (some t, d') st ∧ t.base = s.base ∧
    d.supplier.Shelves 0 w.machine.memory s ∧
    t.Obtained w.machine.memory st.memory handlers ⟨2⟩ ∧
    t.bodyWords = Size.roundUp d.fiberWords 2 := by
  obtain ⟨d₀, st₀, d₁, st₁, s, d₂, st₂, d₃, st₃, t, d₄, st₄, hcreate, hstart, halloc, hfree,
    hagain, hpooled, hbase⟩ := recycles
  have hcreated := (Reached.start .ascending).step (.createDomain hcreate) trivial
  have hstarted := hcreated.step (.startMain (i := 0) rfl hstart) trivial
  have hallocated := hstarted.step (.alloc (i := 0) rfl halloc) trivial
  have hfreed := hallocated.step (.free (i := 0) (j := 0) rfl rfl hfree) trivial
  obtain ⟨hshelves, hobtained⟩ := stock_of_reached hfreed
  have hd₃ := List.mem_singleton_self d₃
  obtain ⟨hobtained, hsize, -⟩ := hobtained d₃ hd₃ d₃.fiberWords handlers ⟨2⟩ t d₄ st₄ hagain
  exact ⟨_, d₃, s, t, d₄, st₄, hfreed, hd₃, hpooled, hagain, hbase,
    (hshelves d₃ hd₃ 0 s hpooled).1, hobtained, hsize⟩

end Recycled

end Holdings

end FiberStacks
