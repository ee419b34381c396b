import FiberStacks.Proofs.Scan.Once
import FiberStacks.Proofs.Scan.Poison

/-!
# Scanning twice

A scan with poisoning on overwrites the fields of the blocks that no root leads to, and free words
of the arenas. It leaves the blocks that it reached and the markers between blocks as they are. So a
second scan steers by the same words on the stacks, comes by the same frames and blocks, and makes
the same report.
-/

namespace FiberStacks

/-- No word below is one that a walk from the position steers by. -/
def WalkPosition.floor : WalkPosition → Nat
  | chunk sp _ => sp
  | frame sp _ _ => sp - wordBytes

namespace Scanner

/-- The word is kept and is no header, so marks do not change it. -/
def Firm (blocks : List LocalBlock) (keep : Nat → Prop) (address : Nat) : Prop :=
  keep address ∧ ∀ b ∈ blocks, address ≠ b.header

variable {sc : Scanner} {m₀ : Memory} {arenas : List Arena} {blocks : List LocalBlock}
  {found : LocalBlock → Prop} {keep : Nat → Prop} {p p' q : Progress} {slots told : List Nat}
  {registers : Option Nat}

theorem Marks.read_of_firm {m : Memory} {a : Nat} (h : sc.Marks m₀ m blocks found keep)
    (ha : Firm blocks keep a) : m.read a = m₀.read a :=
  h.kept a ha.1 ha.2

theorem Marks.read_eq_of_firm {m m' : Memory} {found' : LocalBlock → Prop} {a : Nat}
    (h : sc.Marks m₀ m blocks found keep) (h' : sc.Marks m₀ m' blocks found' keep)
    (ha : Firm blocks keep a) : m.read a = m'.read a :=
  (h.read_of_firm ha).trans (h'.read_of_firm ha).symm

/-! ### Stacks -/

/-- To a collector that only looks it makes no difference which locations it is told of. -/
theorem Followable.observing
    (h : sc.Followable Visitor.observe m₀ arenas blocks keep slots told) (told' : List Nat) :
    sc.Followable Visitor.observe m₀ arenas blocks keep slots told' :=
  { h with
    heap := fun slot hslot a ha houtside => ⟨(h.heap slot hslot a ha houtside).1, .inl rfl⟩
    targets := fun slot hslot b hb hnames i hi =>
      ⟨(h.targets slot hslot b hb hnames i hi).1, .inl rfl⟩
    headers := fun _ _ => .inl rfl
    fresh := .inl rfl }

theorem classifyAll_traced (hs : sc.Views m₀ arenas blocks)
    (hslots : sc.Followable Visitor.observe m₀ arenas blocks keep slots told)
    (h : sc.Marks m₀ p.memory blocks found keep) :
    ∃ q, sc.classifyAll slots p = .ok () q ∧ sc.Traced m₀ blocks found keep slots p q := by
  obtain ⟨q, hrun, hfollowed⟩ := classifyAll_followed hs (hslots.observing (slots ++ [])) h
  rw [reportingTo_observe hs.observes] at hrun
  exact ⟨q, hrun, hfollowed.traced⟩

theorem Walked.traced {high : Nat} {position : WalkPosition} {chunks : List MetChunk}
    {frames : List MetFrame} (hwalked : Walked sc high position p frames chunks q)
    (hs : sc.Views m₀ arenas blocks)
    (hslots : sc.Followable Visitor.observe m₀ arenas blocks keep
      (frames.flatMap (MetFrame.slots position.registers) ++ chunks.flatMap MetChunk.slots) told)
    (h : sc.Marks m₀ p.memory blocks found keep) :
    sc.Traced m₀ blocks found keep (frames.flatMap (MetFrame.slots position.registers) ++
      chunks.flatMap MetChunk.slots) p q := by
  rw [← reportingTo_observe hs.observes] at hwalked
  exact (hwalked.followed [] hs h (hslots.observing _)).traced

/-- A walk can be taken again where memory holds the same words but for other marks. -/
theorem Walked.again {high : Nat} {position : WalkPosition} {chunks : List MetChunk}
    {frames : List MetFrame} (hwalked : Walked sc high position p frames chunks q)
    (hs : sc.Views m₀ arenas blocks)
    (hslots : sc.Followable Visitor.observe m₀ arenas blocks keep
      (frames.flatMap (MetFrame.slots position.registers) ++ chunks.flatMap MetChunk.slots) told)
    (hfirm : ∀ a, position.floor ≤ a → a < high → Firm blocks keep a)
    (h : sc.Marks m₀ p.memory blocks found keep) (h' : sc.Marks m₀ p'.memory blocks found keep) :
    ∃ q', Walked sc high position p' frames chunks q' := by
  -- Every word that the first walk steered by is firm, so the second one goes the same way.
  induction hwalked generalizing found p' with
  | finish top => exact ⟨p', .finish top⟩
  | @enter sp registers p q frames later top _ ih =>
      have hle := sc.le_chunkTop high sp
      have hsteer := hfirm _ hle top
      rw [h.read_eq_of_firm h' hsteer] at ih
      obtain ⟨q', hrest⟩ :=
        ih hslots (fun a ha => hfirm a (Nat.le_trans hle ha)) h (h'.logging [.steer _])
      exact ⟨q', .enter top hrest⟩
  | @boundary sp returnAddress registers p q d chunks described native inside _ ih =>
      have hle : sp - wordBytes ≤ sp + chunkHeaderBytes := by omega
      have hsteer := hfirm _ hle inside
      rw [h.read_eq_of_firm h' hsteer] at ih
      obtain ⟨q', hrest⟩ := ih hslots
        (fun a ha => hfirm a (Nat.le_trans hle (Nat.le_trans (Nat.le_add_right _ _) ha))) h
        (h'.logging [.steer _, .lookup _ _])
      exact ⟨q', .boundary described native inside hrest⟩
  | @frame sp returnAddress registers p u q d frames later described compiled reaches visited
      positive sized inside _ ih =>
      rw [List.flatMap_cons, List.append_assoc] at hslots
      have hframe := hslots.of_subset (List.subset_append_left _ _)
      obtain ⟨_, hagain, hu⟩ :=
        classifyAll_traced hs hframe (h.logging [.lookup returnAddress sp])
      cases hagain.symm.trans visited
      obtain ⟨u', hvisited, hu'⟩ :=
        classifyAll_traced hs hframe (h'.logging [.lookup returnAddress sp])
      have hle : sp - wordBytes ≤ sp + d.frameSize - wordBytes := by omega
      have hsteer := hfirm (sp + d.frameSize - wordBytes) hle (by simp only [wordBytes]; omega)
      rw [hu.marks.read_eq_of_firm hu'.marks hsteer] at ih
      obtain ⟨q', hrest⟩ := ih (hslots.of_subset (List.subset_append_right _ _))
        (fun a ha => hfirm a (Nat.le_trans hle ha)) hu.marks (hu'.marks.logging [.steer _])
      exact ⟨q', .frame described compiled reaches hvisited positive sized inside hrest⟩

/-- A collector that only looks is told of the handlers with the words in them. -/
theorem visitHandlers_run (hobserve : sc.visitor = Visitor.observe) (s : Segment) (p : Progress) :
    ∃ q, sc.visitHandlers s p = .ok () q ∧ q.memory = p.memory ∧
      q.visits = (s.handlerSlots.map fun a => ⟨p.memory.read a, a⟩).reverse ++ p.visits := by
  unfold visitHandlers
  rw [List.forM_eq_forM]
  generalize s.handlerSlots = slots
  induction slots generalizing p with
  | nil => exact ⟨p, rfl, rfl, rfl⟩
  | cons a slots ih =>
      obtain ⟨q, hrun, hmemory, hvisits⟩ :=
        ih ((p.logging [.classify a]).reporting ⟨p.memory.read a, a⟩)
      refine ⟨q, Run.forM_cons_eq_ok_iff.mpr ⟨_, ?_, hrun⟩, hmemory, ?_⟩
      · rw [Run.bind_of_ok (Scan.slotWord_run a p)]
        exact visit_observe hobserve _ _ _
      · rw [hvisits, List.map_cons, List.reverse_cons, List.append_assoc]
        rfl

/-- A chain can be scanned again, with the same visits. -/
theorem Scanned.again {chain : Chain} {met : List MetStack}
    (hscanned : Scanned sc registers chain p met q) (hs : sc.Views m₀ arenas blocks)
    (hslots : sc.Followable Visitor.observe m₀ arenas blocks keep
      (met.flatMap fun s => s.chunks.flatMap MetChunk.slots) told)
    (hfirm : ∀ s ∈ chain, ∀ a, s.Occupies a → Firm blocks keep a)
    (h : sc.Marks m₀ p.memory blocks found keep) (h' : sc.Marks m₀ p'.memory blocks found keep) :
    ∃ q', Scanned sc registers chain p' met q' := by
  -- On the chain: `found` grows by what each segment marks, in both scans alike.
  induction hscanned generalizing found p' with
  | nil => exact ⟨p', .nil⟩
  | @cons s outer p u v q chunks visits met walked handled told rest ih =>
      rw [List.flatMap_cons] at hslots
      have hchunks : sc.Followable Visitor.observe m₀ arenas blocks keep
          ([].flatMap (MetFrame.slots registers) ++ chunks.flatMap MetChunk.slots) _ :=
        hslots.of_subset (List.subset_append_left _ _)
      have hfirst := hfirm s List.mem_cons_self
      obtain ⟨u', walked'⟩ := walked.again hs hchunks (fun a hle hlt =>
        hfirst a ⟨hle, Nat.lt_add_right _ hlt⟩) h h'
      have hu := walked.traced hs hchunks h
      have hu' := walked'.traced hs hchunks h'
      obtain ⟨_, hagain, hmemory, hvisits⟩ := visitHandlers_run hs.observes s u
      cases hagain.symm.trans handled
      obtain ⟨v', handled', hmemory', hvisits'⟩ := visitHandlers_run hs.observes s u'
      -- Handlers are not classified, so their words matter here, and not only where they point.
      have hwords : ∀ a ∈ s.handlerSlots, u'.memory.read a = u.memory.read a := by
        intro a ha
        obtain ⟨i, hi, rfl⟩ := Memory.mem_span_iff.mp ha
        have hsp := walked.sp_le_high
        have hhandler : Firm blocks keep (s.high + wordBytes * i) := by
          refine hfirst _ ⟨Nat.le_trans hsp (Nat.le_add_right _ _), ?_⟩
          simp only [handlerBlockBytes, wordBytes]
          omega
        exact hu'.marks.read_eq_of_firm hu.marks hhandler
      have htold : v'.visits = visits.reverse ++ p'.visits := by
        rw [hvisits, hu.visits, ← List.append_assoc] at told
        rw [hvisits', hu'.visits, ← List.append_assoc, ← List.append_cancel_right told,
          List.map_congr_left fun a ha => by rw [hwords a ha]]
      obtain ⟨q', hrest⟩ := ih (hslots.of_subset (List.subset_append_right _ _))
        (fun t ht => hfirm t (List.mem_cons_of_mem s ht))
        (show sc.Marks m₀ v.finishing.memory blocks _ keep from hmemory ▸ hu.marks)
        (show sc.Marks m₀ v'.finishing.memory blocks _ keep from hmemory' ▸ hu'.marks)
      exact ⟨q', .cons walked' handled' htold hrest⟩

/-! ### Roots -/

/-- The roots can be scanned again, with the same visits, and mark the same blocks. -/
theorem Rooted.again {tables : List (List Nat)} {chain : Chain}
    (hrooted : sc.Rooted tables registers chain p slots q)
    (hs : sc.Views p.memory arenas blocks) (hnative : sc.ctx.mode = .native)
    (hslots : sc.Followable Visitor.observe p.memory arenas blocks keep slots told)
    (hentries : ∀ entry ∈ tables.flatten, Firm blocks keep entry)
    (hfirm : ∀ s ∈ chain, ∀ a, s.Occupies a → Firm blocks keep a)
    (h' : sc.Marks p.memory p'.memory blocks (fun _ => False) keep) :
    ∃ q' seen, sc.Rooted tables registers chain p' slots q' ∧
      q.visits = seen ++ p.visits ∧ q'.visits = seen ++ p'.visits ∧
      sc.Marks p.memory q'.memory blocks
        (fun b => ∃ slot ∈ slots, sc.Hits p.memory b (p.memory.read slot)) keep := by
  obtain ⟨u, met, htables, hscanned, rfl⟩ := hrooted
  have hobserve := reportingTo_observe hs.observes
  have hused := (hslots.of_subset (List.subset_append_left _ _)).observing
    ((tables.flatten.filter fun entry => p.memory.read entry ≠ Word.null) ++ [])
  have hlive := hslots.of_subset (List.subset_append_right _ _)
  have hunused : ∀ entry ∈ tables.flatten, p.memory.read entry = Word.null → keep entry :=
    fun entry hentry _ => (hentries entry hentry).1
  obtain ⟨_, hagain, hu⟩ := scanEntries_followed hs hnative hunused hused (.of_views hs)
  obtain ⟨u', htables', hu'⟩ := scanEntries_followed hs hnative hunused hused h'
  rw [hobserve] at hagain htables'
  cases hagain.symm.trans htables
  obtain ⟨q', hscanned'⟩ := hscanned.again hs hlive hfirm hu.traced.marks hu'.traced.marks
  have hvisits := hscanned.visits_eq
  have hvisits' := hscanned'.visits_eq
  rw [hu.visits, ← List.append_assoc] at hvisits
  rw [hu'.visits, ← List.append_assoc] at hvisits'
  refine ⟨q', _, ⟨u', met, htables', hscanned', ?_⟩, hvisits, hvisits', ?_⟩
  · congr 1
    refine List.filter_congr fun entry hentry => ?_
    rw [h'.read_of_firm (hentries entry hentry)]
  · rw [← hobserve] at hscanned'
    have hmarks := hscanned'.marks hs hu'.traced.marks (hlive.observing _)
    refine (hmarks.congr fun b _ => ?_).of_kept (fun _ _ => rfl) fun _ ha => ⟨⟨ha, .inl rfl⟩, rfl⟩
    simp only [false_or, List.mem_append, or_and_right, exists_or]

/-! ### Local blocks -/

/-- After a pass the blocks have no marks, and words that nothing overwrites are as they were. -/
theorem Passed.marks (h : sc.Passed Visitor.observe m₀ arenas blocks found keep
      (arenas.length - 1) blocks p q) (hd : sc.Downhill m₀ arenas blocks) :
    sc.Marks m₀ q.memory blocks (fun _ => False)
      fun a => keep a ∧ ¬ Wasted m₀ arenas blocks found 0 blocks a := by
  obtain ⟨last, -, hpassing⟩ := h.memory
  refine (hpassing.marks.congr fun b hb => ?_).of_kept (fun _ _ => rfl) fun a ha => ⟨?_, rfl⟩
  · rw [marked_nil_iff hd.placed hb, iff_false]
    exact hd.linked.not_clings hd.toSurveys hb
  · have hmono := fun hwasted => ha.2 (Wasted.mono hwasted (Nat.zero_le last) (List.Subset.refl _))
    exact ⟨ha.1, hmono, .inl rfl⟩

/-- Two passes over the same blocks report the same if their roots mark the same blocks. -/
theorem Passed.visits_eq {keep' : Nat → Prop} {p' q' : Progress} {seen : List Visit}
    (h : sc.Passed Visitor.observe m₀ arenas blocks found keep (arenas.length - 1) blocks p q)
    (h' : sc.Passed Visitor.observe m₀ arenas blocks found keep' (arenas.length - 1) blocks p' q')
    (hplaced : Placed arenas blocks) (hp : p.visits = seen)
    (hp' : p'.visits = seen) : q'.visits = q.visits := by
  obtain ⟨reached, hsub, hreached, hvisits⟩ := h.reports
  obtain ⟨reached', hsub', hreached', hvisits'⟩ := h'.reports
  have hpairwise := hplaced.stacked.pairwise
  have hnodup : blocks.Nodup := hpairwise.imp fun habove => habove.ne.symm
  have hperm : reached.Perm reached' := by
    rw [List.perm_ext_iff_of_nodup (hnodup.sublist hsub) (hnodup.sublist hsub')]
    intro b
    constructor
    · intro hb
      have hmem := hsub.subset hb
      exact (hreached' b hmem).mpr ((hreached b hmem).mp hb)
    · intro hb
      have hmem := hsub'.subset hb
      exact (hreached b hmem).mpr ((hreached' b hmem).mp hb)
  have heq : reached = reached' := hperm.eq_of_pairwise
    (fun _ _ _ _ habove habove' => absurd habove' habove.asymm) (hpairwise.sublist hsub)
    (hpairwise.sublist hsub')
  rw [hvisits, hvisits', hp, hp', heq]

/-- From `m` to `m'` the fields of the blocks without the property were overwritten. The blocks with
it are as they were. So are words between blocks in the newest arena, such as markers, and all words
outside of the arenas. -/
structure OverwritesUnreached (r : Region) (blocks : List LocalBlock) (reached : LocalBlock → Prop)
    (m m' : Memory) : Prop where
  dead : ∀ b ∈ blocks, ¬ reached b → ∀ a ∈ Memory.span b.block b.wosize,
    m'.read a = Word.deadLocal
  kept : ∀ b ∈ blocks, reached b → ∀ a ∈ Memory.span b.block b.wosize, m'.read a = m.read a
  between : ∀ newest, r.arenas.getLast? = some newest → ∀ a : Nat, newest.Holds a →
    (newest.base + newest.length : Int) + r.sp ≤ a → (∀ b ∈ blocks, ¬ b.Spans a) →
    m'.read a = m.read a
  outside : ∀ a, Outside r.arenas a → m'.read a = m.read a

theorem Passed.overwritesUnreached {r : Region}
    (h : sc.Passed Visitor.observe m₀ r.arenas blocks found (fun _ => True)
      (r.arenas.length - 1) blocks p q)
    (hd : sc.Downhill m₀ r.arenas blocks) (hsp : r.sp = -(extent blocks : Int)) :
    OverwritesUnreached r blocks (Reaches m₀ blocks found) m₀ q.memory where
  dead := fun b hb hreaches a ha => h.dead_of_unreached hb hreaches ha
  kept := by
    intro b hb hreaches a ha
    obtain ⟨hspans, -⟩ := spans_of_mem_fields ha
    refine h.kept trivial (fun _ _ hfree => hfree.not_spans hd.placed hb hspans)
      (fun c hc hfield => ?_) (.inl rfl) fun c hc => ?_
    · rwa [hd.placed.eq_of_spans hc hb (spans_of_mem_fields hfield).1 hspans]
    · obtain ⟨i, hi, rfl⟩ := Memory.mem_span_iff.mp ha
      exact hd.ne_header_of_field hb hi hc
  between := by
    intro newest hnewest a hholds hle hbetween
    rw [List.getLast?_eq_getElem?] at hnewest
    refine h.kept trivial (fun index _ hfree => ?_)
      (fun b hb hfield => absurd (spans_of_mem_fields hfield).1 (hbetween b hb)) (.inl rfl)
      fun b hb heq => hbetween b hb (heq ▸ b.spans_header)
    obtain ⟨-, x, hx, hxholds, -⟩ := id hfree
    by_cases hindex : index = r.arenas.length - 1
    · rw [hindex, freeWord_iff (List.nil_append blocks).symm hd.placed.stacked (by simp)
        hnewest] at hfree
      have hbelow := hfree.2.2
      unfold Arena.down at hbelow
      omega
    · exact hd.placed.arranged.not_holds hx hnewest hindex hxholds hholds
  outside := by
    intro a houtside
    have hwasted : ¬ Wasted m₀ r.arenas blocks found 0 blocks a :=
      not_wasted_of_outside hd.placed (List.Subset.refl blocks) houtside
    exact (h.marks hd).kept a ⟨trivial, hwasted⟩ fun b hb =>
      houtside.ne_header (hd.placed.placed b hb)

/-- The entries of root tables and the root locations hold the same words in both memories, and the
stacks are outside of the arenas. -/
structure SameRoots (arenas : List Arena) (tables : List (List Nat)) (chain : Chain)
    (roots : List Nat) (m m' : Memory) : Prop where
  entries : ∀ entry ∈ tables.flatten, m'.read entry = m.read entry
  slots : ∀ slot ∈ roots, m'.read slot = m.read slot
  apart : ∀ s ∈ chain, ∀ a, s.Occupies a → Outside arenas a

theorem sweepLocals_observed {r : Region} (hsp : r.sp = -(extent blocks : Int))
    (hd : sc.Downhill m₀ r.arenas blocks) (hnative : sc.ctx.mode = .native)
    (hlocals : sc.locals = some r.view) (harenas : r.arenas ≠ []) (hpoison : sc.ctx.poison = true)
    (hsuffices : sc.Suffices m₀ r.arenas blocks found keep)
    (hmarks : sc.Marks m₀ p.memory blocks found keep) :
    ∃ q, sc.sweepLocals p = .ok () q ∧
      sc.Passed Visitor.observe m₀ r.arenas blocks found keep (r.arenas.length - 1) blocks p q := by
  have h : ∃ q, (sc.reportingTo Visitor.observe).sweepLocals p = .ok () q ∧ _ :=
    sweepLocals_passed hsp hd hnative hlocals harenas hpoison hsuffices hmarks
  rwa [reportingTo_observe hd.observes] at h

/-! ### The second scan -/

/-- The locations that a first scan came by can be classified by a second one. -/
theorem OverwritesUnreached.followable {r : Region} {m : Memory}
    (h : OverwritesUnreached r blocks (Reaches m₀ blocks fun b =>
      ∃ slot ∈ slots, b.PointedAt m₀ (m₀.read slot)) m₀ m)
    (hs : sc.Surveys m₀ r.arenas blocks) (hsame : ∀ slot ∈ slots, m.read slot = m₀.read slot)
    (hslots : ∀ slot ∈ slots, sc.Admissible r.arenas m₀ blocks slot) (told : List Nat) :
    sc.Followable Visitor.observe m₀ r.arenas blocks (fun a => m.read a = m₀.read a) slots
      told where
  kept := hsame
  apart := fun slot hslot => (hslots slot hslot).apart
  lawful := fun slot hslot => (hslots slot hslot).acceptable.lawful
  heap := fun _ _ a _ houtside => ⟨h.outside a houtside, .inl rfl⟩
  targets := fun slot hslot b hb hnames i hi => by
    have hpointed := (hs.names_iff hb (hslots slot hslot).legal).mp hnames
    refine ⟨h.kept b hb (.start hb ⟨slot, hslot, hpointed⟩) _ ?_, .inl rfl⟩
    exact Memory.mem_span_iff.mpr ⟨i, hi, rfl⟩
  headers := fun _ _ => .inl rfl
  fresh := .inl rfl

theorem Passed.suffices_again {r : Region}
    (h : sc.Passed Visitor.observe m₀ r.arenas blocks found (fun _ => True)
      (r.arenas.length - 1) blocks p q)
    (hd : sc.Downhill m₀ r.arenas blocks) (hsp : r.sp = -(extent blocks : Int)) :
    sc.Suffices m₀ r.arenas blocks found fun a => q.memory.read a = m₀.read a where
  inside := by
    intro a _ hwasted
    by_cases hheader : ∃ b ∈ blocks, a = b.header
    · obtain ⟨b, hb, rfl⟩ := hheader
      exact h.header_eq hd hb
    · exact (h.marks hd).kept a ⟨trivial, hwasted⟩ fun b hb heq => hheader ⟨b, hb, heq⟩
  heap := fun _ _ _ _ a _ houtside => (h.overwritesUnreached hd hsp).outside a houtside

/-- A scan after the first one succeeds and makes the same visits. -/
theorem Passed.scans_again {r : Region} {tables : List (List Nat)} {chain : Chain}
    (h : sc.Passed Visitor.observe m₀ r.arenas blocks
      (fun b => ∃ slot ∈ slots, b.PointedAt m₀ (m₀.read slot)) (fun _ => True)
      (r.arenas.length - 1) blocks p q)
    (hd : sc.Downhill m₀ r.arenas blocks) (hsp : r.sp = -(extent blocks : Int))
    (hnative : sc.ctx.mode = .native) (hlocals : sc.locals = some r.view)
    (harenas : r.arenas ≠ []) (hpoison : sc.ctx.poison = true)
    (hrooted : sc.Rooted tables registers chain (.start m₀) slots p)
    (hslots : ∀ slot ∈ slots, sc.Admissible r.arenas m₀ blocks slot)
    (hsame : SameRoots r.arenas tables chain slots m₀ q.memory) :
    ∃ p' q', sc.scanStacks tables registers chain (.start q.memory) = .ok () p' ∧
      sc.sweepLocals p' = .ok () q' ∧ q'.visits = q.visits := by
  have hs := hd.toSurveys
  have hoverwrites := h.overwritesUnreached hd hsp
  have hentries : ∀ entry ∈ tables.flatten,
      Firm blocks (fun a => q.memory.read a = m₀.read a) entry := by
    intro entry hentry
    refine ⟨hsame.entries entry hentry, fun b hb => ?_⟩
    by_cases hnull : m₀.read entry = Word.null
    · exact fun heq => hs.header_ne_null hb (heq ▸ hnull)
    · obtain ⟨u, met, -, -, hmet⟩ := hrooted
      refine (hslots entry ?_).apart b hb
      rw [hmet]
      exact List.mem_append_left _ (List.mem_filter.mpr ⟨hentry, decide_eq_true hnull⟩)
  have hstacks : ∀ s ∈ chain, ∀ a, s.Occupies a →
      Firm blocks (fun a => q.memory.read a = m₀.read a) a := by
    intro s hchain a ha
    have houtside := hsame.apart s hchain a ha
    exact ⟨hoverwrites.outside a houtside, fun b hb => houtside.ne_header (hd.placed.placed b hb)⟩
  have hstart : sc.Marks m₀ q.memory blocks (fun _ => False) fun a => q.memory.read a = m₀.read a :=
    { h.marks hd with kept := fun _ ha _ => ha }
  obtain ⟨p', seen, hrooted', hvisits, hvisits', hmarks⟩ := hrooted.again hs.toViews hnative
    (hoverwrites.followable hs hsame.slots hslots []) hentries hstacks
    (show sc.Marks m₀ (Progress.start q.memory).memory blocks _ _ from hstart)
  have hfound := hmarks.congr fun b hb => exists_congr fun slot =>
    and_congr_right fun hslot => hs.hits_iff hb (hslots slot hslot).legal
  obtain ⟨q', hsweep, hpassed⟩ := sweepLocals_observed hsp hd hnative hlocals harenas hpoison
    (h.suffices_again hd hsp) hfound
  exact ⟨p', q', (scanStacks_eq_ok_iff hnative).mpr ⟨slots, hrooted'⟩, hsweep,
    h.visits_eq hpassed hd.placed hvisits hvisits'⟩

/-! ### Without arenas -/

theorem onward_of_scanEntries (hobserve : sc.visitor = Visitor.observe)
    (hlocals : sc.locals = none) (hnative : sc.ctx.mode = .native) {entries : List Nat}
    (hrun : (forM entries sc.scanEntry : ScanM Unit) p = .ok () q) : p.Onward q := by
  induction entries generalizing p with
  | nil =>
      cases hrun
      exact .refl _
  | cons slot entries ih =>
      obtain ⟨u, hfirst, hrest⟩ := Run.forM_cons_eq_ok_iff.mp hrun
      have hentry : p.Onward u := by
        by_cases hnull : p.memory.read slot = Word.null
        · cases (scanEntry_of_null hnull).symm.trans hfirst
          exact (Progress.Onward.refl p).logging _
        · rw [scanEntry_of_used sc hnative hnull] at hfirst
          obtain ⟨_, hclassify⟩ := Run.discard_eq_ok_iff.mp hfirst
          exact ((Progress.Onward.refl p).logging _).trans
            (lookedAt_of_classify hobserve hlocals hclassify).1
      exact hentry.trans (ih hrest)

theorem Rooted.memory_eq {tables : List (List Nat)} {chain : Chain}
    (hrooted : sc.Rooted tables registers chain p slots q) (hobserve : sc.visitor = Visitor.observe)
    (hlocals : sc.locals = none) (hnative : sc.ctx.mode = .native) : q.memory = p.memory := by
  obtain ⟨u, met, htables, hscanned, -⟩ := hrooted
  exact ((onward_of_scanEntries hobserve hlocals hnative htables).trans
    (hscanned.onward hobserve hlocals)).memory

/-- A scan that knows of no arenas changes nothing and can be made again. -/
theorem Rooted.scans_again {tables : List (List Nat)} {chain : Chain} {st : MachineState}
    (hrooted : sc.Rooted tables registers chain (.start st.memory) slots p)
    (hobserve : sc.visitor = Visitor.observe) (hlocals : sc.locals = none)
    (hnative : sc.ctx.mode = .native) :
    ∃ report st', Machine.scanRoots sc tables registers chain st = .ok report st' ∧
      report.ending = .ok () ∧ st'.memory = st.memory ∧
      ∃ again st'', Machine.scanRoots sc tables registers chain st' = .ok again st'' ∧
        again.ending = .ok () ∧ again.visits = report.visits := by
  have hscan := (scanStacks_eq_ok_iff hnative).mpr ⟨slots, hrooted⟩
  have hsweep := sweepLocals_of_none hlocals p
  obtain ⟨st', hrun, hmemory⟩ := Machine.scanRoots_of_sweep hscan hsweep
  have hsame : st'.memory = st.memory :=
    hmemory.trans (hrooted.memory_eq hobserve hlocals hnative)
  rw [← hsame] at hscan
  obtain ⟨st'', hagain, -⟩ := Machine.scanRoots_of_sweep hscan hsweep
  exact ⟨_, st', hrun, rfl, hsame, _, st'', hagain, rfl, rfl⟩

end Scanner

open Scanner in
/-- After any history of a region a scan that reads its roots ends well. If poisoning is on, it has
overwritten the fields of the blocks that it did not reach, and has left the others as they were. So
a second scan with the same roots makes the same report. -/
theorem Machine.unreached_of_scanRoots {sc : Scanner} {ctx : ScanContext} {flags : ScanOptions}
    {r : Region} {begun : List (Int × List LocalBlock)} {blocks : List LocalBlock}
    {st : MachineState} {tables : List (List Nat)} {registers : Option Nat} {chain : Chain}
    {roots : List Nat} {p : Progress}
    (hsc : sc = make ctx Visitor.observe flags (some r.view)) (hreached : r.Reached begun blocks st)
    (hnative : ctx.mode = .native) (hpoison : ctx.poison = true) (hcolors : ctx.colors.garbage < 3)
    (hyoung : ∀ b ∈ blocks, ∀ w, b.PointedAt st.memory w → ctx.young w = false)
    (hlinked : sc.Linked r.arenas st.memory blocks)
    (hrooted : sc.Rooted tables registers chain (.start st.memory) roots p)
    (hroots : ∀ slot ∈ roots, sc.Admissible r.arenas st.memory blocks slot) :
    ∃ report st', scanRoots sc tables registers chain st = .ok report st' ∧
      report.ending = .ok () ∧
      OverwritesUnreached r blocks (Reaches st.memory blocks fun b =>
        ∃ slot ∈ roots, b.PointedAt st.memory (st.memory.read slot)) st.memory st'.memory ∧
      (SameRoots r.arenas tables chain roots st.memory st'.memory →
        ∃ again st'', scanRoots sc tables registers chain st' = .ok again st'' ∧
          again.ending = .ok () ∧ again.visits = report.visits) := by
  have hlaid := hreached.laid
  have hobserve : sc.visitor = Visitor.observe := by rw [hsc]; rfl
  have hnativeSc : sc.ctx.mode = .native := by rw [hsc]; exact hnative
  by_cases harenas : r.arenas = []
  · have hlocals : sc.locals = none := by rw [hsc, locals_make_of_nil harenas]
    have hnone := not_mem_of_laid hlaid harenas
    obtain ⟨report, st', hrun, hending, hsame, hagain⟩ :=
      hrooted.scans_again hobserve hlocals hnativeSc
    refine ⟨report, st', hrun, hending, ⟨fun b hb => absurd hb (hnone b),
      fun b hb => absurd hb (hnone b), fun newest hnewest => ?_, fun a _ => by rw [hsame]⟩,
      fun _ => hagain⟩
    rw [harenas] at hnewest
    cases hnewest
  · have hlocals : sc.locals = some r.view := by rw [hsc, locals_make_of_ne_nil harenas]
    have hpoisonSc : sc.ctx.poison = true := by rw [hsc]; exact hpoison
    have hs := surveys_of_make hsc hlaid hcolors hyoung harenas
    have hd := downhill_of_reached hreached hs hlinked
    have hscan := (scanStacks_eq_ok_iff hnativeSc).mpr ⟨roots, hrooted⟩
    obtain ⟨q, hsweep, hpassed⟩ := sweepLocals_observed hlaid.offset hd hnativeSc hlocals harenas
      hpoisonSc ⟨fun _ _ _ => trivial, fun _ _ _ _ _ _ _ => trivial⟩
      (hrooted.marks hs hnativeSc hroots)
    obtain ⟨st', hrun, hmemory⟩ := scanRoots_of_sweep hscan hsweep
    refine ⟨_, st', hrun, rfl, ?_, fun hsame => ?_⟩
    · rw [hmemory]
      exact hpassed.overwritesUnreached hd hlaid.offset
    · rw [hmemory] at hsame
      obtain ⟨p', q', hscan', hsweep', hvisits⟩ := hpassed.scans_again hd hlaid.offset hnativeSc
        hlocals harenas hpoisonSc hrooted hroots hsame
      rw [← hmemory] at hscan'
      obtain ⟨st'', hagain, -⟩ := scanRoots_of_sweep hscan' hsweep'
      exact ⟨_, st'', hagain, rfl, congrArg List.reverse hvisits⟩

namespace TwoArenas

open Scanner (Reaches)

/-- The only root is the cell now, and nothing leads to the closure. -/
def dropped : MachineState :=
  { state with memory := state.memory.write 0x7000 (Word.ofNat cell.block) }

theorem read_dropped {a : Nat} (ha : 0x7000 ≠ a) : dropped.memory.read a = state.memory.read a :=
  Memory.read_write_of_ne _ _ ha

theorem read_dropped_root : dropped.memory.read 0x7000 = Word.ofNat cell.block :=
  Memory.read_write_same _ _ _

theorem reached_dropped : last.1.Reached [] [closure, cell] dropped := by
  refine .other reached (.refl _) fun b hb a hguards => ?_
  have haddress := mem_of_guards hb hguards
  refine read_dropped fun heq => ?_
  rw [← heq] at haddress
  revert haddress
  decide

theorem pointedAt_cell_dropped : cell.PointedAt dropped.memory (Word.ofNat cell.block) :=
  Scanner.pointedAt_of_laid reached_dropped.laid (by decide) (by decide) (by decide) (by decide)

theorem scanSlots_closure_dropped :
    closure.scanSlots dropped.memory = [closure.block + 8 * 509] := by
  have hstart : closure.scanStart dropped.memory = closure.scanStart state.memory := by
    unfold LocalBlock.scanStart
    rw [read_dropped (by decide)]
  rw [← scanSlots_closure, LocalBlock.scanSlots, LocalBlock.scanSlots, hstart]

theorem startOf_heap_dropped : Block.startOf dropped.memory 0x6008 = 0x6008 := by
  rw [Block.startOf, Block.headerAt, read_dropped (by decide), ← Block.headerAt, headerAt_heap]
  decide

theorem linked_dropped : scanner.Linked last.1.arenas dropped.memory [closure, cell] := by
  refine ⟨fun slot hslot => ?_, fun slot hslot => ?_, trivial⟩
  · rw [scanSlots_closure_dropped, List.mem_singleton] at hslot
    rw [hslot, read_dropped (by decide), read_closure]
    exact .inr (.inr ⟨cell, List.mem_cons_self, pointedAt_cell_dropped⟩)
  · rw [show cell.scanSlots dropped.memory = [cell.block] by decide, List.mem_singleton] at hslot
    rw [hslot, read_dropped (by decide), read_cell, arenas_last]
    refine .inr (.inl (.inr ⟨⟨by decide, ?_⟩, by decide, ?_⟩))
    · rw [Block.headerAt, read_dropped (by decide), ← Block.headerAt, headerAt_heap]
      decide
    · rw [startOf_heap_dropped]
      decide

theorem admissible_dropped :
    scanner.Admissible last.1.arenas dropped.memory [closure, cell] 0x7000 where
  apart := List.forall_mem_cons.mpr ⟨by decide, List.forall_mem_cons.mpr ⟨by decide, by simp⟩⟩
  legal := by
    rw [read_dropped_root]
    exact .inr (.inr ⟨cell, List.mem_cons_of_mem _ List.mem_cons_self, pointedAt_cell_dropped⟩)

theorem reaches_cell_dropped : Reaches dropped.memory [closure, cell]
    (fun b => ∃ slot ∈ [0x7000], b.PointedAt dropped.memory (dropped.memory.read slot)) cell := by
  refine .start (by simp) ⟨0x7000, List.mem_cons_self, ?_⟩
  rw [read_dropped_root]
  exact pointedAt_cell_dropped

theorem not_reaches_closure : ¬ Reaches dropped.memory [closure, cell]
    (fun b => ∃ slot ∈ [0x7000], b.PointedAt dropped.memory (dropped.memory.read slot))
    closure := by
  have hcell : ¬ closure.PointedAt dropped.memory (Word.ofNat cell.block) := by
    intro hpointed
    have hsame := hpointed.start.symm.trans pointedAt_cell_dropped.start
    revert hsame
    decide
  intro h
  cases h with
  | start _ hfound =>
      obtain ⟨slot, hslot, hpointed⟩ := hfound
      rw [List.mem_singleton.mp hslot, read_dropped_root] at hpointed
      exact hcell hpointed
  | field hb hslot _ hpointed =>
      rcases List.mem_pair.mp hb.mem with rfl | rfl
      · rw [scanSlots_closure_dropped, List.mem_singleton] at hslot
        rw [hslot, read_dropped (by decide), read_closure] at hpointed
        exact hcell hpointed
      · rw [show cell.scanSlots dropped.memory = [cell.block] by decide,
          List.mem_singleton] at hslot
        rw [hslot, read_dropped (by decide), read_cell] at hpointed
        have hstart := hpointed.start
        rw [startOf_heap_dropped] at hstart
        revert hstart
        decide

theorem rooted_dropped :
    ∃ q, scanner.Rooted [[0x7000]] none [] (.start dropped.memory) [0x7000] q := by
  have hs : scanner.Views dropped.memory last.1.arenas [closure, cell] :=
    Scanner.views_of_laid reached_dropped.laid rfl (by decide) locals_scanner
  have hused : Word.ofNat cell.block ≠ Word.null := by decide
  exact Scanner.exists_rooted hs rfl (by simp [read_dropped_root, hused])
    (Scanner.followable_of_acceptable (List.forall_mem_singleton.mpr admissible_dropped.acceptable)
      _)

/-- The closure is overwritten. The cell and the marker beside it are left, and a second scan makes
the same report. -/
theorem closure_overwritten :
    ∃ report st' again st'', Machine.scanRoots scanner [[0x7000]] none [] dropped =
        .ok report st' ∧
      (∀ a ∈ Memory.span closure.block closure.wosize, st'.memory.read a = Word.deadLocal) ∧
      st'.memory.read cell.block = 0x6008 ∧
      st'.memory.read (closure.arena.down cell.depth) = Header.localSwitch.toWord ∧
      Machine.scanRoots scanner [[0x7000]] none [] st' = .ok again st'' ∧
      again.visits = report.visits := by
  obtain ⟨q, hrooted⟩ := rooted_dropped
  have hroots : ∀ slot ∈ [0x7000],
      scanner.Admissible last.1.arenas dropped.memory [closure, cell] slot :=
    List.forall_mem_singleton.mpr admissible_dropped
  obtain ⟨report, st', hrun, -, hoverwrites, hsecond⟩ := Machine.unreached_of_scanRoots rfl
    reached_dropped rfl rfl (by decide) (fun _ _ _ _ => rfl) linked_dropped hrooted hroots
  have hroot : st'.memory.read 0x7000 = dropped.memory.read 0x7000 := by
    refine hoverwrites.outside 0x7000 ?_
    rw [arenas_last]
    decide
  obtain ⟨again, st'', hagain, -, hvisits⟩ := hsecond
    ⟨List.forall_mem_singleton.mpr hroot, List.forall_mem_singleton.mpr hroot, by simp⟩
  refine ⟨report, st', again, st'', hrun, hoverwrites.dead closure (by simp) not_reaches_closure,
    ?_, ?_, hagain, hvisits⟩
  · rw [hoverwrites.kept cell (by simp) reaches_cell_dropped _ (by decide),
      read_dropped (by decide), read_cell]
  · have hnewest : last.1.arenas.getLast? = some closure.arena := by
      rw [arenas_last]
      rfl
    have hsp : last.1.sp = -0x1008 := by rw [allocations.2.2.2]
    have hbetween : ∀ b ∈ [closure, cell], ¬ b.Spans (closure.arena.down cell.depth) := by
      simp only [List.forall_mem_cons, LocalBlock.Spans]
      decide
    rw [hoverwrites.between closure.arena hnewest _ (by decide) (by rw [hsp]; decide) hbetween]
    have hwritten := reached_dropped.laid.written cell (by simp)
    refine hwritten.switches 1 closure.arena (by decide) ?_
    rw [arenas_last]
    rfl

end TwoArenas

end FiberStacks
