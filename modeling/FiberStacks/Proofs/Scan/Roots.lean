import FiberStacks.Proofs.Scan.Marks
import FiberStacks.Proofs.Scan.Observed
import Mathlib.Data.List.Perm.Basic

/-!
# Roots of local blocks

A scan of root tables and stacks comes by the root locations: the entries in use, and the live
locations of frames. If these hold legal words, the local blocks that are marked afterwards are
those that the root locations point at.
-/

namespace FiberStacks.Scanner

/-- `Rooted sc tables registers chain p slots q`: the scan of root tables and a chain under compiled
code succeeds and takes the state from `p` to `q`. It comes by the root locations `slots`. -/
def Rooted (sc : Scanner) (tables : List (List Nat)) (registers : Option Nat) (chain : Chain)
    (p : Progress) (slots : List Nat) (q : Progress) : Prop :=
  ∃ u met, (forM tables.flatten sc.scanEntry : ScanM Unit) p = .ok () u ∧
    Scanned sc registers chain u met q ∧
    slots = (tables.flatten.filter fun entry => p.memory.read entry ≠ Word.null) ++
      met.flatMap fun s => s.chunks.flatMap MetChunk.slots

variable {sc : Scanner} {m₀ : Memory} {arenas : List Arena} {blocks : List LocalBlock}
  {found : LocalBlock → Prop} {keep : Nat → Prop} {p q : Progress} {registers : Option Nat}
  {slots : List Nat} {collector : Visitor}

/-- A scan of root tables and a chain succeeds exactly if it comes by root locations. -/
theorem scanStacks_eq_ok_iff (hnative : sc.ctx.mode = .native) {tables : List (List Nat)}
    {chain : Chain} :
    sc.scanStacks tables registers chain p = .ok () q ↔
      ∃ slots, sc.Rooted tables registers chain p slots q := by
  have htables : (tables.forM fun table => table.forM sc.scanEntry) =
      forM tables.flatten sc.scanEntry := Run.forM_flatten sc.scanEntry tables
  unfold scanStacks
  rw [htables, Run.bind_eq_ok_iff]
  constructor
  · rintro ⟨_, u, htable, hchain⟩
    obtain ⟨met, hmet⟩ := (scanChain_eq_ok_iff hnative).mp hchain
    exact ⟨_, u, met, htable, hmet, rfl⟩
  · rintro ⟨_, u, met, htable, hmet, -⟩
    exact ⟨(), u, htable, (scanChain_eq_ok_iff hnative).mpr ⟨met, hmet⟩⟩

/-- The location is no header of a block and holds a legal word. -/
structure Admissible (sc : Scanner) (arenas : List Arena) (m : Memory) (blocks : List LocalBlock)
    (slot : Nat) : Prop where
  apart : ∀ b ∈ blocks, slot ≠ b.header
  legal : sc.Legal arenas m blocks (m.read slot)

/-- The location is no header of a block and holds a lawful word. -/
structure Acceptable (sc : Scanner) (arenas : List Arena) (m : Memory) (blocks : List LocalBlock)
    (slot : Nat) : Prop where
  apart : ∀ b ∈ blocks, slot ≠ b.header
  lawful : sc.Lawful arenas m blocks (m.read slot)

theorem Admissible.acceptable {m : Memory} {slot : Nat}
    (h : sc.Admissible arenas m blocks slot) : sc.Acceptable arenas m blocks slot where
  apart := h.apart
  lawful := h.legal.lawful

/-- Acceptable locations can be classified by a collector that only looks. -/
theorem followable_of_acceptable
    (hslots : ∀ slot ∈ slots, sc.Acceptable arenas m₀ blocks slot) (told : List Nat) :
    sc.Followable Visitor.observe m₀ arenas blocks (fun _ => True) slots told where
  kept := fun _ _ => trivial
  apart := fun slot hslot => (hslots slot hslot).apart
  lawful := fun slot hslot => (hslots slot hslot).lawful
  heap := fun _ _ _ _ _ => ⟨trivial, .inl rfl⟩
  targets := fun _ _ _ _ _ _ _ => ⟨trivial, .inl rfl⟩
  headers := fun _ _ => .inl rfl
  fresh := .inl rfl

/-- Locations that can be followed are followed. -/
theorem classifyAll_followed (hs : sc.Views m₀ arenas blocks) {after : List Nat}
    (hslots : sc.Followable collector m₀ arenas blocks keep slots (slots ++ after))
    (h : sc.Marks m₀ p.memory blocks found keep) :
    ∃ q, (sc.reportingTo collector).classifyAll slots p = .ok () q ∧
      sc.Followed collector m₀ blocks found keep slots p q := by
  induction slots generalizing found keep p with
  | nil => exact ⟨p, rfl, Followed.refl h⟩
  | cons slot slots ih =>
      obtain ⟨index, u, hclassify, hfirst, -⟩ := hslots.classify hs h
      have hlater : sc.Followable collector m₀ arenas blocks
          (fun a => keep a ∧ collector.Spares [slot] a) slots (slots ++ after) :=
        (hslots.of_subset (List.subset_cons_self slot slots)).advance [slot]
          (List.subset_append_left slots after)
      obtain ⟨q, hrun, hrest⟩ := ih hlater hfirst.marks
      refine ⟨q, Run.forM_cons_eq_ok_iff.mpr ⟨u, ?_, hrun⟩, hfirst.trans hrest⟩
      exact Run.discard_eq_ok_iff.mpr ⟨index, hclassify⟩

theorem followed_of_classifyAll (hs : sc.Views m₀ arenas blocks) {after : List Nat}
    (hslots : sc.Followable collector m₀ arenas blocks keep slots (slots ++ after))
    (h : sc.Marks m₀ p.memory blocks found keep)
    (hrun : (sc.reportingTo collector).classifyAll slots p = .ok () q) :
    sc.Followed collector m₀ blocks found keep slots p q := by
  obtain ⟨u, hagain, hfollowed⟩ := classifyAll_followed hs hslots h
  cases hagain.symm.trans hrun
  exact hfollowed

/-! ### Root tables -/

theorem Views.header_ne_null (hs : sc.Views m₀ arenas blocks) {b : LocalBlock}
    (hb : b ∈ blocks) : m₀.read b.header ≠ Word.null := by
  intro hnull
  have hstart : sc.Marks m₀ m₀ blocks (fun _ => False) fun _ => True := .of_views hs
  obtain ⟨color, hheader, -, hcolor⟩ := hstart.header_eq hs hb
  rw [hnull, hcolor id] at hheader
  have hzero := congrArg Header.color hheader
  cases hzero

/-- An entry that is not in use is passed over. -/
theorem scanEntry_of_null {slot : Nat} (hread : p.memory.read slot = Word.null) :
    sc.scanEntry slot p = .ok () (p.logging [.classify slot]) := by
  rw [scanEntry, Run.bind_of_ok (Scan.slotWord_run slot p), if_pos hread]
  rfl

/-- An entry in use is classified. -/
theorem scanEntry_of_used (sc : Scanner) (hnative : sc.ctx.mode = .native) {slot : Nat}
    (hread : p.memory.read slot ≠ Word.null) :
    sc.scanEntry slot p = (discard (sc.classify slot) : ScanM Unit)
      (p.logging [.classify slot]) := by
  rw [scanEntry, Run.bind_of_ok (Scan.slotWord_run slot p), if_neg hread, hnative]

/-- The entries of root tables that are in use are followed. -/
theorem scanEntries_followed (hs : sc.Views m₀ arenas blocks) (hnative : sc.ctx.mode = .native)
    {entries after : List Nat} (hunused : ∀ entry ∈ entries, m₀.read entry = Word.null → keep entry)
    (hused : sc.Followable collector m₀ arenas blocks keep
      (entries.filter fun entry => m₀.read entry ≠ Word.null)
      ((entries.filter fun entry => m₀.read entry ≠ Word.null) ++ after))
    (h : sc.Marks m₀ p.memory blocks found keep) :
    ∃ q, (forM entries (sc.reportingTo collector).scanEntry : ScanM Unit) p = .ok () q ∧
      sc.Followed collector m₀ blocks found keep
        (entries.filter fun entry => m₀.read entry ≠ Word.null) p q := by
  induction entries generalizing found keep p with
  | nil => exact ⟨p, rfl, Followed.refl h⟩
  | cons slot entries ih =>
      have hlater := fun entry hentry => hunused entry (List.mem_cons_of_mem slot hentry)
      by_cases hnull : m₀.read slot = Word.null
      · rw [List.filter_cons_of_neg (by simpa using hnull)] at hused ⊢
        have hread : p.memory.read slot = m₀.read slot :=
          h.kept slot (hunused slot List.mem_cons_self hnull) fun b hb heq =>
            hs.header_ne_null hb (heq ▸ hnull)
        have hfirst : (sc.reportingTo collector).scanEntry slot p = _ :=
          scanEntry_of_null (hread.trans hnull)
        obtain ⟨q, hrun, hfollowed⟩ := ih hlater hused (h.logging [.classify slot])
        exact ⟨q, Run.forM_cons_eq_ok_iff.mpr ⟨_, hfirst, hrun⟩, hfollowed.of_logging⟩
      · rw [List.filter_cons_of_pos (by simpa using hnull)] at hused ⊢
        have hslot := List.mem_cons_self (a := slot)
          (l := entries.filter fun entry => m₀.read entry ≠ Word.null)
        have hread : p.memory.read slot = m₀.read slot :=
          h.kept slot (hused.kept slot hslot) (hused.apart slot hslot)
        obtain ⟨index, u, hclassify, hfollowed, -⟩ :=
          hused.classify hs (h.logging [.classify slot])
        have hfirst : (sc.reportingTo collector).scanEntry slot p = .ok () u :=
          (scanEntry_of_used (sc.reportingTo collector) hnative (hread.symm ▸ hnull)).trans
            (Run.discard_eq_ok_iff.mpr ⟨index, hclassify⟩)
        obtain ⟨q, hrun, hrest⟩ := ih (fun entry hentry hunusedEntry => by
            refine ⟨hlater entry hentry hunusedEntry, .inr fun hmem => hnull ?_⟩
            rwa [← List.mem_singleton.mp hmem])
          ((hused.of_subset (List.subset_cons_self slot _)).advance [slot]
            (List.subset_append_left _ after)) hfollowed.marks
        exact ⟨q, Run.forM_cons_eq_ok_iff.mpr ⟨u, hfirst, hrun⟩,
          hfollowed.of_logging.trans hrest⟩

/-- Root tables can be scanned if a scan can follow their entries in use. -/
theorem exists_rooted (hs : sc.Views m₀ arenas blocks) (hnative : sc.ctx.mode = .native)
    {tables : List (List Nat)}
    (hslots : slots = tables.flatten.filter fun entry => m₀.read entry ≠ Word.null)
    (hfollow : sc.Followable collector m₀ arenas blocks (fun _ => True) slots (slots ++ [])) :
    ∃ q, (sc.reportingTo collector).Rooted tables registers [] (.start m₀) slots q := by
  have hstart : sc.Marks m₀ (Progress.start m₀).memory blocks (fun _ => False) fun _ => True :=
    .of_views hs
  subst hslots
  obtain ⟨q, hrun, -⟩ := scanEntries_followed hs hnative (fun _ _ _ => trivial) hfollow hstart
  exact ⟨q, q, [], hrun, .nil, (List.append_nil _).symm⟩

/-! ### Stacks -/

/-- A walk follows the live locations of its frames. -/
theorem Walked.followed {high : Nat} {position : WalkPosition} {frames : List MetFrame}
    {chunks : List MetChunk} (after : List Nat)
    (hwalked : Walked (sc.reportingTo collector) high position p frames chunks q)
    (hs : sc.Views m₀ arenas blocks) (h : sc.Marks m₀ p.memory blocks found keep)
    (hslots : sc.Followable collector m₀ arenas blocks keep
      (frames.flatMap (MetFrame.slots position.registers) ++ chunks.flatMap MetChunk.slots)
      ((frames.flatMap (MetFrame.slots position.registers) ++ chunks.flatMap MetChunk.slots) ++
        after)) :
    sc.Followed collector m₀ blocks found keep
      (frames.flatMap (MetFrame.slots position.registers) ++ chunks.flatMap MetChunk.slots)
      p q := by
  induction hwalked generalizing found keep with
  | finish top => exact Followed.refl h
  | enter top _ ih => exact (ih h hslots).of_logging
  | boundary found native inside _ ih => exact (ih h hslots).of_logging
  | @frame sp returnAddress registers p u q d frames later found compiled reaches visited positive
      sized inside _ ih =>
      rw [List.flatMap_cons, List.append_assoc] at hslots ⊢
      rw [List.append_assoc] at hslots
      have hfirst := followed_of_classifyAll (p := p.logging [.lookup returnAddress sp]) hs
        (hslots.of_subset (List.subset_append_left _ _)) h visited
      have hrest := ih hfirst.marks ((hslots.of_subset (List.subset_append_right _ _)).advance
        (MetFrame.slots _ _) (List.subset_append_left _ after))
      exact hfirst.of_logging.trans hrest.of_logging

/-- The collector may overwrite the handlers that it is told of, and nothing else happens. -/
theorem words_of_visitHandlers {s : Segment}
    (hrun : (sc.reportingTo collector).visitHandlers s p = .ok () q) {a : Nat}
    (ha : collector.Spares s.handlerSlots a) : q.memory.read a = p.memory.read a := by
  unfold visitHandlers at hrun
  rw [List.forM_eq_forM] at hrun
  generalize s.handlerSlots = slots at hrun ha
  induction slots generalizing p with
  | nil =>
      cases hrun
      rfl
  | cons slot slots ih =>
      obtain ⟨hslot, hslots⟩ := spares_cons.mp ha
      obtain ⟨u, hfirst, hrest⟩ := Run.forM_cons_eq_ok_iff.mp hrun
      rw [Run.bind_of_ok (Scan.slotWord_run slot p)] at hfirst
      cases hfirst
      rw [ih hrest hslots]
      exact Visitor.read_leaves_of_spares p.visits p.memory hslot

theorem live_subset_slots (met : List MetStack) :
    (met.flatMap fun s => s.chunks.flatMap MetChunk.slots) ⊆ met.flatMap MetStack.slots := by
  intro slot hslot
  obtain ⟨s, hs, hlive⟩ := List.mem_flatMap.mp hslot
  exact List.mem_flatMap.mpr ⟨s, hs, List.mem_append_left _ hlive⟩

/-- A chain marks what the live locations of its frames point at. -/
theorem Scanned.marks {chain : Chain} {met : List MetStack}
    (hscanned : Scanned (sc.reportingTo collector) registers chain p met q)
    (hs : sc.Views m₀ arenas blocks) (h : sc.Marks m₀ p.memory blocks found keep)
    (hslots : sc.Followable collector m₀ arenas blocks keep
      (met.flatMap fun s => s.chunks.flatMap MetChunk.slots) (met.flatMap MetStack.slots)) :
    sc.Marks m₀ q.memory blocks (fun b => found b ∨
        ∃ slot ∈ met.flatMap fun s => s.chunks.flatMap MetChunk.slots, sc.Hits m₀ b (m₀.read slot))
      fun a => keep a ∧ collector.Spares (met.flatMap MetStack.slots) a := by
  induction hscanned generalizing found keep with
  | nil => exact (h.congr (by simp)).of_kept (fun _ _ => rfl) fun _ ha => ⟨ha.1, rfl⟩
  | @cons s outer p u v q chunks visits met walked handled told rest ih =>
      have hslotsOf : MetStack.slots ⟨s, chunks, visits⟩ =
          chunks.flatMap MetChunk.slots ++ s.handlerSlots := rfl
      rw [List.flatMap_cons, List.flatMap_cons, hslotsOf] at hslots
      rw [List.flatMap_cons, List.flatMap_cons, hslotsOf]
      have hfollowed := walked.followed (s.handlerSlots ++ met.flatMap MetStack.slots) hs h
        (by
          rw [List.flatMap_nil, List.nil_append, ← List.append_assoc]
          exact hslots.of_subset (List.subset_append_left _ _))
      rw [List.flatMap_nil, List.nil_append] at hfollowed
      have htold : sc.Marks m₀ v.finishing.memory blocks
          (fun b => found b ∨ ∃ slot ∈ chunks.flatMap MetChunk.slots, sc.Hits m₀ b (m₀.read slot))
          fun a => keep a ∧
            collector.Spares (chunks.flatMap MetChunk.slots ++ s.handlerSlots) a := by
        refine hfollowed.marks.of_kept (fun b hb => words_of_visitHandlers handled ?_)
          fun a ha => ?_
        · exact (spares_append.mp (spares_append.mp (hslots.headers b hb)).1).2
        · obtain ⟨hbefore, hhandlers⟩ := spares_append.mp ha.2
          exact ⟨⟨ha.1, hbefore⟩, words_of_visitHandlers handled hhandlers⟩
      have hrest := ih htold ((hslots.of_subset (List.subset_append_right _ _)).advance _
        (live_subset_slots met))
      refine (hrest.congr fun b _ => ?_).of_kept (fun _ _ => rfl) fun a ha => ⟨?_, rfl⟩
      · simp only [List.mem_append, or_and_right, exists_or, or_assoc]
      · obtain ⟨hfirst, hlater⟩ := spares_append.mp ha.2
        exact ⟨⟨ha.1, hfirst⟩, hlater⟩

theorem Scanned.map_segment {chain : Chain} {met : List MetStack}
    (h : Scanned sc registers chain p met q) : met.map MetStack.segment = chain := by
  induction h with
  | nil => rfl
  | cons walked handled told _ ih => rw [List.map_cons, ih]

/-- After the roots were scanned the marked blocks are those that root locations point at. Else the
words that the collector was not told of are as they were. -/
theorem Rooted.marks_told {tables : List (List Nat)} {chain : Chain}
    (hrooted : (sc.reportingTo collector).Rooted tables registers chain p slots q)
    (hs : sc.Views p.memory arenas blocks) (hnative : sc.ctx.mode = .native)
    (hslots : sc.Followable collector p.memory arenas blocks (fun _ => True) slots
      (slots ++ chain.flatMap Segment.handlerSlots)) :
    sc.Marks p.memory q.memory blocks
      (fun b => ∃ slot ∈ slots, sc.Hits p.memory b (p.memory.read slot))
      (collector.Spares (slots ++ chain.flatMap Segment.handlerSlots)) := by
  obtain ⟨u, met, htables, hscanned, rfl⟩ := hrooted
  -- The scan tells the collector of the handlers of each segment after its live locations.
  have htold : ((met.flatMap fun s => s.chunks.flatMap MetChunk.slots) ++
      chain.flatMap Segment.handlerSlots).Perm (met.flatMap MetStack.slots) := by
    rw [← hscanned.map_segment, List.flatMap_map]
    exact List.flatMap_append_perm met _ _
  rw [List.append_assoc] at hslots ⊢
  have hall := hslots.of_perm (htold.append_left _)
  obtain ⟨_, hagain, hentries⟩ := scanEntries_followed hs hnative (fun _ _ _ => trivial)
    (hall.of_subset (List.subset_append_left _ _)) (.of_views hs)
  cases hagain.symm.trans htables
  have hmarks := hscanned.marks hs hentries.marks
    ((hall.of_subset (List.subset_append_right _ _)).advance _ (live_subset_slots met))
  refine (hmarks.congr fun b _ => ?_).of_kept (fun _ _ => rfl) fun a ha => ⟨?_, rfl⟩
  · simp only [false_or, List.mem_append, or_and_right, exists_or]
  · obtain ⟨hfirst, hlater⟩ := spares_append.mp ha
    exact ⟨⟨trivial, hfirst⟩, hlater.imp_right fun hnot hmem => hnot (htold.mem_iff.mpr hmem)⟩

/-- After the roots were scanned the marked blocks are those that root locations point at. -/
theorem Rooted.marks_hits {tables : List (List Nat)} {chain : Chain}
    (hrooted : sc.Rooted tables registers chain p slots q)
    (hs : sc.Views p.memory arenas blocks) (hnative : sc.ctx.mode = .native)
    (hslots : ∀ slot ∈ slots, sc.Acceptable arenas p.memory blocks slot) :
    sc.Marks p.memory q.memory blocks
      (fun b => ∃ slot ∈ slots, sc.Hits p.memory b (p.memory.read slot)) fun _ => True := by
  rw [← reportingTo_observe hs.observes] at hrooted
  exact (hrooted.marks_told hs hnative (followable_of_acceptable hslots _)).of_kept
    (fun _ _ => rfl) fun _ _ => ⟨.inl rfl, rfl⟩

theorem Rooted.marks {tables : List (List Nat)} {chain : Chain}
    (hrooted : sc.Rooted tables registers chain p slots q)
    (hs : sc.Surveys p.memory arenas blocks) (hnative : sc.ctx.mode = .native)
    (hslots : ∀ slot ∈ slots, sc.Admissible arenas p.memory blocks slot) :
    sc.Marks p.memory q.memory blocks
      (fun b => ∃ slot ∈ slots, b.PointedAt p.memory (p.memory.read slot)) fun _ => True := by
  have hmarks := hrooted.marks_hits hs.toViews hnative fun slot hslot =>
    (hslots slot hslot).acceptable
  refine hmarks.congr fun b hb => exists_congr fun slot => and_congr_right fun hslot => ?_
  exact hs.hits_iff hb (hslots slot hslot).legal

end FiberStacks.Scanner
