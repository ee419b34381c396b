import FiberStacks.Proofs.Fibers.Chains
import FiberStacks.Proofs.Growth.TrapTurns
import FiberStacks.Proofs.Holdings.Decomposition
import FiberStacks.Proofs.Segment.Geometry

/-!
# Chains that record their parents

Which segment is the parent of another is written down twice, in the order of the chain and as an
address in the handler block of the child. Chains are edited at one segment: it gets other parents,
or it changes in its place. Every operation of a domain is a few such edits, and each edit writes on
the segment at which it is made, so the other segments go on to record their parents.
-/

namespace FiberStacks

namespace Chain

variable {m : Memory} {s s' : Segment} {xs outer : Chain}

/-- Which parents are recorded depends on where the segments are, and on nothing else of them. -/
theorem Recorded.replace (h : Recorded m (xs ++ s :: outer)) (hhigh : s'.high = s.high) :
    Recorded m (xs ++ s' :: outer) := by
  have hslot : s'.recordedParent m = s.recordedParent m := by
    rw [Segment.recordedParent, Segment.recordedParent, Segment.parentSlot, Segment.parentSlot,
      hhigh]
  induction xs with
  | nil => exact ⟨hslot.trans h.1, h.2⟩
  | cons x xs ih =>
      refine ⟨h.1.trans ?_, ih h.2⟩
      cases xs with
      | nil => exact hhigh.symm
      | cons => rfl

theorem AllRecorded.congr {m' : Memory} {chains : List Chain} (h : AllRecorded m chains)
    (hslots : ∀ t ∈ chains.flatten, m'.read t.parentSlot = m.read t.parentSlot) :
    AllRecorded m' chains :=
  fun c hc => (h c hc).congr fun t ht => hslots t (List.mem_flatten_of_mem hc ht)

/-- The parents that are recorded are those that the segments have. -/
theorem Recorded.recordedParent_eq (h : Recorded m (xs ++ s :: outer)) :
    s.recordedParent m = (outer.head?.map Segment.high).getD 0 := by
  rw [h.of_append.1]
  cases outer <;> rfl

end Chain

/-- The segments of the chains have memory of their own, and each records its parent. -/
structure MachineState.Linked (st : MachineState) (chains : List Chain) : Prop where
  separate : Segment.Separate st.space chains.flatten
  recorded : Chain.AllRecorded st.memory chains

namespace MachineState.Linked

variable {st st' : MachineState} {chains chains' rest : List Chain} {s s' old new : Segment}
  {xs outer parents : Chain}

theorem perm (h : st.Linked chains) (hperm : chains.Perm chains') : st.Linked chains' :=
  ⟨h.separate.perm hperm.flatten, h.recorded.perm hperm⟩

/-- Chains may be let go. -/
theorem drop (gone : List Chain) (h : st.Linked (gone ++ chains)) : st.Linked chains where
  separate := h.separate.sublist
    (List.flatten_append ▸ List.sublist_append_right gone.flatten chains.flatten)
  recorded := fun c hc => h.recorded c (List.mem_append_right gone hc)

theorem tail {c : Chain} (h : st.Linked (c :: chains)) : st.Linked chains :=
  h.drop [c]

/-- The chain of no segments is always there. -/
theorem nil_cons (h : st.Linked chains) : st.Linked ([] :: chains) :=
  ⟨h.separate, h.recorded.cons trivial⟩

/-- The segments with `s` in front, and their memory is their own. -/
theorem focus (xs : Chain) (h : st.Linked ((xs ++ s :: outer) :: rest)) :
    Segment.Separate st.space (s :: (xs ++ outer ++ rest.flatten)) :=
  h.separate.perm (by grind)

theorem formed (xs : Chain) (h : st.Linked ((xs ++ s :: outer) :: rest)) : s.Formed :=
  (h.focus xs).formed s List.mem_cons_self

/-- The rest of the process may take addresses, and write elsewhere. -/
theorem carry (h : st.Linked chains) (hgrows : st.space.Grows st'.space)
    (hslots : ∀ t ∈ chains.flatten, st'.memory.read t.parentSlot = st.memory.read t.parentSlot) :
    st'.Linked chains where
  separate := h.separate.grow hgrows
  recorded := h.recorded.congr hslots

/-- A segment changes in its place. -/
theorem replace (xs : Chain) (h : st.Linked ((xs ++ s :: outer) :: rest)) (hs : s'.Formed)
    (hbase : s'.base = s.base) (hhigh : s'.high = s.high) :
    st.Linked ((xs ++ s' :: outer) :: rest) where
  separate := ((h.focus xs).replace hs hbase hhigh).perm (by grind)
  recorded := h.recorded.tail.cons ((h.recorded _ List.mem_cons_self).replace hhigh)

/-- A segment is written on, but not where it records its parent. -/
theorem touch (xs : Chain) (h : st.Linked ((xs ++ s :: outer) :: rest))
    (hspace : st'.space = st.space) (hm : s.Confines st.memory st'.memory)
    (hslot : st'.memory.read s.parentSlot = st.memory.read s.parentSlot) :
    st'.Linked ((xs ++ s :: outer) :: rest) := by
  refine h.carry (hspace ▸ .refl _) fun t ht => ?_
  have hmem : t ∈ s :: (xs ++ outer ++ rest.flatten) := by grind
  rcases List.mem_cons.mp hmem with rfl | hother
  · exact hslot
  · exact (h.focus xs).read_parentSlot hm hother

/-- A segment gets other parents and records them, and those that it had are a chain of their
own. -/
theorem relink (xs : Chain) (h : st.Linked ((xs ++ s :: outer) :: parents :: rest))
    (hspace : st'.space = st.space) (hm : s.Confines st.memory st'.memory)
    (hs : s.recordedParent st'.memory = parents.link) :
    st'.Linked ((xs ++ s :: parents) :: outer :: rest) where
  separate := hspace ▸ h.separate.perm (by grind)
  recorded := by
    have hkeep : ∀ t ∈ xs ++ outer ++ (parents :: rest).flatten,
        st'.memory.read t.parentSlot = st.memory.read t.parentSlot :=
      fun t ht => (h.focus xs).read_parentSlot hm ht
    have hchain := h.recorded _ List.mem_cons_self
    have hothers := h.recorded.tail.congr fun t ht => hkeep t (List.mem_append_right _ ht)
    have houter : Chain.Recorded st'.memory outer :=
      hchain.of_append.2.congr fun t ht => hkeep t (by grind)
    exact (hothers.tail.cons houter).cons
      (hchain.relink (fun t ht => hkeep t (by grind)) hs (hothers parents List.mem_cons_self))

/-- A segment loses its parents. -/
theorem unlink (xs : Chain) (h : st.Linked ((xs ++ s :: outer) :: rest))
    (hspace : st'.space = st.space) (hm : s.Confines st.memory st'.memory)
    (hs : s.recordedParent st'.memory = 0) :
    st'.Linked ((xs ++ [s]) :: outer :: rest) :=
  (h.nil_cons.perm (.swap _ _ _)).relink xs hspace hm hs

/-- A segment takes over the parents of another one, which is left alone. -/
theorem splice (h : st.Linked ([new] :: (old :: outer) :: rest)) (hspace : st'.space = st.space)
    (hm : ∀ a, ¬ old.Owns a → ¬ new.Owns a → st'.memory.read a = st.memory.read a)
    (hold : old.recordedParent st'.memory = 0)
    (hnew : new.recordedParent st'.memory = outer.link) :
    st'.Linked ((new :: outer) :: [old] :: rest) where
  separate := hspace ▸ h.separate.perm (by grind)
  recorded := by
    have hsep : Segment.Separate st.space (new :: old :: (outer ++ rest.flatten)) := h.separate
    have hkeep : ∀ t ∈ (outer :: rest).flatten,
        st'.memory.read t.parentSlot = st.memory.read t.parentSlot := by
      intro t ht
      have hmem : t ∈ old :: (outer ++ rest.flatten) := List.mem_cons_of_mem old ht
      have hslot := Segment.owns_parentSlot (hsep.formed t (List.mem_cons_of_mem new hmem))
      obtain ⟨hnewApart, hothers⟩ := List.pairwise_cons.mp hsep.apart
      exact hm _ (fun howns => (List.pairwise_cons.mp hothers).1 t ht _ howns hslot)
        fun howns => hnewApart t hmem _ howns hslot
    have houter : Chain.AllRecorded st.memory (outer :: rest) :=
      h.recorded.tail.tail.cons (h.recorded (old :: outer) (by simp)).2
    have hothers := houter.congr hkeep
    have hlone : Chain.Recorded st'.memory [old] := ⟨hold, trivial⟩
    exact (hothers.tail.cons hlone).cons ⟨hnew, hothers outer List.mem_cons_self⟩

/-- A segment records other parents. -/
theorem attach (xs : Chain) (h : st.Linked ((xs ++ s :: outer) :: parents :: rest)) :
    { st with memory := s.recordParent st.memory parents.link }.Linked
      ((xs ++ s :: parents) :: outer :: rest) :=
  h.relink xs rfl ((Segment.sameOutside_recordParent _).confines (h.formed xs))
    (Segment.recordedParent_recordParent ((h.focus xs).link_lt (by grind)))

/-- A segment records that it has no parent any more. -/
theorem detach (xs : Chain) (h : st.Linked ((xs ++ s :: outer) :: rest)) :
    { st with memory := s.recordParent st.memory 0 }.Linked ((xs ++ [s]) :: outer :: rest) :=
  (h.nil_cons.perm (.swap _ _ _)).attach xs

end MachineState.Linked

/-! ### Domains -/

/-- The segments of a pool, each of them alone. -/
def Pool.chains (p : Pool) : List Chain := p.segments.map fun s => [s]

theorem Pool.flatten_chains (p : Pool) : p.chains.flatten = p.segments :=
  Holdings.flatten_singletons p.segments

namespace TrapWalk

variable {old new : Segment} {outer : Chain} {m : Memory} {w : TrapWalk}
  {exnHandler asyncExnHandler : Nat}

/-- A walk that comes to its end has written on words of the new body. -/
theorem read_of_relocate {a : Nat} (hnew : new.Formed) (hdisjoint : new.Disjoint old)
    (hrun : relocate (.between old new) new (start m exnHandler asyncExnHandler) = .ok w)
    (ha : ¬ new.IsWord a) : w.memory.read a = m.read a := by
  obtain ⟨n, w', hturns, ⟨-, hend⟩ | ⟨-, e, -, hend⟩⟩ := exists_turns_of_run
    (steady_start (m := m) exnHandler asyncExnHandler) hnew hdisjoint (Nat.zero_add _)
  · cases hend.symm.trans hrun
    exact hturns.read_eq ha
  · cases hend.symm.trans hrun

/-- What a move leaves in memory: the old segment has no parent, the new one has those of the old
one, and nothing is written outside the two. -/
theorem parents_of_relocate (hold : old.Formed) (hnew : new.Formed) (hapart : new.Apart old)
    (hsp : new.sp + wordBytes * old.usedWords = new.high) (hlink : outer.link < Size.limit)
    (hrun : relocate (.between old new) new
      (start (Segment.copied m old new outer) exnHandler asyncExnHandler) = .ok w) :
    old.recordedParent w.memory = 0 ∧ new.recordedParent w.memory = outer.link ∧
      ∀ a, ¬ old.Owns a → ¬ new.Owns a → w.memory.read a = m.read a := by
  have hread : ∀ a, ¬ new.IsWord a → w.memory.read a = (Segment.copied m old new outer).read a :=
    fun a ha => read_of_relocate hnew hapart.disjoint hrun ha
  have howns := Segment.owns_parentSlot hold
  refine ⟨?_, ?_, fun a holdOwns hnewOwns => ?_⟩
  · have hne : old.parentSlot ≠ new.parentSlot := fun heq =>
      hapart _ (heq ▸ Segment.owns_parentSlot hnew) howns
    rw [Segment.recordedParent, hread _ fun hword =>
      hapart _ (Segment.owns_of_contains hword.contains) howns, Segment.copied,
      Segment.read_recordParent hne]
    exact Segment.recordedParent_recordParent (by decide)
  · have hslot : ¬ new.IsWord new.parentSlot := fun hword =>
      absurd hword.2.1 (Nat.not_lt.mpr (Nat.le_add_right _ _))
    rw [Segment.recordedParent, hread _ hslot, Segment.copied]
    exact Segment.recordedParent_recordParent hlink
  · refine (hread a fun hword => hnewOwns (Segment.owns_of_contains hword.contains)).trans ?_
    refine Segment.read_copied_elsewhere hold hsp ?_ ?_ holdOwns
    · rintro rfl
      exact hnewOwns (Segment.owns_parentSlot hnew)
    · have hbase := hnew.base_le_sp
      unfold Segment.Owns at hnewOwns
      omega

end TrapWalk

namespace Domain

/-- The running chain, and the segments in the pool. -/
def chains (d : Domain) : List Chain := d.running :: d.pool.chains

variable {d d' : Domain} {words required depth : Nat} {hs : Handlers} {id : FiberId}
  {s old new : Segment} {chain outer : Chain} {k k' : Continuation} {rest : List Chain}
  {st st' : MachineState}

theorem flatten_chains_append (d : Domain) (rest : List Chain) :
    (d.chains ++ rest).flatten.Perm (d.running ++ rest.flatten ++ d.pool.segments) := by
  have hpool := d.pool.flatten_chains
  simp only [chains] at *
  grind

theorem linked_suspended (h : st.Linked (d.running :: rest)) : st.Linked (d.suspended :: rest) := by
  cases hrunning : d.running with
  | nil =>
      rw [suspended_of_nil hrunning]
      rwa [hrunning] at h
  | cons s outer =>
      rw [suspended_of_cons hrunning]
      rw [hrunning] at h
      exact h.replace [] ((h.formed []).resave d.exnHandler) rfl rfl

theorem linked_of_quiet (h : st.Linked (d.chains ++ rest)) (hquiet : d.Quiet st d' st') :
    st'.Linked (d'.chains ++ rest) := by
  obtain ⟨stats, journal, rfl, rfl⟩ := hquiet
  exact ⟨h.separate, h.recorded⟩

/-! ### Obtaining -/

theorem linked_of_allocNoExc {s? : Option Segment} (h : st.Linked (d.chains ++ rest))
    (hrun : d.allocNoExc words hs id st = .ok (s?, d') st') :
    st'.Linked (d'.chains ++ ((s?.toList.map fun s => [s]) ++ rest)) := by
  cases s? with
  | none => exact linked_of_quiet h (quiet_of_allocNoExc hrun)
  | some s =>
      have hobtains := obtains_of_allocNoExc hrun
      have hothers : Segment.Separate st.space ((d.running ++ rest.flatten) ++ d.pool.segments) :=
        h.separate.perm (d.flatten_chains_append rest)
      obtain ⟨hnew, hpool, hsep⟩ := allocated_among_of_allocNoExc hothers hrun
      have hrunning := hobtains.running_eq
      have hpooled : ∀ t ∈ d'.pool.segments, t ∈ d.pool.segments := by
        intro t ht
        obtain ⟨k, hk, ht⟩ := List.mem_flatMap.mp ht
        exact List.mem_flatMap.mpr ⟨k, hk, hobtains.list_subset k t ht⟩
      have hrecorded : Chain.AllRecorded st.memory (d'.chains ++ rest) := by
        intro c hc
        refine h.recorded c ?_
        simp only [chains, Pool.chains, List.mem_append, List.mem_cons, List.mem_map] at hc ⊢
        grind
      have hflat := hrunning ▸ d'.flatten_chains_append rest
      have hfront : st'.Linked ([s] :: (d'.chains ++ rest)) :=
        ⟨hsep.perm (hflat.symm.cons s), hrecorded.obtain hsep hnew fun t ht => hflat.mem_iff.mp ht⟩
      exact hfront.perm List.perm_middle.symm

theorem linked_of_alloc {r : Except StackError Segment} (h : st.Linked (d.chains ++ rest))
    (hrun : d.alloc hs st = .ok (r, d') st') :
    st'.Linked (d'.chains ++ ((r.toOption.toList.map fun s => [s]) ++ rest)) := by
  unfold alloc at hrun
  obtain ⟨id, st₁, hfresh, hrun⟩ := Run.bind_eq_ok_iff.mp hrun
  cases hfresh
  obtain ⟨⟨s?, d₁⟩, st₂, halloc, hpure⟩ := Run.bind_eq_ok_iff.mp hrun
  have hdrawn : { st with nextFiber := st.nextFiber + 1 }.Linked (d.chains ++ rest) :=
    ⟨h.separate, h.recorded⟩
  have hlinked := linked_of_allocNoExc hdrawn halloc
  cases s? <;> cases hpure <;> exact hlinked

/-- The main segment runs in place of whatever ran. -/
theorem linked_of_startMain {r : Except StackError Unit} (h : st.Linked (d.chains ++ rest))
    (hrun : d.startMain st = .ok (r, d') st') : st'.Linked (d'.chains ++ rest) := by
  unfold startMain allocMain at hrun
  obtain ⟨⟨s?, d₁⟩, st₁, halloc, hpure⟩ := Run.bind_eq_ok_iff.mp hrun
  have hlinked := linked_of_allocNoExc h halloc
  cases s? with
  | none =>
      cases hpure
      exact hlinked
  | some s =>
      cases hpure
      have hboth : st'.Linked (d₁.running :: [s] :: (d₁.pool.chains ++ rest)) :=
        hlinked.perm (List.perm_middle.cons d₁.running)
      exact hboth.tail

/-! ### Freeing -/

theorem Frees.recordedParent (hfrees : d.Frees s st d' st') : s.recordedParent st'.memory = 0 := by
  have hforgotten : s.recordedParent (s.recordParent st.memory 0) = 0 :=
    Segment.recordedParent_recordParent (by decide)
  cases hfrees with
  | released => exact hforgotten
  | kept =>
      dsimp only
      split
      · rw [Segment.recordedParent, Segment.withinBody_wipe _ s.contains_parentSlot]
        exact hforgotten
      · exact hforgotten

/-- The head of a chain goes to the pool or is refused there, and its parents are left. -/
theorem linked_of_frees (h : st.Linked (d.chains ++ ((s :: outer) :: rest)))
    (hfrees : d.Frees s st d' st') : st'.Linked (d'.chains ++ (outer :: rest)) := by
  obtain ⟨-, hspace, hpool⟩ := hfrees.eq
  have hfront : st.Linked (([] ++ s :: outer) :: (d.chains ++ rest)) := h.perm List.perm_middle
  have hcut := hfront.unlink [] hspace (hfrees.confines (hfront.formed [])) hfrees.recordedParent
  rw [chains, hfrees.running_eq]
  rcases hpool with hkept | hgone
  · have hperm : d'.pool.chains.Perm ([s] :: d.pool.chains) := hkept.map _
    exact hcut.perm (by grind [chains])
  · have hsame : d'.pool.chains = d.pool.chains := congrArg (List.map _) hgone
    rw [hsame]
    exact hcut.tail.perm List.perm_middle.symm

theorem linked_of_free (h : st.Linked (d.chains ++ (chain :: rest)))
    (hrun : d.free chain st = .ok d' st') : st'.Linked (d'.chains ++ rest) := by
  induction chain generalizing d st with
  | nil =>
      cases hrun
      exact (h.perm List.perm_middle).tail
  | cons s chain ih =>
      obtain ⟨d₁, st₁, hfirst, hrest⟩ := Run.bind_eq_ok_iff.mp
        (show (d.freeSegment s >>= fun d => d.free chain) st = .ok d' st' from hrun)
      exact ih (linked_of_frees h (frees_of_freeSegment hfirst)) hrest

/-! ### Growth -/

/-- The new segment takes over the parents of the old one, whatever the trap frames hold. -/
theorem linked_of_moveTo (h : st.Linked (d.chains ++ ([new] :: rest)))
    (hrunning : d.running = old :: outer) (hframes : d.framePointers = false)
    (hrun : d.moveTo old outer new st = .ok d' st') : st'.Linked (d'.chains ++ rest) := by
  obtain ⟨traps, framePointer, m, links, d₁, hroom, htraps, hrecords, -, hfree, rfl⟩ :=
    moveTo_eq_ok hrun
  rw [relocatedRecords, hframes] at hrecords
  cases hrecords
  have hfront : st.Linked (([] ++ [new]) :: (old :: outer) :: (d.pool.chains ++ rest)) := by
    rw [← hrunning]
    exact h.perm List.perm_middle
  have hsep : Segment.Separate st.space
    (new :: old :: (outer ++ (d.pool.chains ++ rest).flatten)) := hfront.separate
  have hold := hsep.formed old (by simp)
  obtain ⟨hfilled, hsize⟩ := Segment.filled_formed (hsep.formed new List.mem_cons_self) hroom
  have hapart : (Segment.filled old new).Apart old :=
    (List.pairwise_cons.mp hsep.apart).1 old List.mem_cons_self
  obtain ⟨hforgotten, htaken, hkeep⟩ := TrapWalk.parents_of_relocate hold hfilled hapart hsize
    (hsep.link_lt (by simp +contextual)) htraps
  have hspliced : { st with memory := traps.memory }.Linked
      ((Segment.filled old new :: outer) :: [old] :: (d.pool.chains ++ rest)) :=
    (hfront.replace [] hfilled rfl rfl).splice rfl hkeep hforgotten htaken
  -- The domain runs the new segment already when it frees the old one.
  have hfrees : Frees { d with running := Segment.filled old new :: outer } old _ _ st' :=
    (frees_of_freeSegment hfree).of_pool rfl
  have hfreed := linked_of_frees (hspliced.perm (List.perm_middle.symm.cons _)) hfrees
  exact (hfreed.perm List.perm_middle).tail

theorem linked_of_tryRealloc {grown : Bool} (h : st.Linked (d.chains ++ rest))
    (hframes : d.framePointers = false) (hrun : d.tryRealloc required st = .ok (grown, d') st') :
    st'.Linked (d'.chains ++ rest) := by
  rcases tryRealloc_cases hrun with ⟨-, hquiet⟩ | ⟨old, outer, needed, words, new, d₁, journal, st₁,
    -, hrunning, -, -, halloc, hmove⟩
  · exact linked_of_quiet h hquiet
  · have hobtains := obtains_of_allocNoExc halloc
    have hlogged : { st with journal }.Linked (d.chains ++ rest) := ⟨h.separate, h.recorded⟩
    have hobtained := linked_of_allocNoExc hlogged halloc
    refine linked_of_moveTo hobtained (hobtains.running_eq.trans hrunning) ?_ hmove
    rw [hobtains.eq]
    exact hframes

/-! ### Switching -/

theorem linked_of_runFiber (h : st.Linked (d.chains ++ ((s :: outer) :: rest)))
    (hrun : d.runFiber s st = .ok d' st') : st'.Linked (d'.chains ++ rest) := by
  obtain ⟨rfl, rfl⟩ := runFiber_eq_ok hrun
  have hfront : st.Linked (d.suspended :: (s :: outer) :: (d.pool.chains ++ rest)) :=
    linked_suspended (h.perm (List.perm_middle.cons d.running))
  have hjoined := (hfront.perm (.swap _ _ _)).attach []
  exact (hjoined.perm (.swap _ _ _)).tail

theorem linked_of_returnFromFiber {h? : Option Handlers} (h : st.Linked (d.chains ++ rest))
    (hrun : d.returnFromFiber st = .ok (h?, d') st') : st'.Linked (d'.chains ++ rest) := by
  cases returns_of_returnFromFiber hrun with
  | idle => exact h
  | lone hrunning =>
      rw [chains, hrunning] at h ⊢
      exact ((h.detach []).perm (.swap _ _ _)).tail
  | @ended finished parent outer _ _ hrunning hfrees =>
      rw [chains, hrunning] at h
      have hperm : (([] ++ [finished]) :: (parent :: outer) :: (d.pool.chains ++ rest)).Perm
          ((d.run (parent :: outer)).chains ++ ([finished] :: rest)) :=
        .trans (.swap _ _ _) (List.perm_middle.symm.cons (parent :: outer))
      have hapart := (h.detach []).perm hperm
      exact ((linked_of_frees hapart hfrees).perm List.perm_middle).tail

theorem linked_of_capture {k? : Option Continuation} (h : st.Linked (d.chains ++ rest))
    (hrun : d.capture depth st = .ok (k?, d') st') :
    st'.Linked (d'.chains ++ (k?.toList.map Continuation.stored ++ rest)) := by
  by_cases hdepth : 0 < depth ∧ depth < d.running.length
  · obtain ⟨xs, s, ys, hcut, hlength, hrest⟩ := exists_cut hdepth.1 hdepth.2
    obtain ⟨journal, hcapture⟩ := capture_run hcut hlength hrest st
    cases hcapture.symm.trans hrun
    have hfront := linked_suspended h
    rw [hcut] at hfront
    have hperm : ((xs ++ [s]) :: ys :: (d.pool.chains ++ rest)).Perm
        ((d.run ys).chains ++ ((xs ++ [s]) :: rest)) :=
      .trans (.swap _ _ _) (List.perm_middle.symm.cons ys)
    have hsplit := (hfront.detach xs).perm hperm
    exact ⟨hsplit.separate, hsplit.recorded⟩
  · cases (capture_of_refused hdepth st).symm.trans hrun
    exact h

theorem linked_of_resume {r : Except StackError Unit}
    (h : st.Linked (d.chains ++ (k.stored :: rest)))
    (hrun : d.resume k hs st = .ok (r, d', k') st') :
    st'.Linked (d'.chains ++ (k'.stored :: rest)) := by
  rcases List.eq_nil_or_concat' k.stored with hstored | ⟨xs, s, hstored⟩
  · obtain ⟨journal, hresume⟩ := resume_of_taken (d := d) (h := hs) hstored st
    cases hresume.symm.trans hrun
    exact ⟨h.separate, h.recorded⟩
  · cases (resume_run (d := d) (h := hs) hstored st).symm.trans hrun
    rw [hstored] at h
    have hfront : st.Linked ((xs ++ s :: []) :: d.suspended :: (d.pool.chains ++ rest)) :=
      (linked_suspended (h.perm (List.perm_middle.cons d.running))).perm (.swap _ _ _)
    have hjoined : { st with
        memory := s.recordParent (s.setHandlers st.memory hs) d.suspended.link }.Linked _ :=
      hfront.relink xs rfl
        (((Segment.sameOutside_setHandlers hs).trans
          (Segment.sameOutside_recordParent _)).confines (hfront.formed xs))
        (Segment.recordedParent_recordParent ((hfront.focus xs).link_lt (by grind)))
    exact hjoined.perm (List.perm_middle.symm.cons _)

theorem linked_of_dropContinuation {r : Except StackError Unit}
    (h : st.Linked (d.chains ++ (k.stored :: rest)))
    (hrun : d.dropContinuation k st = .ok (r, d', k') st') :
    st'.Linked (d'.chains ++ (k'.stored :: rest)) := by
  rcases dropContinuation_cases hrun with ⟨-, -, rfl, rfl, journal, rfl⟩ | ⟨-, -, rfl, hfree⟩
  · exact ⟨h.separate, h.recorded⟩
  · exact (linked_of_free h hfree).nil_cons.perm List.perm_middle.symm

end Domain

end FiberStacks
