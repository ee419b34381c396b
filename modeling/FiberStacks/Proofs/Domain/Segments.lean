import FiberStacks.Domain
import FiberStacks.Proofs.Pool
import FiberStacks.Proofs.Segment

/-!
# The segments of a domain

The segments that a domain runs and those that it keeps in its pool have memory of their own. A
segment is obtained from the pool or from free addresses, so it is apart from all others, and it
goes back to the pool when it is freed.
-/

namespace FiberStacks

/-- Each segment of the chain records the handler block of its parent. -/
def Chain.Recorded (m : Memory) : Chain → Prop
  | [] => True
  | s :: outer => s.recordedParent m = Chain.link outer ∧ Recorded m outer

theorem Chain.Recorded.congr {m m' : Memory} {chain : Chain} (h : Chain.Recorded m chain)
    (heq : ∀ s ∈ chain, m'.read s.parentSlot = m.read s.parentSlot) :
    Chain.Recorded m' chain := by
  induction chain with
  | nil => exact trivial
  | cons s outer ih =>
      refine ⟨?_, ih h.2 fun t ht => heq t (List.mem_cons_of_mem s ht)⟩
      rw [← h.1, Segment.recordedParent, Segment.recordedParent, heq s List.mem_cons_self]

theorem Chain.Recorded.of_append {m : Memory} {xs ys : Chain} (h : Chain.Recorded m (xs ++ ys)) :
    Chain.Recorded m ys := by
  induction xs with
  | nil => exact h
  | cons x xs ih => exact ih h.2

namespace Domain

/-- The segments that run, and those in the pool. -/
def segments (d : Domain) : List Segment := d.running ++ d.pool.segments

/-- The segments of the domain have memory of their own, and the running ones record their
parents. -/
structure Kept (d : Domain) (st : MachineState) : Prop where
  separate : Segment.Separate st.space d.segments
  recorded : Chain.Recorded st.memory d.running

/-- All segments of a domain go with it, and none is left. -/
theorem segments_of_drop {d d' : Domain} {gone : List Segment} (hdrop : d.drop = (gone, d')) :
    gone = d.segments ∧ d'.segments = [] := by
  obtain ⟨rfl, rfl⟩ := Prod.mk.inj hdrop
  refine ⟨rfl, ?_⟩
  simp [segments, Pool.segments, Pool.list]

theorem running_ofSettings (id : DomainId) (s : Settings) : (ofSettings id s).running = [] := rfl

theorem flatMap_running_concat (domains : List Domain) (id : DomainId) (s : Settings) :
    (domains ++ [ofSettings id s]).flatMap running = domains.flatMap running := by
  rw [List.flatMap_append, List.flatMap_singleton, running_ofSettings, List.append_nil]

theorem pooled_ofSettings (id : DomainId) (s : Settings) :
    (ofSettings id s).pool.segments = [] := by
  simp [ofSettings, Pool.segments, Pool.list, Pool.empty]

theorem flatMap_pooled_concat (domains : List Domain) (id : DomainId) (s : Settings) :
    (domains ++ [ofSettings id s]).flatMap (fun d => d.pool.segments) =
      domains.flatMap fun d => d.pool.segments := by
  rw [List.flatMap_append, List.flatMap_singleton, pooled_ofSettings, List.append_nil]

/-- What an allocation leaves. The segment has the handlers, the domain has another pool, and the
segment is apart from those in the pool and from all `others`. -/
structure Allocated (d : Domain) (others : List Segment) (st : MachineState) (h : Handlers)
    (id : FiberId) (s : Segment) (d' : Domain) (st' : MachineState) : Prop where
  obtained : s.Obtained st.memory st'.memory h id
  pool : d' = { d with pool := d'.pool }
  separate : Segment.Separate st'.space (s :: (others ++ d'.pool.segments))

/-- What an operation leaves that did not obtain a segment. -/
structure Declined (d : Domain) (st : MachineState) (d' : Domain) (st' : MachineState) : Prop where
  pool : d' = { d with pool := d'.pool }
  pooled : d'.pool.segments = d.pool.segments
  memory : st'.memory = st.memory
  space : st'.space = st.space

variable {d d' : Domain} {words : Nat} {h : Handlers} {id : FiberId} {s : Segment}
  {st st' : MachineState} {others : List Segment}

theorem eq_of_allocFresh {k? : Option SizeClass} {s? : Option Segment}
    (hrun : d.allocFresh words k? h id st = .ok (s?, d') st') : d' = d := by
  unfold allocFresh at hrun
  obtain ⟨r, st₁, hget, hrun⟩ := Run.bind_eq_ok_iff.mp hrun
  obtain ⟨result, st₂, -, hrun⟩ := Run.bind_eq_ok_iff.mp hrun
  cases result <;> (cases hrun; rfl)

/-- An allocation takes from the pool at most. -/
theorem eq_of_allocNoExc {s? : Option Segment}
    (hrun : d.allocNoExc words h id st = .ok (s?, d') st') : d' = { d with pool := d'.pool } := by
  unfold allocNoExc at hrun
  obtain ⟨⟨pooled, pool⟩, st₁, -, hrun⟩ := Run.bind_eq_ok_iff.mp hrun
  cases pooled with
  | none => rw [eq_of_allocFresh hrun]
  | some t =>
      cases hrun
      rfl

theorem allocated_of_allocFresh {k? : Option SizeClass}
    (hsep : Segment.Separate st.space (others ++ d.pool.segments))
    (hrun : d.allocFresh words k? h id st = .ok (some s, d') st') :
    d.Allocated others st h id s d' st' := by
  unfold allocFresh at hrun
  obtain ⟨r, st₁, hget, hrun⟩ := Run.bind_eq_ok_iff.mp hrun
  cases hget
  obtain ⟨result, st₁, hresult, hrun⟩ := Run.bind_eq_ok_iff.mp hrun
  obtain ⟨hallocate, rfl⟩ := Run.lift_eq_ok_iff.mp hresult
  cases result with
  | error e =>
      obtain ⟨_, st₂, -, hrun⟩ := Run.bind_eq_ok_iff.mp hrun
      cases hrun
  | ok triple =>
      obtain ⟨t, m, space⟩ := triple
      cases hrun
      obtain ⟨hobtained, -, hgrants⟩ := Segment.obtained_of_allocate hallocate
      exact ⟨hobtained, rfl, hsep.cons hobtained.formed hgrants⟩

theorem declined_of_allocFresh {k? : Option SizeClass}
    (hrun : d.allocFresh words k? h id st = .ok (none, d') st') : d.Declined st d' st' := by
  unfold allocFresh at hrun
  obtain ⟨r, st₁, hget, hrun⟩ := Run.bind_eq_ok_iff.mp hrun
  cases hget
  obtain ⟨result, st₁, hresult, hrun⟩ := Run.bind_eq_ok_iff.mp hrun
  obtain ⟨-, rfl⟩ := Run.lift_eq_ok_iff.mp hresult
  cases result with
  | error e =>
      cases hrun
      exact ⟨rfl, rfl, rfl, rfl⟩
  | ok triple => cases hrun

/-- A segment that is obtained is apart from the pool, and from all that was apart from it. -/
theorem allocated_among_of_allocNoExc
    (hsep : Segment.Separate st.space (others ++ d.pool.segments))
    (hrun : d.allocNoExc words h id st = .ok (some s, d') st') :
    d.Allocated others st h id s d' st' := by
  unfold allocNoExc at hrun
  obtain ⟨⟨pooled, pool⟩, st₁, hreuse, hrun⟩ := Run.bind_eq_ok_iff.mp hrun
  obtain ⟨s?, q, j, hpick, hsegments⟩ := d.pool.reuse?_run (d.pool.classFor? words) st
  cases hpick.symm.trans hreuse
  cases pooled with
  | none =>
      have hsame : others ++ pool.segments = others ++ d.pool.segments :=
        congrArg (others ++ ·) hsegments
      obtain ⟨hobtained, hpool, hseparate⟩ :=
        allocated_of_allocFresh (d := { d with pool := pool }) (hsame ▸ hsep) hrun
      exact ⟨hobtained, by rw [hpool], hseparate⟩
  | some t =>
      cases hrun
      have hperm : (others ++ d.pool.segments).Perm (t :: (others ++ pool.segments)) :=
        (hsegments.append_left others).trans List.perm_middle
      have hpooled := hsep.perm hperm
      have ht := hpooled.formed t List.mem_cons_self
      have hobtained := Segment.obtained_reinit (m := st.memory) h id
        (Nat.le_trans ht.base_le_sp ht.sp_le_high) ht.high_aligned ht.high_le
      exact ⟨hobtained, rfl, hpooled.replace hobtained.formed rfl rfl⟩

theorem declined_of_allocNoExc (hrun : d.allocNoExc words h id st = .ok (none, d') st') :
    d.Declined st d' st' := by
  unfold allocNoExc at hrun
  obtain ⟨⟨pooled, pool⟩, st₁, hreuse, hrun⟩ := Run.bind_eq_ok_iff.mp hrun
  obtain ⟨s?, q, j, hpick, hsegments⟩ := d.pool.reuse?_run (d.pool.classFor? words) st
  cases hpick.symm.trans hreuse
  cases pooled with
  | none =>
      obtain ⟨hpool, hpooled, hmemory, hspace⟩ := declined_of_allocFresh hrun
      exact ⟨by rw [hpool], hpooled.trans hsegments, hmemory, hspace⟩
  | some t => cases hrun

theorem allocated_of_allocNoExc (hsep : Segment.Separate st.space d.segments)
    (hrun : d.allocNoExc words h id st = .ok (some s, d') st') :
    d.Allocated d.running st h id s d' st' :=
  allocated_among_of_allocNoExc hsep hrun

/-- A fiber segment is obtained, or there is no memory for it. -/
theorem alloc_cases {r : Except StackError Segment}
    (hsep : Segment.Separate st.space (others ++ d.pool.segments))
    (hrun : d.alloc h st = .ok (r, d') st') :
    (∃ s id, r = .ok s ∧ d.Allocated others st h id s d' st') ∨
      (r = .error (.outOfMemory d.fiberWords) ∧ d.Declined st d' st') := by
  unfold alloc at hrun
  obtain ⟨id, st₁, hfresh, hrun⟩ := Run.bind_eq_ok_iff.mp hrun
  cases hfresh
  obtain ⟨⟨s?, d₁⟩, st₂, halloc, hpure⟩ := Run.bind_eq_ok_iff.mp hrun
  cases s? with
  | none =>
      cases hpure
      obtain ⟨hpool, hpooled, hmemory, hspace⟩ := declined_of_allocNoExc halloc
      have hwords : d'.fiberWords = d.fiberWords := by rw [hpool]
      rw [hwords]
      exact .inr ⟨rfl, hpool, hpooled, hmemory, hspace⟩
  | some s =>
      cases hpure
      have hdrawn : Segment.Separate { st with nextFiber := st.nextFiber + 1 }.space
          (others ++ d.pool.segments) := hsep
      obtain ⟨hobtained, hpool, hseparate⟩ := allocated_among_of_allocNoExc hdrawn halloc
      exact .inl ⟨s, _, rfl, hobtained, hpool, hseparate⟩

/-- The main segment is obtained and runs alone, or there is no memory for it. -/
theorem startMain_cases {r : Except StackError Unit}
    (hsep : Segment.Separate st.space (others ++ d.pool.segments))
    (hrun : d.startMain st = .ok (r, d') st') :
    (∃ s d₁, r = .ok () ∧ d.Allocated others st .unit .main s d₁ st' ∧
        d' = { d₁ with running := [s], exnHandler := 0 }) ∨
      (r = .error (.outOfMemory (d.initialWords none)) ∧ d.Declined st d' st') := by
  unfold startMain allocMain at hrun
  obtain ⟨⟨s?, d₁⟩, st₁, halloc, hpure⟩ := Run.bind_eq_ok_iff.mp hrun
  cases s? with
  | none =>
      cases hpure
      exact .inr ⟨rfl, declined_of_allocNoExc halloc⟩
  | some s =>
      cases hpure
      exact .inl ⟨s, d₁, rfl, allocated_among_of_allocNoExc hsep halloc, rfl⟩

/-- What freeing a segment leaves. Its parent is forgotten, and it is on the list of its class and
perhaps wiped, or the pool does not keep it. -/
inductive Frees (d : Domain) (s : Segment) (st : MachineState) : Domain → MachineState → Prop
  | kept {k : SizeClass} {pool : Pool} {journal : Journal} :
      s.magic = segmentMagic → d.pool.keeps? s = some k → d.pool.Gains k s pool →
      Frees d s st { d with pool }
        { st with
          memory :=
            if d.pool.wipe then s.wipe (s.recordParent st.memory 0) else s.recordParent st.memory 0
          journal }
  | released {stats : PoolStats} {journal : Journal} :
      s.magic = segmentMagic → d.pool.keeps? s = none →
      Frees d s st { d with pool := { d.pool with stats } }
        { st with memory := s.recordParent st.memory 0, journal }

theorem frees_of_freeSegment (hrun : d.freeSegment s st = .ok d' st') : d.Frees s st d' st' := by
  unfold freeSegment at hrun
  cases hmagic : s.checkMagic with
  | error v =>
      rw [hmagic] at hrun
      obtain ⟨_, st₁, -, hrun⟩ := Run.bind_eq_ok_iff.mp hrun
      cases hrun
  | ok u =>
      have htagged : s.magic = segmentMagic := by
        unfold Segment.checkMagic at hmagic
        split at hmagic
        · assumption
        · cases hmagic
      rw [hmagic] at hrun
      obtain ⟨_, st₁, hmodify, hrun⟩ := Run.bind_eq_ok_iff.mp hrun
      cases hmodify
      rw [Run.bind_of_ok (Pool.recycle_run d.pool s _)] at hrun
      cases hkeeps : d.pool.keeps? s with
      | some k =>
          simp only [Pool.giveBack_of_kept hkeeps] at hrun
          cases hrun
          exact .kept htagged hkeeps (Pool.gains_setList d.pool k s _)
      | none =>
          simp only [Pool.giveBack_of_refused hkeeps] at hrun
          cases hrun
          exact .released htagged hkeeps

/-- Freeing writes on the segment that is freed. -/
theorem Frees.confines (h : d.Frees s st d' st') (hs : s.Formed) :
    s.Confines st.memory st'.memory := by
  have hrecord := (Segment.sameOutside_recordParent (m := st.memory) 0).confines hs
  intro a ha
  cases h with
  | kept =>
      dsimp only
      split
      · exact (Segment.read_wipe ha).trans (hrecord a ha)
      · exact hrecord a ha
  | released => exact hrecord a ha

/-- A segment that is freed is pooled again or gone. -/
theorem Frees.eq (h : d.Frees s st d' st') :
    d' = { d with pool := d'.pool } ∧ st'.space = st.space ∧
      (d'.pool.segments.Perm (s :: d.pool.segments) ∨ d'.pool.segments = d.pool.segments) := by
  cases h with
  | kept _ _ hgains => exact ⟨rfl, rfl, .inl hgains.segments⟩
  | released => exact ⟨rfl, rfl, .inr rfl⟩

/-- A segment that is freed may be written on, and it is pooled again or gone. Nothing else
changes. -/
theorem freeSegment_eq_ok (hs : s.Formed) (hrun : d.freeSegment s st = .ok d' st') :
    d' = { d with pool := d'.pool } ∧ st'.space = st.space ∧
      (d'.pool.segments.Perm (s :: d.pool.segments) ∨ d'.pool.segments = d.pool.segments) ∧
      ∀ a, ¬ s.Owns a → st'.memory.read a = st.memory.read a := by
  have hfrees := frees_of_freeSegment hrun
  obtain ⟨hpool, hspace, hpools⟩ := hfrees.eq
  exact ⟨hpool, hspace, hpools, hfrees.confines hs⟩

theorem exists_freeSegment (d : Domain) (hs : s.magic = segmentMagic) (st : MachineState) :
    ∃ d' st', d.freeSegment s st = .ok d' st' := by
  have hmagic : s.checkMagic = .ok () := if_pos hs
  unfold freeSegment
  simp only [hmagic]
  rw [Run.bind_of_ok (Machine.modifyMemory_run _ st), Run.bind_of_ok (Pool.recycle_run d.pool s _)]
  generalize d.pool.giveBack _ s = given
  obtain ⟨disposition, pool, m⟩ := given
  cases disposition <;> exact ⟨_, _, rfl⟩

end Domain

end FiberStacks
