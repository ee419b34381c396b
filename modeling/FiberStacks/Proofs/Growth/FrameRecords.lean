import FiberStacks.Proofs.Growth.BasePointers

/-!
# Frame records under a move

The saved base pointers form a chain of frame records that may leave the running segment and come
back, any number of times. A link is read where the record stood before the move, and is written
where the record stands after it: in the copy for a record of the old body, in place for any other.
Since the records of the chain are different from each other, and no two of them come to stand at
one address, each link is read before it is written. So every record comes to hold the new address
of the next one, and no other word changes.
-/

namespace FiberStacks

namespace BasePointers

variable {old new : Segment} {next : Nat → Nat} {record f g : Nat} {rs : List Nat}
  {m m' : Memory} {steps : Nat}

/-- The record has a place of its own after the move: a word of the new body if it is in the old
one, and an address outside of the new body if it is not. -/
def Settles (old new : Segment) (f : Nat) : Prop :=
  (old.contains f = true → (Relocation.between old new).Moves new f) ∧
    (old.contains f = false → new.contains f = false)

theorem place_injective (hf : Settles old new f) (hg : Settles old new g)
    (h : (Relocation.between old new).place f = (Relocation.between old new).place g) : f = g := by
  have happart : ∀ {a b}, Settles old new a → Settles old new b → old.contains a = true →
      old.contains b = false →
      (Relocation.between old new).place a ≠ (Relocation.between old new).place b := by
    intro a b ha hb hain hbout heq
    rw [Relocation.place_of_contains hain, Relocation.place_of_not_contains hbout] at heq
    have hword := (ha.1 hain).word.contains
    rw [heq] at hword
    exact Bool.false_ne_true ((hb.2 hbout).symm.trans hword)
  cases hfin : old.contains f with
  | true =>
      cases hgin : old.contains g with
      | true =>
          rw [Relocation.place_of_contains hfin, Relocation.place_of_contains hgin] at h
          exact Relocation.target_injective (hf.1 hfin) (hg.1 hgin) h
      | false => exact absurd h (happart hf hg hfin hgin)
  | false =>
      cases hgin : old.contains g with
      | true => exact absurd h.symm (happart hg hf hgin hfin)
      | false =>
          rwa [Relocation.place_of_not_contains hfin, Relocation.place_of_not_contains hgin] at h

theorem linkAt_relinked {link : Nat} (hhigh : new.high < Size.limit)
    (hin : old.contains link = true) :
    (relinked (.between old new) record link m).linkAt
      ((Relocation.between old new).place record) = (Relocation.between old new).place link := by
  have htarget : (Relocation.between old new).target link < Size.limit :=
    Nat.lt_of_le_of_lt (Nat.sub_le _ _) hhigh
  rw [relinked, if_pos (by exact hin), Memory.linkAt, Memory.read_write_same, Word.ofNat,
    UInt64.toNat_ofNat', Relocation.place_of_contains hin]
  exact Nat.mod_eq_of_lt htarget

theorem read_relinked_of_ne {link a : Nat} (ha : a ≠ (Relocation.between old new).place record) :
    (relinked (.between old new) record link m).read a = m.read a := by
  unfold relinked
  split
  · exact Memory.read_write_of_ne _ _ ha.symm
  · rfl

/-- Memory after the walk over records: those whose link leads into the old body hold its new
address where they stand now, and no other word has changed. -/
structure Relinked (old new : Segment) (next : Nat → Nat) (rs : List Nat) (m m' : Memory) :
    Prop where
  links : ∀ f ∈ rs, old.contains (next f) = true →
    m'.linkAt ((Relocation.between old new).place f) = (Relocation.between old new).place (next f)
  kept : ∀ a, (∀ f ∈ rs, old.contains (next f) = true →
    a ≠ (Relocation.between old new).place f) → m'.read a = m.read a

/-- One turn at a record, and the walk over the other ones. -/
theorem Relinked.cons {rest : List Nat} (hhigh : new.high < Size.limit)
    (hfresh : ∀ f ∈ rest,
      (Relocation.between old new).place record ≠ (Relocation.between old new).place f)
    (h : Relinked old new next rest (relinked (.between old new) record (next record) m) m') :
    Relinked old new next (record :: rest) m m' where
  links := by
    intro f hf hin
    rcases List.mem_cons.mp hf with rfl | hf
    · rw [Memory.linkAt, h.kept _ fun g hg _ => hfresh g hg]
      exact linkAt_relinked hhigh hin
    · exact h.links f hf hin
  kept := by
    intro a ha
    rw [List.forall_mem_cons] at ha
    rw [h.kept a ha.2]
    cases hin : old.contains (next record) with
    | true => exact read_relinked_of_ne (ha.1 hin)
    | false => rw [relinked, if_neg (by exact Bool.eq_false_iff.mp hin)]

/-- The walk reads each record before it writes there. -/
theorem run_relinked (hold : old.Formed) (hnew : new.Formed)
    (hrecords : Records old next record rs) (hsame : ∀ f ∈ rs, m.linkAt f = next f)
    (hsettles : ∀ f ∈ rs, Settles old new f) (hunread : ∀ f ∈ rs, new.contains f = false)
    (hrun : run (.between old new) old new steps record m = .ok m') :
    Relinked old new next rs m m' := by
  induction hrecords generalizing steps m with
  | done hends =>
      cases steps with
      | zero => cases hrun
      | succ steps =>
          rw [run_of_ends hends] at hrun
          cases hrun
          exact ⟨nofun, fun _ _ => rfl⟩
  | @link record rest hgoes hrest ih =>
      have hnotMem := (Records.link hgoes hrest).not_mem_rest
      obtain ⟨hrecord, hsettles⟩ := List.forall_mem_cons.mp hsettles
      rw [List.forall_mem_cons] at hsame hunread
      cases steps with
      | zero => cases hrun
      | succ steps =>
          rw [run_succ hgoes] at hrun
          obtain ⟨m₁, hturn, hrun⟩ := Run.except_bind_eq_ok_iff.mp hrun
          obtain ⟨rfl, hwritten⟩ := (checked_turn hold hnew).of_eq_ok hturn
          rw [hsame.1] at hrun hwritten
          have hkept := kept_relinked (m := m) hwritten
          refine Relinked.cons hnew.high_lt (fun f hf heq => ?_) (ih ?_ hsettles hunread.2 hrun)
          · exact hnotMem (place_injective hrecord (hsettles f hf) heq ▸ hf)
          · intro f hf
            rw [← hsame.2 f hf, Memory.linkAt, Memory.linkAt,
              hkept f (hunread.2 f hf) fun heq => absurd (heq ▸ hf) hnotMem]

theorem relocate_eq_ok {framePointer head : Nat}
    (hrun : relocate (.between old new) old new framePointer m = .ok (head, m')) :
    head = (Relocation.between old new).place framePointer ∧
      run (.between old new) old new maxSteps framePointer m = .ok m' := by
  unfold relocate at hrun
  unfold Relocation.place
  split at hrun
  · obtain ⟨moved, hmoved, hrun⟩ := Run.except_bind_eq_ok_iff.mp hrun
    obtain ⟨_, hwalk, hpure⟩ := Run.except_bind_eq_ok_iff.mp hrun
    cases hpure
    rw [if_pos ‹_›]
    exact ⟨Relocation.checked_newAddress.of_eq_ok hmoved, hwalk⟩
  · rw [pure_bind] at hrun
    obtain ⟨_, hwalk, hpure⟩ := Run.except_bind_eq_ok_iff.mp hrun
    cases hpure
    rw [if_neg ‹_›]
    exact ⟨rfl, hwalk⟩

end BasePointers

/-! ### Records of a segment that grows -/

namespace Segment

variable {m₀ m : Memory} {old new : Segment} {outer : Chain} {a p : Nat} {h : Handlers}
  {id : FiberId}

theorem contains_eq_false_of_not_owns (ha : ¬ new.Owns a) : new.contains a = false :=
  Bool.eq_false_iff.mpr fun hcontains => ha (owns_of_contains hcontains)

/-- A live word was copied to its place. -/
theorem read_copied_place (hold : old.Formed) (hnew : new.Formed) (hapart : new.Apart old)
    (hsp : new.sp + wordBytes * old.usedWords = new.high) (hp : p ∈ old.liveSlots) :
    (copied m old new outer).read ((Relocation.between old new).place p) = m.read p := by
  rw [Relocation.place_of_contains (hold.isWord_of_mem_liveSlots hp).contains]
  obtain ⟨i, hi, rfl⟩ := Relocation.exists_of_mem_liveSlots hp
  rw [Relocation.target_liveSlot hold hsp hi]
  exact read_copied hold hnew hapart hsp hi

end Segment

namespace Domain

/-- Growth of the running segment `old` to `new` with the frame records `rs`. Each record links to
where the next one stands now. Nothing else has changed in the live words, which keep their distance
from the upper end, or outside of both segments. -/
structure Rechained (d : Domain) (m : Memory) (old : Segment) (outer : Chain) (rs : List Nat)
    (d' : Domain) (m' : Memory) (new : Segment) : Prop where
  running : d'.running = new :: outer
  framePointer : d'.framePointer = (Relocation.between old new).place d.framePointer
  links : ∀ f ∈ rs, m'.linkAt ((Relocation.between old new).place f) =
    (Relocation.between old new).place (m.linkAt f)
  usedWords : new.usedWords = old.usedWords
  words : ∀ p ∈ old.liveSlots, p ∉ rs →
    m'.read ((Relocation.between old new).place p) = m.read p
  elsewhere : ∀ a, ¬ old.Owns a → ¬ new.Owns a → a ∉ rs → m'.read a = m.read a

/-- The frame records can be followed from `old` to `new`: those in the old body are live words, and
all others lie outside of both segments. -/
structure Followed (old new : Segment) (rs : List Nat) : Prop where
  live : ∀ f ∈ rs, old.contains f = true → f ∈ old.liveSlots
  outside : ∀ f ∈ rs, old.contains f = false → ¬ old.Owns f ∧ ¬ new.Owns f

section Moved

variable {m₀ m m' m₁ : Memory} {old new : Segment} {outer : Chain} {rs : List Nat} {f a p : Nat}
  {h : Handlers} {id : FiberId}

theorem Followed.settles (hfollowed : Followed old new rs) (hold : old.Formed) (hnew : new.Formed)
    (hsp : new.sp + wordBytes * old.usedWords = new.high) (hf : f ∈ rs) :
    BasePointers.Settles old new f :=
  ⟨fun hin => Relocation.moves_of_mem_liveSlots hold hnew hsp (hfollowed.live f hf hin),
    fun hout => Segment.contains_eq_false_of_not_owns (hfollowed.outside f hf hout).2⟩

theorem Followed.not_owns_new (hfollowed : Followed old new rs) (hapart : new.Apart old)
    (hf : f ∈ rs) : ¬ new.Owns f := by
  cases hin : old.contains f with
  | true => exact fun hown => hapart f hown (Segment.owns_of_contains hin)
  | false => exact (hfollowed.outside f hf hin).2

theorem Followed.ne_parentSlot (hfollowed : Followed old new rs) (hold : old.Formed)
    (hf : f ∈ rs) : f ≠ old.parentSlot := by
  rintro rfl
  cases hin : old.contains old.parentSlot with
  | true =>
      have hbelow := (Segment.contains_eq_true_iff.mp hin).2
      simp only [Segment.parentSlot] at hbelow
      omega
  | false => exact (hfollowed.outside _ hf hin).1 (Segment.owns_parentSlot hold)

/-- Where a record stands after the move, the old segment has no word. -/
theorem Followed.not_owns_place (hfollowed : Followed old new rs) (hold : old.Formed)
    (hnew : new.Formed) (hapart : new.Apart old)
    (hsp : new.sp + wordBytes * old.usedWords = new.high) (hf : f ∈ rs) :
    ¬ old.Owns ((Relocation.between old new).place f) := by
  cases hin : old.contains f with
  | true =>
      have hword := ((hfollowed.settles hold hnew hsp hf).1 hin).word
      rw [Relocation.place_of_contains hin]
      exact hapart _ (Segment.owns_of_contains hword.contains)
  | false =>
      rw [Relocation.place_of_not_contains hin]
      exact (hfollowed.outside f hf hin).1

/-- A record has been copied to its place, if it has another place, and else is as it was. -/
theorem Followed.read_copied_place (hfollowed : Followed old new rs) (hold : old.Formed)
    (hnew : new.Formed) (hapart : new.Apart old)
    (hsp : new.sp + wordBytes * old.usedWords = new.high) (hf : f ∈ rs) :
    (Segment.copied m old new outer).read ((Relocation.between old new).place f) = m.read f := by
  cases hin : old.contains f with
  | true => exact Segment.read_copied_place hold hnew hapart hsp (hfollowed.live f hf hin)
  | false =>
      rw [Relocation.place_of_not_contains hin]
      exact Segment.read_copied_outside hnew hsp (hfollowed.ne_parentSlot hold hf)
        (hfollowed.outside f hf hin).2

/-- The walk over the records after the copy, told by the memory before it. -/
theorem relinked_copied {framePointer steps : Nat} (hfollowed : Followed old new rs)
    (hold : old.Formed) (hnew : new.Formed) (hapart : new.Apart old)
    (hsp : new.sp + wordBytes * old.usedWords = new.high)
    (hchain : BasePointers.Records old m.linkAt framePointer rs)
    (hrun : BasePointers.run (.between old new) old new steps framePointer
      (Segment.copied m old new outer) = .ok m') :
    BasePointers.Relinked old new m.linkAt rs (Segment.copied m old new outer) m' := by
  refine BasePointers.run_relinked hold hnew hchain (fun f hf => ?_)
    (fun f hf => hfollowed.settles hold hnew hsp hf)
    (fun f hf => Segment.contains_eq_false_of_not_owns (hfollowed.not_owns_new hapart hf)) hrun
  rw [Memory.linkAt, Memory.linkAt, Segment.read_copied_outside hnew hsp
    (hfollowed.ne_parentSlot hold hf) (hfollowed.not_owns_new hapart hf)]

/-- A record whose link stays, and a live word that is no record, are not written. -/
theorem Followed.read_place_of_unlinked (hfollowed : Followed old new rs) (hold : old.Formed)
    (hnew : new.Formed) (hsp : new.sp + wordBytes * old.usedWords = new.high)
    (hrelinked : BasePointers.Relinked old new m.linkAt rs (Segment.copied m old new outer) m')
    (hsettles : BasePointers.Settles old new p)
    (hunlinked : p ∈ rs → old.contains (m.linkAt p) = false) :
    m'.read ((Relocation.between old new).place p) =
      (Segment.copied m old new outer).read ((Relocation.between old new).place p) := by
  refine hrelinked.kept _ fun g hg hin heq => ?_
  obtain rfl := BasePointers.place_injective hsettles (hfollowed.settles hold hnew hsp hg) heq
  exact Bool.false_ne_true ((hunlinked hg).symm.trans hin)

theorem Followed.linkAt_place (hfollowed : Followed old new rs) (hold : old.Formed)
    (hnew : new.Formed) (hapart : new.Apart old)
    (hsp : new.sp + wordBytes * old.usedWords = new.high)
    (hrelinked : BasePointers.Relinked old new m.linkAt rs (Segment.copied m old new outer) m')
    (hf : f ∈ rs) : m'.linkAt ((Relocation.between old new).place f) =
      (Relocation.between old new).place (m.linkAt f) := by
  cases hin : old.contains (m.linkAt f) with
  | true => exact hrelinked.links f hf hin
  | false =>
      rw [Relocation.place_of_not_contains hin, Memory.linkAt, Memory.linkAt,
        hfollowed.read_place_of_unlinked hold hnew hsp hrelinked
          (hfollowed.settles hold hnew hsp hf) fun _ => hin,
        hfollowed.read_copied_place hold hnew hapart hsp hf]

end Moved

variable {d d' : Domain} {m : Memory} {old new : Segment} {outer : Chain} {rs : List Nat}
  {st st' : MachineState}

/-- A move to a segment that was obtained for it. The memory `m` is that before the segment was
obtained. -/
theorem rechained_of_moveTo {h : Handlers} {id : FiberId} (hpointers : d.framePointers = true)
    (hexn : old.contains d.exnHandler = false) (hold : old.Formed) (hapart : new.Apart old)
    (hnew : new.Obtained m st.memory h id)
    (hchain : BasePointers.Records old m.linkAt d.framePointer rs)
    (hfollowed : Followed old (Segment.filled old new) rs)
    (hrun : d.moveTo old outer new st = .ok d' st') :
    d.Rechained m old outer rs d' st'.memory (Segment.filled old new) := by
  obtain ⟨traps, framePointer, m₁, links, d₁, hroom, hrelocate, hwalk, -, hfree, rfl⟩ :=
    moveTo_eq_ok hrun
  rw [relocatedRecords, if_pos hpointers] at hwalk
  cases (TrapWalk.relocate_of_outside (by exact hexn) _).symm.trans hrelocate
  obtain ⟨hfilled, hsp⟩ := Segment.filled_formed hnew.formed hroom
  have hfilledApart : (Segment.filled old new).Apart old := hapart
  obtain ⟨-, -, -, hfreed⟩ := freeSegment_eq_ok hold hfree
  obtain ⟨hhead, hwalk⟩ := BasePointers.relocate_eq_ok hwalk
  have hbefore : ∀ a, ¬ new.Owns a → st.memory.read a = m.read a := fun a ha =>
    hnew.read_of_not_owns ha
  have hlinks : ∀ f ∈ rs, m.linkAt f = st.memory.linkAt f := fun f hf => by
    rw [Memory.linkAt, Memory.linkAt, hbefore f (hfollowed.not_owns_new hfilledApart hf)]
  have hrelinked := relinked_copied hfollowed hold hfilled hfilledApart hsp (hchain.congr hlinks)
    hwalk
  refine ⟨rfl, hhead, fun f hf => ?_, ?_, fun p hp hnot => ?_, fun a ha hnot hrecord => ?_⟩
  · rw [hlinks f hf, Memory.linkAt,
      hfreed _ (hfollowed.not_owns_place hold hfilled hfilledApart hsp hf)]
    exact hfollowed.linkAt_place hold hfilled hfilledApart hsp hrelinked hf
  · have hbytes := hfilled.used_bytes
    simp only [wordBytes] at hbytes hsp
    omega
  · have hin := (hold.isWord_of_mem_liveSlots hp).contains
    have hmoves := Relocation.moves_of_mem_liveSlots hold hfilled hsp hp
    have hsettles : BasePointers.Settles old (Segment.filled old new) p :=
      ⟨fun _ => hmoves, fun hout => absurd (hin.symm.trans hout) Bool.noConfusion⟩
    have hplace : ¬ old.Owns ((Relocation.between old (Segment.filled old new)).place p) := by
      rw [Relocation.place_of_contains hin]
      exact hfilledApart _ (Segment.owns_of_contains hmoves.word.contains)
    rw [hfreed _ hplace, hfollowed.read_place_of_unlinked hold hfilled hsp hrelinked hsettles
      fun hmem => absurd hmem hnot, Segment.read_copied_place hold hfilled hfilledApart hsp hp]
    exact hbefore p fun hown => hapart p hown (Segment.owns_of_contains hin)
  · have hslot : a ≠ old.parentSlot := by
      rintro rfl
      exact ha (Segment.owns_parentSlot hold)
    rw [hfreed a ha, hrelinked.kept a fun f hf _ heq => ?_,
      Segment.read_copied_outside hfilled hsp hslot hnot]
    · exact hbefore a hnot
    · cases hin : old.contains f with
      | true =>
          rw [Relocation.place_of_contains hin] at heq
          have hword := ((hfollowed.settles hold hfilled hsp hf).1 hin).word
          exact hnot (heq ▸ Segment.owns_of_contains hword.contains)
      | false =>
          rw [Relocation.place_of_not_contains hin] at heq
          exact hrecord (heq ▸ hf)

/-- Growth relocates the chain of frame records, however often it leaves the segment and comes back,
and nothing else. There are no exception handlers: their address is the null address, which is in no
body. -/
theorem rechained_of_tryRealloc {required : Nat} (hkept : d.Kept st)
    (hrunning : d.running = old :: outer) (hnull : old.contains 0 = false)
    (hpointers : d.framePointers = true) (hexn : d.exnHandler = 0)
    (hchain : BasePointers.Records old st.memory.linkAt d.framePointer rs)
    (hlive : ∀ f ∈ rs, old.contains f = true → f ∈ old.liveSlots)
    (hrun : d.tryRealloc required st = .ok (true, d') st') :
    ∃ new, d'.running = new :: outer ∧
      ((∀ f ∈ rs, old.contains f = false → ¬ old.Owns f ∧ ¬ new.Owns f) →
        d.Rechained st.memory old outer rs d' st'.memory new) := by
  obtain ⟨new, pool, st₁, hobtained, hseparate, hmove⟩ :=
    obtained_of_tryRealloc hrunning hkept.separate hrun
  have hhead : old ∈ { d with pool := pool }.segments := by
    refine List.mem_append_left _ ?_
    rw [hrunning]
    exact List.mem_cons_self
  have hapart : new.Apart old := (List.pairwise_cons.mp hseparate.apart).1 old hhead
  have hold := hseparate.formed old (List.mem_cons_of_mem new hhead)
  refine ⟨Segment.filled old new, ?_, fun houtside => ?_⟩
  · obtain ⟨_, _, _, _, _, -, -, -, -, -, rfl⟩ := moveTo_eq_ok hmove
    rfl
  · have hmoved := rechained_of_moveTo (d := { d with pool := pool }) hpointers
      (by exact hexn ▸ hnull) hold hapart hobtained hchain ⟨hlive, houtside⟩ hmove
    exact ⟨hmoved.running, hmoved.framePointer, hmoved.links, hmoved.usedWords, hmoved.words,
      hmoved.elsewhere⟩

end Domain

/-! ### A chain that leaves the segment twice

A segment of twelve words with ten live ones. The chain of frame records begins outside, enters the
segment, leaves it, and comes back to end at the outermost record, which holds an address of the
segment too. -/

namespace WovenChain

def segment : Segment :=
  { memory := ⟨0x1000, 0x88, 0, .heap⟩, base := 0x1000, high := 0x1060, sp := 0x1010,
    poolClass := none, id := ⟨1⟩, owner := ⟨1⟩, savedExn := 0, magic := segmentMagic }

def domain : Domain :=
  { Domain.ofSettings ⟨1⟩ Settings.standard with
    running := [segment], framePointer := 0x3000, framePointers := true }

def records : List Nat := [0x3000, 0x1010, 0x3010, 0x1020]

def state : MachineState :=
  { MachineState.initial with
    space := { AddressSpace.unused .ascending with taken := [⟨0x1000, 0x80⟩] }
    memory := (Memory.blank.store 0x1010
      [0x3010, 7, 0x1030, 9, 0x1010, 13, 15, 17, 19, 21, 1, 3, 5, 0]).store 0x3000
        [0x1010, 23, 0x1020, 25] }

theorem kept : domain.Kept state where
  separate := by
    have hone : domain.segments = [segment] := by decide
    rw [hone]
    refine ⟨List.forall_mem_singleton.mpr ?_, List.forall_mem_singleton.mpr fun a ha => ?_,
      List.pairwise_singleton _ _⟩
    · exact ⟨by decide, by decide, by decide, by decide, by decide⟩
    · exact ha.taken List.mem_cons_self (by decide) (by decide)
  recorded := ⟨by decide, trivial⟩

theorem goes {f : Nat} (hf : f ∈ records) : ¬ BasePointers.Ends segment f := by
  have h : ∀ f ∈ records, f ≠ 0 ∧ f + BasePointers.topRecordWords * wordBytes ≠ segment.high := by
    decide
  rintro (hzero | ⟨-, htop⟩)
  · exact (h f hf).1 hzero
  · exact (h f hf).2 htop

theorem links : state.memory.linkAt 0x3000 = 0x1010 ∧ state.memory.linkAt 0x1010 = 0x3010 ∧
    state.memory.linkAt 0x3010 = 0x1020 ∧ state.memory.linkAt 0x1020 = 0x1030 := by
  decide

theorem chain : BasePointers.Records segment state.memory.linkAt domain.framePointer records := by
  obtain ⟨hfirst, hsecond, hthird, hlast⟩ := links
  refine .link (goes (by decide)) (hfirst ▸ .link (goes (by decide)) (hsecond ▸ .link
    (goes (by decide)) (hthird ▸ .link (goes (by decide)) (hlast ▸ .done ?_))))
  exact .inr ⟨by decide, by decide⟩

theorem grows : ∃ d' st', domain.tryRealloc 3 state = .ok (true, d') st' ∧
    ∀ new ∈ d'.running, 0x4000 ≤ new.base := by
  have h : Run.answers (domain.tryRealloc 3) state (fun r _ =>
      r.1 && decide (∀ new ∈ r.2.running, 0x4000 ≤ new.base)) = true := by decide +kernel
  obtain ⟨⟨grown, d'⟩, st', hrun, h⟩ := Run.exists_of_answers h
  obtain ⟨rfl, hbase⟩ := (Bool.and_eq_true _ _).mp h
  exact ⟨d', st', hrun, of_decide_eq_true hbase⟩

theorem rechained_woven_chain :
    domain.Kept state ∧ segment.contains 0 = false ∧
      BasePointers.Records segment state.memory.linkAt domain.framePointer records ∧
      (∀ f ∈ records, segment.contains f = true → f ∈ segment.liveSlots) ∧
      ∃ d' st' new, domain.tryRealloc 3 state = .ok (true, d') st' ∧
        domain.Rechained state.memory segment [] records d' st'.memory new ∧
        st'.memory.linkAt 0x3000 = new.high - 0x50 ∧
        st'.memory.linkAt (new.high - 0x50) = 0x3010 ∧
        st'.memory.linkAt 0x3010 = new.high - 0x40 ∧
        st'.memory.linkAt (new.high - 0x40) = new.high - 0x30 ∧
        st'.memory.read (new.high - 0x30) = 0x1010 := by
  have hlive : ∀ f ∈ records, segment.contains f = true → f ∈ segment.liveSlots := by decide
  obtain ⟨d', st', hrun, hbase⟩ := grows
  obtain ⟨new, hrunning, hrechained⟩ := Domain.rechained_of_tryRealloc kept rfl (by decide) rfl rfl
    chain hlive hrun
  have hnew : 0x4000 ≤ new.base := hbase new (by rw [hrunning]; exact List.mem_cons_self)
  have happart : ∀ f ∈ records, f < 0x4000 ∧ ¬ (segment.base ≤ f ∧ segment.high ≤ f ∧
      f < segment.high + handlerBlockBytes) := by decide
  have hmoved := hrechained fun f hf hout => by
    obtain ⟨hlow, hblock⟩ := happart f hf
    rw [← Bool.not_eq_true, Segment.contains_eq_true_iff] at hout
    unfold Segment.Owns
    omega
  have hinside : ∀ a, segment.contains a = true →
      (Relocation.between segment new).place a = new.high - (0x1060 - a) := fun a ha =>
    Relocation.place_of_contains ha
  have hstays : ∀ a, segment.contains a = false →
      (Relocation.between segment new).place a = a := fun a ha =>
    Relocation.place_of_not_contains ha
  obtain ⟨hfirst, hsecond, hthird, hlast⟩ := links
  have hlinks := hmoved.links
  simp only [records, List.forall_mem_cons, hfirst, hsecond, hthird, hlast,
    hstays 0x3000 (by decide), hstays 0x3010 (by decide), hinside 0x1010 (by decide),
    hinside 0x1020 (by decide), hinside 0x1030 (by decide)] at hlinks
  obtain ⟨hfirst, hsecond, hthird, hlast, -⟩ := hlinks
  have hown := hmoved.words 0x1030 (by decide) (by decide)
  rw [hinside 0x1030 (by decide)] at hown
  exact ⟨kept, by decide, chain, hlive, d', st', new, hrun, hmoved, hfirst, hsecond, hthird, hlast,
    hown⟩

end WovenChain

end FiberStacks
