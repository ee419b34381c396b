import FiberStacks.Proofs.AddressSpace
import FiberStacks.Proofs.Memory
import FiberStacks.Segment

/-!
# Segments and their memory

A segment owns its body and its handler block. What an operation on a segment writes stays there,
and a segment just obtained owns nothing that anyone owned before.
-/

namespace FiberStacks.Segment

/-- The address lies in the body or in the handler block. -/
def Owns (s : Segment) (a : Nat) : Prop :=
  s.base ≤ a ∧ a < s.high + handlerBlockBytes

/-- The address is that of a word of the body. -/
def IsWord (s : Segment) (a : Nat) : Prop :=
  s.base ≤ a ∧ a < s.high ∧ a % wordBytes = 0

/-- The stack pointer is on the word grid of the body, and the segment in the range of addresses. -/
structure Formed (s : Segment) : Prop where
  base_le_sp : s.base ≤ s.sp
  sp_le_high : s.sp ≤ s.high
  sp_aligned : s.sp % wordBytes = 0
  high_aligned : s.high % wordBytes = 0
  high_le : s.high + handlerBlockBytes ≤ AddressSpace.limit

variable {s : Segment} {a : Nat}

theorem Owns.taken {space : AddressSpace} {r : MemoryRange} (ha : s.Owns a) (hr : r ∈ space.taken)
    (hbase : r.start ≤ s.base) (hhigh : s.high + handlerBlockBytes ≤ r.start + r.bytes) :
    space.Taken a :=
  ⟨r, hr, Nat.le_trans hbase ha.1, Nat.lt_of_lt_of_le ha.2 hhigh⟩

theorem contains_eq_true_iff : s.contains a = true ↔ s.base ≤ a ∧ a < s.high := by
  rw [contains, Bool.and_eq_true, decide_eq_true_eq, decide_eq_true_eq]

theorem owns_of_contains (h : s.contains a = true) : s.Owns a := by
  obtain ⟨hbase, hhigh⟩ := contains_eq_true_iff.mp h
  exact ⟨hbase, Nat.lt_of_lt_of_le hhigh (Nat.le_add_right _ _)⟩

/-! ### Words of the body -/

theorem IsWord.contains (h : s.IsWord a) : s.contains a = true :=
  contains_eq_true_iff.mpr ⟨h.1, h.2.1⟩

theorem checkWord_eq (h : s.IsWord a) : s.checkWord a = .ok () := by
  obtain ⟨hbase, hhigh, haligned⟩ := h
  rw [checkWord, if_pos (by simp [contains, hbase, hhigh, haligned])]

theorem checked_checkWord :
    Run.Checked (s.IsWord a) (fun _ => s.IsWord a) (s.checkWord a) := by
  by_cases hword : s.IsWord a
  · rw [checkWord_eq hword]
    exact .answer hword
  · rw [checkWord, if_neg fun h => hword ?_]
    · exact .fault _ hword
    · obtain ⟨hbase, hhigh⟩ := contains_eq_true_iff.mp h.1
      exact ⟨hbase, hhigh, h.2⟩

theorem checked_read {m : Memory} :
    Run.Checked (s.IsWord a) (fun w => w = m.read a ∧ s.IsWord a) (s.read m a) :=
  checked_checkWord.bind fun _ hword => .answer ⟨rfl, hword⟩

theorem checked_write {m : Memory} {w : Word} :
    Run.Checked (s.IsWord a) (fun m' => m' = m.write a w ∧ s.IsWord a) (s.write m a w) :=
  checked_checkWord.bind fun _ hword => .answer ⟨rfl, hword⟩

namespace Formed

theorem used_bytes (h : s.Formed) : s.sp + wordBytes * s.usedWords = s.high := by
  have hsp := h.sp_aligned
  have hhigh := h.high_aligned
  have hle := h.sp_le_high
  simp only [usedWords, wordBytes] at *
  omega

theorem high_lt (h : s.Formed) : s.high < Size.limit := by
  have hlimit : AddressSpace.limit ≤ Size.limit := by decide
  have hle := h.high_le
  simp only [handlerBlockBytes] at hle
  omega

theorem mem_liveSlots_iff (h : s.Formed) :
    a ∈ s.liveSlots ↔ s.sp ≤ a ∧ a < s.high ∧ a % wordBytes = 0 := by
  have hbytes := h.used_bytes
  have hsp := h.sp_aligned
  unfold liveSlots
  rw [Memory.mem_span_iff]
  simp only [wordBytes] at *
  constructor
  · rintro ⟨i, hi, rfl⟩
    omega
  · rintro ⟨hlow, hhigh, haligned⟩
    exact ⟨(a - s.sp) / 8, by omega, by omega⟩

theorem isWord_of_mem_liveSlots (h : s.Formed) (ha : a ∈ s.liveSlots) : s.IsWord a := by
  obtain ⟨hlow, hhigh, haligned⟩ := h.mem_liveSlots_iff.mp ha
  exact ⟨Nat.le_trans h.base_le_sp hlow, hhigh, haligned⟩

theorem peek?_eq_ite (h : s.Formed) (m : Memory) (n : Nat) :
    s.peek? m n =
      if s.sp + n * wordBytes < s.high then some (m.read (s.sp + n * wordBytes)) else none := by
  have hlimit := h.high_lt
  unfold peek?
  by_cases hn : s.sp + n * wordBytes < s.high
  · have hmul : Size.mul? n wordBytes = some (n * wordBytes) := if_pos (by omega)
    have hadd : Size.add? s.sp (n * wordBytes) = some (s.sp + n * wordBytes) := if_pos (by omega)
    rw [hmul, Option.bind_eq_bind, Option.bind_some, hadd, Option.bind_some]
  · rw [if_neg hn]
    cases hmul : Size.mul? n wordBytes with
    | none => rfl
    | some bytes =>
        obtain rfl := Size.eq_of_mul?_eq_some hmul
        cases hadd : Size.add? s.sp (n * wordBytes) with
        | none => simp only [Option.bind_eq_bind, Option.bind_some, hadd, Option.bind_none]
        | some address =>
            obtain rfl := Size.eq_of_add?_eq_some hadd
            simp only [Option.bind_eq_bind, Option.bind_some, hadd]
            exact if_neg hn

theorem liveWords_congr {m m' : Memory} (h : s.Formed)
    (heq : ∀ a, s.Owns a → m'.read a = m.read a) : s.liveWords m' = s.liveWords m :=
  List.map_congr_left fun _ ha => heq _ (owns_of_contains (h.isWord_of_mem_liveSlots ha).contains)

theorem resave (h : s.Formed) (exn : Nat) : ({ s with savedExn := exn } : Segment).Formed :=
  ⟨h.base_le_sp, h.sp_le_high, h.sp_aligned, h.high_aligned, h.high_le⟩

end Formed

theorem read_wipe {m : Memory} (ha : ¬ s.Owns a) : (s.wipe m).read a = m.read a := by
  refine Memory.read_fill_of_not_mem _ _ fun hmem => ha ?_
  obtain ⟨i, hi, rfl⟩ := Memory.mem_span_iff.mp hmem
  simp only [bodyWords, Owns, wordBytes] at hi ⊢
  omega

/-! ### Handler blocks -/

theorem Formed.owns_high (h : s.Formed) : s.Owns s.high :=
  ⟨Nat.le_trans h.base_le_sp h.sp_le_high, Nat.lt_add_of_pos_right (by decide)⟩

theorem owns_parentSlot (h : s.Formed) : s.Owns s.parentSlot := by
  have hle := Nat.le_trans h.base_le_sp h.sp_le_high
  simp only [Owns, parentSlot, handlerBlockBytes, wordBytes]
  omega

/-- Words outside of the handler block of a segment are the same. -/
def SameOutside (s : Segment) (m m' : Memory) : Prop :=
  ∀ a, a < s.high ∨ s.high + handlerBlockBytes ≤ a → m'.read a = m.read a

variable {m : Memory}

theorem read_recordParent (ha : a ≠ s.parentSlot) (address : Nat) :
    (s.recordParent m address).read a = m.read a :=
  Memory.read_write_of_ne _ _ (Ne.symm ha)

theorem sameOutside_recordParent (address : Nat) :
    s.SameOutside m (s.recordParent m address) := by
  intro a ha
  refine read_recordParent ?_ address
  simp only [parentSlot, handlerBlockBytes, wordBytes] at ha ⊢
  omega

theorem recordedParent_recordParent {address : Nat} (h : address < Size.limit) :
    s.recordedParent (s.recordParent m address) = address := by
  unfold recordedParent recordParent
  rw [Memory.read_write_same, Word.ofNat, UInt64.toNat_ofNat']
  exact Nat.mod_eq_of_lt h

/-- A parent that is recorded already may be recorded again. -/
theorem read_recordParent_recorded (a : Nat) :
    (s.recordParent m (s.recordedParent m)).read a = m.read a := by
  by_cases ha : a = s.parentSlot
  · subst ha
    rw [recordParent, Memory.read_write_same, recordedParent, Word.ofNat, UInt64.ofNat_toNat]
  · exact read_recordParent ha _

theorem handlers_congr {m' : Memory}
    (h : ∀ a, s.high ≤ a → a < s.high + 3 * wordBytes → m'.read a = m.read a) :
    s.handlers m' = s.handlers m := by
  unfold handlers
  simp only [wordBytes] at h ⊢
  rw [h s.high (by omega) (by omega), h (s.high + 8) (by omega) (by omega),
    h (s.high + 2 * 8) (by omega) (by omega)]

theorem handlers_recordParent (address : Nat) :
    s.handlers (s.recordParent m address) = s.handlers m := by
  refine handlers_congr fun a hlow hhigh => read_recordParent ?_ address
  simp only [parentSlot]
  omega

theorem handlers_setHandlers (h : Handlers) : s.handlers (s.setHandlers m h) = h := by
  obtain ⟨value, exn, effect⟩ := h
  have hload := Memory.load_store m s.high [value, exn, effect]
  simpa [Memory.load, Memory.span, List.range_succ, handlers, setHandlers, wordBytes] using hload

/-- Handlers that a segment has already may be installed again. -/
theorem read_setHandlers_handlers (a : Nat) :
    (s.setHandlers m (s.handlers m)).read a = m.read a := by
  simp only [setHandlers, handlers, Memory.store, Memory.read_write]
  split
  · simp_all [wordBytes]
  · split
    · simp_all
    · split
      · simp_all
      · rfl

/-- A segment that lost its parent and gets it back, with the handlers it has, is as before. -/
theorem read_rejoined (a : Nat) :
    (s.recordParent (s.setHandlers (s.recordParent m 0) (s.handlers m))
      (s.recordedParent m)).read a = m.read a := by
  by_cases ha : a = s.parentSlot
  · subst ha
    rw [recordParent, Memory.read_write_same, recordedParent, Word.ofNat, UInt64.ofNat_toNat]
  · have hhandlers : s.handlers m = s.handlers (s.recordParent m 0) :=
      (handlers_recordParent 0).symm
    rw [read_recordParent ha, hhandlers, read_setHandlers_handlers, read_recordParent ha]

theorem sameOutside_setHandlers (h : Handlers) : s.SameOutside m (s.setHandlers m h) := by
  intro a ha
  refine Memory.read_store_of_not_mem _ _ fun hmem => ?_
  obtain ⟨i, hi, rfl⟩ := Memory.mem_span_iff.mp hmem
  simp only [List.length_cons, List.length_nil, handlerBlockBytes, wordBytes] at hi ha
  omega

/-- Only words that the segment owns differ. -/
def Confines (s : Segment) (m m' : Memory) : Prop := ∀ a, ¬ s.Owns a → m'.read a = m.read a

theorem SameOutside.trans {m' m'' : Memory} (h : s.SameOutside m m') (h' : s.SameOutside m' m'') :
    s.SameOutside m m'' :=
  fun a ha => (h' a ha).trans (h a ha)

theorem SameOutside.confines {m' : Memory} (h : s.SameOutside m m') (hs : s.Formed) :
    s.Confines m m' := by
  intro a ha
  have hle := Nat.le_trans hs.base_le_sp hs.sp_le_high
  apply h a
  unfold Owns at ha
  omega

/-! ### New segments -/

/-- A segment just obtained for a fiber: it is empty, has the handlers, and of memory no more than
its handler block was written. -/
structure Obtained (s : Segment) (m₀ m : Memory) (h : Handlers) (id : FiberId) : Prop where
  formed : s.Formed
  empty : s.sp = s.high
  identity : s.id = id
  unsaved : s.savedExn = 0
  tagged : s.magic = segmentMagic
  handlers : s.handlers m = h
  unparented : s.recordedParent m = 0
  kept : s.SameOutside m₀ m

theorem obtained_reinit (h : Handlers) (id : FiberId) (hbase : s.base ≤ s.high)
    (haligned : s.high % wordBytes = 0) (hhigh : s.high + handlerBlockBytes ≤ AddressSpace.limit) :
    (s.reinit m h id).1.Obtained m (s.reinit m h id).2 h id where
  formed := ⟨hbase, Nat.le_refl _, haligned, haligned, hhigh⟩
  empty := rfl
  identity := rfl
  unsaved := rfl
  tagged := rfl
  handlers := (handlers_recordParent 0).trans (handlers_setHandlers h)
  unparented := recordedParent_recordParent (by decide)
  kept := (sameOutside_setHandlers h).trans (sameOutside_recordParent 0)

theorem obtained_of_allocate {m₀ : Memory} {space space' : AddressSpace} {policy : Policy}
    {words : Nat} {k : Option SizeClass} {owner : DomainId} {h : Handlers} {id : FiberId}
    (hrun : allocate m₀ space policy words k owner h id = .ok (.ok (s, m, space'))) :
    s.Obtained m₀ m h id ∧ 0 < s.base ∧
      space.Grants s.base (s.high + handlerBlockBytes) space' := by
  unfold allocate at hrun
  cases hbytes : Size.mul? words wordBytes with
  | none =>
      rw [hbytes] at hrun
      cases hrun
  | some bodyBytes =>
      have hbody := Size.eq_of_mul?_eq_some hbytes
      rw [hbytes] at hrun
      obtain ⟨grid, hgrid, hrun⟩ := Run.except_bind_eq_ok_iff.mp hrun
      obtain ⟨total, htotal, hrun⟩ := Run.except_bind_eq_ok_iff.mp hrun
      obtain ⟨result, hresult, hrun⟩ := Run.except_bind_eq_ok_iff.mp hrun
      have hgrid := Size.eq_of_add_eq_ok hgrid
      have htotal := Size.eq_of_add_eq_ok htotal
      cases result with
      | error e => cases hrun
      | ok pair =>
          obtain ⟨block, after⟩ := pair
          obtain ⟨hpos, haligned, hwithin, hgrants⟩ := AddressSpace.provides_of_allocate hresult
          cases hrun
          have hhigh : (block.usableStart + words * wordBytes + wordBytes) / 16 * 16 +
              handlerBlockBytes ≤ block.usableStart + total := by
            simp only [handlerBlockBytes] at *
            omega
          refine ⟨obtained_reinit h id ?_ ?_ (Nat.le_trans hhigh hwithin), hpos,
            (hgrants.mono (Nat.le_refl _) hhigh).of_grows (AddressSpace.grows_recordSegment _ _)⟩
          · simp only [place, wordBytes] at *
            omega
          · simp only [place, wordBytes]
            omega

/-! ### Segments apart -/

def Apart (s t : Segment) : Prop := ∀ a, s.Owns a → ¬ t.Owns a

theorem Apart.symm {s t : Segment} (h : s.Apart t) : t.Apart s :=
  fun a ht hs => h a hs ht

/-- A segment is obtained without writing elsewhere. -/
theorem Obtained.read_of_not_owns {m₀ m : Memory} {h : Handlers} {id : FiberId}
    (hnew : s.Obtained m₀ m h id) (ha : ¬ s.Owns a) : m.read a = m₀.read a := by
  have hle := Nat.le_trans hnew.formed.base_le_sp hnew.formed.sp_le_high
  apply hnew.kept a
  unfold Owns at ha
  omega

theorem Obtained.read_of_apart {s t : Segment} {m₀ m : Memory} {h : Handlers} {id : FiberId}
    (hnew : s.Obtained m₀ m h id) (hapart : s.Apart t) {a : Nat} (ha : t.Owns a) :
    m.read a = m₀.read a :=
  hnew.read_of_not_owns (hapart.symm a ha)

/-- The segments have memory of their own, from addresses that have been handed out. -/
structure Separate (space : AddressSpace) (segments : List Segment) : Prop where
  formed : ∀ s ∈ segments, s.Formed
  handed : ∀ s ∈ segments, ∀ a, s.Owns a → space.Taken a
  apart : segments.Pairwise Apart

namespace Separate

variable {space space' : AddressSpace} {segments more : List Segment} {t : Segment}

theorem nil (space : AddressSpace) : Separate space [] :=
  ⟨by simp, by simp, List.Pairwise.nil⟩

theorem grow (h : Separate space segments) (hgrows : space.Grows space') :
    Separate space' segments where
  formed := h.formed
  handed := fun s hs a ha => hgrows a (h.handed s hs a ha)
  apart := h.apart

theorem perm (h : Separate space segments) (hperm : segments.Perm more) : Separate space more where
  formed := fun s hs => h.formed s (hperm.mem_iff.mpr hs)
  handed := fun s hs => h.handed s (hperm.mem_iff.mpr hs)
  apart := h.apart.perm hperm fun hst => hst.symm

theorem sublist (h : Separate space segments) (hsub : more.Sublist segments) :
    Separate space more where
  formed := fun s hs => h.formed s (hsub.subset hs)
  handed := fun s hs => h.handed s (hsub.subset hs)
  apart := h.apart.sublist hsub

theorem of_perm_append (h : Separate space segments) {gone : List Segment}
    (hperm : segments.Perm (more ++ gone)) : Separate space more :=
  (h.perm hperm).sublist (List.sublist_append_left more gone)

/-- Segments apart from each other are told by the addresses of their handler blocks. -/
theorem high_ne (h : Separate space (s :: segments)) (ht : t ∈ segments) : s.high ≠ t.high := by
  intro heq
  have hs := owns_parentSlot (h.formed s List.mem_cons_self)
  have htslot := owns_parentSlot (h.formed t (List.mem_cons_of_mem s ht))
  refine (List.pairwise_cons.mp h.apart).1 t ht _ hs ?_
  rwa [parentSlot, heq]

theorem nodup_highs (h : Separate space segments) : (segments.map high).Nodup := by
  induction segments with
  | nil => exact List.nodup_nil
  | cons s rest ih =>
      refine List.nodup_cons.mpr ⟨fun hmem => ?_, ih (h.sublist (List.sublist_cons_self s rest))⟩
      obtain ⟨t, ht, heq⟩ := List.mem_map.mp hmem
      exact h.high_ne ht heq.symm

theorem replace (h : Separate space (s :: segments)) (ht : t.Formed) (hbase : t.base = s.base)
    (hhigh : t.high = s.high) : Separate space (t :: segments) where
  formed := List.forall_mem_cons.mpr ⟨ht, fun u hu => h.formed u (List.mem_cons_of_mem s hu)⟩
  handed := by
    obtain ⟨hs, hsegments⟩ := List.forall_mem_cons.mp h.handed
    refine List.forall_mem_cons.mpr ⟨fun a ha => hs a ?_, hsegments⟩
    rwa [Owns, ← hbase, ← hhigh]
  apart := by
    obtain ⟨hs, hsegments⟩ := List.pairwise_cons.mp h.apart
    refine List.pairwise_cons.mpr ⟨fun u hu a ha => hs u hu a ?_, hsegments⟩
    rwa [Owns, ← hbase, ← hhigh]

theorem resave (h : Separate space (s :: segments)) (exn : Nat) :
    Separate space ({ s with savedExn := exn } :: segments) :=
  h.replace ((h.formed s List.mem_cons_self).resave exn) rfl rfl

/-- A segment from addresses that were free is apart from all others. -/
theorem cons (h : Separate space segments) (hs : s.Formed)
    (hgrants : space.Grants s.base (s.high + handlerBlockBytes) space') :
    Separate space' (s :: segments) where
  formed := List.forall_mem_cons.mpr ⟨hs, h.formed⟩
  handed := List.forall_mem_cons.mpr
    ⟨fun a ha => hgrants.taken a ha.1 ha.2, fun t ht a ha => hgrants.grows a (h.handed t ht a ha)⟩
  apart := List.pairwise_cons.mpr
    ⟨fun t ht a hsa hta => hgrants.free a hsa.1 hsa.2 (h.handed t ht a hta), h.apart⟩

end Separate

end FiberStacks.Segment
