import FiberStacks.Chain
import FiberStacks.Proofs.Domain.Supply

/-!
# The geometry of a segment

A segment is placed in a block with its handler block on a 16-byte boundary. The rounding neither
takes a word from the body that was asked for nor leaves the block, and it adds a word to a body of
an odd number of words. Whatever calls are made on the segment, the stack pointer stays on a word
boundary within the body, and what is written stays in the body or in the handler block, each call
in its own part.
-/

namespace FiberStacks

namespace Segment

/-! ### Placing -/

/-- How a segment for `words` words lies in its block. -/
structure Laid (s : Segment) (words : Nat) : Prop where
  base_eq : s.base = s.memory.usableStart
  base_aligned : s.memory.usableStart % 16 = 0
  request_le : requestBytes words ≤ s.memory.usableLength
  high_aligned : s.high % 16 = 0
  base_le_high : s.base ≤ s.high
  within : s.high + handlerBlockBytes ≤ s.memory.usableStart + s.memory.usableLength
  bodyWords_eq : s.bodyWords = Size.roundUp words 2
  whole : wordBytes * s.bodyWords = s.high - s.base

/-- It takes no more of a block than that it begins on a 16-byte boundary and is as long as was
asked for. -/
theorem laid_place {block : MemoryBlock} {words : Nat} (haligned : block.usableStart % 16 = 0)
    (hlength : requestBytes words ≤ block.usableLength) (k? : Option SizeClass) (owner : DomainId)
    (id : FiberId) : (place block words k? owner id).Laid words where
  base_eq := rfl
  base_aligned := haligned
  request_le := hlength
  high_aligned := Nat.mul_mod_left _ 16
  base_le_high := by
    simp only [place, wordBytes]
    omega
  within := by
    simp only [requestBytes, place, wordBytes, handlerBlockBytes] at hlength ⊢
    omega
  bodyWords_eq := by
    simp only [place, bodyWords, Size.roundUp, Size.ceilDiv, wordBytes]
    omega
  whole := by
    simp only [place, bodyWords, wordBytes]
    omega

variable {m₀ m m' : Memory} {space space' : AddressSpace} {policy : Policy} {words : Nat}
  {k? : Option SizeClass} {owner : DomainId} {h : Handlers} {id : FiberId} {s s' : Segment}

/-- A segment stays in its place as it is made ready. -/
theorem Laid.reinit (hlaid : s.Laid words) (m : Memory) (h : Handlers) (id : FiberId) :
    (s.reinit m h id).1.Laid words :=
  { hlaid with }

/-- A segment that is allocated is placed in a block that was allocated for its request. -/
theorem placed_of_allocate
    (hrun : allocate m₀ space policy words k? owner h id = .ok (.ok (s, m, space'))) :
    ∃ block after, space.allocate policy (requestBytes words) = .ok (.ok (block, after)) ∧
      s = ((place block words k? owner id).reinit m₀ h id).1 := by
  unfold allocate at hrun
  cases hbytes : Size.mul? words wordBytes with
  | none =>
      rw [hbytes] at hrun
      cases hrun
  | some bodyBytes =>
      rw [hbytes] at hrun
      obtain ⟨grid, hgrid, hrun⟩ := Run.except_bind_eq_ok_iff.mp hrun
      obtain ⟨total, htotal, hrun⟩ := Run.except_bind_eq_ok_iff.mp hrun
      obtain ⟨result, hresult, hrun⟩ := Run.except_bind_eq_ok_iff.mp hrun
      have htotal : total = requestBytes words := by
        rw [Size.eq_of_add_eq_ok htotal, Size.eq_of_add_eq_ok hgrid,
          Size.eq_of_mul?_eq_some hbytes, requestBytes]
      cases result with
      | error e => cases hrun
      | ok pair =>
          obtain ⟨block, after⟩ := pair
          cases hrun
          exact ⟨block, after, htotal ▸ hresult, rfl⟩

theorem laid_of_allocate
    (hrun : allocate m₀ space policy words k? owner h id = .ok (.ok (s, m, space'))) :
    s.Laid words := by
  obtain ⟨block, after, hblock, rfl⟩ := placed_of_allocate hrun
  have haligned := (AddressSpace.provides_of_allocate hblock).aligned
  obtain ⟨-, start, -, rfl⟩ := AddressSpace.sized_of_allocate hblock
  exact (laid_place haligned (MemoryBlock.usableLength_sized policy _ start) k? owner id).reinit
    m₀ h id

/-! ### Calls -/

/-- A call on a segment. -/
inductive Call where
  | push (w : Word)
  | pop
  | write (address : Nat) (w : Word)
  | setSp (sp : Nat)
  | wipe
  | loadLive (ws : List Word)
  | setHandlers (h : Handlers)
  | setParent (outer : Chain)
  | reinit (h : Handlers) (id : FiberId)

namespace Call

/-- The segment and memory after a call. A push without room and a pop without a word change
nothing. -/
def apply (s : Segment) (m : Memory) : Call → Except Abort (Segment × Memory)
  | push w =>
    match s.push m w with
    | .ok after => .ok after
    | .error _ => .ok (s, m)
  | pop =>
    match s.pop? m with
    | some (_, s) => .ok (s, m)
    | none => .ok (s, m)
  | write address w => do return (s, ← s.write m address w)
  | setSp sp => do return (← s.setSp sp, m)
  | wipe => .ok (s, s.wipe m)
  | loadLive ws => s.loadLive m ws
  | setHandlers h => .ok (s, s.setHandlers m h)
  | setParent outer => .ok (s, (Chain.attach m s outer).2)
  | reinit h id => .ok (s.reinit m h id)

/-- The segment and memory after calls one after the other. -/
def applyAll (s : Segment) (m : Memory) (calls : List Call) : Except Abort (Segment × Memory) :=
  calls.foldlM (fun after call => call.apply after.1 after.2) (s, m)

/-- The handlers that a call installs. -/
def installs? : Call → Option Handlers
  | setHandlers h | reinit h _ => some h
  | _ => none

end Call

/-- Words outside of the body of a segment are the same. -/
def WithinBody (s : Segment) (m m' : Memory) : Prop :=
  ∀ a, s.contains a = false → m'.read a = m.read a

theorem WithinBody.refl (s : Segment) (m : Memory) : s.WithinBody m m := fun _ _ => rfl

/-- Words of the body stay out of the handler block. -/
theorem WithinBody.handlers (hwithin : s.WithinBody m m') : s.handlers m' = s.handlers m := by
  refine handlers_congr fun a hlow _ => hwithin a (Bool.eq_false_iff.mpr fun hmem => ?_)
  exact absurd hlow (Nat.not_le.mpr (contains_eq_true_iff.mp hmem).2)

theorem WithinBody.confines (hwithin : s.WithinBody m m') : s.Confines m m' := fun a ha =>
  hwithin a (Bool.eq_false_iff.mpr fun hmem => ha (owns_of_contains hmem))

theorem contains_parentSlot (s : Segment) : s.contains s.parentSlot = false :=
  Bool.eq_false_iff.mpr fun hmem =>
    absurd (contains_eq_true_iff.mp hmem).2 (Nat.not_lt.mpr (Nat.le_add_right _ _))

theorem withinBody_write {a : Nat} (ha : s.contains a = true) (w : Word) :
    s.WithinBody m (m.write a w) := by
  intro b hb
  refine Memory.read_write_of_ne _ _ ?_
  rintro rfl
  exact Bool.false_ne_true (hb.symm.trans ha)

theorem withinBody_wipe : s.WithinBody m (s.wipe m) := by
  intro a ha
  refine Memory.read_fill_of_not_mem _ _ fun hmem => Bool.eq_false_iff.mp ha ?_
  obtain ⟨i, hi, rfl⟩ := Memory.mem_span_iff.mp hmem
  simp only [bodyWords, wordBytes] at hi
  simp only [contains_eq_true_iff, wordBytes]
  omega

theorem withinBody_store {ws : List Word} (hroom : ws.length * wordBytes ≤ s.high - s.base) :
    s.WithinBody m (m.store (s.high - ws.length * wordBytes) ws) := by
  intro a ha
  refine Memory.read_store_of_not_mem _ _ fun hmem => Bool.eq_false_iff.mp ha ?_
  obtain ⟨i, hi, rfl⟩ := Memory.mem_span_iff.mp hmem
  simp only [wordBytes] at hroom
  simp only [contains_eq_true_iff, wordBytes]
  omega

/-- What a call leaves. The segment is well formed and where it was, it has the handlers that were
installed last, and nothing was written but on the segment. -/
structure Call.Keeps (s : Segment) (m : Memory) (call : Call) (s' : Segment) (m' : Memory) :
    Prop where
  formed : s'.Formed
  memory_eq : s'.memory = s.memory
  base_eq : s'.base = s.base
  high_eq : s'.high = s.high
  handlers : s'.handlers m' = call.installs?.getD (s.handlers m)
  confines : s.Confines m m'

/-- Whether a call is on the body of the segment. All others write in the handler block. -/
def Call.onBody : Call → Bool
  | setHandlers _ | setParent _ | reinit _ _ => false
  | _ => true

/-- A call on the body moves the stack pointer within it, and writes in it. -/
theorem Call.body_of_apply {call : Call} (hcall : call.onBody = true) (hs : s.Formed)
    (hrun : call.apply s m = .ok (s', m')) :
    ∃ sp, s' = { s with sp } ∧ ({ s with sp } : Segment).Formed ∧ s.WithinBody m m' := by
  have hbase := hs.base_le_sp
  have hle := hs.sp_le_high
  have hsp := hs.sp_aligned
  have hhigh := hs.high_aligned
  cases call with
  | push w =>
      by_cases hfull : s.sp - s.base < wordBytes
      · rw [apply, Segment.push, if_pos hfull] at hrun
        cases hrun
        exact ⟨_, rfl, hs, .refl s m⟩
      · rw [apply, Segment.push, if_neg hfull] at hrun
        cases hrun
        refine ⟨_, rfl, ⟨?_, ?_, ?_, hhigh, hs.high_le⟩, withinBody_write ?_ w⟩ <;>
          simp only [contains_eq_true_iff, wordBytes] at * <;> omega
  | pop =>
      by_cases hempty : s.sp = s.high
      · rw [apply, Segment.pop?, if_pos hempty] at hrun
        cases hrun
        exact ⟨_, rfl, hs, .refl s m⟩
      · rw [apply, Segment.pop?, if_neg hempty] at hrun
        cases hrun
        refine ⟨_, rfl, ⟨?_, ?_, ?_, hhigh, hs.high_le⟩, .refl s m⟩ <;>
          simp only [wordBytes] at * <;> omega
  | write a w =>
      obtain ⟨m₁, hwrite, hpure⟩ := Run.except_bind_eq_ok_iff.mp hrun
      cases hpure
      obtain ⟨rfl, hword⟩ := checked_write.of_eq_ok hwrite
      exact ⟨_, rfl, hs, withinBody_write hword.contains w⟩
  | setSp sp =>
      obtain ⟨s₁, hset, hpure⟩ := Run.except_bind_eq_ok_iff.mp hrun
      cases hpure
      unfold Segment.setSp at hset
      split at hset
      · rename_i hvalid
        cases hset
        exact ⟨_, rfl, ⟨hvalid.1, hvalid.2.1, hvalid.2.2, hhigh, hs.high_le⟩, .refl s m⟩
      · cases hset
  | wipe =>
      cases hrun
      exact ⟨_, rfl, hs, withinBody_wipe⟩
  | loadLive ws =>
      rw [apply, Segment.loadLive] at hrun
      split at hrun
      · rename_i hroom
        cases hrun
        refine ⟨_, rfl, ⟨?_, ?_, ?_, hhigh, hs.high_le⟩, withinBody_store hroom⟩ <;>
          simp only [wordBytes] at * <;> omega
      · cases hrun
  | setHandlers => cases hcall
  | setParent => cases hcall
  | reinit => cases hcall

theorem Call.keeps_of_apply {call : Call} (hs : s.Formed)
    (hrun : call.apply s m = .ok (s', m')) : Call.Keeps s m call s' m' := by
  cases hcall : call.onBody with
  | true =>
      obtain ⟨sp, rfl, hformed, hwithin⟩ := body_of_apply hcall hs hrun
      have hinstalls : call.installs? = none := by cases call <;> first | rfl | cases hcall
      refine ⟨hformed, rfl, rfl, rfl, ?_, hwithin.confines⟩
      rw [hinstalls]
      exact hwithin.handlers
  | false =>
      cases call with
      | setHandlers h =>
          cases hrun
          exact ⟨hs, rfl, rfl, rfl, handlers_setHandlers h,
            (sameOutside_setHandlers h).confines hs⟩
      | setParent outer =>
          cases hrun
          exact ⟨hs, rfl, rfl, rfl, handlers_recordParent _,
            (sameOutside_recordParent _).confines hs⟩
      | reinit h id =>
          cases hrun
          have hobtained := obtained_reinit (m := m) h id (hs.base_le_sp.trans hs.sp_le_high)
            hs.high_aligned hs.high_le
          exact ⟨hobtained.formed, rfl, rfl, rfl, hobtained.handlers,
            hobtained.kept.confines hobtained.formed⟩
      | _ => cases hcall

/-- The handlers after some calls on a segment that had others before. -/
def Call.handlersAfter (h : Handlers) (calls : List Call) : Handlers :=
  (calls.filterMap installs?).getLast?.getD h

theorem Call.handlersAfter_cons (h : Handlers) (call : Call) (calls : List Call) :
    handlersAfter h (call :: calls) = handlersAfter (call.installs?.getD h) calls := by
  unfold handlersAfter
  rw [List.filterMap_cons]
  cases call.installs? with
  | none => rfl
  | some h' =>
      simp only [List.getLast?_cons, Option.getD_some]

/-- Calls one after the other leave a well-formed segment in its place, with the handlers that were
installed last. -/
theorem Call.keeps_of_applyAll {calls : List Call} (hs : s.Formed)
    (hrun : applyAll s m calls = .ok (s', m')) :
    s'.Formed ∧ s'.memory = s.memory ∧ s'.base = s.base ∧ s'.high = s.high ∧
      s'.handlers m' = handlersAfter (s.handlers m) calls ∧ s.Confines m m' := by
  induction calls generalizing s m with
  | nil =>
      cases hrun
      exact ⟨hs, rfl, rfl, rfl, rfl, fun _ _ => rfl⟩
  | cons call calls ih =>
      obtain ⟨⟨s₁, m₁⟩, hfirst, hrest⟩ := Run.except_bind_eq_ok_iff.mp
        (show (call.apply s m >>= fun after => applyAll after.1 after.2 calls) = .ok (s', m')
          from hrun)
      obtain ⟨hformed, hmemory, hbase, hhigh, hhandlers, hconfines⟩ := keeps_of_apply hs hfirst
      obtain ⟨hformed', hmemory', hbase', hhigh', hhandlers', hconfines'⟩ := ih hformed hrest
      refine ⟨hformed', hmemory'.trans hmemory, hbase'.trans hbase, hhigh'.trans hhigh, ?_, ?_⟩
      · rw [hhandlers', handlersAfter_cons, hhandlers]
      · intro a ha
        have ha₁ : ¬ s₁.Owns a := by rwa [Owns, hbase, hhigh]
        exact (hconfines' a ha₁).trans (hconfines a ha)

/-- How a segment that has the handlers `h` goes on, whatever calls are made on it. It stays in its
place. Its stack pointer is on a word boundary within the body. Its handlers are those installed
last. Nothing is written but in the body and the handler block, and handlers or a parent can be set
without a change to the body. -/
def Endures (s : Segment) (m₀ m : Memory) (h : Handlers) : Prop :=
  ∀ calls s' m', Call.applyAll s m calls = .ok (s', m') →
    s'.base = s.base ∧ s'.high = s.high ∧ s'.memory = s.memory ∧
    s'.base ≤ s'.sp ∧ s'.sp ≤ s'.high ∧ s'.sp % wordBytes = 0 ∧
    s'.handlers m' = Call.handlersAfter h calls ∧
    (∀ a, ¬ s.Owns a → m'.read a = m₀.read a) ∧
    ∀ a, s'.contains a = true →
      (∀ h', (s'.setHandlers m' h').read a = m'.read a) ∧
      ∀ outer, (Chain.attach m' s' outer).2.read a = m'.read a

theorem Obtained.endures (hobtained : s.Obtained m₀ m h id) : s.Endures m₀ m h := by
  intro calls s' m' hcalls
  obtain ⟨hformed, hmemory, hbase, hhigh, hhandlers, hconfines⟩ :=
    Call.keeps_of_applyAll hobtained.formed hcalls
  refine ⟨hbase, hhigh, hmemory, hformed.base_le_sp, hformed.sp_le_high, hformed.sp_aligned, ?_, ?_,
    fun a ha => ?_⟩
  · rw [hhandlers, hobtained.handlers]
  · exact fun a ha => (hconfines a ha).trans (hobtained.read_of_not_owns ha)
  · have hbelow := (contains_eq_true_iff.mp ha).2
    exact ⟨fun h' => sameOutside_setHandlers h' a (.inl hbelow),
      fun outer => sameOutside_recordParent _ a (.inl hbelow)⟩

/-- A segment that is placed in any block that begins on a 16-byte boundary and is as long as was
asked for has its handler block on a 16-byte boundary, its body and its handler block lie inside the
usable memory of the block, and its body has the words that were asked for, rounded up to an even
number. So has a segment that is allocated under any policy, in memory that was free. Both endure
any calls that do not end in a fault. -/
theorem geometry_of_allocate (m₀ : Memory) (words : Nat) (k? : Option SizeClass) (owner : DomainId)
    (h : Handlers) (id : FiberId) :
    (∀ (block : MemoryBlock) (s : Segment) (m : Memory), block.usableStart % 16 = 0 →
        requestBytes words ≤ block.usableLength →
        block.usableStart + block.usableLength ≤ AddressSpace.limit →
        (place block words k? owner id).reinit m₀ h id = (s, m) →
        s.memory = block ∧ s.Laid words ∧ s.Endures m₀ m h) ∧
      ∀ (space space' : AddressSpace) (policy : Policy) (s : Segment) (m : Memory),
        allocate m₀ space policy words k? owner h id = .ok (.ok (s, m, space')) →
        s.Laid words ∧ space.Grants s.base (s.high + handlerBlockBytes) space' ∧
          s.Endures m₀ m h := by
  refine ⟨fun block s m haligned hlength hend hready => ?_,
    fun space space' policy s m hrun => ?_⟩
  · cases hready
    have hlaid := laid_place haligned hlength k? owner id
    have hwords : (place block words k? owner id).high % wordBytes = 0 := by
      have hhigh := hlaid.high_aligned
      simp only [wordBytes]
      omega
    exact ⟨rfl, hlaid.reinit m₀ h id, (obtained_reinit h id hlaid.base_le_high hwords
      (hlaid.within.trans hend)).endures⟩
  · obtain ⟨hobtained, -, hgrants⟩ := obtained_of_allocate hrun
    exact ⟨laid_of_allocate hrun, hgrants, hobtained.endures⟩

/-! ### A body of 33 words -/

namespace OddBody

def first : Handlers := ⟨3, 5, 7⟩

def second : Handlers := ⟨9, 11, 13⟩

def calls (high : Nat) : List Call :=
  [.push 21, .setHandlers second, .push 22, .pop, .write (high - 8) 23, .wipe, .setSp (high - 16),
    .loadLive [24, 25, 26], .setParent [], .pop]

/-- Whether the calls come to an end and leave two words, on a segment that was allocated. -/
def leavesTwoWords (x : Except Abort (Except AllocationError (Segment × Memory × AddressSpace))) :
    Bool :=
  match x with
  | .ok (.ok (s, m, _)) =>
    match Call.applyAll s m (calls s.high) with
    | .ok (s', _) => s'.sp + 16 = s'.high
    | .error _ => false
  | _ => false

def addresses : AddressSpace := .unused .ascending

theorem obtains : ∃ s m space' s' m',
    allocate Memory.blank addresses .guarded 33 none ⟨1⟩ first ⟨1⟩ = .ok (.ok (s, m, space')) ∧
      Call.applyAll s m (calls s.high) = .ok (s', m') ∧ s'.sp + 16 = s'.high := by
  have h : leavesTwoWords
      (allocate Memory.blank addresses .guarded 33 none ⟨1⟩ first ⟨1⟩) = true := by
    decide +kernel
  unfold leavesTwoWords at h
  split at h
  · rename_i s m space' hrun
    split at h
    · rename_i s' m' hcalls
      exact ⟨s, m, space', s', m', hrun, hcalls, of_decide_eq_true h⟩
    · cases h
  · cases h

/-- A block of the least length that is on a 16-byte boundary and not on a page boundary. -/
def block : MemoryBlock := ⟨0x10000010, 304, 0, .heap⟩

/-- A word is added to the body, and the second handlers stay. In the other block the handlers end
where the block ends. -/
theorem rounded_up : (∃ s m, (place block 33 none ⟨1⟩ ⟨1⟩).reinit Memory.blank first ⟨1⟩ = (s, m) ∧
      block.usableStart % 16 = 0 ∧ requestBytes 33 ≤ block.usableLength ∧
      s.bodyWords = 34 ∧ s.high % 16 = 0 ∧ s.high + handlerBlockBytes = 0x10000140) ∧
    ∃ s m space' s' m',
      allocate Memory.blank addresses .guarded 33 none ⟨1⟩ first ⟨1⟩ = .ok (.ok (s, m, space')) ∧
      Call.applyAll s m (calls s.high) = .ok (s', m') ∧ s'.sp + 16 = s'.high ∧
      s.bodyWords = 34 ∧ s.high % 16 = 0 ∧ s'.handlers m' = second := by
  obtain ⟨hplace, hallocate⟩ := geometry_of_allocate Memory.blank 33 none ⟨1⟩ first ⟨1⟩
  constructor
  · obtain ⟨-, hlaid, -⟩ := hplace block _ _ (by decide) (by decide) (by decide) rfl
    exact ⟨_, _, rfl, by decide, by decide, hlaid.bodyWords_eq, hlaid.high_aligned, by decide⟩
  · obtain ⟨s, m, space', s', m', hrun, hcalls, hsp⟩ := obtains
    obtain ⟨hlaid, -, hendures⟩ := hallocate _ _ _ s m hrun
    obtain ⟨-, -, -, -, -, -, hhandlers, -⟩ := hendures _ s' m' hcalls
    exact ⟨s, m, space', s', m', hrun, hcalls, hsp, hlaid.bodyWords_eq,
      hlaid.high_aligned, hhandlers⟩

end OddBody

end Segment

end FiberStacks
