import FiberStacks.Proofs.Scan.Confinement

/-!
# The innermost frame

A segment tells where its innermost frame is by a look at one of its first two words. The walk over
the frames of the segment comes to the same frame first: both step over a saved frame pointer, if
the code keeps them, and both count the stack offsets of the frame from the word above its return
address. On a segment without a return address the walk looks nothing up, and succeeds.
-/

namespace FiberStacks

namespace Access

/-- The return address that is looked up, with the base of the stack offsets of its frame. -/
def lookup? : Access → Option (Nat × Nat)
  | lookup returnAddress base => some (returnAddress, base)
  | _ => none

/-- The first frame that is looked up, among accesses with the newest in front. -/
def firstLookup? (log : List Access) : Option (Nat × Nat) :=
  log.reverse.findSome? lookup?

end Access

/-- What a walk that stands at the position notes at once. -/
def WalkPosition.begins : WalkPosition → List Access
  | chunk _ _ => []
  | frame sp _ returnAddress => [.lookup returnAddress sp]

namespace Scanner

variable {sc : Scanner} {s : Segment} {high : Nat} {position : WalkPosition} {p : Progress}

/-- A walk enters its first chunk at the word above the saved frame pointer, if there is such a
word. -/
theorem chunkTop_eq_ite (hs : s.Formed) (sc : Scanner) :
    sc.chunkTop s.high s.sp =
      if s.sp + sc.ctx.framePointers.toNat * wordBytes < s.high then
        s.sp + sc.ctx.framePointers.toNat * wordBytes
      else
        s.high := by
  have hle := hs.sp_le_high
  have hsp := hs.sp_aligned
  have hhigh := hs.high_aligned
  unfold chunkTop
  cases sc.ctx.framePointers with
  | false =>
      by_cases hlive : s.sp < s.high
      · simp [hlive]
      · simp [hlive]
        omega
  | true =>
      simp only [wordBytes] at *
      by_cases hlive : s.sp < s.high
      · by_cases habove : s.sp + 8 < s.high
        · simp [hlive, habove]
        · have hlast : s.sp + 8 = s.high := by omega
          simp [hlive, hlast]
      · have hempty : s.sp = s.high := by omega
        simp [hempty]

/-- The segment looks for its innermost frame at the word at which the walk enters its first
chunk. -/
theorem spPc?_eq (hs : s.Formed) (m : Memory) (sc : Scanner) :
    s.spPc? m sc.ctx.framePointers =
      if sc.chunkTop s.high s.sp < s.high then
        some (sc.chunkTop s.high s.sp + wordBytes, m.read (sc.chunkTop s.high s.sp))
      else
        none := by
  unfold Segment.spPc?
  simp only [hs.peek?_eq_ite, chunkTop_eq_ite hs]
  by_cases hlive : s.sp + sc.ctx.framePointers.toNat * wordBytes < s.high
  · simp [hlive, Nat.add_mul, Nat.add_assoc]
  · simp [hlive]

/-! ### What a walk notes first -/

section Suffix

open Scan

variable {α β : Type} {log : List Access} {x : ScanM α}

theorem suffix_left_of_notes {allowed : Access → Prop} (h : Notes allowed x p) :
    p.accesses <:+ (Run.left x p).accesses := by
  obtain ⟨more, hmore, -⟩ := h
  exact ⟨more, hmore.symm⟩

/-- What was noted stays noted. -/
theorem suffix_left_bind {f : α → ScanM β} (hx : log <:+ (Run.left x p).accesses)
    (hf : ∀ a q, x p = .ok a q → log <:+ q.accesses → log <:+ (Run.left (f a) q).accesses) :
    log <:+ (Run.left (x >>= f) p).accesses := by
  cases hrun : x p with
  | error e q =>
      rw [Run.left_of_error hrun] at hx
      rwa [Run.left_of_error (Run.bind_of_error hrun f)]
  | ok a q =>
      rw [Run.left_of_ok hrun] at hx
      rw [Run.left, Run.bind_of_ok hrun, ← Run.left]
      exact hf a q hrun hx

end Suffix

/-- A walk leaves what was noted before, and begins with the frame that it stands in. -/
theorem begins_suffix_walk (sc : Scanner) (high : Nat) (position : WalkPosition) (p : Progress) :
    position.begins ++ p.accesses <:+ (Run.left (sc.walk high position) p).accesses := by
  have hsteer : ∀ a q, q.accesses <:+ (Run.left (Scan.steer a) q).accesses := fun a q =>
    List.suffix_cons _ _
  induction position using walk.induct sc high generalizing p with
  | case1 sp registers htop =>
      rw [walk, if_pos htop]
      exact List.suffix_refl _
  | case2 sp registers htop hbeyond =>
      rw [walk, if_neg htop, if_pos hbeyond]
      exact List.suffix_refl _
  | case3 sp registers htop hbeyond ih =>
      rw [walk, if_neg htop, if_neg hbeyond]
      refine suffix_left_bind (hsteer _ p) fun w q _ hnoted => ?_
      exact hnoted.trans ((List.suffix_append _ _).trans (ih w q))
  | case4 sp registers returnAddress ihboundary ihframe =>
      rw [walk]
      refine suffix_left_bind (List.suffix_refl _) fun found q hrun hnoted => ?_
      cases hrun
      cases hfound : sc.ctx.frames returnAddress with
      | none => exact hnoted
      | some d =>
          simp only
          by_cases hnative : d.returnsToNative = true
          · rw [if_pos hnative]
            split
            · exact hnoted
            · rename_i hinside
              refine suffix_left_bind (hnoted.trans (hsteer _ _)) fun w q _ hnoted => ?_
              exact hnoted.trans (ihboundary hinside w q)
          · have hvisits : Scan.Notes (fun _ => True)
                (forM d.liveSlots (sc.visitLive high sp registers) : ScanM Unit)
                (p.logging [.lookup returnAddress sp]) :=
              notes_visitLives (fun _ => trivial) (fun _ => trivial) fun _ _ _ _ => trivial
            rw [if_neg hnative, List.forM_eq_forM]
            refine suffix_left_bind (hnoted.trans (suffix_left_of_notes hvisits))
              fun _ q _ hnoted => ?_
            split
            · exact hnoted
            rename_i hpositive
            split
            · exact hnoted
            split
            · exact hnoted
            rename_i hinside
            refine suffix_left_bind (hnoted.trans (hsteer _ _)) fun w q _ hnoted => ?_
            exact hnoted.trans ((List.suffix_append _ _).trans (ihframe d hpositive hinside w q))

/-- A scan of a stack with a return address reads that and looks it up, before all else. -/
theorem exists_accesses_scanFrames {top : Nat} (htop : sc.chunkTop s.high s.sp = top)
    (hlive : top < s.high) (registers : Option Nat) (p : Progress) :
    ∃ more, (Run.left (sc.scanFrames s registers) p).accesses =
      (more ++ [.lookup (p.memory.read top).toNat (top + wordBytes), .steer top]) ++
        p.accesses := by
  have hturn : Turn sc s.high (.chunk s.sp registers) p _ _ := .enter (htop ▸ hlive)
  rw [htop] at hturn
  obtain ⟨more, hmore⟩ := begins_suffix_walk sc s.high
    (.frame (top + wordBytes) registers (p.memory.read top).toNat) (p.logging [.steer top])
  refine ⟨more, ?_⟩
  rw [Run.left, scanFrames, hturn.walk_eq, ← Run.left, ← hmore, List.append_assoc]
  rfl

/-- A segment tells of no innermost frame exactly if the walk over its frames succeeds and looks
nothing up. Otherwise it tells of the return address that the walk looks up first, and of the base
of the stack offsets in the frame to which the walk turns with it. -/
theorem spPc?_eq_first_lookup (sc : Scanner) {s : Segment} (hs : s.Formed)
    (registers : Option Nat) (p : Progress) :
    ∃ log, (Run.left (sc.scanFrames s registers) p).accesses = log ++ p.accesses ∧
      (s.spPc? p.memory sc.ctx.framePointers = none ↔
        (∃ q, sc.scanFrames s registers p = .ok () q) ∧ Access.firstLookup? log = none) ∧
      ∀ base returnAddress,
        s.spPc? p.memory sc.ctx.framePointers = some (base, returnAddress) →
          Access.firstLookup? log = some (returnAddress.toNat, base) ∧
          ∃ q, Turn sc s.high (.chunk s.sp registers) p
              (.frame base registers returnAddress.toNat) q ∧
            ∀ offset slot u,
              Hands sc s.high (.frame base registers returnAddress.toNat) q (.stack offset) slot u →
                slot = base + offset := by
  have hsame := spPc?_eq hs p.memory sc
  obtain ⟨top, htop⟩ : ∃ top, sc.chunkTop s.high s.sp = top := ⟨_, rfl⟩
  rw [htop] at hsame
  by_cases hlive : top < s.high
  · rw [if_pos hlive] at hsame
    have hturn : Turn sc s.high (.chunk s.sp registers) p _ _ := .enter (htop ▸ hlive)
    rw [htop] at hturn
    obtain ⟨more, hlog⟩ := exists_accesses_scanFrames htop hlive registers p
    have hfirst : Access.firstLookup?
        (more ++ [.lookup (p.memory.read top).toNat (top + wordBytes), .steer top]) =
          some ((p.memory.read top).toNat, top + wordBytes) := by
      rw [Access.firstLookup?, List.reverse_append]
      rfl
    refine ⟨_, hlog, ?_, ?_⟩
    · rw [hsame, hfirst]
      exact iff_of_false (Option.some_ne_none _) fun h => Option.some_ne_none _ h.2
    · rw [hsame]
      rintro base returnAddress ⟨⟩
      refine ⟨hfirst, _, hturn, fun offset slot u hhands => ?_⟩
      obtain ⟨-, -, hcomes⟩ := hhands
      exact (Option.some.inj hcomes.place).symm
  · rw [if_neg hlive] at hsame
    have hrun : sc.scanFrames s registers p = .ok () p := by
      have hin : s.InBounds (sc.chunkTop s.high s.sp) :=
        Segment.InBounds.chunkTop ⟨Nat.le_refl _, hs.sp_le_high, hs.sp_aligned⟩ hs sc
      have hend : top = s.high := Nat.le_antisymm (htop ▸ hin.high) (Nat.not_lt.mp hlive)
      rw [scanFrames, walk, if_pos (htop.trans hend)]
      rfl
    refine ⟨[], ?_, ?_, ?_⟩
    · rw [Run.left_of_ok hrun]
      rfl
    · rw [hsame]
      exact iff_of_true rfl ⟨⟨p, hrun⟩, rfl⟩
    · rw [hsame]
      intro base returnAddress h
      cases h

end Scanner

/-! ### A saved frame pointer on a stack of garbage

The word that is a return address without frame pointers is the saved frame pointer with them. -/

namespace GarbageStack

/-- The scanner of code that keeps frame pointers. -/
def pointered : Scanner :=
  ⟨{ ScanContext.native frames with framePointers := true }, Visitor.observe, .empty, none⟩

/-- The segment with its last word only. -/
def shallow : Segment := { segment with sp := 0x2038 }

theorem formed_shallow : shallow.Formed := by
  constructor <;> decide

/-- With frame pointers the walk looks up the second word, for which there is no frame. Without them
it looks up the first. On a stack of one word, which is taken for a frame pointer, it looks nothing
up. -/
theorem looks_up_first : (segment.Formed ∧ shallow.Formed) ∧
    (∃ log, (Run.left (pointered.scanFrames segment none) start).accesses = log ++ [] ∧
      segment.spPc? start.memory true = some (0x2030, 0x17) ∧
      Access.firstLookup? log = some (0x17, 0x2030)) ∧
    (∃ log, (Run.left (scanner.scanFrames segment none) start).accesses = log ++ [] ∧
      segment.spPc? start.memory false = some (0x2028, 0x5000) ∧
      Access.firstLookup? log = some (0x5000, 0x2028)) ∧
    ∃ log, (Run.left (pointered.scanFrames shallow none) start).accesses = log ++ [] ∧
      shallow.spPc? start.memory true = none ∧
      (∃ q, pointered.scanFrames shallow none start = .ok () q) ∧
      Access.firstLookup? log = none := by
  have hpointered : segment.spPc? start.memory true = some (0x2030, 0x17) := by decide +kernel
  have hplain : segment.spPc? start.memory false = some (0x2028, 0x5000) := by decide +kernel
  have hnone : shallow.spPc? start.memory true = none := by decide +kernel
  obtain ⟨second, hsecond, -, hlookup₂⟩ :=
    Scanner.spPc?_eq_first_lookup pointered formed none start
  obtain ⟨first, hfirst, -, hlookup₁⟩ := Scanner.spPc?_eq_first_lookup scanner formed none start
  obtain ⟨log, hlog, hiff, -⟩ :=
    Scanner.spPc?_eq_first_lookup pointered formed_shallow none start
  exact ⟨⟨formed, formed_shallow⟩, ⟨second, hsecond, hpointered, (hlookup₂ _ _ hpointered).1⟩,
    ⟨first, hfirst, hplain, (hlookup₁ _ _ hplain).1⟩, log, hlog, hnone, hiff.mp hnone⟩

end GarbageStack

end FiberStacks
