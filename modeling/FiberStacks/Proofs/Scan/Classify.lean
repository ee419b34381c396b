import FiberStacks.Proofs.Run
import FiberStacks.Scan.Progress

/-!
# What a scan does about a word

A word in a scanned location is passed over, reported, or marks a local block. The first part says
which, as a function of memory. The second part says what the scan of one location does to its
state, given that nothing but headers of local blocks has changed since the scan began.
-/

namespace FiberStacks

namespace Header

theorem ofWord_toWord_withColor (w : Word) (color : Nat) :
    ofWord ((ofWord w).withColor color).toWord = (ofWord w).withColor color := by
  have hmake : (ofWord w).withColor color = make (ofWord w).wosize color (ofWord w).tag := by
    have hw := w.toNat_lt
    simp only [withColor, make, ofWord, Header.mk.injEq, true_and]
    omega
  rw [hmake, ofWord_toWord_make]

end Header

namespace Block

/-- The header one word below the address that a word holds. -/
def headerAt (m : Memory) (w : Word) : Header :=
  Header.ofWord (m.read (w.toNat - wordBytes))

/-- The block that a word points at or into. -/
def startOf (m : Memory) (w : Word) : Word :=
  if (headerAt m w).tag = Tag.interior then
    Word.ofNat (w.toNat - (headerAt m w).wosize * wordBytes)
  else
    w

/-- The word has a header below it, and so has the block that it points into. -/
structure Readable (m : Memory) (w : Word) : Prop where
  header : wordBytes ≤ w.toNat
  start : (headerAt m w).tag = Tag.interior → ((headerAt m w).wosize + 1) * wordBytes ≤ w.toNat

instance (m : Memory) (w : Word) : Decidable (Readable m w) :=
  decidable_of_iff (wordBytes ≤ w.toNat ∧
      ((headerAt m w).tag = Tag.interior → ((headerAt m w).wosize + 1) * wordBytes ≤ w.toNat))
    ⟨fun h => ⟨h.1, h.2⟩, fun h => ⟨h.header, h.start⟩⟩

theorem toNat_startOf {m : Memory} {w : Word} :
    (startOf m w).toNat =
      if (headerAt m w).tag = Tag.interior then w.toNat - (headerAt m w).wosize * wordBytes
      else w.toNat := by
  unfold startOf
  split
  · have hw := w.toNat_lt
    rw [Word.ofNat, UInt64.toNat_ofNat']
    omega
  · rfl

theorem Readable.wordBytes_le_startOf {m : Memory} {w : Word} (h : Readable m w) :
    wordBytes ≤ (startOf m w).toNat := by
  rw [toNat_startOf]
  split
  · rename_i hinterior
    have hstart := h.start hinterior
    rw [Nat.add_mul, Nat.one_mul] at hstart
    omega
  · exact h.header

end Block

namespace Arena

def Holds (a : Arena) (address : Nat) : Prop :=
  a.base ≤ address ∧ address < a.base + a.length

instance (a : Arena) (address : Nat) : Decidable (a.Holds address) :=
  inferInstanceAs (Decidable (_ ∧ _))

theorem contains_eq {a : Arena} (h : a.base + a.length < Size.limit) (address : Nat) :
    a.contains address = .ok (decide (a.Holds address)) := by
  have htop : a.top = .ok (a.base + a.length) := by rw [top, Size.add, if_pos h]
  unfold contains
  rw [htop]
  by_cases hbase : a.base ≤ address
  · simp [Holds, hbase, bind, Except.bind, pure, Except.pure]
  · simp [Holds, hbase, pure, Except.pure]

end Arena

namespace Arenas

/-- The index of the newest of the first `n` arenas that holds an address. -/
def newestHolding (arenas : List Arena) (address : Nat) : Nat → Option Nat
  | 0 => none
  | n + 1 =>
    if arenas[n]?.any fun a => decide (a.Holds address) then some n
    else newestHolding arenas address n

/-- The index of the newest arena that holds an address. -/
def holder? (v : Arenas) (address : Nat) : Option Nat :=
  newestHolding v.arenas address v.arenas.length

theorem newestContaining_eq {arenas : List Arena}
    (h : ∀ a ∈ arenas, a.base + a.length < Size.limit) (address n : Nat) :
    newestContaining arenas address n = .ok (newestHolding arenas address n) := by
  induction n with
  | zero => rfl
  | succ n ih =>
      rw [newestContaining, newestHolding]
      cases hn : arenas[n]? with
      | none => simpa using ih
      | some a =>
          simp only [Arena.contains_eq (h a (List.mem_of_getElem? hn))]
          by_cases hholds : a.Holds address
          · simp [hholds, bind, Except.bind, pure, Except.pure]
          · simpa [hholds, bind, Except.bind] using ih

theorem indexOf?_eq {v : Arenas} (h : ∀ a ∈ v.arenas, a.base + a.length < Size.limit)
    (address : Nat) : v.indexOf? address = .ok (v.holder? address) :=
  newestContaining_eq h address v.arenas.length

theorem holds_of_newestHolding {arenas : List Arena} {address n i : Nat}
    (h : newestHolding arenas address n = some i) :
    ∃ a, arenas[i]? = some a ∧ a.Holds address := by
  induction n with
  | zero => cases h
  | succ n ih =>
      rw [newestHolding] at h
      split at h
      · rename_i hholds
        cases h
        simpa [Option.any_eq_true] using hholds
      · exact ih h

end Arenas

namespace Progress

def logging (p : Progress) (log : List Access) : Progress :=
  { p with accesses := log ++ p.accesses }

@[simp]
theorem memory_logging (p : Progress) (log : List Access) : (p.logging log).memory = p.memory := rfl

@[simp]
theorem visits_logging (p : Progress) (log : List Access) : (p.logging log).visits = p.visits := rfl

@[simp]
theorem logging_logging (p : Progress) (first second : List Access) :
    (p.logging first).logging second = p.logging (second ++ first) := by
  simp [logging]

end Progress

namespace Scan

theorem steer_run (a : Nat) (p : Progress) :
    steer a p = .ok (p.memory.read a) (p.logging [.steer a]) := rfl

theorem slotWord_run (a : Nat) (p : Progress) :
    slotWord a p = .ok (p.memory.read a) (p.logging [.classify a]) := rfl

theorem inspect_run {w : Word} (h : wordBytes ≤ w.toNat) (p : Progress) :
    inspect w p =
      .ok (Block.headerAt p.memory w) (p.logging [.inspect (w.toNat - wordBytes)]) := by
  have haddress : w.headerAddress = .ok (w.toNat - wordBytes) := by
    rw [Word.headerAddress, Size.sub, if_pos h]
  unfold inspect Block.header
  rw [haddress]
  rfl

end Scan

namespace Scanner

theorem enclosing_run {w : Word} {p : Progress} (h : Block.Readable p.memory w) :
    enclosing w p =
      .ok (Block.startOf p.memory w) (p.logging [.inspect (w.toNat - wordBytes)]) := by
  unfold enclosing
  rw [Run.bind_of_ok (Scan.inspect_run h.header p)]
  unfold Block.startOf
  split
  · rename_i hinterior
    have hstart := h.start hinterior
    rw [Nat.add_mul, Nat.one_mul] at hstart
    have hsub : Size.sub w.toNat ((Block.headerAt p.memory w).wosize * wordBytes) =
        .ok (w.toNat - (Block.headerAt p.memory w).wosize * wordBytes) := by
      rw [Size.sub, if_pos (by omega)]
    rw [hsub]
    rfl
  · rfl

end Scanner

/-- What a scan does about a word. -/
inductive Verdict where
  | passed
  | reported
  /-- The word refers to an unmarked local block, in the arena with the index. -/
  | marks (index : Nat)
  deriving DecidableEq

namespace Visitor

/-- Memory after a collector was told of a visit that came after those in `before`. -/
def leaves (collector : Visitor) (before : List Visit) (m : Memory) (v : Visit) : Memory :=
  match collector before v with
  | some w => m.write v.slot w
  | none => m

/-- The collector leaves the word alone when it is told of the locations. -/
def Spares (collector : Visitor) (slots : List Nat) (a : Nat) : Prop :=
  collector = observe ∨ a ∉ slots

theorem read_leaves_same (collector : Visitor) (before : List Visit) (m : Memory) (v : Visit) :
    (collector.leaves before m v).read v.slot = (collector before v).getD (m.read v.slot) := by
  unfold leaves
  cases collector before v with
  | none => rfl
  | some w => exact Memory.read_write_same m v.slot w

theorem read_leaves_of_ne (collector : Visitor) (before : List Visit) (m : Memory) {v : Visit}
    {a : Nat} (h : v.slot ≠ a) : (collector.leaves before m v).read a = m.read a := by
  unfold leaves
  cases collector before v with
  | none => rfl
  | some w => exact Memory.read_write_of_ne m w h

theorem read_leaves_of_spares {collector : Visitor} (before : List Visit) (m : Memory) {v : Visit}
    {a : Nat} (h : collector.Spares [v.slot] a) :
    (collector.leaves before m v).read a = m.read a := by
  rcases h with rfl | hne
  · rfl
  · exact collector.read_leaves_of_ne before m fun heq => hne (by simp [heq])

end Visitor

namespace Progress

/-- The state after a location was reported to a collector that only looks. -/
def reporting (p : Progress) (v : Visit) : Progress :=
  { p with visits := v :: p.visits }

/-- The state after a location was reported to any collector. -/
def telling (p : Progress) (collector : Visitor) (v : Visit) : Progress :=
  { p with visits := v :: p.visits, memory := collector.leaves p.visits p.memory v }

/-- The state after a header was overwritten. -/
def marking (p : Progress) (a : Nat) (h : Header) : Progress :=
  { p with memory := p.memory.write a h.toWord }

end Progress

namespace Scanner

/-- The index of the arena that holds an address, if it is a local one. -/
def local? (sc : Scanner) (address : Nat) : Option Nat :=
  sc.locals.bind fun v => v.holder? address

/-- Young words and blocks of the major heap that are not garbage are reported. A word that refers
to a block of an arena which is not marked yet marks it. Any other word is passed over. -/
def verdict (sc : Scanner) (m : Memory) (w : Word) : Verdict :=
  if w.isBlock = false then
    .passed
  else if sc.ctx.young w then
    .reported
  else if (Block.headerAt m (Block.startOf m w)).color = sc.ctx.colors.garbage then
    .passed
  else if (Block.headerAt m (Block.startOf m w)).color = Color.notMarkable then
    match sc.local? (Block.startOf m w).toNat with
    | none => .passed
    | some index => .marks index
  else
    .reported

/-- The arenas lie in the range of addresses, and the color that marks local blocks is one that a
header can carry. -/
def Sound (sc : Scanner) : Prop :=
  ∀ v, sc.locals = some v →
    sc.ctx.colors.garbage < 4 ∧ ∀ a ∈ v.arenas, a.base + a.length < Size.limit

/-- A word that is a block and not young has readable headers. -/
def Classifiable (sc : Scanner) (m : Memory) (w : Word) : Prop :=
  w.isBlock = true → sc.ctx.young w = false → Block.Readable m w

instance (sc : Scanner) (m : Memory) (w : Word) : Decidable (sc.Classifiable m w) :=
  inferInstanceAs (Decidable (_ → _ → _))

variable {sc : Scanner}

/-- The same scan for another collector. -/
def reportingTo (sc : Scanner) (collector : Visitor) : Scanner := { sc with visitor := collector }

theorem reportingTo_observe (h : sc.visitor = Visitor.observe) :
    sc.reportingTo Visitor.observe = sc := by
  rw [reportingTo, ← h]

theorem visit_run (sc : Scanner) (value : Word) (slot : Nat) (p : Progress) :
    sc.visit value slot p = .ok () (p.telling sc.visitor ⟨value, slot⟩) := rfl

theorem visit_observe (hobserve : sc.visitor = Visitor.observe) (value : Word) (slot : Nat)
    (p : Progress) : sc.visit value slot p = .ok () (p.reporting ⟨value, slot⟩) := by
  unfold visit
  rw [hobserve]
  rfl

/-- What the scan of one location does, whatever the collector. -/
theorem classify_run (sc : Scanner) (hsound : sc.Sound) {p : Progress} {slot : Nat}
    (hword : sc.Classifiable p.memory (p.memory.read slot)) :
    ∃ log, sc.classify slot p =
      match sc.verdict p.memory (p.memory.read slot) with
      | .passed => .ok none (p.logging log)
      | .reported => .ok none ((p.logging log).telling sc.visitor ⟨p.memory.read slot, slot⟩)
      | .marks index =>
        .ok (some index) ((p.logging log).marking
          ((Block.startOf p.memory (p.memory.read slot)).toNat - wordBytes)
          ((Block.headerAt p.memory (Block.startOf p.memory (p.memory.read slot))).withColor
            sc.ctx.colors.garbage)) := by
  unfold classify
  rw [Run.bind_of_ok (Scan.slotWord_run slot p)]
  generalize p.memory.read slot = w at hword ⊢
  unfold verdict
  by_cases hblock : w.isBlock = false
  · rw [hblock]
    exact ⟨_, rfl⟩
  rw [Bool.not_eq_false] at hblock
  rw [hblock]
  simp only [Bool.not_true, Bool.false_eq_true, Bool.true_eq_false, if_false]
  by_cases hyoung : sc.ctx.young w = true
  · rw [if_pos hyoung, if_pos hyoung, Run.bind_of_ok (sc.visit_run w slot _)]
    exact ⟨_, rfl⟩
  rw [if_neg hyoung, if_neg hyoung]
  have hreadable := hword hblock (Bool.eq_false_iff.mpr hyoung)
  have henclosing := enclosing_run (p := p.logging [.classify slot]) hreadable
  rw [Run.bind_of_ok henclosing]
  have hstart := hreadable.wordBytes_le_startOf
  generalize hblockWord : Block.startOf p.memory w = block at hstart
  rw [Progress.memory_logging, hblockWord, Run.bind_of_ok (Scan.inspect_run hstart _)]
  simp only [Progress.memory_logging, Progress.logging_logging]
  generalize Block.headerAt p.memory block = h
  by_cases hgarbage : h.color = sc.ctx.colors.garbage
  · rw [if_pos hgarbage, if_pos hgarbage]
    exact ⟨_, rfl⟩
  rw [if_neg hgarbage, if_neg hgarbage]
  by_cases hmarkable : h.color = Color.notMarkable
  · rw [if_pos hmarkable, if_pos hmarkable]
    unfold local?
    cases hlocals : sc.locals with
    | none => exact ⟨_, rfl⟩
    | some v =>
        simp only [Option.bind_some]
        rw [Arenas.indexOf?_eq (hsound v hlocals).2]
        cases v.holder? block.toNat with
        | none => exact ⟨_, rfl⟩
        | some index =>
            have haddress : block.headerAddress = .ok (block.toNat - wordBytes) := by
              rw [Word.headerAddress, Size.sub, if_pos hstart]
            rw [haddress]
            exact ⟨.mark (block.toNat - wordBytes) :: _, rfl⟩
  · rw [if_neg hmarkable, if_neg hmarkable, Run.bind_of_ok (sc.visit_run w slot _)]
    exact ⟨_, rfl⟩

theorem classify_observe (hobserve : sc.visitor = Visitor.observe) (hsound : sc.Sound)
    {p : Progress} {slot : Nat} (hword : sc.Classifiable p.memory (p.memory.read slot)) :
    ∃ log, sc.classify slot p =
      match sc.verdict p.memory (p.memory.read slot) with
      | .passed => .ok none (p.logging log)
      | .reported => .ok none ((p.logging log).reporting ⟨p.memory.read slot, slot⟩)
      | .marks index =>
        .ok (some index) ((p.logging log).marking
          ((Block.startOf p.memory (p.memory.read slot)).toNat - wordBytes)
          ((Block.headerAt p.memory (Block.startOf p.memory (p.memory.read slot))).withColor
            sc.ctx.colors.garbage)) := by
  obtain ⟨log, hrun⟩ := classify_run sc hsound hword
  rw [hobserve] at hrun
  exact ⟨log, hrun⟩

/-- The collector is told of the word: it is a young block, or one of the major heap that is not
garbage. -/
def isWanted (sc : Scanner) (m : Memory) (w : Word) : Bool :=
  w.isBlock && (sc.ctx.young w ||
    ((Block.headerAt m (Block.startOf m w)).color != sc.ctx.colors.garbage &&
      (Block.headerAt m (Block.startOf m w)).color != Color.notMarkable))

/-- The headers that decide about a word: the one below it, and that of the block it points into. -/
def headersOf (sc : Scanner) (m : Memory) (w : Word) : List Nat :=
  if w.isBlock && !sc.ctx.young w then
    [w.toNat - wordBytes, (Block.startOf m w).toNat - wordBytes]
  else
    []

theorem headersOf_of_block {m : Memory} {w : Word} (hblock : w.isBlock = true)
    (hyoung : sc.ctx.young w = false) :
    sc.headersOf m w = [w.toNat - wordBytes, (Block.startOf m w).toNat - wordBytes] := by
  rw [headersOf, hblock, hyoung]
  rfl

theorem mem_headersOf {m : Memory} {w : Word} {a : Nat} (h : a ∈ sc.headersOf m w) :
    a = w.toNat - wordBytes ∨ a = (Block.startOf m w).toNat - wordBytes := by
  unfold headersOf at h
  split at h
  · simpa using h
  · cases h

theorem verdict_eq_reported_iff {m : Memory} {w : Word} :
    sc.verdict m w = .reported ↔ sc.isWanted m w = true := by
  unfold verdict isWanted
  cases w.isBlock <;> cases sc.ctx.young w <;> simp
  split
  · simp_all
  · split
    · split <;> simp_all
    · simp_all

theorem of_verdict_eq_marks {m : Memory} {w : Word} {index : Nat}
    (h : sc.verdict m w = .marks index) :
    w.isBlock = true ∧ sc.ctx.young w = false ∧
      (Block.headerAt m (Block.startOf m w)).color ≠ sc.ctx.colors.garbage ∧
      (Block.headerAt m (Block.startOf m w)).color = Color.notMarkable ∧
      sc.local? (Block.startOf m w).toNat = some index := by
  unfold verdict at h
  split at h
  · cases h
  · split at h
    · cases h
    · split at h
      · cases h
      · split at h
        · split at h
          · cases h
          · cases h
            simp_all
        · cases h

/-! ### Headers that a scan has overwritten -/

/-- No block of an arena has its header at the address, so the scan never marks there. -/
def Spares (sc : Scanner) (a : Nat) : Prop :=
  ∀ v, sc.locals = some v → ∀ arena ∈ v.arenas, ¬ arena.Holds (a + wordBytes)

/-- The word marks the local block with its header at the address. -/
def Paints (sc : Scanner) (m : Memory) (w : Word) (a : Nat) : Prop :=
  (∃ index, sc.verdict m w = .marks index) ∧ (Block.startOf m w).toNat - wordBytes = a

/-- The memory `m` is `m₀` with the headers in the mark color that the words `ws` mark. -/
structure Painted (sc : Scanner) (m₀ : Memory) (ws : List Word) (m : Memory) : Prop where
  classifiable : ∀ w ∈ ws, sc.Classifiable m₀ w
  painted : ∀ a, (∃ w ∈ ws, sc.Paints m₀ w a) →
    m.read a = ((Header.ofWord (m₀.read a)).withColor sc.ctx.colors.garbage).toWord
  kept : ∀ a, (∀ w ∈ ws, ¬ sc.Paints m₀ w a) → m.read a = m₀.read a

theorem painted_nil (m : Memory) : sc.Painted m [] m where
  classifiable := by simp
  painted := by simp
  kept := by simp

theorem Paints.not_spares {m : Memory} {w : Word} {a : Nat} (h : sc.Paints m w a)
    (hw : sc.Classifiable m w) : ¬ sc.Spares a := by
  obtain ⟨⟨index, hmarks⟩, ha⟩ := h
  obtain ⟨hblock, hyoung, -, -, hlocal⟩ := of_verdict_eq_marks hmarks
  have hstart := (hw hblock hyoung).wordBytes_le_startOf
  intro hspares
  obtain ⟨v, hv, hholder⟩ := Option.bind_eq_some_iff.mp hlocal
  obtain ⟨arena, harena, hholds⟩ := Arenas.holds_of_newestHolding hholder
  apply hspares v hv arena (List.mem_of_getElem? harena)
  rwa [← ha, Nat.sub_add_cancel hstart]

namespace Painted

variable {m₀ m : Memory} {ws : List Word}

theorem read_of_spares (h : sc.Painted m₀ ws m) {a : Nat} (ha : sc.Spares a) :
    m.read a = m₀.read a :=
  h.kept a fun w hw hpaints => hpaints.not_spares (h.classifiable w hw) ha

/-- A painted header keeps size and tag, and was that of an unmarked block. -/
theorem header_of_paints (h : sc.Painted m₀ ws m) {a : Nat} (ha : ∃ w ∈ ws, sc.Paints m₀ w a) :
    Header.ofWord (m.read a) = (Header.ofWord (m₀.read a)).withColor sc.ctx.colors.garbage ∧
      (Header.ofWord (m₀.read a)).color = Color.notMarkable := by
  refine ⟨?_, ?_⟩
  · rw [h.painted a ha, Header.ofWord_toWord_withColor]
  · obtain ⟨w, hw, ⟨index, hmarks⟩, rfl⟩ := ha
    exact (of_verdict_eq_marks hmarks).2.2.2.1

theorem headerAt_wosize (h : sc.Painted m₀ ws m) (w : Word) :
    (Block.headerAt m w).wosize = (Block.headerAt m₀ w).wosize ∧
      (Block.headerAt m w).tag = (Block.headerAt m₀ w).tag := by
  unfold Block.headerAt
  by_cases ha : ∃ x ∈ ws, sc.Paints m₀ x (w.toNat - wordBytes)
  · rw [(h.header_of_paints ha).1]
    exact ⟨rfl, rfl⟩
  · rw [h.kept _ fun x hx hpaints => ha ⟨x, hx, hpaints⟩]
    exact ⟨rfl, rfl⟩

theorem startOf_eq (h : sc.Painted m₀ ws m) (w : Word) :
    Block.startOf m w = Block.startOf m₀ w := by
  unfold Block.startOf
  rw [(h.headerAt_wosize w).1, (h.headerAt_wosize w).2]

theorem classifiable_iff (h : sc.Painted m₀ ws m) (w : Word) :
    sc.Classifiable m w ↔ sc.Classifiable m₀ w := by
  have hreadable : Block.Readable m w ↔ Block.Readable m₀ w := by
    have heq := h.headerAt_wosize w
    constructor
    · intro hr
      exact ⟨hr.header, by rw [← heq.1, ← heq.2]; exact hr.start⟩
    · intro hr
      exact ⟨hr.header, by rw [heq.1, heq.2]; exact hr.start⟩
  unfold Classifiable
  rw [hreadable]

theorem verdict_of_kept (h : sc.Painted m₀ ws m) {w : Word}
    (hkept : ∀ x ∈ ws, ¬ sc.Paints m₀ x ((Block.startOf m₀ w).toNat - wordBytes)) :
    sc.verdict m w = sc.verdict m₀ w := by
  have hheader : Block.headerAt m (Block.startOf m w) = Block.headerAt m₀ (Block.startOf m₀ w) := by
    rw [h.startOf_eq w]
    unfold Block.headerAt
    rw [h.kept _ hkept]
  unfold verdict
  rw [hheader, h.startOf_eq w]

/-- A marked block is passed over, unless the word counts as young. -/
theorem verdict_of_painted (h : sc.Painted m₀ ws m) (hsound : sc.Sound) {w : Word}
    (hpainted : ∃ x ∈ ws, sc.Paints m₀ x ((Block.startOf m₀ w).toNat - wordBytes)) :
    sc.verdict m w = if w.isBlock = true ∧ sc.ctx.young w = true then .reported else .passed := by
  have hcolor : (Block.headerAt m (Block.startOf m w)).color = sc.ctx.colors.garbage := by
    have hgarbage : sc.ctx.colors.garbage < 4 := by
      obtain ⟨x, -, ⟨index, hmarks⟩, -⟩ := hpainted
      obtain ⟨-, -, -, -, hlocal⟩ := of_verdict_eq_marks hmarks
      obtain ⟨v, hv, -⟩ := Option.bind_eq_some_iff.mp hlocal
      exact (hsound v hv).1
    rw [h.startOf_eq w]
    unfold Block.headerAt
    rw [(h.header_of_paints hpainted).1, Header.withColor]
    exact Nat.mod_eq_of_lt hgarbage
  unfold verdict
  rw [hcolor]
  cases w.isBlock <;> cases sc.ctx.young w <;> simp

theorem verdict_eq_reported_iff (h : sc.Painted m₀ ws m) (hsound : sc.Sound) {w : Word} :
    sc.verdict m w = .reported ↔ sc.isWanted m₀ w = true := by
  by_cases hpainted : ∃ x ∈ ws, sc.Paints m₀ x ((Block.startOf m₀ w).toNat - wordBytes)
  · rw [h.verdict_of_painted hsound hpainted]
    have hcolor : (Block.headerAt m₀ (Block.startOf m₀ w)).color = Color.notMarkable :=
      (h.header_of_paints hpainted).2
    simp [isWanted, hcolor]
  · rw [h.verdict_of_kept fun x hx hpaints => hpainted ⟨x, hx, hpaints⟩,
      Scanner.verdict_eq_reported_iff]

/-- A word marks a block in `m` if it does so in `m₀` and no earlier word has marked the block. -/
theorem verdict_eq_marks_iff (h : sc.Painted m₀ ws m) (hsound : sc.Sound) {w : Word} {index : Nat} :
    sc.verdict m w = .marks index ↔
      sc.verdict m₀ w = .marks index ∧
        ∀ x ∈ ws, ¬ sc.Paints m₀ x ((Block.startOf m₀ w).toNat - wordBytes) := by
  by_cases hpainted : ∃ x ∈ ws, sc.Paints m₀ x ((Block.startOf m₀ w).toNat - wordBytes)
  · rw [h.verdict_of_painted hsound hpainted]
    constructor
    · intro heq
      split at heq <;> cases heq
    · rintro ⟨-, hkept⟩
      obtain ⟨x, hx, hpaints⟩ := hpainted
      exact absurd hpaints (hkept x hx)
  · have hkept : ∀ x ∈ ws, ¬ sc.Paints m₀ x ((Block.startOf m₀ w).toNat - wordBytes) :=
      fun x hx hpaints => hpainted ⟨x, hx, hpaints⟩
    rw [h.verdict_of_kept hkept]
    exact ⟨fun heq => ⟨heq, hkept⟩, fun heq => heq.1⟩

theorem cons_of_not_marks (h : sc.Painted m₀ ws m) (hsound : sc.Sound) {w : Word}
    (hw : sc.Classifiable m₀ w) (hverdict : ∀ index, sc.verdict m w ≠ .marks index) :
    sc.Painted m₀ (w :: ws) m := by
  have hearlier : ∀ a, sc.Paints m₀ w a → ∃ x ∈ ws, sc.Paints m₀ x a := by
    rintro a ⟨⟨index, hmarks⟩, rfl⟩
    by_contra hnone
    exact hverdict index ((h.verdict_eq_marks_iff hsound).mpr
      ⟨hmarks, fun x hx hpaints => hnone ⟨x, hx, hpaints⟩⟩)
  constructor
  · intro x hx
    rcases List.mem_cons.mp hx with rfl | hx
    · exact hw
    · exact h.classifiable x hx
  · rintro a ⟨x, hx, hpaints⟩
    apply h.painted a
    rcases List.mem_cons.mp hx with rfl | hx
    · exact hearlier a hpaints
    · exact ⟨x, hx, hpaints⟩
  · intro a hnone
    exact h.kept a fun x hx => hnone x (List.mem_cons_of_mem w hx)

theorem cons_of_marks (h : sc.Painted m₀ ws m) (hsound : sc.Sound) {w : Word} {index : Nat}
    (hw : sc.Classifiable m₀ w) (hverdict : sc.verdict m w = .marks index) :
    sc.Painted m₀ (w :: ws) (m.write ((Block.startOf m w).toNat - wordBytes)
      ((Block.headerAt m (Block.startOf m w)).withColor sc.ctx.colors.garbage).toWord) := by
  obtain ⟨hmarks, hfresh⟩ := (h.verdict_eq_marks_iff hsound).mp hverdict
  rw [h.startOf_eq w]
  have hread : m.read ((Block.startOf m₀ w).toNat - wordBytes) =
      m₀.read ((Block.startOf m₀ w).toNat - wordBytes) := h.kept _ hfresh
  constructor
  · intro x hx
    rcases List.mem_cons.mp hx with rfl | hx
    · exact hw
    · exact h.classifiable x hx
  · rintro a ⟨x, hx, hpaints⟩
    rcases List.mem_cons.mp hx with rfl | hx
    · rw [← hpaints.2, Memory.read_write_same, Block.headerAt, hread]
    · have hne : (Block.startOf m₀ w).toNat - wordBytes ≠ a := by
        rintro rfl
        exact hfresh x hx hpaints
      rw [Memory.read_write_of_ne _ _ hne]
      exact h.painted a ⟨x, hx, hpaints⟩
  · intro a hnone
    have hne : (Block.startOf m₀ w).toNat - wordBytes ≠ a := by
      rintro rfl
      exact hnone w List.mem_cons_self ⟨⟨index, hmarks⟩, rfl⟩
    rw [Memory.read_write_of_ne _ _ hne]
    exact h.kept a fun x hx => hnone x (List.mem_cons_of_mem w hx)

end Painted

/-! ### Scans of several locations -/

/-- The visits that the locations call for, in order. -/
def reportsOf (sc : Scanner) (m : Memory) (slots : List Nat) : List Visit :=
  (slots.filter fun slot => sc.isWanted m (m.read slot)).map fun slot => ⟨m.read slot, slot⟩

theorem reportsOf_append (m : Memory) (slots more : List Nat) :
    sc.reportsOf m (slots ++ more) = sc.reportsOf m slots ++ sc.reportsOf m more := by
  simp [reportsOf]

/-- The scan of one location: it is reported if its word was to be reported before any header was
overwritten, and its word joins those that have marked. -/
theorem classify_painted (hobserve : sc.visitor = Visitor.observe) (hsound : sc.Sound)
    {m₀ : Memory} {ws : List Word} {p : Progress} {slot : Nat} (h : sc.Painted m₀ ws p.memory)
    (hspares : sc.Spares slot) (hword : sc.Classifiable m₀ (m₀.read slot)) :
    ∃ q, (discard (sc.classify slot)) p = .ok () q ∧
      sc.Painted m₀ (m₀.read slot :: ws) q.memory ∧
      q.visits = (sc.reportsOf m₀ [slot]).reverse ++ p.visits ∧ q.segments = p.segments := by
  have hread : p.memory.read slot = m₀.read slot := h.read_of_spares hspares
  have hnow : sc.Classifiable p.memory (p.memory.read slot) := by
    rw [hread, h.classifiable_iff]
    exact hword
  obtain ⟨log, hrun⟩ := classify_observe hobserve hsound hnow
  rw [hread] at hrun
  cases hverdict : sc.verdict p.memory (m₀.read slot) with
  | passed =>
      rw [hverdict] at hrun
      have hreports : sc.reportsOf m₀ [slot] = [] := by
        have hnot : ¬ sc.isWanted m₀ (m₀.read slot) = true := by
          rw [← h.verdict_eq_reported_iff hsound, hverdict]
          simp
        simp [reportsOf, hnot]
      refine ⟨_, Run.discard_of_ok hrun, ?_, ?_, rfl⟩
      · exact h.cons_of_not_marks hsound hword (by simp [hverdict])
      · simp [hreports]
  | reported =>
      rw [hverdict] at hrun
      have hreports : sc.reportsOf m₀ [slot] = [⟨m₀.read slot, slot⟩] := by
        simp [reportsOf, (h.verdict_eq_reported_iff hsound).mp hverdict]
      refine ⟨_, Run.discard_of_ok hrun, ?_, ?_, rfl⟩
      · exact h.cons_of_not_marks hsound hword (by simp [hverdict])
      · simp [hreports, Progress.reporting]
  | marks index =>
      rw [hverdict] at hrun
      have hreports : sc.reportsOf m₀ [slot] = [] := by
        have hnot : ¬ sc.isWanted m₀ (m₀.read slot) = true := by
          rw [← h.verdict_eq_reported_iff hsound, hverdict]
          simp
        simp [reportsOf, hnot]
      refine ⟨_, Run.discard_of_ok hrun, ?_, ?_, rfl⟩
      · exact h.cons_of_marks hsound hword hverdict
      · simp [hreports, Progress.marking]

theorem classifyAll_painted (hobserve : sc.visitor = Visitor.observe) (hsound : sc.Sound)
    {m₀ : Memory} (slots : List Nat) {ws : List Word} {p : Progress}
    (h : sc.Painted m₀ ws p.memory) (hspares : ∀ slot ∈ slots, sc.Spares slot)
    (hwords : ∀ slot ∈ slots, sc.Classifiable m₀ (m₀.read slot)) :
    ∃ q, (forM slots fun slot => discard (sc.classify slot)) p = .ok () q ∧
      sc.Painted m₀ ((slots.map m₀.read).reverse ++ ws) q.memory ∧
      q.visits = (sc.reportsOf m₀ slots).reverse ++ p.visits ∧ q.segments = p.segments := by
  induction slots generalizing ws p with
  | nil => exact ⟨p, rfl, by simpa using h, by simp [reportsOf], rfl⟩
  | cons slot slots ih =>
      obtain ⟨u, hrun, hpainted, hvisits, hsegments⟩ := classify_painted hobserve hsound h
        (hspares slot List.mem_cons_self) (hwords slot List.mem_cons_self)
      obtain ⟨q, hrest, hq, hqvisits, hqsegments⟩ := ih hpainted
        (fun s hs => hspares s (List.mem_cons_of_mem slot hs))
        (fun s hs => hwords s (List.mem_cons_of_mem slot hs))
      refine ⟨q, ?_, ?_, ?_, hqsegments.trans hsegments⟩
      · rw [Run.forM_cons_eq_ok_iff]
        exact ⟨u, hrun, hrest⟩
      · simpa using hq
      · rw [hqvisits, hvisits, ← List.singleton_append (l := slots), reportsOf_append]
        simp

end Scanner

end FiberStacks
