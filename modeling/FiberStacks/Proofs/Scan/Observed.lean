import FiberStacks.Proofs.Scan.Walked

/-!
# Scans that only look

A scan without local arenas, for a collector that overwrites nothing, leaves memory as it is. It
reads the words in locations, and the headers of the blocks that they refer to, and notes both. So
what it does about a word is the same in all memories that agree on the headers it has noted.
-/

namespace FiberStacks

namespace Progress

/-- A later state of a scan that only looks. -/
structure Onward (p q : Progress) : Prop where
  memory : q.memory = p.memory
  noted : p.accesses ⊆ q.accesses

variable {p u q : Progress}

theorem Onward.refl (p : Progress) : p.Onward p := ⟨rfl, List.Subset.refl _⟩

theorem Onward.trans (h : p.Onward u) (h' : u.Onward q) : p.Onward q :=
  ⟨h'.memory.trans h.memory, List.Subset.trans h.noted h'.noted⟩

theorem Onward.logging (h : p.Onward u) (log : List Access) : p.Onward (u.logging log) :=
  ⟨h.memory, List.Subset.trans h.noted (List.subset_append_right log u.accesses)⟩

theorem Onward.reporting (h : p.Onward u) (v : Visit) : p.Onward (u.reporting v) :=
  ⟨h.memory, h.noted⟩

theorem Onward.finishing (h : p.Onward u) : p.Onward u.finishing := ⟨h.memory, h.noted⟩

end Progress

namespace Scan

theorem inspect_eq_ok {w : Word} {h : Header} {p q : Progress} (hrun : inspect w p = .ok h q) :
    wordBytes ≤ w.toNat ∧ h = Block.headerAt p.memory w ∧
      q = p.logging [.inspect (w.toNat - wordBytes)] := by
  by_cases haddress : wordBytes ≤ w.toNat
  · rw [inspect_run haddress] at hrun
    cases hrun
    exact ⟨haddress, rfl, rfl⟩
  · have hfault : w.headerAddress = .error (.fault (.overflow .subtract)) := by
      rw [Word.headerAddress, Size.sub, if_neg haddress]
    unfold inspect at hrun
    rw [hfault] at hrun
    cases hrun

end Scan

namespace Scanner

theorem enclosing_eq_ok {w block : Word} {p q : Progress} (hrun : enclosing w p = .ok block q) :
    wordBytes ≤ w.toNat ∧ block = Block.startOf p.memory w ∧
      q = p.logging [.inspect (w.toNat - wordBytes)] ∧
      ((Block.headerAt p.memory w).tag = Tag.interior →
        (Block.headerAt p.memory w).wosize * wordBytes ≤ w.toNat) := by
  obtain ⟨h, u, hinspect, hrest⟩ := Run.bind_eq_ok_iff.mp hrun
  obtain ⟨haddress, rfl, rfl⟩ := Scan.inspect_eq_ok hinspect
  unfold Block.startOf
  split at hrest
  · rename_i hinterior
    rw [if_pos hinterior]
    by_cases hinside : (Block.headerAt p.memory w).wosize * wordBytes ≤ w.toNat
    · rw [Size.sub, if_pos hinside] at hrest
      cases hrest
      exact ⟨haddress, rfl, rfl, fun _ => hinside⟩
    · rw [Size.sub, if_neg hinside] at hrest
      cases hrest
  · rename_i hordinary
    rw [if_neg hordinary]
    cases hrest
    exact ⟨haddress, rfl, rfl, fun h => absurd h hordinary⟩

variable {sc : Scanner} {m m' : Memory} {w : Word} {slot : Nat} {p q : Progress}

theorem startOf_congr (h : Block.headerAt m' w = Block.headerAt m w) :
    Block.startOf m' w = Block.startOf m w := by
  rw [Block.startOf, Block.startOf, h]

/-- A word is reported in both memories or in neither if they have its headers in common. -/
theorem isWanted_congr (h : ∀ a ∈ sc.headersOf m w, m'.read a = m.read a) :
    sc.isWanted m' w = sc.isWanted m w := by
  unfold isWanted
  cases hblock : w.isBlock with
  | false => rfl
  | true =>
      cases hyoung : sc.ctx.young w with
      | true => rfl
      | false =>
          rw [headersOf_of_block hblock hyoung] at h
          have hheader : Block.headerAt m' w = Block.headerAt m w :=
            congrArg Header.ofWord (h _ (by simp))
          have hstart : Block.headerAt m' (Block.startOf m w) =
              Block.headerAt m (Block.startOf m w) := congrArg Header.ofWord (h _ (by simp))
          rw [startOf_congr hheader, hstart]

theorem Classifiable.congr (hw : sc.Classifiable m w)
    (h : ∀ a ∈ sc.headersOf m w, m'.read a = m.read a) : sc.Classifiable m' w := by
  intro hblock hyoung
  obtain ⟨haddress, hinside⟩ := hw hblock hyoung
  rw [headersOf_of_block hblock hyoung] at h
  have hheader : Block.headerAt m' w = Block.headerAt m w :=
    congrArg Header.ofWord (h _ (by simp))
  exact ⟨haddress, by rwa [hheader]⟩

/-! ### What the scan of a location notes -/

/-- The scan of the location could read all that it needed, and has noted it. -/
structure LookedAt (sc : Scanner) (m : Memory) (log : List Access) (slot : Nat) : Prop where
  classifiable : sc.Classifiable m (m.read slot)
  noted : .classify slot ∈ log
  headers : ∀ a ∈ sc.headersOf m (m.read slot), .inspect a ∈ log

namespace LookedAt

variable {log later : List Access}

theorem mono (h : sc.LookedAt m log slot) (hlog : log ⊆ later) : sc.LookedAt m later slot :=
  ⟨h.classifiable, hlog h.noted, fun a ha => hlog (h.headers a ha)⟩

theorem of_plain (hplain : (m.read slot).isBlock = true → sc.ctx.young (m.read slot) = true)
    (hnoted : .classify slot ∈ log) : sc.LookedAt m log slot where
  classifiable := by
    intro hblock hyoung
    rw [hplain hblock] at hyoung
    cases hyoung
  noted := hnoted
  headers := by
    intro a ha
    unfold headersOf at ha
    cases hblock : (m.read slot).isBlock <;> simp [hblock, hplain] at ha

theorem of_block (hblock : (m.read slot).isBlock = true)
    (hyoung : sc.ctx.young (m.read slot) = false) (haddress : wordBytes ≤ (m.read slot).toNat)
    (hinside : (Block.headerAt m (m.read slot)).tag = Tag.interior →
      (Block.headerAt m (m.read slot)).wosize * wordBytes ≤ (m.read slot).toNat)
    (hstart : wordBytes ≤ (Block.startOf m (m.read slot)).toNat) (hnoted : .classify slot ∈ log)
    (hheader : .inspect ((m.read slot).toNat - wordBytes) ∈ log)
    (hblockHeader : .inspect ((Block.startOf m (m.read slot)).toNat - wordBytes) ∈ log) :
    sc.LookedAt m log slot where
  classifiable := by
    intro _ _
    refine ⟨haddress, fun hinterior => ?_⟩
    rw [Block.toNat_startOf, if_pos hinterior] at hstart
    have hsize := hinside hinterior
    rw [Nat.add_mul, Nat.one_mul]
    omega
  noted := hnoted
  headers := by
    rw [headersOf_of_block hblock hyoung]
    simp [hheader, hblockHeader]

end LookedAt

theorem lookedAt_of_classify (hobserve : sc.visitor = Visitor.observe) (hlocals : sc.locals = none)
    {r : Option Nat} (hrun : sc.classify slot p = .ok r q) :
    p.Onward q ∧ sc.LookedAt p.memory q.accesses slot := by
  unfold classify at hrun
  rw [Run.bind_of_ok (Scan.slotWord_run slot p)] at hrun
  cases hblock : (p.memory.read slot).isBlock with
  | false =>
      rw [hblock] at hrun
      cases hrun
      exact ⟨(Progress.Onward.refl p).logging _,
        .of_plain (by simp [hblock]) (by simp [Progress.logging])⟩
  | true =>
      rw [hblock] at hrun
      simp only [Bool.not_true, Bool.false_eq_true, if_false] at hrun
      cases hyoung : sc.ctx.young (p.memory.read slot) with
      | true =>
          rw [hyoung, if_pos rfl, Run.bind_of_ok (visit_observe hobserve _ slot _)] at hrun
          cases hrun
          exact ⟨((Progress.Onward.refl p).logging _).reporting _,
            .of_plain (fun _ => hyoung) (by simp [Progress.logging, Progress.reporting])⟩
      | false =>
          rw [hyoung, if_neg Bool.false_ne_true] at hrun
          obtain ⟨block, u, henclosing, hrun⟩ := Run.bind_eq_ok_iff.mp hrun
          obtain ⟨haddress, rfl, rfl, hinside⟩ := enclosing_eq_ok henclosing
          obtain ⟨h, u, hinspect, hrun⟩ := Run.bind_eq_ok_iff.mp hrun
          obtain ⟨hstart, rfl, rfl⟩ := Scan.inspect_eq_ok hinspect
          rw [Progress.memory_logging] at hrun hinside hstart
          simp only [Progress.logging_logging] at hrun
          have hlooked : ∀ u : Progress, u.accesses =
              .inspect ((Block.startOf p.memory (p.memory.read slot)).toNat - wordBytes) ::
                .inspect ((p.memory.read slot).toNat - wordBytes) :: .classify slot ::
                  p.accesses → sc.LookedAt p.memory u.accesses slot := by
            intro u hu
            rw [hu]
            exact .of_block hblock hyoung haddress hinside hstart (by simp) (by simp) (by simp)
          rw [hlocals] at hrun
          split at hrun
          · cases hrun
            exact ⟨(Progress.Onward.refl p).logging _, hlooked _ rfl⟩
          · split at hrun
            · cases hrun
              exact ⟨(Progress.Onward.refl p).logging _, hlooked _ rfl⟩
            · rw [Run.bind_of_ok (visit_observe hobserve _ slot _)] at hrun
              cases hrun
              exact ⟨((Progress.Onward.refl p).logging _).reporting _, hlooked _ rfl⟩

theorem lookedAt_of_classifyAll (hobserve : sc.visitor = Visitor.observe)
    (hlocals : sc.locals = none) {slots : List Nat} (hrun : sc.classifyAll slots p = .ok () q) :
    p.Onward q ∧ ∀ slot ∈ slots, sc.LookedAt p.memory q.accesses slot := by
  unfold classifyAll at hrun
  induction slots generalizing p with
  | nil =>
      cases hrun
      exact ⟨.refl _, by simp⟩
  | cons slot slots ih =>
      obtain ⟨u, hfirst, hrest⟩ := Run.forM_cons_eq_ok_iff.mp hrun
      obtain ⟨_, hclassify⟩ := Run.discard_eq_ok_iff.mp hfirst
      obtain ⟨honward, hlooked⟩ := lookedAt_of_classify hobserve hlocals hclassify
      obtain ⟨hlater, hlookedLater⟩ := ih hrest
      refine ⟨honward.trans hlater, List.forall_mem_cons.mpr ⟨hlooked.mono hlater.noted, ?_⟩⟩
      rwa [honward.memory] at hlookedLater

theorem sound_of_none (hlocals : sc.locals = none) : sc.Sound := by
  intro v hv
  rw [hlocals] at hv
  cases hv

theorem spares_of_none (hlocals : sc.locals = none) (a : Nat) : sc.Spares a := by
  intro v hv
  rw [hlocals] at hv
  cases hv

theorem visits_of_classifyAll (hobserve : sc.visitor = Visitor.observe)
    (hlocals : sc.locals = none) {slots : List Nat} (hrun : sc.classifyAll slots p = .ok () q) :
    q.visits = (sc.reportsOf p.memory slots).reverse ++ p.visits := by
  obtain ⟨-, hlooked⟩ := lookedAt_of_classifyAll hobserve hlocals hrun
  obtain ⟨u, hagain, -, hvisits, -⟩ := classifyAll_painted hobserve (sound_of_none hlocals) slots
    (painted_nil p.memory) (fun a _ => spares_of_none hlocals a)
    fun a ha => (hlooked a ha).classifiable
  cases hagain.symm.trans hrun
  exact hvisits

theorem onward_of_visitHandlers (hobserve : sc.visitor = Visitor.observe) {s : Segment}
    (hrun : sc.visitHandlers s p = .ok () q) : p.Onward q := by
  unfold visitHandlers at hrun
  rw [List.forM_eq_forM] at hrun
  generalize s.handlerSlots = slots at hrun
  induction slots generalizing p with
  | nil =>
      cases hrun
      exact .refl _
  | cons a slots ih =>
      obtain ⟨u, hfirst, hrest⟩ := Run.forM_cons_eq_ok_iff.mp hrun
      rw [Run.bind_of_ok (Scan.slotWord_run a p), visit_observe hobserve] at hfirst
      cases hfirst
      exact (((Progress.Onward.refl p).logging _).reporting _).trans (ih hrest)

/-! ### Walks and chains -/

theorem Walked.onward (hobserve : sc.visitor = Visitor.observe) (hlocals : sc.locals = none)
    {high : Nat} {position : WalkPosition} {frames : List MetFrame} {chunks : List MetChunk}
    (h : Walked sc high position p frames chunks q) : p.Onward q := by
  induction h with
  | finish top => exact .refl _
  | enter top _ ih => exact ((Progress.Onward.refl _).logging _).trans ih
  | boundary found native inside _ ih => exact ((Progress.Onward.refl _).logging _).trans ih
  | frame found compiled reaches visited positive sized inside _ ih =>
      obtain ⟨hvisited, -⟩ := lookedAt_of_classifyAll hobserve hlocals visited
      exact ((Progress.Onward.refl _).logging _).trans ((hvisited.logging _).trans ih)

theorem Scanned.onward (hobserve : sc.visitor = Visitor.observe) (hlocals : sc.locals = none)
    {registers : Option Nat} {chain : Chain} {met : List MetStack}
    (h : Scanned sc registers chain p met q) : p.Onward q := by
  induction h with
  | nil => exact .refl _
  | cons walked handled told _ ih =>
      have hwalked := walked.onward hobserve hlocals
      exact (hwalked.trans (onward_of_visitHandlers hobserve handled)).finishing.trans ih

end Scanner

namespace Machine

variable {sc : Scanner} {tables : List (List Nat)} {registers : Option Nat} {chain : Chain}
  {st : MachineState} {q : Progress}

/-- A scan whose roots were scanned ends as the pass over the local blocks does. -/
theorem scanRoots_run
    (hroots : sc.scanStacks tables registers chain (.start st.memory) = .ok () q) :
    ∃ st', scanRoots sc tables registers chain st =
        .ok ((q.advance sc.sweepLocals).2.report (q.advance sc.sweepLocals).1) st' ∧
      st'.memory = (q.advance sc.sweepLocals).2.memory := by
  have hstart : (Progress.start st.memory).advance (sc.scanStacks tables registers chain) =
      (.ok (), q) := by
    rw [Progress.advance, hroots]
  unfold scanRoots
  rw [Run.bind_of_ok (memory_run st)]
  simp only [hstart]
  generalize q.advance sc.sweepLocals = outcome
  obtain ⟨ending, p⟩ := outcome
  unfold endScan
  cases ending with
  | ok u => exact ⟨_, rfl, rfl⟩
  | error e => cases e <;> exact ⟨_, rfl, rfl⟩

/-- A scan ends well if its roots were scanned and the pass over the local blocks went well. -/
theorem scanRoots_of_sweep {p : Progress}
    (hroots : sc.scanStacks tables registers chain (.start st.memory) = .ok () p)
    (hsweep : sc.sweepLocals p = .ok () q) :
    ∃ st', scanRoots sc tables registers chain st = .ok (q.report (.ok ())) st' ∧
      st'.memory = q.memory := by
  obtain ⟨st', hrun, hmemory⟩ := scanRoots_run hroots
  have hadvance : p.advance sc.sweepLocals = (.ok (), q) := by
    rw [Progress.advance, hsweep]
  rw [hadvance] at hrun hmemory
  exact ⟨st', hrun, hmemory⟩

/-- A scan that ends well without local arenas has scanned the chain, and that is its report. -/
theorem scanRoots_eq_ok (hlocals : sc.locals = none) {report : ScanReport} {st' : MachineState}
    (hrun : scanRoots sc [] registers chain st = .ok report st')
    (hending : report.ending = .ok ()) :
    ∃ q, sc.scanChain registers chain (.start st.memory) = .ok () q ∧
      report = q.report (.ok ()) := by
  have hchain : sc.scanStacks [] registers chain (.start st.memory) =
      sc.scanChain registers chain (.start st.memory) := rfl
  cases hscan : sc.scanChain registers chain (.start st.memory) with
  | ok u q =>
      obtain ⟨st₁, hagain, -⟩ := scanRoots_run (hchain.trans hscan)
      rw [Scanner.sweepLocals, hlocals] at hagain
      cases hagain.symm.trans hrun
      exact ⟨q, rfl, rfl⟩
  | error e q =>
      unfold scanRoots at hrun
      rw [Run.bind_of_ok (memory_run st)] at hrun
      simp only [Progress.advance, hchain, hscan, endScan] at hrun
      cases e <;> cases hrun <;> cases hending

/-- Without local arenas a scan ends well if it comes to the end of the chain. -/
theorem exists_scanRoots (hlocals : sc.locals = none)
    (hscan : sc.scanChain registers chain (.start st.memory) = .ok () q) :
    ∃ st', scanRoots sc [] registers chain st = .ok (q.report (.ok ())) st' := by
  have hroots : sc.scanStacks [] registers chain (.start st.memory) = .ok () q := hscan
  obtain ⟨st', hrun, -⟩ := scanRoots_run hroots
  rw [Scanner.sweepLocals, hlocals] at hrun
  exact ⟨st', hrun⟩

end Machine

end FiberStacks
