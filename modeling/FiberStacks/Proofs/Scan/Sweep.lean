import FiberStacks.Proofs.Region.Layout
import FiberStacks.Proofs.Scan.Descent
import Mathlib.Data.Nat.Init

/-!
# The sweep of all blocks

A sweep that starts at the newest block comes to every block in turn, unless it finds a backward
pointer before. Between two blocks it may go down some arenas, from marker to marker. It scans the
fields of just the blocks that are reached by pointers at older blocks. The marks that it leaves are
those that were set behind it.
-/

namespace FiberStacks.Scanner

variable {sc : Scanner} {m₀ : Memory} {arenas : List Arena}
  {blocks done rest older : List LocalBlock} {roots : LocalBlock → Prop} {b c : LocalBlock}
  {index depth : Nat} {a : Arena} {p q u : Progress}

theorem ofWord_localSwitch : Header.ofWord Header.localSwitch.toWord = Header.localSwitch :=
  Header.ofWord_toWord_make 0 Color.notMarkable Tag.localSwitch

/-- What a sweep does once it has read a header. -/
def sweepAt (sc : Scanner) (arenas : List Arena) (index : Nat) (sp : Int) (headerAddress : Nat)
    (h : Header) : ScanM Unit :=
  if h.isLocalSwitch then
    if index = 0 then
      throw (.violation (.corruptLocalArena sp))
    else
      match arenas[index - 1]? with
      | none => pure ()
      | some older => do
        sc.poisonFree older sp
        sc.sweep arenas (index - 1) sp
  else do
    sc.sweepBlock arenas sp headerAddress h
    sc.sweep arenas index (sp + h.blockBytes)

/-- Inside its arena a sweep reads the header at its depth. -/
theorem sweep_run (harranged : Arranged arenas) (ha : arenas[index]? = some a)
    (hpos : 0 < depth) (hdepth : depth ≤ a.length) (p : Progress) :
    sc.sweep arenas index (-(depth : Int)) p =
      sc.sweepAt arenas index (-(depth : Int)) (a.down depth)
        (Header.ofWord (p.memory.read (a.down depth))) (p.logging [.steer (a.down depth)]) := by
  have hlimit := harranged.lt_limit (List.mem_of_getElem? ha)
  have hinside := harranged.inside a (List.mem_of_getElem? ha)
  unfold AddressSpace.limit at hinside
  have hreach : Offset.add (Offset.ofSize a.length) (-(depth : Int)) =
      .ok ((a.length : Int) - depth) := by
    rw [Offset.ofSize_eq (by unfold Offset.limit; omega), Offset.add,
      if_pos (by unfold Offset.limit; omega)]
    rfl
  rw [sweep, if_neg (by omega), ha]
  simp only
  rw [Run.bind_of_ok (Scan.lift_run hreach p), if_neg (by omega),
    Run.bind_of_ok (Scan.lift_run (Arena.addressAt_eq hlimit hdepth) p),
    Run.bind_of_ok (Scan.steer_run _ _)]
  rfl

/-- At a marker the sweep goes on in the arena before. -/
theorem sweep_of_switch {before : Arena} (harranged : Arranged arenas)
    (ha : arenas[index + 1]? = some a) (hbefore : arenas[index]? = some before) (hpos : 0 < depth)
    (hdepth : depth ≤ a.length)
    (hswitch : p.memory.read (a.down depth) = Header.localSwitch.toWord) :
    sc.sweep arenas (index + 1) (-(depth : Int)) p =
      (do
        sc.poisonFree before (-(depth : Int))
        sc.sweep arenas index (-(depth : Int)) : ScanM Unit)
        (p.logging [.steer (a.down depth)]) := by
  rw [sweep_run harranged ha hpos hdepth, hswitch, ofWord_localSwitch, sweepAt, if_pos (by decide),
    if_neg (Nat.succ_ne_zero index), Nat.add_sub_cancel, hbefore]

theorem isLocalSwitch_eq_false (hb : b.Told) (color : Nat) :
    (⟨b.wosize, color, b.tag⟩ : Header).isLocalSwitch = false := by
  unfold Header.isLocalSwitch
  rcases hb with hfilled | htag
  · simp [Nat.ne_of_gt hfilled]
  · simp [htag]

/-- At a block the sweep deals with it and goes on where it ends. -/
theorem sweep_of_block (harranged : Arranged arenas) (hb : b.In arenas)
    (htold : b.Told) {color : Nat}
    (hheader : Header.ofWord (p.memory.read b.header) = ⟨b.wosize, color, b.tag⟩) :
    sc.sweep arenas b.index (-(b.depth : Int)) p =
      (do
        sc.sweepBlock arenas (-(b.depth : Int)) b.header ⟨b.wosize, color, b.tag⟩
        sc.sweep arenas b.index (-(b.upper : Int)) : ScanM Unit)
        (p.logging [.steer b.header]) := by
  have hnext : -(b.depth : Int) + ((b.wosize + 1) * wordBytes : Nat) = -(b.upper : Int) := by
    unfold LocalBlock.depth LocalBlock.bytes
    omega
  rw [sweep_run harranged hb.found b.depth_pos hb.fits]
  change sc.sweepAt arenas b.index _ b.header (Header.ofWord (p.memory.read b.header)) _ = _
  rw [hheader, sweepAt, isLocalSwitch_eq_false htold, if_neg Bool.false_ne_true, Header.blockBytes,
    hnext]
  rfl

/-! ### Arenas -/

/-- A sweep comes down to the arena of a block from marker to marker. -/
theorem sweep_descends (harranged : Arranged arenas) (hb : b.In arenas)
    (hmod : b.depth % wordBytes = 0) (hle : b.index ≤ index) (hindex : index < arenas.length)
    (hswitch : ∀ k a, b.index < k → k ≤ index → arenas[k]? = some a →
      p.memory.read (a.down b.depth) = Header.localSwitch.toWord) :
    ∃ u, sc.sweep arenas index (-(b.depth : Int)) p =
        sc.sweep arenas b.index (-(b.depth : Int)) u ∧
      Overwrites p u (Freed arenas index b.depth) := by
  induction index, hle using Nat.le_induction generalizing p with
  | base => exact ⟨p, rfl, .refl p _⟩
  | succ index hle ih =>
      have hlt : index < arenas.length := Nat.lt_of_succ_lt hindex
      have ha := List.getElem?_eq_getElem hindex
      have hbefore := List.getElem?_eq_getElem hlt
      obtain ⟨v, hfree, hover⟩ := poisonFree_run sc harranged hbefore
        (hb.reaches index _ hle hbefore) hmod (p.logging [.steer (arenas[index + 1].down b.depth)])
      have hoverFreed : Overwrites p v (Freed arenas (index + 1) b.depth) := by
        refine ⟨hover.visits, fun address => (hover.words address).imp id fun hdead => ?_⟩
        exact ⟨⟨index, _, Nat.lt_succ_self index, hbefore, hdead.1⟩, hdead.2⟩
      have hmarkers : ∀ k a, b.index < k → k ≤ index → arenas[k]? = some a →
          v.memory.read (a.down b.depth) = Header.localSwitch.toWord := by
        intro k a hk hkle hak
        have hreaches := hb.reaches k a (Nat.le_of_lt hk) hak
        have hahead : Ahead arenas k b.depth (a.down b.depth) :=
          .inr ⟨k, a, Nat.le_refl k, hak, Arena.holds_down b.depth_pos hreaches, Nat.le_refl _⟩
        rw [hoverFreed.kept (hahead.not_freed harranged)]
        exact hswitch k a hk (Nat.le_succ_of_le hkle) hak
      obtain ⟨u, hrun, hu⟩ := ih hlt hmarkers
      refine ⟨u, ?_, hoverFreed.trans (hu.mono fun address hfreed => ?_)⟩
      · rw [sweep_of_switch harranged ha hbefore b.depth_pos
          (hb.reaches (index + 1) _ (Nat.le_succ_of_le hle) ha)
          (hswitch (index + 1) _ (Nat.lt_succ_of_le hle) (Nat.le_refl _) ha), Run.bind_of_ok hfree,
          hrun]
      · obtain ⟨k, a, hk, hrest⟩ := hfreed
        exact ⟨k, a, Nat.lt_succ_of_lt hk, hrest⟩

/-! ### The state of a sweep -/

/-- What a sweep goes over: blocks in view that can be told from markers, markers in later arenas,
and lawful words in the fields that may hold references. -/
structure Terrain (sc : Scanner) (m : Memory) (arenas : List Arena) (blocks : List LocalBlock) :
    Prop extends sc.Views m arenas blocks where
  written : ∀ b ∈ blocks, b.Written arenas m
  told : ∀ b ∈ blocks, b.Told
  lawful : ∀ b ∈ blocks, ∀ slot ∈ b.scanSlots m, sc.Lawful arenas m blocks (m.read slot)

/-- The words that a sweep leaves alone but for marks: those ahead of it, and those of the blocks
that it has scanned. -/
def Intact (sc : Scanner) (m₀ : Memory) (arenas : List Arena) (blocks : List LocalBlock)
    (roots : LocalBlock → Prop) (index : Nat) (done rest : List LocalBlock) (address : Nat) :
    Prop :=
  Ahead arenas index (extent rest) address ∨
    ∃ b ∈ done, sc.Descends m₀ blocks roots b ∧ b.Spans address

/-- Memory in the course of a sweep that has come by the blocks `done`, is yet to come by the blocks
`rest`, and is in the arena with the index. -/
structure Sweeping (sc : Scanner) (m₀ : Memory) (arenas : List Arena) (blocks : List LocalBlock)
    (roots : LocalBlock → Prop) (index : Nat) (done rest : List LocalBlock) (m : Memory) :
    Prop where
  marks : sc.Marks m₀ m blocks (sc.Marked m₀ blocks roots done rest)
    (sc.Intact m₀ arenas blocks roots index done rest)
  worn : Worn m₀ m blocks

/-- The markers at the depth of a block are in no block. -/
theorem not_spans_marker {k : Nat} (hplaced : Placed arenas blocks) (hb : b ∈ blocks)
    (hc : c ∈ blocks) (hk : b.index < k) (ha : arenas[k]? = some a) :
    ¬ c.Spans (a.down b.depth) := by
  intro hspans
  have hreaches := (hplaced.placed b hb).reaches k a (Nat.le_of_lt hk) ha
  have hcin := hplaced.placed c hc
  have hcholds := hcin.holds hspans
  by_cases heq : c.index = k
  · have harena : c.arena = a := by
      have hfound := hcin.found
      rw [heq, ha] at hfound
      exact (Option.some.inj hfound).symm
    have habove : b.Above c := by
      rcases hplaced.above_or_eq_or_above hb hc with habove | rfl | habove
      · have hle := habove.index
        omega
      · omega
      · exact habove
    have hend := hspans.2
    have hdepth := habove.depth
    rw [hcin.header_add_bytes, harena] at hend
    unfold Arena.down at hend
    omega
  · exact hplaced.arranged.not_holds hcin.found ha heq hcholds
      (Arena.holds_down b.depth_pos hreaches)

namespace Sweeping

/-- The sweep comes down to the next block. -/
theorem descend (ht : sc.Terrain m₀ arenas (done ++ b :: older)) (hindex : index < arenas.length)
    (hle : b.index ≤ index) (hdone : ∀ c ∈ done, index ≤ c.index)
    (h : sc.Sweeping m₀ arenas (done ++ b :: older) roots index done (b :: older) p.memory) :
    ∃ u, sc.sweep arenas index (-(b.depth : Int)) p =
        sc.sweep arenas b.index (-(b.depth : Int)) u ∧ u.visits = p.visits ∧
      sc.Sweeping m₀ arenas (done ++ b :: older) roots b.index done (b :: older) u.memory := by
  have harranged := ht.placed.arranged
  have hb : b ∈ done ++ b :: older := List.mem_append_right _ List.mem_cons_self
  have hin := ht.placed.placed b hb
  have hstacked := ht.placed.stacked.of_suffix (List.suffix_append done _)
  have hswitch : ∀ k a, b.index < k → k ≤ index → arenas[k]? = some a →
      p.memory.read (a.down b.depth) = Header.localSwitch.toWord := by
    intro k a hk hkle ha
    have hholds := Arena.holds_down b.depth_pos (hin.reaches k a (Nat.le_of_lt hk) ha)
    rw [h.marks.kept _ (.inl (.inr ⟨k, a, hkle, ha, hholds, Nat.le_refl _⟩))
      fun c hc heq => not_spans_marker ht.placed hb hc hk ha (heq ▸ c.spans_header)]
    exact (ht.written b hb).switches k a hk ha
  obtain ⟨u, hrun, hover⟩ := sweep_descends harranged hin (hstacked.depth_mod List.mem_cons_self)
    hle hindex hswitch
  have hahead : ∀ {address}, Ahead arenas b.index b.depth address →
      u.memory.read address = p.memory.read address := fun hahead =>
    hover.kept (hahead.not_freed harranged)
  have hspans : ∀ c ∈ done, ∀ {address}, c.Spans address →
      u.memory.read address = p.memory.read address := fun c hc _ hspans =>
    hover.kept (not_freed_of_spans harranged (ht.placed.placed c (List.mem_append_left _ hc))
      (hdone c hc) hspans)
  refine ⟨u, hrun, hover.visits, h.marks.of_kept (fun c hc => ?_) fun address hintact => ?_,
    hover.worn h.worn⟩
  · rcases List.mem_append.mp hc with hc | hc
    · exact hspans c hc c.spans_header
    · have hcase : c.index ≤ b.index ∧ c.depth ≤ b.depth := by
        rcases List.mem_cons.mp hc with rfl | hc
        · exact ⟨Nat.le_refl _, Nat.le_refl _⟩
        · have habove := hstacked.above hc
          exact ⟨habove.index, Nat.le_of_lt habove.depth_lt⟩
      exact hahead (Ahead.of_spans (ht.placed.placed c (List.mem_append_right _ hc)) hcase.1
        hcase.2 c.spans_header)
  · rcases hintact with hintact | ⟨c, hc, hdescends, hintact⟩
    · exact ⟨.inl (hintact.mono hle (Nat.le_refl _)), hahead hintact⟩
    · exact ⟨.inr ⟨c, hc, hdescends, hintact⟩, hspans c hc hintact⟩

/-- What is intact after a block was intact before. -/
theorem intact_of_snoc (hb : b.In arenas) {address : Nat}
    (h : sc.Intact m₀ arenas blocks roots b.index (done ++ [b]) older address)
    (hupper : b.upper = extent older) :
    sc.Intact m₀ arenas blocks roots b.index done (b :: older) address := by
  rcases h with hahead | ⟨c, hc, hdescends, hspans⟩
  · exact .inl (hahead.mono (Nat.le_refl _) (hupper ▸ Nat.le_add_right _ _))
  · rcases List.mem_append.mp hc with hc | hc
    · exact .inr ⟨c, hc, hdescends, hspans⟩
    · rw [List.mem_singleton.mp hc] at hspans
      exact .inl (Ahead.of_spans hb (Nat.le_refl _) (Nat.le_refl _) hspans)

/-- The sweep comes by a block that is not marked. -/
theorem pass (ht : sc.Terrain m₀ arenas (done ++ b :: older))
    (h : sc.Sweeping m₀ arenas (done ++ b :: older) roots b.index done (b :: older) p.memory)
    (hunmarked : ¬ sc.Marked m₀ (done ++ b :: older) roots done (b :: older) b) :
    ∃ v, sc.sweep arenas b.index (-(b.depth : Int)) p =
        sc.sweep arenas b.index (-(b.upper : Int)) v ∧ v.visits = p.visits ∧
      sc.Sweeping m₀ arenas (done ++ b :: older) roots b.index (done ++ [b]) older v.memory ∧
      (sc.Descends m₀ (done ++ b :: older) roots b → b.wosize = 0) := by
  have harranged := ht.placed.arranged
  have hb : b ∈ done ++ b :: older := List.mem_append_right _ List.mem_cons_self
  have hin := ht.placed.placed b hb
  have hstacked := ht.placed.stacked.of_suffix (List.suffix_append done _)
  have hidle : sc.Descends m₀ (done ++ b :: older) roots b → b.wosize = 0 := by
    intro hdescends
    refine Nat.eq_zero_of_not_pos fun hfilled => hunmarked ?_
    exact (marked_head_iff ht.placed (LocalBlock.inside_of_filled hin hfilled)).mpr hdescends
  obtain ⟨color, hheader, -, hcolor⟩ := h.marks.header_eq ht.toViews hb
  rw [hcolor hunmarked] at hheader
  obtain ⟨v, hrun, hover⟩ := sweepBlock_of_unmarked harranged hin (-(b.depth : Int))
    (p.logging [.steer b.header])
  have hkept : ∀ {address}, (∀ i < b.wosize, address ≠ b.block + wordBytes * i) →
      v.memory.read address = p.memory.read address := fun hne =>
    hover.kept fun hspan => by
      obtain ⟨i, hi, heq⟩ := Memory.mem_span_iff.mp hspan
      exact hne i hi heq
  refine ⟨v, ?_, hover.visits, ⟨?_, hover.worn h.worn⟩, hidle⟩
  · rw [sweep_of_block harranged hin (ht.told b hb) hheader, Run.bind_of_ok hrun]
  · have hmarks := h.marks.congr fun c _ => marked_snoc_of_idle ht.placed hunmarked
      fun d hdescends hrefers => Nat.ne_of_gt hrefers.filled (hidle hdescends)
    refine hmarks.of_kept (fun c hc => hkept fun i hi heq => ?_) fun address hintact => ?_
    · exact ht.ne_header_of_field hb hi hc heq.symm
    · refine ⟨intact_of_snoc hin hintact hstacked.2.1, hkept fun i hi heq => ?_⟩
      have hspans := heq ▸ b.spans_field hi
      rcases hintact with hahead | ⟨c, hc, hdescends, hspansc⟩
      · exact Ahead.not_spans harranged hin (hstacked.2.1 ▸ hahead) hspans
      · have hmem : c ∈ done ++ b :: older := by
          rcases List.mem_append.mp hc with hc | hc
          · exact List.mem_append_left _ hc
          · rwa [List.mem_singleton.mp hc]
        obtain rfl := ht.placed.eq_of_spans hb hmem hspans hspansc
        exact Nat.not_lt_zero i (hidle hdescends ▸ hi)

/-- The sweep scans a block that is marked. -/
theorem scan (ht : sc.Terrain m₀ arenas (done ++ b :: older))
    (h : sc.Sweeping m₀ arenas (done ++ b :: older) roots b.index done (b :: older) p.memory)
    (hmarked : sc.Marked m₀ (done ++ b :: older) roots done (b :: older) b) :
    (∃ v, sc.sweep arenas b.index (-(b.depth : Int)) p =
        sc.sweep arenas b.index (-(b.upper : Int)) v ∧
      v.visits = (sc.reportsOf m₀ (b.scanSlots m₀)).reverse ++ p.visits ∧
      sc.Sweeping m₀ arenas (done ++ b :: older) roots b.index (done ++ [b]) older v.memory ∧
      ¬ sc.Faults m₀ (done ++ b :: older) roots b) ∨
    (Scan.Backwards (sc.sweep arenas b.index (-(b.depth : Int))) p ∧
      sc.Faults m₀ (done ++ b :: older) roots b) := by
  have harranged := ht.placed.arranged
  have hb : b ∈ done ++ b :: older := List.mem_append_right _ List.mem_cons_self
  have hin := ht.placed.placed b hb
  have hstacked := ht.placed.stacked.of_suffix (List.suffix_append done _)
  have hdescends := hmarked.descends ht.placed
  have hrest : ∀ c ∈ b :: older, ∀ {address}, c.Spans address →
      Ahead arenas b.index b.depth address := by
    intro c hc address hspans
    have hcin := ht.placed.placed c (List.mem_append_right _ hc)
    rcases List.mem_cons.mp hc with rfl | hc
    · exact Ahead.of_spans hcin (Nat.le_refl _) (Nat.le_refl _) hspans
    · have habove := hstacked.above hc
      exact Ahead.of_spans hcin habove.index (Nat.le_of_lt habove.depth_lt) hspans
  have hfields : ∀ c ∈ done ++ b :: older,
      sc.Marked m₀ (done ++ b :: older) roots done (b :: older) c ∨ ¬ c.Beyond b →
      c.FieldsIn (sc.Intact m₀ arenas (done ++ b :: older) roots b.index done (b :: older)) := by
    intro c hc hcase
    rcases List.mem_append.mp hc with hdone | hcrest
    · have habove := above_of_split ht.placed hdone (List.mem_cons_self (l := older))
      -- Newer blocks that were not scanned have no fields, as a pointer at them was let pass.
      have hlevel : ∃ d, sc.Descends m₀ (done ++ b :: older) roots d ∧ c.Level d := by
        by_cases hbeyond : c.Beyond b
        · obtain ⟨d, hd, -, hlevel⟩ := (marked_iff_clings ht.placed hc hbeyond).mp
            (hcase.resolve_right fun hnot => hnot hbeyond)
          exact ⟨d, hd, hlevel⟩
        · exact ⟨b, hdescends, by_contra fun hlevel => hbeyond ⟨habove, hlevel⟩⟩
      obtain ⟨d, hd, rfl | ⟨hempty, -⟩⟩ := hlevel
      · exact fun i hi => .inr ⟨c, hdone, hd, c.spans_field hi⟩
      · exact LocalBlock.fieldsIn_of_empty hempty _
    · exact fun i hi => .inl (hrest c hcrest (c.spans_field hi))
  obtain ⟨color, hheader, hcolor, -⟩ := h.marks.header_eq ht.toViews hb
  rw [hcolor hmarked] at hheader
  have hends := sweepBlock_of_marked (p := p.logging [.steer b.header]) ht.toViews
    (fun a ha => .inl (.inl ha)) hb (ht.lawful b hb)
    (fun i hi => .inl (hrest b List.mem_cons_self (b.spans_field hi))) hfields h.worn h.marks
  rcases hends with ⟨v, hrun, htraced, hfine⟩ | ⟨hback, slot, hslot, c, hc, hhits, hbeyond, hfound⟩
  · have hnew : ∀ c ∈ done ++ b :: older, sc.Refers m₀ b c → c.Inside → c.Beyond b →
        sc.Marked m₀ (done ++ b :: older) roots done (b :: older) c := by
      intro c hc hrefers hinside hbeyond
      obtain ⟨slot, hslot, hhits⟩ := exists_hits_iff.mpr ⟨hrefers, hinside⟩
      exact (hfine slot hslot c hc hhits hbeyond).1
    refine .inl ⟨v, ?_, htraced.visits, ⟨?_, htraced.worn ht.toViews h.worn⟩, ?_⟩
    · rw [sweep_of_block harranged hin (ht.told b hb) hheader, Run.bind_of_ok hrun]
    · refine (htraced.marks.congr fun c hc => ?_).of_kept (fun _ _ => rfl) fun address hintact =>
        ⟨intact_of_snoc hin hintact hstacked.2.1, rfl⟩
      rw [exists_hits_iff]
      exact marked_snoc_of_scanned ht.placed hdescends hc (hnew c hc)
    · rw [faults_iff ht.placed]
      rintro ⟨-, c, hc, ⟨hrefers, hinside⟩, hbeyond, hnot⟩
      exact hnot (hnew c hc hrefers hinside hbeyond)
  · refine .inr ⟨(hback.bind _).congr (sweep_of_block harranged hin (ht.told b hb) hheader),
      (faults_iff ht.placed).mpr ⟨hdescends, c, hc, ?_, hbeyond, ?_⟩⟩
    · exact exists_hits_iff.mp ⟨slot, hslot, hhits⟩
    · exact fun hmarkedc => hfound ⟨hmarkedc, hbeyond.ne⟩

end Sweeping

/-! ### All blocks -/

/-- How a sweep ends that has yet to come by some of the blocks. Unless it comes by a backward
pointer, it reports what the fields of the blocks call for that are reached by pointers at older
blocks, and leaves those marks that were set behind it. -/
def EndsSweep (sc : Scanner) (m₀ : Memory) (blocks : List LocalBlock) (roots : LocalBlock → Prop)
    (rest : List LocalBlock) (x : ScanM Unit) (p : Progress) : Prop :=
  (∃ (q : Progress) (scanned : List LocalBlock), x p = .ok () q ∧ scanned.Sublist rest ∧
    (∀ b ∈ rest, b ∈ scanned ↔ sc.Descends m₀ blocks roots b) ∧
    q.visits = (sc.reportsOf m₀ (scanned.flatMap fun b => b.scanSlots m₀)).reverse ++ p.visits ∧
    sc.Marks m₀ q.memory blocks (sc.Clings m₀ blocks roots) (fun _ => False) ∧
    ∀ b ∈ rest, ¬ sc.Faults m₀ blocks roots b) ∨
  (Scan.Backwards x p ∧ ∃ b ∈ rest, sc.Faults m₀ blocks roots b)

theorem EndsSweep.congr {x y : ScanM Unit} (h : sc.EndsSweep m₀ blocks roots rest y u)
    (heq : x p = y u) (hvisits : u.visits = p.visits) :
    sc.EndsSweep m₀ blocks roots rest x p := by
  rcases h with ⟨q, scanned, hrun, hsub, hmem, hreports, hmarks, hfine⟩ | ⟨hback, hfault⟩
  · exact .inl ⟨q, scanned, heq.trans hrun, hsub, hmem, by rw [hreports, hvisits], hmarks, hfine⟩
  · exact .inr ⟨hback.congr heq, hfault⟩

/-- The sweep of one block and then of the blocks above. -/
theorem EndsSweep.cons {x y : ScanM Unit} {v : Progress}
    (h : sc.EndsSweep m₀ blocks roots older y v) (heq : x p = y v) (hb : b ∉ older)
    (hscanned : sc.Descends m₀ blocks roots b →
      v.visits = (sc.reportsOf m₀ (b.scanSlots m₀)).reverse ++ p.visits)
    (hidle : ¬ sc.Descends m₀ blocks roots b → v.visits = p.visits)
    (hfine : ¬ sc.Faults m₀ blocks roots b) :
    sc.EndsSweep m₀ blocks roots (b :: older) x p := by
  rcases h with ⟨q, scanned, hrun, hsub, hmem, hreports, hmarks, holder⟩ |
    ⟨hback, c, hc, hfault⟩
  · have hother : ∀ c ∈ older, c ≠ b := fun c hc hcb => hb (hcb ▸ hc)
    by_cases hdescends : sc.Descends m₀ blocks roots b
    · refine .inl ⟨q, b :: scanned, heq.trans hrun, hsub.cons_cons b, ?_, ?_, hmarks,
        List.forall_mem_cons.mpr ⟨hfine, holder⟩⟩
      · refine List.forall_mem_cons.mpr ⟨iff_of_true List.mem_cons_self hdescends, fun c hc => ?_⟩
        rw [List.mem_cons, or_iff_right (hother c hc)]
        exact hmem c hc
      · rw [hreports, hscanned hdescends, List.flatMap_cons, reportsOf_append, List.reverse_append,
          List.append_assoc]
    · refine .inl ⟨q, scanned, heq.trans hrun, hsub.cons b, ?_, ?_, hmarks,
        List.forall_mem_cons.mpr ⟨hfine, holder⟩⟩
      · have hnot : b ∉ scanned := fun hmemb => hb (hsub.subset hmemb)
        exact List.forall_mem_cons.mpr ⟨iff_of_false hnot hdescends, hmem⟩
      · rw [hreports, hidle hdescends]
  · exact .inr ⟨hback.congr heq, c, List.mem_cons_of_mem b hc, hfault⟩

/-- A sweep goes over the blocks it has yet to come by. -/
theorem sweep_ends (ht : sc.Terrain m₀ arenas blocks) (hsplit : blocks = done ++ rest)
    (hstacked : Stacked index rest) (hindex : index < arenas.length)
    (hdone : ∀ c ∈ done, index ≤ c.index)
    (h : sc.Sweeping m₀ arenas blocks roots index done rest p.memory) :
    sc.EndsSweep m₀ blocks roots rest (sc.sweep arenas index (-(extent rest : Int))) p := by
  induction rest generalizing index done p with
  | nil =>
      rw [List.append_nil] at hsplit
      subst hsplit
      refine .inl ⟨p, [], ?_, List.Sublist.refl _, by simp, rfl, ?_, by simp⟩
      · rw [sweep, if_pos (by simp [extent])]
        rfl
      · exact (h.marks.congr fun c hc => marked_nil_iff ht.placed hc).of_kept (fun _ _ => rfl)
          fun _ hnever => hnever.elim
  | cons b older ih =>
      subst hsplit
      obtain ⟨hle, hupper, holder⟩ := hstacked
      have hplaced := ht.placed
      obtain ⟨u, hdescend, hvisits, hu⟩ := Sweeping.descend ht hindex hle hdone h
      refine EndsSweep.congr (y := sc.sweep arenas b.index (-(b.depth : Int))) ?_ hdescend hvisits
      have hrest : ∀ {v : Progress},
          sc.Sweeping m₀ arenas (done ++ b :: older) roots b.index (done ++ [b]) older v.memory →
          sc.EndsSweep m₀ (done ++ b :: older) roots older
            (sc.sweep arenas b.index (-(b.upper : Int))) v := by
        intro v hv
        rw [hupper]
        refine ih (by simp) holder (Nat.lt_of_le_of_lt hle hindex) (fun c hc => ?_) hv
        rcases List.mem_append.mp hc with hc | hc
        · exact Nat.le_trans hle (hdone c hc)
        · exact Nat.le_of_eq (congrArg LocalBlock.index (List.mem_singleton.mp hc)).symm
      have hb : b ∉ older := fun hmem =>
        ((hplaced.stacked.of_suffix (List.suffix_append done _)).above hmem).ne rfl
      by_cases hmarked : sc.Marked m₀ (done ++ b :: older) roots done (b :: older) b
      · rcases Sweeping.scan ht hu hmarked with ⟨v, hrun, hreports, hv, hfine⟩ | ⟨hback, hfault⟩
        · exact (hrest hv).cons hrun hb (fun _ => hreports)
            (fun hnot => absurd (hmarked.descends hplaced) hnot) hfine
        · exact .inr ⟨hback, b, List.mem_cons_self, hfault⟩
      · obtain ⟨v, hrun, hreports, hv, hempty⟩ := Sweeping.pass ht hu hmarked
        refine (hrest hv).cons hrun hb (fun hdescends => ?_) (fun _ => hreports) ?_
        · rw [hreports, LocalBlock.scanSlots_of_empty (hempty hdescends)]
          rfl
        · rintro ⟨hdescends, c, -, hrefers, -⟩
          exact Nat.ne_of_gt hrefers.filled (hempty hdescends)

end FiberStacks.Scanner
