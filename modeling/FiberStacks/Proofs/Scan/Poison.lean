import FiberStacks.Proofs.Scan.LocalPass
import FiberStacks.Proofs.Scan.Wasted

/-!
# What the pass over the local blocks overwrites

With poisoning on, the pass overwrites what nothing reaches while it is still finding out what is
reached, and a collector may overwrite the fields that it is told of. But fields point at older
blocks only, and the pass comes to these later. So whatever it has still to read is as it was at the
start.
-/

namespace FiberStacks

namespace Scanner

variable {sc : Scanner} {m₀ m : Memory} {arenas : List Arena}
  {blocks done rest older : List LocalBlock} {found : LocalBlock → Prop} {keep : Nat → Prop}
  {b c : LocalBlock} {index depth : Nat} {p q u : Progress} {collector : Visitor}

/-! ### One block -/

/-- A sweep of fields that can be followed ends well, if they point at no block behind it. -/
theorem sweepFields_followed (hs : sc.Views m₀ arenas blocks) (hb : b ∈ blocks) (count : Nat)
    {slot : Nat} (hslots : sc.Followable collector m₀ arenas blocks keep (Memory.span slot count)
      (Memory.span slot count))
    (hahead : ∀ a ∈ Memory.span slot count, ∀ c ∈ blocks, sc.Names m₀ c (m₀.read a) → ¬ c.Beyond b)
    (h : sc.Marks m₀ p.memory blocks found keep) :
    ∃ q, (sc.reportingTo collector).sweepFields arenas (-(b.depth : Int)) count slot p = .ok () q ∧
      sc.Followed collector m₀ blocks found keep (Memory.span slot count) p q := by
  induction count generalizing slot found keep p with
  | zero => exact ⟨p, rfl, Followed.refl h⟩
  | succ count ih =>
      have hspan : Memory.span slot (count + 1) = slot :: Memory.span (slot + wordBytes) count := by
        rw [Nat.add_comm count, Memory.span_add]
        simp [Memory.span]
      rw [hspan] at hslots hahead ⊢
      obtain ⟨index, u, hclassify, hfollowed, hindex⟩ := hslots.classify hs h
      have hstep : (sc.reportingTo collector).sweepFields arenas (-(b.depth : Int)) (count + 1) slot
          p = (sc.reportingTo collector).sweepFields arenas (-(b.depth : Int)) count
            (slot + wordBytes) u := by
        cases index with
        | none => rw [sweepFields, Run.bind_of_ok hclassify]
        | some i =>
            obtain ⟨c, hc, rfl, hhits, hread⟩ := hindex i rfl
            exact (sweepFields_of_marks hs.placed hb hc hclassify hread hhits.names.named count).2
              (hahead slot List.mem_cons_self c hc hhits.names)
      obtain ⟨q, hrun, hrest⟩ := ih
        ((hslots.of_subset (List.subset_cons_self slot _)).advance [slot]
          (List.Subset.refl _))
        (fun a ha => hahead a (List.mem_cons_of_mem slot ha)) hfollowed.marks
      exact ⟨q, hstep.trans hrun, hfollowed.trans hrest⟩

theorem sweepScannable_followed (hs : sc.Views m₀ arenas blocks) (hb : b ∈ blocks)
    (hslots : sc.Followable collector m₀ arenas blocks keep (b.scanSlots m₀) (b.scanSlots m₀))
    (hahead : ∀ a ∈ b.scanSlots m₀, ∀ c ∈ blocks, sc.Names m₀ c (m₀.read a) → ¬ c.Beyond b)
    (hown : b.FieldsIn keep)
    (h : sc.Marks m₀ p.memory blocks found keep) (color : Nat) :
    ∃ q, (sc.reportingTo collector).sweepScannable arenas (-(b.depth : Int)) b.block
        ⟨b.wosize, color, b.tag⟩ p = .ok () q ∧
      sc.Followed collector m₀ blocks found keep (b.scanSlots m₀) p q := by
  unfold sweepScannable
  unfold LocalBlock.scanSlots at hslots hahead ⊢
  by_cases hscan : b.tag < Tag.noScan
  · rw [if_pos hscan] at hslots hahead
    simp only [if_pos hscan]
    obtain ⟨u, hfirst, hmemory, hvisits⟩ := firstField_run color p fun hlt =>
      h.read_field hs hb hown hlt
    obtain ⟨q, hrun, hfollowed⟩ := sweepFields_followed hs hb _ hslots hahead (hmemory ▸ h)
    refine ⟨q, (Run.bind_of_ok hfirst _).trans hrun, ?_, ?_, hfollowed.marks⟩
    · rw [hfollowed.visits, hvisits]
    · intro a ha hspares
      rw [hfollowed.words a ha hspares, hmemory]
  · simp only [if_neg hscan]
    exact ⟨p, rfl, Followed.refl h⟩

/-- A marked block is unmarked, and its fields are followed. -/
theorem sweepBlock_followed (hs : sc.Views m₀ arenas blocks) (hb : b ∈ blocks)
    (hslots : sc.Followable collector m₀ arenas blocks keep (b.scanSlots m₀) (b.scanSlots m₀))
    (hahead : ∀ a ∈ b.scanSlots m₀, ∀ c ∈ blocks, sc.Names m₀ c (m₀.read a) → ¬ c.Beyond b)
    (hown : b.FieldsIn keep)
    (h : sc.Marks m₀ p.memory blocks found keep) :
    ∃ q, (sc.reportingTo collector).sweepBlock arenas (-(b.depth : Int)) b.header
        ⟨b.wosize, sc.ctx.colors.garbage, b.tag⟩ p = .ok () q ∧
      sc.Followed collector m₀ blocks (fun c => found c ∧ c ≠ b) keep (b.scanSlots m₀) p q := by
  obtain ⟨reset, hreset, hother, hvisits, hmarks⟩ :=
    sweepBlock_resets collector hs hb h
  obtain ⟨q, hrun, hfollowed⟩ := sweepScannable_followed hs hb hslots hahead hown hmarks
    sc.ctx.colors.garbage
  refine ⟨q, hreset.trans hrun, ?_, ?_, hfollowed.marks⟩
  · rw [hfollowed.visits, hvisits]
  · intro a ha hspares
    rw [hfollowed.words a ha hspares, hother a (ha b hb)]

/-! ### The state of a pass -/

/-- What a pass goes over: blocks with fields, which point at older blocks only. -/
structure Downhill (sc : Scanner) (m : Memory) (arenas : List Arena) (blocks : List LocalBlock) :
    Prop extends sc.Surveys m arenas blocks where
  written : ∀ b ∈ blocks, b.Written arenas m
  filled : ∀ b ∈ blocks, 0 < b.wosize
  linked : sc.Linked arenas m blocks

/-- The words with the property are all that a pass needs: those of the arenas that nothing
overwrites, and the headers of the heap that fields of reached blocks lead to. -/
structure Suffices (sc : Scanner) (m₀ : Memory) (arenas : List Arena) (blocks : List LocalBlock)
    (found : LocalBlock → Prop) (keep : Nat → Prop) : Prop where
  inside : ∀ a, ¬ Outside arenas a → ¬ Wasted m₀ arenas blocks found 0 blocks a → keep a
  heap : ∀ b, Reaches m₀ blocks found b → ∀ slot ∈ b.scanSlots m₀,
    ∀ a ∈ sc.headersOf m₀ (m₀.read slot), Outside arenas a → keep a

/-- The words that a pass has left alone but for marks. -/
def Spared (collector : Visitor) (m₀ : Memory) (arenas : List Arena) (blocks : List LocalBlock)
    (found : LocalBlock → Prop) (keep : Nat → Prop) (index : Nat) (done : List LocalBlock)
    (address : Nat) : Prop :=
  keep address ∧ ¬ Wasted m₀ arenas blocks found index done address ∧
    collector.Spares (done.flatMap fun b => b.scanSlots m₀) address

/-- Memory in the course of a pass that has come by the blocks `done`, is yet to come by the blocks
`rest`, and is in the arena with the index. -/
structure Passing (sc : Scanner) (collector : Visitor) (m₀ : Memory) (arenas : List Arena)
    (blocks : List LocalBlock) (found : LocalBlock → Prop) (keep : Nat → Prop) (index : Nat)
    (done rest : List LocalBlock) (m : Memory) : Prop where
  marks : sc.Marks m₀ m blocks (sc.Marked m₀ blocks found done rest)
    (Spared collector m₀ arenas blocks found keep index done)
  dead : ∀ a, Wasted m₀ arenas blocks found index done a → m.read a = Word.deadLocal

theorem Downhill.told (hd : sc.Downhill m₀ arenas blocks) (hb : b ∈ blocks) : b.Told :=
  .inl (hd.filled b hb)

/-- When a pass comes to a block, the block is marked if it is reached. -/
theorem Downhill.marked_iff (hd : sc.Downhill m₀ arenas (done ++ b :: older)) :
    sc.Marked m₀ (done ++ b :: older) found done (b :: older) b ↔
      Reaches m₀ (done ++ b :: older) found b := by
  have hb : b ∈ done ++ b :: older := List.mem_append_right _ List.mem_cons_self
  have hinside := LocalBlock.inside_of_filled (hd.placed.placed b hb) (hd.filled b hb)
  rw [marked_head_iff hd.placed hinside, hd.linked.descends_iff hd.toSurveys]

/-- The words of a reached block that a pass is yet to come by are left alone. -/
theorem spared_of_spans (hplaced : Placed arenas (done ++ rest))
    (hsuffices : sc.Suffices m₀ arenas (done ++ rest) found keep) (hc : c ∈ rest)
    (hreaches : Reaches m₀ (done ++ rest) found c) {a : Nat} (hspans : c.Spans a) :
    Spared collector m₀ arenas (done ++ rest) found keep index done a := by
  have hmem : c ∈ done ++ rest := List.mem_append_right done hc
  have hin := hplaced.placed c hmem
  have hwasted : ∀ {index done'}, done' ⊆ done ++ rest →
      ¬ Wasted m₀ arenas (done ++ rest) found index done' a := fun hsub =>
    not_wasted_of_spans hplaced hsub hmem hspans (.inl hreaches)
  refine ⟨hsuffices.inside a ?_ (hwasted (List.Subset.refl _)),
    hwasted (List.subset_append_left done rest), .inr fun hslot => ?_⟩
  · exact fun houtside => houtside c.arena hin.mem (hin.holds hspans)
  · obtain ⟨d, hd, hslot⟩ := List.mem_flatMap.mp hslot
    have hsame := hplaced.eq_of_spans hmem (List.mem_append_left rest hd) hspans
      (LocalBlock.spans_of_mem_scanSlots hslot)
    exact (above_of_split hplaced hd hc).ne hsame

/-- The markers at the depth of a block are left alone. -/
theorem spared_of_marker {k : Nat} {a : Arena} (hplaced : Placed arenas blocks)
    (hsuffices : sc.Suffices m₀ arenas blocks found keep) (hsub : done ⊆ blocks) (hb : b ∈ blocks)
    (hk : b.index < k) (ha : arenas[k]? = some a) :
    Spared collector m₀ arenas blocks found keep index done (a.down b.depth) := by
  have hreaches := (hplaced.placed b hb).reaches k a (Nat.le_of_lt hk) ha
  refine ⟨hsuffices.inside _ ?_ (not_wasted_marker hplaced (List.Subset.refl _) hb hk ha),
    not_wasted_marker hplaced hsub hb hk ha, .inr fun hslot => ?_⟩
  · exact fun houtside =>
      houtside a (List.mem_of_getElem? ha) (Arena.holds_down b.depth_pos hreaches)
  · obtain ⟨d, hd, hslot⟩ := List.mem_flatMap.mp hslot
    exact not_spans_marker hplaced hb (hsub hd) hk ha (LocalBlock.spans_of_mem_scanSlots hslot)

namespace Passing

variable {index' : Nat} {done' rest' : List LocalBlock} {gone : Nat → Prop}

/-- Overwriting words that nothing reaches. -/
theorem of_buries (hs : sc.Views m₀ arenas blocks)
    (h : sc.Passing collector m₀ arenas blocks found keep index done rest p.memory)
    (hburies : Buries p q gone) (hmore : done <+: done') (hsub : done' ⊆ blocks)
    (hwasted : ∀ a, Wasted m₀ arenas blocks found index' done' a ↔
      Wasted m₀ arenas blocks found index done a ∨ gone a)
    (hmarked : ∀ c ∈ blocks, sc.Marked m₀ blocks found done rest c ↔
      sc.Marked m₀ blocks found done' rest' c) :
    sc.Passing collector m₀ arenas blocks found keep index' done' rest' q.memory := by
  obtain ⟨more, rfl⟩ := hmore
  constructor
  · refine (h.marks.congr hmarked).of_kept (fun c hc => hburies.kept _ fun hgone => ?_)
      fun a ha => ?_
    · exact not_wasted_of_spans hs.placed hsub hc c.spans_header (.inr rfl)
        ((hwasted c.header).mpr (.inr hgone))
    · obtain ⟨hkeep, hnot, hspares⟩ := ha
      rw [hwasted, not_or] at hnot
      rw [List.flatMap_append] at hspares
      exact ⟨⟨hkeep, hnot.1, (spares_append.mp hspares).1⟩, hburies.kept a hnot.2⟩
  · intro a ha
    by_cases hgone : gone a
    · exact hburies.dead a hgone
    · rw [hburies.kept a hgone]
      exact h.dead a (((hwasted a).mp ha).resolve_right hgone)

/-- The pass enters an arena. -/
theorem enter (hs : sc.Views m₀ arenas blocks) (hpoison : sc.ctx.poison = true) {a : Arena}
    (hsplit : blocks = done ++ rest) (hstacked : Stacked index rest)
    (hdone : ∀ c ∈ done, index < c.index) (ha : arenas[index]? = some a)
    (hdepth : extent rest ≤ a.length)
    (h : sc.Passing collector m₀ arenas blocks found keep (index + 1) done rest p.memory) :
    ∃ q, (sc.reportingTo collector).poisonFree a (-(extent rest : Int)) p = .ok () q ∧
      q.visits = p.visits ∧
      sc.Passing collector m₀ arenas blocks found keep index done rest q.memory := by
  obtain ⟨q, hrun, hburies⟩ := poisonFree_buries (sc.reportingTo collector) hpoison
    hs.placed.arranged ha hdepth hstacked.extent_mod p
  refine ⟨q, hrun, hburies.visits, h.of_buries hs hburies (List.prefix_refl done)
    (hsplit ▸ List.subset_append_left done rest) (fun x => ?_) fun _ _ => Iff.rfl⟩
  rw [wasted_enter_iff, freeWord_iff hsplit hstacked hdone ha]

/-- The pass comes down to the arena of the next block. -/
theorem descend (hd : sc.Downhill m₀ arenas (done ++ b :: older)) (hpoison : sc.ctx.poison = true)
    (hsuffices : sc.Suffices m₀ arenas (done ++ b :: older) found keep) (hle : b.index ≤ index)
    (hindex : index < arenas.length) (hdone : ∀ c ∈ done, index ≤ c.index)
    (h : sc.Passing collector m₀ arenas (done ++ b :: older) found keep index done (b :: older)
      p.memory) :
    ∃ u, (sc.reportingTo collector).sweep arenas index (-(b.depth : Int)) p =
        (sc.reportingTo collector).sweep arenas b.index (-(b.depth : Int)) u ∧
      u.visits = p.visits ∧
      sc.Passing collector m₀ arenas (done ++ b :: older) found keep b.index done (b :: older)
        u.memory := by
  have hplaced := hd.placed
  have hb : b ∈ done ++ b :: older := List.mem_append_right _ List.mem_cons_self
  have hin := hplaced.placed b hb
  have hstacked := hplaced.stacked.of_suffix (List.suffix_append done (b :: older))
  -- On the arenas between: each of them holds a marker at this depth, which nothing overwrote.
  induction index, hle using Nat.le_induction generalizing p with
  | base => exact ⟨p, rfl, rfl, h⟩
  | succ index hle ih =>
      have hlt : index < arenas.length := Nat.lt_of_succ_lt hindex
      have ha := List.getElem?_eq_getElem hindex
      have hbefore := List.getElem?_eq_getElem hlt
      have hswitch : p.memory.read (arenas[index + 1].down b.depth) =
          Header.localSwitch.toWord := by
        have hk : b.index < index + 1 := Nat.lt_succ_of_le hle
        have hspared : Spared collector m₀ arenas (done ++ b :: older) found keep (index + 1) done
            (arenas[index + 1].down b.depth) :=
          spared_of_marker hplaced hsuffices (List.subset_append_left done _) hb hk ha
        rw [h.marks.kept _ hspared fun c hc heq =>
          not_spans_marker hplaced hb hc hk ha (heq ▸ c.spans_header)]
        exact (hd.written b hb).switches (index + 1) _ hk ha
      obtain ⟨v, hfree, hvisits, hv⟩ :=
        h.enter (p := p.logging [.steer (arenas[index + 1].down b.depth)]) hd.toViews hpoison rfl
          ⟨hle, hstacked.2⟩ hdone hbefore (hin.reaches index _ hle hbefore)
      obtain ⟨u, hrun, hvisitsu, hu⟩ := ih hlt (fun c hc => Nat.le_of_succ_le (hdone c hc)) hv
      refine ⟨u, ?_, hvisitsu.trans hvisits, hu⟩
      rw [sweep_of_switch hplaced.arranged ha hbefore b.depth_pos
        (hin.reaches (index + 1) _ (Nat.le_succ_of_le hle) ha) hswitch]
      exact (Run.bind_of_ok hfree _).trans hrun

/-- The pass overwrites the fields of a block that is not reached. -/
theorem pass (hd : sc.Downhill m₀ arenas (done ++ b :: older)) (hpoison : sc.ctx.poison = true)
    (h : sc.Passing collector m₀ arenas (done ++ b :: older) found keep b.index done (b :: older)
      p.memory) (hreaches : ¬ Reaches m₀ (done ++ b :: older) found b) :
    ∃ v, (sc.reportingTo collector).sweep arenas b.index (-(b.depth : Int)) p =
        (sc.reportingTo collector).sweep arenas b.index (-(b.upper : Int)) v ∧
      v.visits = p.visits ∧
      sc.Passing collector m₀ arenas (done ++ b :: older) found keep b.index (done ++ [b]) older
        v.memory := by
  have hplaced := hd.placed
  have hb : b ∈ done ++ b :: older := List.mem_append_right _ List.mem_cons_self
  have hin := hplaced.placed b hb
  have hunmarked := mt hd.marked_iff.mp hreaches
  obtain ⟨color, hheader, -, hcolor⟩ := h.marks.header_eq hd.toViews hb
  rw [hcolor hunmarked] at hheader
  obtain ⟨v, hrun, hburies⟩ := sweepBlock_buries (sc.reportingTo collector) hpoison
    hplaced.arranged hin (-(b.depth : Int)) (p.logging [.steer b.header])
  refine ⟨v, ?_, hburies.visits, h.of_buries (p := p.logging [.steer b.header]) hd.toViews hburies
    (List.prefix_append done [b]) ?_ (fun a => ?_) fun c _ => ?_⟩
  · rw [sweep_of_block hplaced.arranged hin (hd.told hb) hheader]
    exact Run.bind_of_ok hrun _
  · simp
  · rw [wasted_snoc_iff, and_iff_right hreaches]
  · refine marked_snoc_of_idle hplaced hunmarked fun d hdescends => absurd ?_ hreaches
    exact (hd.linked.descends_iff hd.toSurveys).mp hdescends

/-- The fields of a reached block can be followed when the pass comes to it. -/
theorem followable (hd : sc.Downhill m₀ arenas (done ++ b :: older))
    (hsuffices : sc.Suffices m₀ arenas (done ++ b :: older) found keep)
    (hreaches : Reaches m₀ (done ++ b :: older) found b) :
    sc.Followable collector m₀ arenas (done ++ b :: older)
      (Spared collector m₀ arenas (done ++ b :: older) found keep b.index done)
      (b.scanSlots m₀) (b.scanSlots m₀) := by
  have hplaced := hd.placed
  have hb : b ∈ done ++ b :: older := List.mem_append_right _ List.mem_cons_self
  have hother : ∀ {c a}, c ∈ done ++ b :: older → c ≠ b → c.Spans a → a ∉ b.scanSlots m₀ := by
    intro c a hc hne hspans hslot
    exact hne (hplaced.eq_of_spans hc hb hspans (LocalBlock.spans_of_mem_scanSlots hslot))
  constructor
  · intro slot hslot
    exact spared_of_spans hplaced hsuffices List.mem_cons_self hreaches
      (LocalBlock.spans_of_mem_scanSlots hslot)
  · intro slot hslot c hc
    obtain ⟨i, hi, rfl⟩ := LocalBlock.exists_of_mem_scanSlots hslot
    exact hd.ne_header_of_field hb hi hc
  · exact fun slot hslot => (hd.linked.legal hb hslot).lawful
  · intro slot hslot a ha houtside
    have hnot : ∀ c ∈ done ++ b :: older, a ∉ c.scanSlots m₀ := fun c hc hmem =>
      houtside c.arena (hplaced.placed c hc).mem
        ((hplaced.placed c hc).holds (LocalBlock.spans_of_mem_scanSlots hmem))
    refine ⟨⟨hsuffices.heap b hreaches slot hslot a ha houtside,
      not_wasted_of_outside hplaced (List.subset_append_left _ _) houtside, .inr fun hmem => ?_⟩,
      .inr (hnot b hb)⟩
    obtain ⟨c, hc, hmem⟩ := List.mem_flatMap.mp hmem
    exact hnot c (List.mem_append_left _ hc) hmem
  · intro slot hslot c hc hnames i hi
    obtain ⟨habove, -⟩ := hd.linked.above_of_refers hd.toSurveys hb hc ⟨slot, hslot, hnames⟩
    have hpointed := (hd.toSurveys.names_iff hc (hd.linked.legal hb hslot)).mp hnames
    have hahead : c ∈ b :: older := (List.mem_append.mp hc).resolve_left fun hdone =>
      (above_of_split hplaced hdone List.mem_cons_self).asymm habove
    exact ⟨spared_of_spans hplaced hsuffices hahead (.field hreaches hslot hc hpointed)
      (c.spans_field hi), .inr (hother hc habove.ne (c.spans_field hi))⟩
  · intro c hc
    refine .inr fun hslot => ?_
    obtain ⟨i, hi, heq⟩ := LocalBlock.exists_of_mem_scanSlots hslot
    exact hd.ne_header_of_field hb hi hc heq.symm
  · exact .inr (b.nodup_scanSlots m₀)

/-- The pass scans a block that is reached. -/
theorem scan (hd : sc.Downhill m₀ arenas (done ++ b :: older))
    (hsuffices : sc.Suffices m₀ arenas (done ++ b :: older) found keep)
    (h : sc.Passing collector m₀ arenas (done ++ b :: older) found keep b.index done (b :: older)
      p.memory) (hreaches : Reaches m₀ (done ++ b :: older) found b) :
    ∃ v, (sc.reportingTo collector).sweep arenas b.index (-(b.depth : Int)) p =
        (sc.reportingTo collector).sweep arenas b.index (-(b.upper : Int)) v ∧
      v.visits = (sc.reportsOf m₀ (b.scanSlots m₀)).reverse ++ p.visits ∧
      sc.Passing collector m₀ arenas (done ++ b :: older) found keep b.index (done ++ [b]) older
        v.memory := by
  have hplaced := hd.placed
  have hb : b ∈ done ++ b :: older := List.mem_append_right _ List.mem_cons_self
  have hin := hplaced.placed b hb
  have habove : ∀ c ∈ done ++ b :: older, sc.Refers m₀ b c → c.Above b := fun c hc hrefers =>
    (hd.linked.above_of_refers hd.toSurveys hb hc hrefers).1
  obtain ⟨color, hheader, hcolor, -⟩ := h.marks.header_eq hd.toViews hb
  rw [hcolor (hd.marked_iff.mpr hreaches)] at hheader
  obtain ⟨v, hrun, hfollowed⟩ := sweepBlock_followed (p := p.logging [.steer b.header])
    hd.toViews hb (followable hd hsuffices hreaches)
    (fun slot hslot c hc hnames hbeyond =>
      (habove c hc ⟨slot, hslot, hnames⟩).asymm hbeyond.1)
    (fun i hi => spared_of_spans hplaced hsuffices List.mem_cons_self hreaches (b.spans_field hi))
    h.marks
  have hwasted : ∀ a, Wasted m₀ arenas (done ++ b :: older) found b.index (done ++ [b]) a ↔
      Wasted m₀ arenas (done ++ b :: older) found b.index done a := by
    intro a
    rw [wasted_snoc_iff, or_iff_left fun hidle => hidle.1 hreaches]
  refine ⟨v, ?_, hfollowed.visits, ?_, fun a ha => ?_⟩
  · rw [sweep_of_block hplaced.arranged hin (hd.told hb) hheader]
    exact Run.bind_of_ok hrun _
  · refine (hfollowed.marks.congr fun c hc => ?_).of_kept (fun _ _ => rfl) fun a ha => ⟨?_, rfl⟩
    · rw [exists_hits_iff]
      refine marked_snoc_of_scanned hplaced ?_ hc fun hrefers _ hbeyond => ?_
      · exact (hd.linked.descends_iff hd.toSurveys).mpr hreaches
      · exact absurd hbeyond.1 (habove c hc hrefers).asymm
    · obtain ⟨hkeep, hnot, hspares⟩ := ha
      rw [List.flatMap_append, List.flatMap_singleton] at hspares
      obtain ⟨hdone, hlast⟩ := spares_append.mp hspares
      exact ⟨⟨hkeep, mt (hwasted a).mpr hnot, hdone⟩, hlast⟩
  · rw [hwasted] at ha
    have hsub : done ⊆ done ++ b :: older := List.subset_append_left _ _
    rw [hfollowed.words a (fun c hc heq => ?_) (.inr fun hslot => ?_)]
    · exact h.dead a ha
    · exact not_wasted_of_spans hplaced hsub hc (heq ▸ c.spans_header) (.inr heq) ha
    · exact not_wasted_of_spans hplaced hsub hb (LocalBlock.spans_of_mem_scanSlots hslot)
        (.inl hreaches) ha

end Passing

/-! ### All blocks -/

/-- From `p` to `q` a pass went over all that it was yet to come by: the blocks `rest`, from the
arena with the index on. It has reported what the fields of reached blocks call for, and has entered
just the arenas down to the one with the oldest of the blocks. -/
structure Passed (sc : Scanner) (collector : Visitor) (m₀ : Memory) (arenas : List Arena)
    (blocks : List LocalBlock) (found : LocalBlock → Prop) (keep : Nat → Prop) (index : Nat)
    (rest : List LocalBlock) (p q : Progress) : Prop where
  reports : ∃ reached : List LocalBlock, reached.Sublist rest ∧
    (∀ b ∈ rest, b ∈ reached ↔ Reaches m₀ blocks found b) ∧
    q.visits = (sc.reportsOf m₀ (reached.flatMap fun b => b.scanSlots m₀)).reverse ++ p.visits
  memory : ∃ last, (∀ k, last ≤ k ↔ index ≤ k ∨ ∃ b ∈ rest, b.index ≤ k) ∧
    sc.Passing collector m₀ arenas blocks found keep last blocks [] q.memory

namespace Passed

theorem of_visits {u : Progress}
    (h : sc.Passed collector m₀ arenas blocks found keep index rest u q)
    (hvisits : u.visits = p.visits) :
    sc.Passed collector m₀ arenas blocks found keep index rest p q where
  reports := by
    rw [← hvisits]
    exact h.reports
  memory := h.memory

/-- The pass over one block and then over those above. -/
theorem cons (h : sc.Passed collector m₀ arenas blocks found keep b.index older u q)
    (hle : b.index ≤ index) (hb : b ∉ older)
    (hreports : Reaches m₀ blocks found b →
      u.visits = (sc.reportsOf m₀ (b.scanSlots m₀)).reverse ++ p.visits)
    (hidle : ¬ Reaches m₀ blocks found b → u.visits = p.visits) :
    sc.Passed collector m₀ arenas blocks found keep index (b :: older) p q := by
  obtain ⟨⟨reached, hsub, hmem, hvisits⟩, last, hlast, hpassing⟩ := h
  constructor
  · by_cases hreaches : Reaches m₀ blocks found b
    · refine ⟨b :: reached, hsub.cons_cons b,
        List.forall_mem_cons.mpr ⟨iff_of_true List.mem_cons_self hreaches, fun c hc => ?_⟩, ?_⟩
      · have hne : c ≠ b := fun hcb => hb (hcb ▸ hc)
        rw [List.mem_cons, or_iff_right hne]
        exact hmem c hc
      · rw [hvisits, hreports hreaches, List.flatMap_cons, reportsOf_append, List.reverse_append,
          List.append_assoc]
    · refine ⟨reached, hsub.cons b, List.forall_mem_cons.mpr ⟨?_, hmem⟩, ?_⟩
      · exact iff_of_false (fun hmemb => hb (hsub.subset hmemb)) hreaches
      · rw [hvisits, hidle hreaches]
  · refine ⟨last, fun k => ?_, hpassing⟩
    rw [hlast, List.exists_mem_cons_iff, ← or_assoc, or_iff_right_of_imp (Nat.le_trans hle)]

end Passed

/-- A pass goes over the blocks it has yet to come by. -/
theorem sweep_passed (hd : sc.Downhill m₀ arenas blocks) (hpoison : sc.ctx.poison = true)
    (hsuffices : sc.Suffices m₀ arenas blocks found keep) (hsplit : blocks = done ++ rest)
    (hstacked : Stacked index rest) (hindex : index < arenas.length)
    (hdone : ∀ c ∈ done, index ≤ c.index)
    (h : sc.Passing collector m₀ arenas blocks found keep index done rest p.memory) :
    ∃ q, (sc.reportingTo collector).sweep arenas index (-(extent rest : Int)) p = .ok () q ∧
      sc.Passed collector m₀ arenas blocks found keep index rest p q := by
  -- The blocks that are done only grow, so `Passing` can say what was overwritten so far.
  induction rest generalizing index done p with
  | nil =>
      rw [List.append_nil] at hsplit
      subst hsplit
      refine ⟨p, ?_, ⟨[], List.Sublist.refl _, by simp, rfl⟩, index, by simp, h⟩
      rw [sweep, if_pos (by simp [extent])]
      rfl
  | cons b older ih =>
      subst hsplit
      obtain ⟨hle, hupper, holder⟩ := hstacked
      have hb : b ∉ older := fun hmem =>
        ((hd.placed.stacked.of_suffix (List.suffix_append done _)).above hmem).ne rfl
      obtain ⟨u, hdescend, hvisits, hu⟩ := h.descend hd hpoison hsuffices hle hindex hdone
      have hrest : ∀ {v : Progress}, sc.Passing collector m₀ arenas (done ++ b :: older) found keep
          b.index (done ++ [b]) older v.memory →
          ∃ q, (sc.reportingTo collector).sweep arenas b.index (-(b.upper : Int)) v = .ok () q ∧
            sc.Passed collector m₀ arenas (done ++ b :: older) found keep b.index older v q := by
        intro v hv
        rw [hupper]
        refine ih (by simp) holder (Nat.lt_of_le_of_lt hle hindex) (fun c hc => ?_) hv
        rcases List.mem_append.mp hc with hc | hc
        · exact Nat.le_trans hle (hdone c hc)
        · exact Nat.le_of_eq (congrArg LocalBlock.index (List.mem_singleton.mp hc)).symm
      -- A block that is reached by now is marked, since what refers to it lies in front of it.
      by_cases hreaches : Reaches m₀ (done ++ b :: older) found b
      · obtain ⟨v, hrun, hreports, hv⟩ := hu.scan hd hsuffices hreaches
        obtain ⟨q, hlast, hpassed⟩ := hrest hv
        exact ⟨q, hdescend.trans (hrun.trans hlast), (hpassed.cons hle hb (fun _ => hreports)
          fun hnot => absurd hreaches hnot).of_visits hvisits⟩
      · obtain ⟨v, hrun, hreports, hv⟩ := hu.pass hd hpoison hreaches
        obtain ⟨q, hlast, hpassed⟩ := hrest hv
        exact ⟨q, hdescend.trans (hrun.trans hlast), (hpassed.cons hle hb
          (fun hyes => absurd hyes hreaches) fun _ => hreports).of_visits hvisits⟩

theorem not_wasted_of_length_le {a : Nat} (h : arenas.length ≤ index) :
    ¬ Wasted m₀ arenas blocks found index [] a := by
  rintro (⟨k, hk, -, x, hx, -⟩ | ⟨b, hb, -⟩)
  · have hlt : k < arenas.length := (List.getElem?_eq_some_iff.mp hx).1
    omega
  · cases hb

/-- The pass starts at the newest block, once it has overwritten the free space below it. -/
theorem sweepLocals_passed {r : Region} (hsp : r.sp = -(extent blocks : Int))
    (hd : sc.Downhill m₀ r.arenas blocks) (hnative : sc.ctx.mode = .native)
    (hlocals : sc.locals = some r.view) (harenas : r.arenas ≠ []) (hpoison : sc.ctx.poison = true)
    (hsuffices : sc.Suffices m₀ r.arenas blocks found keep)
    (hmarks : sc.Marks m₀ p.memory blocks found keep) :
    ∃ q, (sc.reportingTo collector).sweepLocals p = .ok () q ∧
      sc.Passed collector m₀ r.arenas blocks found keep (r.arenas.length - 1) blocks p q := by
  have hplaced := hd.placed
  have hlength := List.length_pos_of_ne_nil harenas
  have hpos : r.arenas.length - 1 < r.arenas.length := Nat.sub_lt hlength Nat.one_pos
  have hnewest := List.getElem?_eq_getElem hpos
  have hlast : r.arenas.getLast? = some r.arenas[r.arenas.length - 1] := by
    rw [List.getLast?_eq_getElem?, hnewest]
  have hbefore : sc.Passing collector m₀ r.arenas blocks found keep (r.arenas.length - 1 + 1) []
      blocks p.memory := by
    rw [Nat.sub_add_cancel hlength]
    refine ⟨(hmarks.congr fun c hc => ?_).of_kept (fun _ _ => rfl) fun _ ha => ⟨ha.1, rfl⟩,
      fun a ha => absurd ha (not_wasted_of_length_le (Nat.le_refl _))⟩
    simp [Marked, hc]
  obtain ⟨u, hfree, hvisits, hu⟩ := hbefore.enter hd.toViews hpoison rfl hplaced.stacked (by simp)
    hnewest (extent_le_newest hplaced.placed hplaced.stacked hnewest)
  obtain ⟨q, hrun, hpassed⟩ :=
    sweep_passed hd hpoison hsuffices rfl hplaced.stacked hpos (by simp) hu
  refine ⟨q, ?_, hpassed.of_visits hvisits⟩
  unfold sweepLocals
  rw [show (sc.reportingTo collector).locals = some r.view from hlocals,
    show (sc.reportingTo collector).ctx.mode = .native from hnative]
  simp only [Region.view, hlast, hsp]
  exact (Run.bind_of_ok hfree _).trans hrun

/-! ### What is left -/

/-- A pass enters the newest arena, and the others down to the one with the oldest block. -/
def Entered (arenas : List Arena) (blocks : List LocalBlock) (index : Nat) : Prop :=
  index + 1 = arenas.length ∨ ∃ b ∈ blocks, b.index ≤ index

instance (arenas : List Arena) (blocks : List LocalBlock) (index : Nat) :
    Decidable (Entered arenas blocks index) :=
  inferInstanceAs (Decidable (_ ∨ _))

namespace Passed

variable {a : Nat}
  (h : sc.Passed collector m₀ arenas blocks found keep (arenas.length - 1) blocks p q)
include h

theorem dead_of_free (hentered : Entered arenas blocks index)
    (hfree : FreeWord arenas blocks index a) : q.memory.read a = Word.deadLocal := by
  obtain ⟨last, hlast, hpassing⟩ := h.memory
  refine hpassing.dead a (.inl ⟨index, (hlast index).mpr (hentered.imp_left fun heq => ?_), hfree⟩)
  omega

theorem dead_of_unreached (hb : b ∈ blocks) (hreaches : ¬ Reaches m₀ blocks found b)
    (ha : a ∈ Memory.span b.block b.wosize) : q.memory.read a = Word.deadLocal := by
  obtain ⟨last, -, hpassing⟩ := h.memory
  exact hpassing.dead a (.inr ⟨b, hb, hreaches, ha⟩)

theorem header_eq (hd : sc.Downhill m₀ arenas blocks) (hb : b ∈ blocks) :
    q.memory.read b.header = m₀.read b.header := by
  obtain ⟨last, -, hpassing⟩ := h.memory
  rw [hpassing.marks.unmarked b hb fun hmarked => ?_, hd.headers b hb]
  exact hd.linked.not_clings hd.toSurveys hb ((marked_nil_iff hd.placed hb).mp hmarked)

/-- Words that nothing overwrites and that the collector was not told of are as they were. -/
theorem kept (hkeep : keep a) (hwasted : ∀ index, Entered arenas blocks index →
      ¬ FreeWord arenas blocks index a)
    (hfields : ∀ b ∈ blocks, a ∈ Memory.span b.block b.wosize → Reaches m₀ blocks found b)
    (hspares : collector.Spares (blocks.flatMap fun b => b.scanSlots m₀) a)
    (hheaders : ∀ b ∈ blocks, a ≠ b.header) : q.memory.read a = m₀.read a := by
  obtain ⟨last, hlast, hpassing⟩ := h.memory
  refine hpassing.marks.kept a ⟨hkeep, ?_, hspares⟩ hheaders
  rintro (⟨k, hk, hfree⟩ | ⟨b, hb, hunreached, hfield⟩)
  · refine hwasted k (((hlast k).mp hk).imp_left fun hle => ?_) hfree
    obtain ⟨-, x, hx, -⟩ := hfree
    have hlt : k < arenas.length := (List.getElem?_eq_some_iff.mp hx).1
    omega
  · exact hunreached (hfields b hb hfield)

end Passed

theorem downhill_of_reached {r : Region} {begun : List (Int × List LocalBlock)} {st : MachineState}
    (hreached : r.Reached begun blocks st) (hs : sc.Surveys st.memory r.arenas blocks)
    (hlinked : sc.Linked r.arenas st.memory blocks) : sc.Downhill st.memory r.arenas blocks :=
  { hs with
    written := hreached.laid.written
    filled := fun b hb => (hreached.allows b hb).1
    linked := hlinked }

end Scanner

end FiberStacks
