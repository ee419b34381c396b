import FiberStacks.Proofs.Scan.SweepBlock

/-!
# Local blocks behind a sweep

A sweep goes from newer blocks to older ones, so it scans the blocks that are reached by pointers at
older blocks only. What it has marked when it comes to a block follows from the blocks that it has
scanned. A mark behind it stays if it was set by a pointer that the check for backward pointers lets
pass.
-/

namespace FiberStacks

/-- The blocks at the start and those that the steps lead to from there. -/
inductive ReachedBy (step : LocalBlock → LocalBlock → Prop) (start : LocalBlock → Prop) :
    LocalBlock → Prop where
  | start {b : LocalBlock} (hb : start b) : ReachedBy step start b
  | step {b c : LocalBlock} (hb : ReachedBy step start b) (hstep : step b c) :
      ReachedBy step start c

theorem ReachedBy.mono {step step' : LocalBlock → LocalBlock → Prop}
    {start start' : LocalBlock → Prop} {b : LocalBlock} (h : ReachedBy step start b)
    (hstart : ∀ c, start c → start' c) (hstep : ∀ c d, step c d → step' c d) :
    ReachedBy step' start' b := by
  induction h with
  | start hb => exact .start (hstart _ hb)
  | step _ hcd ih => exact .step ih (hstep _ _ hcd)

namespace Scanner

/-- The blocks that the marked blocks and pointers lead to. -/
def Follows (sc : Scanner) (m : Memory) (blocks : List LocalBlock) (roots : LocalBlock → Prop) :
    LocalBlock → Prop :=
  ReachedBy (fun b c => c ∈ blocks ∧ sc.Refers m b c) fun b => b ∈ blocks ∧ roots b

/-- The blocks that the marked blocks and pointers at older blocks lead to. -/
def Descends (sc : Scanner) (m : Memory) (blocks : List LocalBlock) (roots : LocalBlock → Prop) :
    LocalBlock → Prop :=
  ReachedBy (fun b c => c ∈ blocks ∧ sc.Refers m b c ∧ c.Above b) fun b => b ∈ blocks ∧ roots b

/-- A pointer at the block marks it behind the sweep, and is let pass. -/
def Clings (sc : Scanner) (m : Memory) (blocks : List LocalBlock) (roots : LocalBlock → Prop)
    (c : LocalBlock) : Prop :=
  ∃ b, sc.Descends m blocks roots b ∧ sc.Refers m b c ∧ c.Level b

/-- The block is scanned and points at a newer block that is not marked at the time. -/
def Faults (sc : Scanner) (m : Memory) (blocks : List LocalBlock) (roots : LocalBlock → Prop)
    (b : LocalBlock) : Prop :=
  sc.Descends m blocks roots b ∧
    ∃ c ∈ blocks, sc.Refers m b c ∧ b.Above c ∧ ¬ sc.Clings m blocks roots c

/-- The blocks that are marked when a sweep has come by the blocks `done`, of which newer ones come
first, and is yet to come by the blocks `rest`. -/
def Marked (sc : Scanner) (m : Memory) (blocks : List LocalBlock) (roots : LocalBlock → Prop)
    (done rest : List LocalBlock) (c : LocalBlock) : Prop :=
  c ∈ rest ∧ roots c ∨
    c.Inside ∧ ∃ b ∈ done, sc.Descends m blocks roots b ∧ sc.Refers m b c ∧ (c ∈ rest ∨ c.Level b)

variable {sc : Scanner} {m : Memory} {arenas : List Arena}
  {blocks done older rest : List LocalBlock} {roots : LocalBlock → Prop} {b c : LocalBlock}

theorem Refers.filled (h : sc.Refers m b c) : 0 < b.wosize := by
  obtain ⟨slot, hslot, -⟩ := h
  exact LocalBlock.filled_of_mem_scanSlots hslot

theorem Descends.mem (h : sc.Descends m blocks roots b) : b ∈ blocks := by
  cases h with
  | start hb => exact hb.1
  | step _ hstep => exact hstep.1

theorem Descends.follows (h : sc.Descends m blocks roots b) : sc.Follows m blocks roots b :=
  h.mono (fun _ hb => hb) fun _ _ hstep => ⟨hstep.1, hstep.2.1⟩

/-- A block at which a pointer is let pass lies in the words of its arena. -/
theorem inside_of_level (hc : c.In arenas) (hrefers : sc.Refers m b c) (hlevel : c.Level b) :
    c.Inside := by
  rcases hlevel with rfl | ⟨hempty, hupper⟩
  · exact LocalBlock.inside_of_filled hc hrefers.filled
  · exact LocalBlock.inside_of_upper hc (hupper ▸ b.depth_pos)

theorem Clings.inside (h : sc.Clings m blocks roots c) (hc : c.In arenas) : c.Inside := by
  obtain ⟨b, -, hrefers, hlevel⟩ := h
  exact inside_of_level hc hrefers hlevel

/-! ### Blocks before and after -/

theorem above_of_split (hplaced : Placed arenas (done ++ rest)) (hb : b ∈ done)
    (hc : c ∈ rest) : c.Above b :=
  (List.pairwise_append.mp hplaced.stacked.pairwise).2.2 b hb c hc

/-- The newer blocks are those that the sweep has come by. -/
theorem mem_done_of_above (hplaced : Placed arenas (done ++ b :: older))
    (hc : c ∈ done ++ b :: older) (habove : b.Above c) : c ∈ done := by
  rcases List.mem_append.mp hc with hc | hc
  · exact hc
  · rcases List.mem_cons.mp hc with rfl | hc
    · exact absurd rfl habove.ne
    · have hstacked := hplaced.stacked.of_suffix (List.suffix_append done _)
      exact absurd (hstacked.above hc) habove.asymm

/-- A block at the cursor is scanned if it is marked, or if it is reached by pointers at older
blocks and has a word. -/
theorem marked_head_iff (hplaced : Placed arenas (done ++ b :: older)) (hinside : b.Inside) :
    sc.Marked m (done ++ b :: older) roots done (b :: older) b ↔
      sc.Descends m (done ++ b :: older) roots b := by
  have hb : b ∈ done ++ b :: older := List.mem_append_right _ List.mem_cons_self
  constructor
  · rintro (⟨-, hroot⟩ | ⟨-, c, hc, hdescends, hrefers, -⟩)
    · exact .start ⟨hb, hroot⟩
    · exact .step hdescends ⟨hb, hrefers, above_of_split hplaced hc List.mem_cons_self⟩
  · intro hdescends
    cases hdescends with
    | start hroot => exact .inl ⟨List.mem_cons_self, hroot.2⟩
    | step hc hstep =>
        have hdone := mem_done_of_above hplaced (Descends.mem hc) hstep.2.2
        exact .inr ⟨hinside, _, hdone, hc, hstep.2.1, .inl List.mem_cons_self⟩

theorem Marked.descends (hplaced : Placed arenas (done ++ b :: older))
    (h : sc.Marked m (done ++ b :: older) roots done (b :: older) b) :
    sc.Descends m (done ++ b :: older) roots b := by
  have hb : b ∈ done ++ b :: older := List.mem_append_right _ List.mem_cons_self
  rcases h with ⟨-, hroot⟩ | ⟨hinside, hmarked⟩
  · exact .start ⟨hb, hroot⟩
  · exact (marked_head_iff hplaced hinside).mp (.inr ⟨hinside, hmarked⟩)

/-- A pointer that is let pass is in the block itself, or in a block above. -/
theorem not_level_of_done (hplaced : Placed arenas (done ++ b :: older)) (hc : c ∈ done) :
    ¬ b.Level c := by
  have habove := above_of_split hplaced hc (List.mem_cons_self (l := older))
  rintro (rfl | ⟨-, hupper⟩)
  · exact habove.ne rfl
  · have hle := habove.depth
    have hbytes := b.bytes_eq
    have hbytesc := c.bytes_eq
    unfold LocalBlock.depth at *
    simp only [wordBytes] at *
    omega

/-- The marks stay when the sweep has come by a block that is not scanned. -/
theorem marked_snoc_of_idle (hplaced : Placed arenas (done ++ b :: older))
    (hunmarked : ¬ sc.Marked m blocks roots done (b :: older) b)
    (hidle : ∀ c, sc.Descends m blocks roots b → ¬ sc.Refers m b c) :
    sc.Marked m blocks roots done (b :: older) c ↔
      sc.Marked m blocks roots (done ++ [b]) older c := by
  constructor
  · intro hmarked
    have hne : c ≠ b := by
      rintro rfl
      exact hunmarked hmarked
    rcases hmarked with ⟨hc, hroot⟩ | ⟨hinside, d, hd, hdescends, hrefers, hcase⟩
    · exact .inl ⟨(List.mem_cons.mp hc).resolve_left hne, hroot⟩
    · exact .inr ⟨hinside, d, List.mem_append_left _ hd, hdescends, hrefers,
        hcase.imp_left fun hc => (List.mem_cons.mp hc).resolve_left hne⟩
  · rintro (⟨hc, hroot⟩ | ⟨hinside, d, hd, hdescends, hrefers, hcase⟩)
    · exact .inl ⟨List.mem_cons_of_mem b hc, hroot⟩
    · rcases List.mem_append.mp hd with hd | hd
      · exact .inr ⟨hinside, d, hd, hdescends, hrefers, hcase.imp_left (List.mem_cons_of_mem b)⟩
      · rw [List.mem_singleton.mp hd] at hdescends hrefers
        exact absurd hrefers (hidle c hdescends)

/-- The marks after the sweep has come by a block that is scanned, if no pointer in it was found to
be backwards. -/
theorem marked_snoc_of_scanned (hplaced : Placed arenas (done ++ b :: older))
    (hdescends : sc.Descends m blocks roots b) (hc : c ∈ done ++ b :: older)
    (hfine : sc.Refers m b c → c.Inside → c.Beyond b →
      sc.Marked m blocks roots done (b :: older) c) :
    (sc.Marked m blocks roots done (b :: older) c ∧ c ≠ b) ∨ sc.Refers m b c ∧ c.Inside ↔
      sc.Marked m blocks roots (done ++ [b]) older c := by
  have hlast : b ∈ done ++ [b] := List.mem_append_right _ List.mem_cons_self
  have hkept : sc.Marked m blocks roots done (b :: older) c → c ≠ b →
      sc.Marked m blocks roots (done ++ [b]) older c := by
    rintro (⟨hmem, hroot⟩ | ⟨hinside, d, hd, hdescendsd, hrefers, hcase⟩) hne
    · exact .inl ⟨(List.mem_cons.mp hmem).resolve_left hne, hroot⟩
    · exact .inr ⟨hinside, d, List.mem_append_left _ hd, hdescendsd, hrefers,
        hcase.imp_left fun hmem => (List.mem_cons.mp hmem).resolve_left hne⟩
  constructor
  · rintro (⟨hmarked, hne⟩ | ⟨hrefers, hinside⟩)
    · exact hkept hmarked hne
    · rcases List.mem_append.mp hc with hdone | hrest
      · have habove := above_of_split hplaced hdone (List.mem_cons_self (l := older))
        by_cases hlevel : c.Level b
        · exact .inr ⟨hinside, b, hlast, hdescends, hrefers, .inr hlevel⟩
        · exact hkept (hfine hrefers hinside ⟨habove, hlevel⟩) habove.ne.symm
      · rcases List.mem_cons.mp hrest with rfl | holder
        · exact .inr ⟨hinside, c, hlast, hdescends, hrefers, .inr (.inl rfl)⟩
        · exact .inr ⟨hinside, b, hlast, hdescends, hrefers, .inl holder⟩
  · rintro (⟨holder, hroot⟩ | ⟨hinside, d, hd, hdescendsd, hrefers, hcase⟩)
    · have hstacked := hplaced.stacked.of_suffix (List.suffix_append done _)
      exact .inl ⟨.inl ⟨List.mem_cons_of_mem b holder, hroot⟩, (hstacked.above holder).ne⟩
    · rcases List.mem_append.mp hd with hdone | hlast
      · refine .inl ⟨.inr ⟨hinside, d, hdone, hdescendsd, hrefers,
          hcase.imp_left (List.mem_cons_of_mem b)⟩, ?_⟩
        rintro rfl
        rcases hcase with holder | hlevel
        · have hstacked := hplaced.stacked.of_suffix (List.suffix_append done _)
          exact (hstacked.above holder).ne rfl
        · exact not_level_of_done hplaced hdone hlevel
      · rw [List.mem_singleton.mp hlast] at hrefers
        exact .inr ⟨hrefers, hinside⟩

/-- The marks behind a sweep that has come by all blocks. -/
theorem marked_nil_iff (hplaced : Placed arenas blocks) (hc : c ∈ blocks) :
    sc.Marked m blocks roots blocks [] c ↔ sc.Clings m blocks roots c := by
  constructor
  · rintro (⟨hnil, -⟩ | ⟨-, b, -, hdescends, hrefers, hcase⟩)
    · cases hnil
    · exact ⟨b, hdescends, hrefers, hcase.resolve_left List.not_mem_nil⟩
  · intro h
    have hinside := h.inside (hplaced.placed c hc)
    obtain ⟨b, hdescends, hrefers, hlevel⟩ := h
    exact .inr ⟨hinside, b, hdescends.mem, hdescends, hrefers, .inr hlevel⟩

/-- A newer block is marked when the sweep comes to a pointer at it exactly if a pointer that was
let pass has marked it. -/
theorem marked_iff_clings (hplaced : Placed arenas (done ++ b :: older))
    (hc : c ∈ done ++ b :: older) (hbeyond : c.Beyond b) :
    sc.Marked m (done ++ b :: older) roots done (b :: older) c ↔
      sc.Clings m (done ++ b :: older) roots c := by
  have hdone := mem_done_of_above hplaced hc hbeyond.1
  have hnot : c ∉ b :: older := fun hmem =>
    (above_of_split hplaced hdone hmem).ne rfl
  constructor
  · rintro (⟨hmem, -⟩ | ⟨-, d, -, hdescends, hrefers, hcase⟩)
    · exact absurd hmem hnot
    · exact ⟨d, hdescends, hrefers, hcase.resolve_left hnot⟩
  · intro h
    have hinside := h.inside (hplaced.placed c hc)
    obtain ⟨d, hdescends, hrefers, hlevel⟩ := h
    refine .inr ⟨hinside, d, ?_, hdescends, hrefers, .inr hlevel⟩
    -- The block with the pointer that was let pass is newer than `b`, as it is no deeper than `c`.
    rcases hlevel with rfl | ⟨hempty, hupper⟩
    · exact hdone
    · rcases List.mem_append.mp hdescends.mem with hd | hd
      · exact hd
      · exfalso
        rcases List.mem_cons.mp hd with rfl | hd
        · exact hbeyond.2 (.inr ⟨hempty, hupper⟩)
        · have hstacked := hplaced.stacked.of_suffix (List.suffix_append done _)
          have hless := (hstacked.above hd).depth_lt
          have hle := hbeyond.1.depth
          omega

/-- The block is scanned when the sweep comes to it, and one of its pointers is found to be
backwards. -/
theorem faults_iff (hplaced : Placed arenas (done ++ b :: older)) :
    sc.Faults m (done ++ b :: older) roots b ↔
      sc.Descends m (done ++ b :: older) roots b ∧ ∃ c ∈ done ++ b :: older,
        (sc.Refers m b c ∧ c.Inside) ∧ c.Beyond b ∧
          ¬ sc.Marked m (done ++ b :: older) roots done (b :: older) c := by
  refine and_congr_right fun hdescends => exists_congr fun c => and_congr_right fun hc => ?_
  constructor
  · rintro ⟨hrefers, habove, hclings⟩
    have hbeyond : c.Beyond b := ⟨habove, fun hlevel => hclings ⟨b, hdescends, hrefers, hlevel⟩⟩
    have hinside : c.Inside := LocalBlock.inside_of_upper (hplaced.placed c hc)
      (Nat.lt_of_lt_of_le b.depth_pos habove.depth)
    exact ⟨⟨hrefers, hinside⟩, hbeyond, fun hmarked =>
      hclings ((marked_iff_clings hplaced hc hbeyond).mp hmarked)⟩
  · rintro ⟨⟨hrefers, -⟩, hbeyond, hmarked⟩
    exact ⟨hrefers, hbeyond.1, fun hclings =>
      hmarked ((marked_iff_clings hplaced hc hbeyond).mpr hclings)⟩

/-! ### Pointers in any direction -/

/-- Unless a sweep comes by a backward pointer, it scans every block with fields that is reached. -/
theorem Follows.descends (hplaced : Placed arenas blocks)
    (hfine : ∀ d, ¬ sc.Faults m blocks roots d) (h : sc.Follows m blocks roots b) :
    sc.Descends m blocks roots b ∨ b.wosize = 0 := by
  induction h with
  | start hb => exact .inl (.start hb)
  | @step d c hd hstep ih =>
      obtain ⟨hc, hrefers⟩ := hstep
      have hdescends : sc.Descends m blocks roots d :=
        ih.resolve_right (Nat.ne_of_gt hrefers.filled)
      rcases hplaced.above_or_eq_or_above hdescends.mem hc with habove | rfl | habove
      · exact .inl (.step hdescends ⟨hc, hrefers, habove⟩)
      · exact .inl hdescends
      · have hclings : sc.Clings m blocks roots c := by
          by_contra hclings
          exact hfine d ⟨hdescends, c, hc, hrefers, habove, hclings⟩
        obtain ⟨y, hy, -, rfl | ⟨hempty, -⟩⟩ := hclings
        · exact .inl hy
        · exact .inr hempty

/-- A sweep that comes by no backward pointer leaves the marks that reached blocks set on blocks
level with them. -/
theorem clings_iff_of_fine (hplaced : Placed arenas blocks)
    (hfine : ∀ d, ¬ sc.Faults m blocks roots d) :
    sc.Clings m blocks roots c ↔
      ∃ b, sc.Follows m blocks roots b ∧ sc.Refers m b c ∧ c.Level b := by
  constructor
  · rintro ⟨b, hdescends, hrefers, hlevel⟩
    exact ⟨b, hdescends.follows, hrefers, hlevel⟩
  · rintro ⟨b, hfollows, hrefers, hlevel⟩
    have hdescends := (hfollows.descends hplaced hfine).resolve_right
      (Nat.ne_of_gt hrefers.filled)
    exact ⟨b, hdescends, hrefers, hlevel⟩

/-- If a reached block points at a newer one and no mark is let pass, then a sweep comes by a
backward pointer. -/
theorem Follows.exists_faults (hplaced : Placed arenas blocks)
    (hclings : ∀ d ∈ blocks, ¬ sc.Clings m blocks roots d) (h : sc.Follows m blocks roots b)
    (hc : c ∈ blocks) (hrefers : sc.Refers m b c) (habove : b.Above c) :
    ∃ d, sc.Faults m blocks roots d := by
  by_contra hnone
  have hdescends := (h.descends hplaced fun d hd => hnone ⟨d, hd⟩).resolve_right
    (Nat.ne_of_gt hrefers.filled)
  exact hnone ⟨b, hdescends, c, hc, hrefers, habove, hclings c hc⟩

end Scanner

end FiberStacks
