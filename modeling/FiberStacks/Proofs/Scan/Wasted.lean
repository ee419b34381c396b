import FiberStacks.Proofs.Scan.LocalReachability
import FiberStacks.Proofs.Scan.Sweep

/-!
# Words that nothing reaches

A pass over the local blocks with poisoning on may overwrite the fields of blocks that are not
reached, and the free words of the arenas that it enters: those below the live blocks and below the
markers in use. None of these is a header, a marker in use or a word of a reached block.
-/

namespace FiberStacks.Scanner

variable {m₀ : Memory} {arenas : List Arena} {blocks done rest : List LocalBlock}
  {found : LocalBlock → Prop} {b : LocalBlock} {index k address : Nat} {a : Arena}

/-- A word of the arena with the index that lies below the live blocks of this arena, and below the
markers in it that are in use. -/
def FreeWord (arenas : List Arena) (blocks : List LocalBlock) (index address : Nat) : Prop :=
  address % wordBytes = 0 ∧ ∃ a, arenas[index]? = some a ∧ a.Holds address ∧
    ∀ b ∈ blocks, b.index ≤ index → address < a.down b.depth

/-- The words that a pass has overwritten when it is in the arena with the index and has come by the
blocks `done`: the free words of the arenas that it entered, and the fields of blocks that are not
reached. -/
def Wasted (m₀ : Memory) (arenas : List Arena) (blocks : List LocalBlock)
    (found : LocalBlock → Prop) (index : Nat) (done : List LocalBlock) (address : Nat) : Prop :=
  (∃ k, index ≤ k ∧ FreeWord arenas blocks k address) ∨
    ∃ b ∈ done, ¬ Reaches m₀ blocks found b ∧ address ∈ Memory.span b.block b.wosize

theorem spans_of_mem_fields (h : address ∈ Memory.span b.block b.wosize) :
    b.Spans address ∧ address ≠ b.header := by
  obtain ⟨i, hi, rfl⟩ := Memory.mem_span_iff.mp h
  exact ⟨b.spans_field hi, Nat.ne_of_gt (b.header_lt_field i)⟩

theorem FreeWord.not_spans (h : FreeWord arenas blocks index address)
    (hplaced : Placed arenas blocks) (hb : b ∈ blocks) : ¬ b.Spans address := by
  obtain ⟨-, a, ha, hholds, hbelow⟩ := h
  intro hspans
  have hin := hplaced.placed b hb
  by_cases heq : b.index = index
  · have harena : b.arena = a := by
      have hfound := hin.found
      rw [heq, ha] at hfound
      exact (Option.some.inj hfound).symm
    have hlt := hbelow b hb (Nat.le_of_eq heq)
    have hle := hspans.1
    rw [LocalBlock.header, harena] at hle
    omega
  · exact hplaced.arranged.not_holds hin.found ha heq (hin.holds hspans) hholds

theorem FreeWord.ne_marker (h : FreeWord arenas blocks index address)
    (hplaced : Placed arenas blocks) (hb : b ∈ blocks) (hk : b.index < k)
    (ha : arenas[k]? = some a) : address ≠ a.down b.depth := by
  obtain ⟨-, x, hx, hholds, hbelow⟩ := h
  rintro rfl
  have hreaches := (hplaced.placed b hb).reaches k a (Nat.le_of_lt hk) ha
  by_cases heq : k = index
  · rw [heq, hx] at ha
    cases ha
    exact Nat.lt_irrefl _ (hbelow b hb (heq ▸ Nat.le_of_lt hk))
  · exact hplaced.arranged.not_holds ha hx heq (Arena.holds_down b.depth_pos hreaches) hholds

theorem Wasted.mono {index' : Nat} {done' : List LocalBlock}
    (h : Wasted m₀ arenas blocks found index done address) (hindex : index' ≤ index)
    (hdone : done ⊆ done') : Wasted m₀ arenas blocks found index' done' address := by
  rcases h with ⟨k, hk, hfree⟩ | ⟨b, hb, hunreached, hfield⟩
  · exact .inl ⟨k, Nat.le_trans hindex hk, hfree⟩
  · exact .inr ⟨b, hdone hb, hunreached, hfield⟩

/-- A header and a word of a reached block are not overwritten. -/
theorem not_wasted_of_spans (hplaced : Placed arenas blocks) (hsub : done ⊆ blocks)
    (hb : b ∈ blocks) (hspans : b.Spans address)
    (hcase : Reaches m₀ blocks found b ∨ address = b.header) :
    ¬ Wasted m₀ arenas blocks found index done address := by
  rintro (⟨k, -, hfree⟩ | ⟨c, hc, hunreached, hfield⟩)
  · exact hfree.not_spans hplaced hb hspans
  · obtain ⟨hspansc, hne⟩ := spans_of_mem_fields hfield
    obtain rfl := hplaced.eq_of_spans hb (hsub hc) hspans hspansc
    exact hcase.elim hunreached hne

theorem not_wasted_of_outside (hplaced : Placed arenas blocks) (hsub : done ⊆ blocks)
    (houtside : Outside arenas address) :
    ¬ Wasted m₀ arenas blocks found index done address := by
  rintro (⟨k, -, -, a, ha, hholds, -⟩ | ⟨b, hb, -, hfield⟩)
  · exact houtside a (List.mem_of_getElem? ha) hholds
  · have hin := hplaced.placed b (hsub hb)
    exact houtside b.arena hin.mem (hin.holds (spans_of_mem_fields hfield).1)

theorem not_wasted_marker (hplaced : Placed arenas blocks) (hsub : done ⊆ blocks)
    (hb : b ∈ blocks) (hk : b.index < k) (ha : arenas[k]? = some a) :
    ¬ Wasted m₀ arenas blocks found index done (a.down b.depth) := by
  rintro (⟨j, -, hfree⟩ | ⟨c, hc, -, hfield⟩)
  · exact hfree.ne_marker hplaced hb hk ha rfl
  · exact not_spans_marker hplaced hb (hsub hc) hk ha (spans_of_mem_fields hfield).1

/-- When the pass enters an arena, the words below the blocks yet to come are the free ones. -/
theorem freeWord_iff (hsplit : blocks = done ++ rest) (hstacked : Stacked index rest)
    (hdone : ∀ c ∈ done, index < c.index) (ha : arenas[index]? = some a) :
    FreeWord arenas blocks index address ↔
      address % wordBytes = 0 ∧ a.Holds address ∧ address < a.down (extent rest) := by
  constructor
  · rintro ⟨hword, x, hx, hholds, hbelow⟩
    rw [ha] at hx
    cases hx
    refine ⟨hword, hholds, ?_⟩
    cases rest with
    | nil => exact hholds.2
    | cons b older =>
        exact hbelow b (hsplit ▸ List.mem_append_right _ List.mem_cons_self) hstacked.1
  · rintro ⟨hword, hholds, hbelow⟩
    refine ⟨hword, a, ha, hholds, fun b hb hindex => ?_⟩
    rw [hsplit] at hb
    rcases List.mem_append.mp hb with hb | hb
    · exact absurd hindex (Nat.not_le.mpr (hdone b hb))
    · have hdepth := (hstacked.of_mem hb).2
      unfold Arena.down at *
      omega

theorem wasted_enter_iff :
    Wasted m₀ arenas blocks found index done address ↔
      Wasted m₀ arenas blocks found (index + 1) done address ∨
        FreeWord arenas blocks index address := by
  constructor
  · rintro (⟨k, hk, hfree⟩ | hfield)
    · rcases Nat.eq_or_lt_of_le hk with rfl | hlt
      · exact .inr hfree
      · exact .inl (.inl ⟨k, hlt, hfree⟩)
    · exact .inl (.inr hfield)
  · rintro (hwasted | hfree)
    · exact hwasted.mono (Nat.le_succ index) (List.Subset.refl done)
    · exact .inl ⟨index, Nat.le_refl index, hfree⟩

theorem wasted_snoc_iff :
    Wasted m₀ arenas blocks found index (done ++ [b]) address ↔
      Wasted m₀ arenas blocks found index done address ∨
        ¬ Reaches m₀ blocks found b ∧ address ∈ Memory.span b.block b.wosize := by
  unfold Wasted
  simp only [List.mem_append, List.mem_singleton, or_and_right, exists_or, exists_eq_left, or_assoc]

end FiberStacks.Scanner
