import FiberStacks.Proofs.Scan.Descent

/-!
# Pointers at older blocks

Where fields point at older blocks only, a sweep scans all blocks that are reached, comes by no
backward pointer and leaves no mark.
-/

namespace FiberStacks

namespace Scanner

/-- The fields of the blocks, newest first, hold legal words, which point at older blocks only. -/
def Linked (sc : Scanner) (arenas : List Arena) (m : Memory) : List LocalBlock → Prop
  | [] => True
  | b :: older => (∀ slot ∈ b.scanSlots m, sc.Legal arenas m older (m.read slot)) ∧
      sc.Linked arenas m older

/-- The blocks that were found and those that fields of reached blocks point at. -/
inductive Reaches (m : Memory) (blocks : List LocalBlock) (found : LocalBlock → Prop) :
    LocalBlock → Prop where
  | start {b : LocalBlock} (hb : b ∈ blocks) (hfound : found b) : Reaches m blocks found b
  | field {b c : LocalBlock} {slot : Nat} (hb : Reaches m blocks found b)
      (hslot : slot ∈ b.scanSlots m) (hc : c ∈ blocks) (hpointed : c.PointedAt m (m.read slot)) :
      Reaches m blocks found c

variable {sc : Scanner} {m : Memory} {arenas : List Arena} {blocks older : List LocalBlock}
  {found : LocalBlock → Prop} {b c : LocalBlock}

theorem Reaches.mem (h : Reaches m blocks found b) : b ∈ blocks := by
  cases h with
  | start hb _ => exact hb
  | field _ _ hc _ => exact hc

theorem Legal.mono {targets targets' : List LocalBlock} {w : Word}
    (h : sc.Legal arenas m targets w) (hsub : ∀ b ∈ targets, b ∈ targets') :
    sc.Legal arenas m targets' w := by
  rcases h with hblock | hforeign | ⟨b, hb, hpointed⟩
  · exact .inl hblock
  · exact .inr (.inl hforeign)
  · exact .inr (.inr ⟨b, hsub b hb, hpointed⟩)

theorem Linked.legal_of_suffix (h : sc.Linked arenas m blocks) (hsuffix : b :: older <:+ blocks)
    {slot : Nat} (hslot : slot ∈ b.scanSlots m) : sc.Legal arenas m older (m.read slot) := by
  induction blocks with
  | nil => cases List.suffix_nil.mp hsuffix
  | cons newest rest ih =>
      rcases List.suffix_cons_iff.mp hsuffix with heq | hsuffix
      · cases heq
        exact h.1 slot hslot
      · exact ih h.2 hsuffix

theorem Linked.legal (h : sc.Linked arenas m blocks) (hb : b ∈ blocks) {slot : Nat}
    (hslot : slot ∈ b.scanSlots m) : sc.Legal arenas m blocks (m.read slot) := by
  obtain ⟨done, older, rfl⟩ := List.append_of_mem hb
  refine (h.legal_of_suffix (List.suffix_append done _) hslot).mono fun c hc => ?_
  exact List.mem_append_right done (List.mem_cons_of_mem b hc)

/-- Fields point at older blocks. -/
theorem Linked.above_of_refers (h : sc.Linked arenas m blocks) (hs : sc.Surveys m arenas blocks)
    (hb : b ∈ blocks) (hc : c ∈ blocks) (hrefers : sc.Refers m b c) :
    c.Above b ∧ ∃ slot ∈ b.scanSlots m, c.PointedAt m (m.read slot) := by
  obtain ⟨slot, hslot, hnames⟩ := hrefers
  have hpointed := (hs.names_iff hc (h.legal hb hslot)).mp hnames
  refine ⟨?_, slot, hslot, hpointed⟩
  obtain ⟨done, older, rfl⟩ := List.append_of_mem hb
  have hsuffix : b :: older <:+ done ++ b :: older := List.suffix_append done _
  have hlegal := h.legal_of_suffix hsuffix hslot
  rcases or_assoc.mpr hlegal with hforeign | ⟨d, hd, hdw⟩
  · exact absurd hnames (hs.not_names hc hforeign)
  · have hmem : d ∈ done ++ b :: older := List.mem_append_right done (List.mem_cons_of_mem b hd)
    rw [hpointed.namedBy.unique hs.placed hc hmem hdw.namedBy]
    exact (hs.placed.stacked.of_suffix hsuffix).above hd

theorem Linked.descends_iff (h : sc.Linked arenas m blocks) (hs : sc.Surveys m arenas blocks) :
    sc.Descends m blocks found b ↔ Reaches m blocks found b := by
  constructor
  · intro hdescends
    induction hdescends with
    | start hb => exact .start hb.1 hb.2
    | @step b c _ hstep ih =>
        obtain ⟨slot, hslot, hpointed⟩ := (h.above_of_refers hs ih.mem hstep.1 hstep.2.1).2
        exact .field ih hslot hstep.1 hpointed
  · intro hreaches
    induction hreaches with
    | start hb hfound => exact .start ⟨hb, hfound⟩
    | @field b c slot hb hslot hc hpointed ih =>
        have hnames := (hs.names_iff hc (h.legal hb.mem hslot)).mpr hpointed
        have hrefers : sc.Refers m b c := ⟨slot, hslot, hnames⟩
        exact .step ih ⟨hc, hrefers, (h.above_of_refers hs hb.mem hc hrefers).1⟩

theorem Linked.not_clings (h : sc.Linked arenas m blocks) (hs : sc.Surveys m arenas blocks)
    (hc : c ∈ blocks) : ¬ sc.Clings m blocks found c := by
  rintro ⟨b, hdescends, hrefers, hlevel⟩
  obtain ⟨habove, slot, -, hpointed⟩ := h.above_of_refers hs hdescends.mem hc hrefers
  rcases hlevel with rfl | ⟨hempty, -⟩
  · exact habove.ne rfl
  · obtain ⟨i, hi, -⟩ := hpointed.field
    omega

theorem Linked.not_faults (h : sc.Linked arenas m blocks) (hs : sc.Surveys m arenas blocks) :
    ¬ sc.Faults m blocks found b := by
  rintro ⟨hdescends, c, hc, hrefers, habove, -⟩
  exact (h.above_of_refers hs hdescends.mem hc hrefers).1.asymm habove

end Scanner

end FiberStacks
