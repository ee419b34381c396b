import FiberStacks.Proofs.Scan.LocalWords

/-!
# Marks on local blocks

A scan marks a local block by the color in its header. While it goes on, memory is what it was but
for these colors, in all the words that the scan still needs. Scanning a location with a lawful word
keeps this, and marks just the block that the word points at.
-/

namespace FiberStacks

/-- The fields of the block have the property. -/
def LocalBlock.FieldsIn (b : LocalBlock) (keep : Nat → Prop) : Prop :=
  ∀ i < b.wosize, keep (b.block + wordBytes * i)

theorem LocalBlock.fieldsIn_of_empty {b : LocalBlock} (h : b.wosize = 0) (keep : Nat → Prop) :
    b.FieldsIn keep :=
  fun i hi => by omega

namespace Scanner

/-- In `m` the blocks with the property are marked. Other words are those of `m₀` where `keep`
says so. -/
structure Marks (sc : Scanner) (m₀ m : Memory) (blocks : List LocalBlock)
    (found : LocalBlock → Prop) (keep : Nat → Prop) : Prop where
  marked : ∀ b ∈ blocks, found b → m.read b.header = b.headerWord sc.ctx.colors.garbage
  unmarked : ∀ b ∈ blocks, ¬ found b → m.read b.header = b.headerWord Color.notMarkable
  kept : ∀ a, keep a → (∀ b ∈ blocks, a ≠ b.header) → m.read a = m₀.read a

/-- The fields of the blocks hold what they held in `m₀`, or were overwritten since. -/
def Worn (m₀ m : Memory) (blocks : List LocalBlock) : Prop :=
  ∀ b ∈ blocks, ∀ i < b.wosize, m.read (b.block + wordBytes * i) =
    m₀.read (b.block + wordBytes * i) ∨ m.read (b.block + wordBytes * i) = Word.deadLocal

variable {sc : Scanner} {m₀ m : Memory} {arenas : List Arena} {blocks : List LocalBlock}
  {found found' : LocalBlock → Prop} {keep keep' : Nat → Prop} {b c : LocalBlock} {w : Word}

theorem Views.ne_header_of_field (hs : sc.Views m₀ arenas blocks) (hb : b ∈ blocks) {i : Nat}
    (hi : i < b.wosize) (hc : c ∈ blocks) : b.block + wordBytes * i ≠ c.header := by
  intro heq
  have hspans := b.spans_field hi
  have hsame := hs.placed.eq_of_spans hb hc hspans (heq ▸ c.spans_header)
  have hlt := b.header_lt_field i
  rw [heq, hsame] at hlt
  omega

namespace Marks

theorem congr (h : sc.Marks m₀ m blocks found keep) (heq : ∀ b ∈ blocks, found b ↔ found' b) :
    sc.Marks m₀ m blocks found' keep where
  marked := fun b hb hfound => h.marked b hb ((heq b hb).mpr hfound)
  unmarked := fun b hb hfound => h.unmarked b hb fun hfound' => hfound ((heq b hb).mp hfound')
  kept := h.kept

theorem of_views (hs : sc.Views m₀ arenas blocks) :
    sc.Marks m₀ m₀ blocks (fun _ => False) keep where
  marked := fun _ _ hfound => hfound.elim
  unmarked := fun b hb _ => hs.headers b hb
  kept := fun _ _ _ => rfl

theorem logging {p : Progress} (h : sc.Marks m₀ p.memory blocks found keep) (log : List Access) :
    sc.Marks m₀ (p.logging log).memory blocks found keep := h

/-- Marks are kept where headers are. -/
theorem of_kept {m' : Memory} (h : sc.Marks m₀ m blocks found keep)
    (hheaders : ∀ b ∈ blocks, m'.read b.header = m.read b.header)
    (hkept : ∀ a, keep' a → keep a ∧ m'.read a = m.read a) :
    sc.Marks m₀ m' blocks found keep' where
  marked := fun b hb hfound => by rw [hheaders b hb, h.marked b hb hfound]
  unmarked := fun b hb hfound => by rw [hheaders b hb, h.unmarked b hb hfound]
  kept := fun a ha hne => by rw [(hkept a ha).2, h.kept a (hkept a ha).1 hne]

theorem header_eq (h : sc.Marks m₀ m blocks found keep) (hs : sc.Views m₀ arenas blocks)
    (hb : b ∈ blocks) : ∃ color, Header.ofWord (m.read b.header) = ⟨b.wosize, color, b.tag⟩ ∧
      (found b → color = sc.ctx.colors.garbage) ∧ (¬ found b → color = Color.notMarkable) := by
  have hin := hs.placed.placed b hb
  have hcolors := hs.colors
  by_cases hfound : found b
  · refine ⟨sc.ctx.colors.garbage, ?_, fun _ => rfl, fun hnot => absurd hfound hnot⟩
    rw [h.marked b hb hfound, LocalBlock.ofWord_headerWord hin hs.placed.arranged (by omega)]
  · refine ⟨Color.notMarkable, ?_, fun hfound' => absurd hfound' hfound, fun _ => rfl⟩
    rw [h.unmarked b hb hfound,
      LocalBlock.ofWord_headerWord hin hs.placed.arranged (by decide)]

theorem read_field (h : sc.Marks m₀ m blocks found keep) (hs : sc.Views m₀ arenas blocks)
    (hb : b ∈ blocks) (hfields : b.FieldsIn keep) {i : Nat} (hi : i < b.wosize) :
    m.read (b.block + wordBytes * i) = m₀.read (b.block + wordBytes * i) :=
  h.kept _ (hfields i hi) fun _ hc => hs.ne_header_of_field hb hi hc

theorem worn (h : sc.Marks m₀ m blocks found keep) (hs : sc.Views m₀ arenas blocks)
    (hfields : ∀ b ∈ blocks, b.FieldsIn keep) : Worn m₀ m blocks :=
  fun b hb _ hi => .inl (h.read_field hs hb (hfields b hb) hi)

/-- Marks do not change what a word that points at a block leads to, if the field before the word
is as it was. -/
theorem startOf_eq (h : sc.Marks m₀ m blocks found keep) (hs : sc.Views m₀ arenas blocks)
    (hb : b ∈ blocks) (hw : b.NamedBy m₀ w)
    (hread : ∀ i < b.wosize, w.toNat = b.block + wordBytes * (i + 1) →
      m.read (b.block + wordBytes * i) = m₀.read (b.block + wordBytes * i)) :
    Block.startOf m w = Block.startOf m₀ w := by
  obtain ⟨i, hi, hfield⟩ := hw.field
  unfold Block.startOf Block.headerAt
  cases i with
  | zero =>
      have hheader : w.toNat - wordBytes = b.header := by
        rw [hfield, Nat.mul_zero, Nat.add_zero, LocalBlock.block, Nat.add_sub_cancel]
      obtain ⟨color, hnow, -⟩ := h.header_eq hs hb
      have hstart : sc.Marks m₀ m₀ blocks (fun _ => False) keep := of_views hs
      obtain ⟨color₀, hbefore, -⟩ := hstart.header_eq hs hb
      rw [hheader, hnow, hbefore]
  | succ i =>
      have haddress : w.toNat - wordBytes = b.block + wordBytes * i := by
        rw [hfield, Nat.mul_succ, ← Nat.add_assoc, Nat.add_sub_cancel]
      rw [haddress, hread i (by omega) hfield]

theorem startOf_of_fieldsIn (h : sc.Marks m₀ m blocks found keep) (hs : sc.Views m₀ arenas blocks)
    (hb : b ∈ blocks) (hfields : b.FieldsIn keep) (hw : b.NamedBy m₀ w) :
    Block.startOf m w = Block.startOf m₀ w :=
  h.startOf_eq hs hb hw fun _ hi _ => h.read_field hs hb hfields hi

/-- A word that points at a block marks it, unless it is marked or no arena holds its start. -/
theorem verdict_of_names (h : sc.Marks m₀ m blocks found keep) (hs : sc.Views m₀ arenas blocks)
    (hb : b ∈ blocks) (hw : sc.Names m₀ b w) (hstart : Block.startOf m w = Block.startOf m₀ w) :
    (found b ∨ ¬ b.Inside → sc.verdict m w = .passed) ∧
      (¬ found b → b.Inside → sc.verdict m w = .marks b.index) := by
  have hin := hs.placed.placed b hb
  obtain ⟨color, hheader, hmarked, hunmarked⟩ := h.header_eq hs hb
  have hcolor : (Block.headerAt m (Block.startOf m w)).color = color := by
    unfold Block.headerAt
    rw [hstart, hw.named.startOf_sub, hheader]
  have hcolors := hs.colors
  have hne : ¬ Color.notMarkable = sc.ctx.colors.garbage := by
    unfold Color.notMarkable
    omega
  unfold verdict
  rw [hcolor, hw.old, hw.named.isBlock hs.placed hb, hstart, hw.named.start]
  refine ⟨fun hpassed => ?_, fun hfound hinside => ?_⟩
  · by_cases hfound : found b
    · simp [hmarked hfound]
    · have hlocal := hs.local?_of_outside (LocalBlock.outside_of_not_inside hin hs.placed.arranged
        (hpassed.resolve_left hfound))
      simp [hunmarked hfound, hne, hlocal]
  · simp [hunmarked hfound, hne, hs.local?_of_holds hb hinside]

/-- A word that points at an unmarked block marks something in it, even when its fields were
overwritten. -/
theorem verdict_of_worn (h : sc.Marks m₀ m blocks found keep) (hs : sc.Views m₀ arenas blocks)
    (hworn : Worn m₀ m blocks) (hb : b ∈ blocks) (hw : sc.Hits m₀ b w) (hfound : ¬ found b) :
    Block.Readable m w ∧ sc.verdict m w = .marks b.index ∧
      b.Spans ((Block.startOf m w).toNat - wordBytes) := by
  obtain ⟨hnames, hinside⟩ := hw
  by_cases hstart : Block.startOf m w = Block.startOf m₀ w
  · have hnamed : b.NamedBy m w := ⟨hnames.named.field, by rw [hstart, hnames.named.start]⟩
    refine ⟨hnamed.readable, (h.verdict_of_names hs hb hnames hstart).2 hfound hinside, ?_⟩
    rw [hnamed.startOf_sub]
    exact b.spans_header
  -- The word points behind an overwritten field, which reads as the header of an unmarked block.
  · have hdead : ∃ i, i + 1 < b.wosize ∧ w.toNat = b.block + wordBytes * (i + 1) ∧
        m.read (b.block + wordBytes * i) = Word.deadLocal := by
      by_contra hnone
      refine hstart (h.startOf_eq hs hb hnames.named fun i hi hfield => ?_)
      refine (hworn b hb i hi).resolve_right fun hdead => hnone ⟨i, ?_, hfield, hdead⟩
      obtain ⟨j, hj, hfieldj⟩ := hnames.named.field
      simp only [wordBytes] at hfield hfieldj
      omega
    obtain ⟨i, hi, hfield, hdead⟩ := hdead
    have haddress : w.toNat - wordBytes = b.block + wordBytes * i := by
      rw [hfield, Nat.mul_succ, ← Nat.add_assoc, Nat.add_sub_cancel]
    have hheader : Block.headerAt m w = Header.ofWord Word.deadLocal := by
      rw [Block.headerAt, haddress, hdead]
    have hself : Block.startOf m w = w := by
      rw [Block.startOf, hheader, if_neg (by decide)]
    have hcolors := hs.colors
    have hne : ¬ (Header.ofWord Word.deadLocal).color = sc.ctx.colors.garbage := by
      rw [show (Header.ofWord Word.deadLocal).color = 3 by decide]
      omega
    have hholds : b.arena.Holds w.toNat :=
      (hs.placed.placed b hb).holds (hfield ▸ b.spans_field hi)
    refine ⟨⟨?_, ?_⟩, ?_, ?_⟩
    · simp only [wordBytes] at hfield ⊢
      omega
    · rw [hheader]
      exact fun hinterior => absurd hinterior (by decide)
    · unfold verdict
      rw [hself, hheader, hnames.old, hnames.named.isBlock hs.placed hb,
        hs.local?_of_holds hb hholds]
      simp only [Bool.true_eq_false, if_false, Bool.false_eq_true, if_neg hne]
      rfl
    · rw [hself, haddress]
      exact b.spans_field (Nat.lt_of_succ_lt hi)

theorem headerAt_of_outside (h : sc.Marks m₀ m blocks found keep) (hs : sc.Views m₀ arenas blocks)
    (hkeep : keep (w.toNat - wordBytes)) (hw : Outside arenas (w.toNat - wordBytes)) :
    Block.headerAt m w = Block.headerAt m₀ w := by
  unfold Block.headerAt
  rw [h.kept _ hkeep fun b hb => hw.ne_header (hs.placed.placed b hb)]

/-- A word that is no local block is dealt with as before the scan, and marks nothing. -/
theorem verdict_of_foreign (h : sc.Marks m₀ m blocks found keep) (hs : sc.Views m₀ arenas blocks)
    (hheaders : ∀ a ∈ sc.headersOf m₀ w, Outside arenas a → keep a)
    (hw : w.isBlock = false ∨ sc.Foreign arenas m₀ w) :
    sc.Classifiable m w ∧ (∀ index, sc.verdict m w ≠ .marks index) ∧
      (sc.verdict m w = .reported ↔ sc.isWanted m₀ w = true) := by
  by_cases hblock : w.isBlock = false
  · refine ⟨fun hw => ?_, fun index => ?_, ?_⟩
    · rw [hblock] at hw
      cases hw
    · simp [verdict, hblock]
    · simp [verdict, isWanted, hblock]
  by_cases hyoung : sc.ctx.young w = true
  · refine ⟨fun _ hw => ?_, fun index => ?_, ?_⟩
    · rw [hyoung] at hw
      cases hw
    · simp [verdict, hblock, hyoung]
    · simp [verdict, isWanted, hblock, hyoung]
  · obtain ⟨hreadable, hheader, hstart, hlocal⟩ := (hw.resolve_left hblock).resolve_left hyoung
    rw [headersOf_of_block (Bool.not_eq_false _ ▸ hblock) (Bool.not_eq_true _ ▸ hyoung)]
      at hheaders
    have hword := h.headerAt_of_outside hs (hheaders _ (by simp) hheader) hheader
    have hsame : Block.startOf m w = Block.startOf m₀ w := by
      unfold Block.startOf
      rw [hword]
    have hblockHeader := h.headerAt_of_outside hs (hheaders _ (by simp) hstart) hstart
    have hverdict : sc.verdict m w = sc.verdict m₀ w := by
      unfold verdict
      rw [hsame, hblockHeader]
    refine ⟨fun _ _ => ⟨hreadable.header, by rw [hword]; exact hreadable.start⟩, ?_, ?_⟩
    · intro index hmarks
      rw [hverdict] at hmarks
      have hheld := (of_verdict_eq_marks hmarks).2.2.2.2
      rw [hs.local?_of_outside hlocal] at hheld
      cases hheld
    · rw [hverdict, verdict_eq_reported_iff]

theorem not_isWanted_of_names (hs : sc.Views m₀ arenas blocks) (hb : b ∈ blocks)
    (hw : sc.Names m₀ b w) : ¬ sc.isWanted m₀ w = true := by
  have hstart : sc.Marks m₀ m₀ blocks (fun _ => False) fun _ => True := of_views hs
  obtain ⟨hpassed, hmarked⟩ := hstart.verdict_of_names hs hb hw rfl
  rw [← verdict_eq_reported_iff]
  by_cases hinside : b.Inside
  · simp [hmarked id hinside]
  · simp [hpassed (.inr hinside)]

/-- Painting the header of one block in the color of marked or of unmarked blocks. -/
theorem write (h : sc.Marks m₀ m blocks found keep) (hs : sc.Views m₀ arenas blocks)
    (hb : b ∈ blocks) (hother : ∀ c ∈ blocks, c ≠ b → (found' c ↔ found c)) {color : Nat}
    (hcolor : found' b ∧ color = sc.ctx.colors.garbage ∨
      ¬ found' b ∧ color = Color.notMarkable) :
    sc.Marks m₀ (m.write b.header (b.headerWord color)) blocks found' keep := by
  have hne : ∀ c ∈ blocks, c ≠ b → b.header ≠ c.header := fun c hc hcb heq =>
    hcb (hs.placed.eq_of_spans hc hb c.spans_header (heq ▸ b.spans_header))
  constructor
  · intro c hc hfoundc
    by_cases hcb : c = b
    · subst hcb
      rw [Memory.read_write_same, (hcolor.resolve_right fun hnot => hnot.1 hfoundc).2]
    · rw [Memory.read_write_of_ne _ _ (hne c hc hcb)]
      exact h.marked c hc ((hother c hc hcb).mp hfoundc)
  · intro c hc hfoundc
    by_cases hcb : c = b
    · subst hcb
      rw [Memory.read_write_same, (hcolor.resolve_left fun hnot => hfoundc hnot.1).2]
    · rw [Memory.read_write_of_ne _ _ (hne c hc hcb)]
      exact h.unmarked c hc fun hold => hfoundc ((hother c hc hcb).mpr hold)
  · intro a ha hother
    rw [Memory.read_write_of_ne _ _ (hother b hb).symm]
    exact h.kept a ha hother

end Marks

/-! ### Scanned locations -/

/-- From `p` to `q` the locations were scanned: those that the collector wants were reported, no
word but headers of the blocks has changed, and besides the blocks with the property those that the
locations point at are marked. -/
structure Traced (sc : Scanner) (m₀ : Memory) (blocks : List LocalBlock)
    (found : LocalBlock → Prop) (keep : Nat → Prop) (slots : List Nat) (p q : Progress) : Prop where
  visits : q.visits = (sc.reportsOf m₀ slots).reverse ++ p.visits
  headers : ∀ a, (∀ b ∈ blocks, a ≠ b.header) → q.memory.read a = p.memory.read a
  marks : sc.Marks m₀ q.memory blocks
    (fun b => found b ∨ ∃ slot ∈ slots, sc.Hits m₀ b (m₀.read slot)) keep

/-- Like `Traced`, for any collector. It may overwrite the locations that it is told of. -/
structure Followed (sc : Scanner) (collector : Visitor) (m₀ : Memory) (blocks : List LocalBlock)
    (found : LocalBlock → Prop) (keep : Nat → Prop) (slots : List Nat) (p q : Progress) : Prop where
  visits : q.visits = (sc.reportsOf m₀ slots).reverse ++ p.visits
  words : ∀ a, (∀ b ∈ blocks, a ≠ b.header) → collector.Spares slots a →
    q.memory.read a = p.memory.read a
  marks : sc.Marks m₀ q.memory blocks
    (fun b => found b ∨ ∃ slot ∈ slots, sc.Hits m₀ b (m₀.read slot))
    fun a => keep a ∧ collector.Spares slots a

variable {p u q : Progress} {slots more : List Nat} {collector : Visitor}

theorem Traced.refl (h : sc.Marks m₀ p.memory blocks found keep) :
    sc.Traced m₀ blocks found keep [] p p where
  visits := rfl
  headers := fun _ _ => rfl
  marks := h.congr (by simp)

theorem Traced.trans (h : sc.Traced m₀ blocks found keep slots p u)
    (h' : sc.Traced m₀ blocks (fun b => found b ∨ ∃ slot ∈ slots, sc.Hits m₀ b (m₀.read slot))
      keep more u q) : sc.Traced m₀ blocks found keep (slots ++ more) p q where
  visits := by
    rw [h'.visits, h.visits, reportsOf_append, List.reverse_append, List.append_assoc]
  headers := fun a ha => by rw [h'.headers a ha, h.headers a ha]
  marks := h'.marks.congr fun b _ => by
    simp only [List.mem_append, or_and_right, exists_or, or_assoc]

theorem Followed.refl (h : sc.Marks m₀ p.memory blocks found keep) :
    sc.Followed collector m₀ blocks found keep [] p p where
  visits := rfl
  words := fun _ _ _ => rfl
  marks := (h.congr (by simp)).of_kept (fun _ _ => rfl) fun _ ha => ⟨ha.1, rfl⟩

theorem Followed.of_logging {log : List Access}
    (h : sc.Followed collector m₀ blocks found keep slots (p.logging log) q) :
    sc.Followed collector m₀ blocks found keep slots p q where
  visits := h.visits
  words := h.words
  marks := h.marks

theorem Followed.traced (h : sc.Followed Visitor.observe m₀ blocks found keep slots p q) :
    sc.Traced m₀ blocks found keep slots p q where
  visits := h.visits
  headers := fun a ha => h.words a ha (.inl rfl)
  marks := h.marks.of_kept (fun _ _ => rfl) fun _ ha => ⟨⟨ha, .inl rfl⟩, rfl⟩

theorem spares_append {a : Nat} :
    collector.Spares (slots ++ more) a ↔ collector.Spares slots a ∧ collector.Spares more a := by
  unfold Visitor.Spares
  rw [List.mem_append, not_or, or_and_left]

theorem spares_cons {slot a : Nat} :
    collector.Spares (slot :: slots) a ↔ collector.Spares [slot] a ∧ collector.Spares slots a :=
  show collector.Spares ([slot] ++ slots) a ↔ _ from spares_append

theorem Followed.trans (h : sc.Followed collector m₀ blocks found keep slots p u)
    (h' : sc.Followed collector m₀ blocks
      (fun b => found b ∨ ∃ slot ∈ slots, sc.Hits m₀ b (m₀.read slot))
      (fun a => keep a ∧ collector.Spares slots a) more u q) :
    sc.Followed collector m₀ blocks found keep (slots ++ more) p q where
  visits := by
    rw [h'.visits, h.visits, reportsOf_append, List.reverse_append, List.append_assoc]
  words := fun a ha hspares => by
    rw [h'.words a ha (spares_append.mp hspares).2, h.words a ha (spares_append.mp hspares).1]
  marks := by
    refine (h'.marks.congr fun b _ => ?_).of_kept (fun _ _ => rfl) fun a ha => ⟨?_, rfl⟩
    · simp only [List.mem_append, or_and_right, exists_or, or_assoc]
    · obtain ⟨hslots, hmore⟩ := spares_append.mp ha.2
      exact ⟨⟨ha.1, hslots⟩, hmore⟩

theorem reportsOf_eq_nil {slot : Nat} (h : ¬ sc.isWanted m₀ (m₀.read slot) = true) :
    sc.reportsOf m₀ [slot] = [] := by
  simp [reportsOf, h]

theorem reportsOf_eq_singleton {slot : Nat} (h : sc.isWanted m₀ (m₀.read slot) = true) :
    sc.reportsOf m₀ [slot] = [⟨m₀.read slot, slot⟩] := by
  simp [reportsOf, h]

/-- A location whose word is no local block is reported or passed over. -/
theorem classify_of_foreign (hs : sc.Views m₀ arenas blocks)
    (h : sc.Marks m₀ p.memory blocks found keep) {slot : Nat}
    (hread : p.memory.read slot = m₀.read slot)
    (hslot : ∀ b ∈ blocks, collector.Spares [slot] b.header)
    (hheaders : ∀ a ∈ sc.headersOf m₀ (m₀.read slot), Outside arenas a → keep a)
    (hw : (m₀.read slot).isBlock = false ∨ sc.Foreign arenas m₀ (m₀.read slot)) :
    ∃ q, (sc.reportingTo collector).classify slot p = .ok none q ∧
      sc.Followed collector m₀ blocks found keep [slot] p q := by
  obtain ⟨hclassifiable, hmarks, hreported⟩ := h.verdict_of_foreign hs hheaders hw
  rw [← hread] at hclassifiable
  obtain ⟨log, hrun⟩ := classify_run (sc.reportingTo collector) hs.sound hclassifiable
  rw [hread] at hrun
  have hsame : (sc.reportingTo collector).verdict p.memory (m₀.read slot) =
      sc.verdict p.memory (m₀.read slot) := rfl
  rw [hsame] at hrun
  have hfound : sc.Marks m₀ p.memory blocks
      (fun b => found b ∨ ∃ a ∈ [slot], sc.Hits m₀ b (m₀.read a)) keep := by
    refine h.congr fun b hb => ⟨.inl, ?_⟩
    rintro (hold | ⟨a, ha, hhits⟩)
    · exact hold
    · rw [List.mem_singleton.mp ha] at hhits
      exact absurd hhits.names (hs.not_names hb hw)
  cases hverdict : sc.verdict p.memory (m₀.read slot) with
  | passed =>
      rw [hverdict] at hrun
      have hwanted : ¬ sc.isWanted m₀ (m₀.read slot) = true := by
        rw [← hreported, hverdict]
        simp
      refine ⟨_, hrun, by rw [reportsOf_eq_nil hwanted]; rfl, fun _ _ _ => rfl, ?_⟩
      exact hfound.of_kept (fun _ _ => rfl) fun _ ha => ⟨ha.1, rfl⟩
  | reported =>
      rw [hverdict] at hrun
      have hwanted := reportsOf_eq_singleton (hreported.mp hverdict)
      refine ⟨_, hrun, by rw [hwanted]; rfl, fun a _ hspares => ?_, ?_⟩
      · exact Visitor.read_leaves_of_spares p.visits p.memory hspares
      · exact hfound.of_kept
          (fun b hb => Visitor.read_leaves_of_spares p.visits p.memory (hslot b hb))
          fun a ha => ⟨ha.1, Visitor.read_leaves_of_spares p.visits p.memory ha.2⟩
  | marks index => exact absurd hverdict (hmarks index)

theorem Names.hits_iff (hw : sc.Names m₀ b w) (hs : sc.Views m₀ arenas blocks) (hb : b ∈ blocks)
    (hc : c ∈ blocks) : sc.Hits m₀ c w ↔ c = b ∧ b.Inside := by
  constructor
  · intro hhits
    obtain rfl := hhits.names.named.unique hs.placed hc hb hw.named
    exact ⟨rfl, hhits.inside⟩
  · rintro ⟨rfl, hinside⟩
    exact ⟨hw, hinside⟩

theorem found_or_hits_iff {slot : Nat} (hw : sc.Names m₀ b (m₀.read slot))
    (hs : sc.Views m₀ arenas blocks) (hb : b ∈ blocks) (hc : c ∈ blocks) :
    (found c ∨ ∃ a ∈ [slot], sc.Hits m₀ c (m₀.read a)) ↔ found c ∨ (c = b ∧ b.Inside) := by
  simp only [List.mem_singleton, exists_eq_left, hw.hits_iff hs hb hc]

/-- A location whose word points at a block that is not to be marked was scanned. -/
theorem Followed.of_passed (h : sc.Marks m₀ p.memory blocks found keep)
    (hs : sc.Views m₀ arenas blocks) (hb : b ∈ blocks) {slot : Nat}
    (hw : sc.Names m₀ b (m₀.read slot)) (hskip : found b ∨ ¬ b.Inside) (log : List Access) :
    sc.Followed collector m₀ blocks found keep [slot] p (p.logging log) where
  visits := by
    rw [reportsOf_eq_nil (Marks.not_isWanted_of_names hs hb hw)]
    rfl
  words := fun _ _ _ => rfl
  marks := by
    refine (h.congr fun c hc => ?_).of_kept (fun _ _ => rfl) fun _ ha => ⟨ha.1, rfl⟩
    rw [found_or_hits_iff hw hs hb hc]
    refine ⟨.inl, ?_⟩
    rintro (hold | ⟨rfl, hinside⟩)
    · exact hold
    · exact hskip.resolve_right fun houtside => houtside hinside

/-- A location whose word points at a block was scanned once the block is marked. -/
theorem Followed.of_marked (h : sc.Marks m₀ p.memory blocks found keep)
    (hs : sc.Views m₀ arenas blocks) (hb : b ∈ blocks) {slot : Nat}
    (hw : sc.Names m₀ b (m₀.read slot)) (hinside : b.Inside)
    (hmemory : q.memory = p.memory.write b.header (b.headerWord sc.ctx.colors.garbage))
    (hvisits : q.visits = p.visits) :
    sc.Followed collector m₀ blocks found keep [slot] p q where
  visits := by
    rw [hvisits, reportsOf_eq_nil (Marks.not_isWanted_of_names hs hb hw)]
    rfl
  words := fun a ha _ => by rw [hmemory, Memory.read_write_of_ne _ _ (ha b hb).symm]
  marks := by
    refine Marks.of_kept ?_ (fun _ _ => rfl) fun _ ha => ⟨ha.1, rfl⟩
    rw [hmemory]
    refine h.write hs hb (fun c hc hcb => ?_) (.inl ⟨?_, rfl⟩)
    · rw [found_or_hits_iff hw hs hb hc]
      simp [hcb]
    · exact (found_or_hits_iff hw hs hb hb).mpr (.inr ⟨rfl, hinside⟩)

/-- A location whose word points at a block is not reported, and the block is marked if it was
not. -/
theorem classify_of_names (hs : sc.Views m₀ arenas blocks)
    (h : sc.Marks m₀ p.memory blocks found keep) {slot : Nat}
    (hread : p.memory.read slot = m₀.read slot) (hb : b ∈ blocks) (hfields : b.FieldsIn keep)
    (hw : sc.Names m₀ b (m₀.read slot)) :
    ∃ index q, (sc.reportingTo collector).classify slot p = .ok index q ∧
      sc.Followed collector m₀ blocks found keep [slot] p q ∧
      ∀ i, index = some i → b.index = i ∧ b.Inside ∧ ¬ found b ∧
        ((∀ c ∈ blocks, slot ≠ c.header) → q.memory.read slot = m₀.read slot) := by
  have hstart := h.startOf_of_fieldsIn hs hb hfields hw.named
  have hnamed : b.NamedBy p.memory (m₀.read slot) :=
    ⟨hw.named.field, by rw [hstart, hw.named.start]⟩
  have hclassifiable : sc.Classifiable p.memory (p.memory.read slot) := by
    rw [hread]
    exact fun _ _ => hnamed.readable
  obtain ⟨log, hrun⟩ := classify_run (sc.reportingTo collector) hs.sound hclassifiable
  rw [hread] at hrun
  have hsame : (sc.reportingTo collector).verdict p.memory (m₀.read slot) =
      sc.verdict p.memory (m₀.read slot) := rfl
  rw [hsame] at hrun
  obtain ⟨hpassed, hmarked⟩ := h.verdict_of_names hs hb hw hstart
  by_cases hskip : found b ∨ ¬ b.Inside
  · rw [hpassed hskip] at hrun
    exact ⟨none, _, hrun, .of_passed h hs hb hw hskip log, by simp⟩
  · rw [not_or, not_not] at hskip
    obtain ⟨hfound, hinside⟩ := hskip
    rw [hmarked hfound hinside] at hrun
    obtain ⟨color, hheader, -, -⟩ := h.header_eq hs hb
    have hword : ((Block.headerAt p.memory (Block.startOf p.memory (m₀.read slot))).withColor
        sc.ctx.colors.garbage).toWord = b.headerWord sc.ctx.colors.garbage := by
      unfold Block.headerAt
      rw [hnamed.startOf_sub, hheader]
      exact (LocalBlock.headerWord_eq (hs.placed.placed b hb) hs.placed.arranged _).symm
    rw [hnamed.startOf_sub] at hrun
    obtain ⟨q, hrun, hmemory, hvisits⟩ : ∃ q : Progress,
        (sc.reportingTo collector).classify slot p = .ok (some b.index) q ∧
        q.memory = p.memory.write b.header (b.headerWord sc.ctx.colors.garbage) ∧
        q.visits = p.visits := ⟨_, hrun, congrArg (p.memory.write b.header) hword, rfl⟩
    refine ⟨some b.index, q, hrun, .of_marked h hs hb hw hinside hmemory hvisits,
      fun i hi => ⟨Option.some.inj hi, hinside, hfound, fun hslot => ?_⟩⟩
    rw [hmemory, Memory.read_write_of_ne _ _ (hslot b hb).symm, hread]

/-- The scan of a location with a lawful word answers with the arena of the block it marks, if it
marks one. -/
theorem classify_followed (collector : Visitor) (hs : sc.Views m₀ arenas blocks)
    (h : sc.Marks m₀ p.memory blocks found keep) {slot : Nat}
    (hread : p.memory.read slot = m₀.read slot)
    (hslot : ∀ b ∈ blocks, collector.Spares [slot] b.header)
    (hheaders : ∀ a ∈ sc.headersOf m₀ (m₀.read slot), Outside arenas a → keep a)
    (hlawful : sc.Lawful arenas m₀ blocks (m₀.read slot))
    (hfields : ∀ b ∈ blocks, sc.Names m₀ b (m₀.read slot) → b.FieldsIn keep) :
    ∃ index q, (sc.reportingTo collector).classify slot p = .ok index q ∧
      sc.Followed collector m₀ blocks found keep [slot] p q ∧
      ∀ i, index = some i → ∃ b ∈ blocks, b.index = i ∧ sc.Hits m₀ b (m₀.read slot) ∧
        ¬ found b ∧ ((∀ c ∈ blocks, slot ≠ c.header) → q.memory.read slot = m₀.read slot) := by
  rcases hlawful.cases with hw | ⟨b, hb, hw⟩
  · obtain ⟨q, hrun, hfollowed⟩ := classify_of_foreign hs h hread hslot hheaders hw
    exact ⟨none, q, hrun, hfollowed, by simp⟩
  · obtain ⟨index, q, hrun, hfollowed, hindex⟩ :=
      classify_of_names hs h hread hb (hfields b hb hw) hw
    refine ⟨index, q, hrun, hfollowed, fun i hi => ?_⟩
    obtain ⟨hbi, hinside, hfound, hkept⟩ := hindex i hi
    exact ⟨b, hb, hbi, ⟨hw, hinside⟩, hfound, hkept⟩

/-- The scan of a location with a lawful word answers with the arena of the block it marks, if it
marks one. -/
theorem classify_traced (hs : sc.Views m₀ arenas blocks)
    (houtside : ∀ a, Outside arenas a → keep a) (h : sc.Marks m₀ p.memory blocks found keep)
    {slot : Nat} (hread : p.memory.read slot = m₀.read slot)
    (hlawful : sc.Lawful arenas m₀ blocks (m₀.read slot))
    (hfields : ∀ b ∈ blocks, sc.Names m₀ b (m₀.read slot) → b.FieldsIn keep) :
    ∃ index q, sc.classify slot p = .ok index q ∧ sc.Traced m₀ blocks found keep [slot] p q ∧
      ∀ i, index = some i → ∃ b ∈ blocks, b.index = i ∧ sc.Hits m₀ b (m₀.read slot) ∧
        ¬ found b := by
  obtain ⟨index, q, hrun, hfollowed, hindex⟩ := classify_followed Visitor.observe
    hs h hread (fun _ _ => .inl rfl) (fun a _ ha => houtside a ha) hlawful hfields
  rw [reportingTo_observe hs.observes] at hrun
  refine ⟨index, q, hrun, hfollowed.traced, fun i hi => ?_⟩
  obtain ⟨b, hb, hbi, hhits, hfound, -⟩ := hindex i hi
  exact ⟨b, hb, hbi, hhits, hfound⟩

/-- A location whose word points at an unmarked block marks something in it, even when its fields
were overwritten. -/
theorem classify_of_worn (hs : sc.Views m₀ arenas blocks)
    (h : sc.Marks m₀ p.memory blocks found keep) (hworn : Worn m₀ p.memory blocks) {slot : Nat}
    (hread : p.memory.read slot = m₀.read slot) (hb : b ∈ blocks)
    (hw : sc.Hits m₀ b (m₀.read slot)) (hfound : ¬ found b) (hslot : ¬ b.Spans slot) :
    ∃ q, sc.classify slot p = .ok (some b.index) q ∧ q.memory.read slot = m₀.read slot := by
  obtain ⟨hreadable, hverdict, hspans⟩ := h.verdict_of_worn hs hworn hb hw hfound
  have hclassifiable : sc.Classifiable p.memory (p.memory.read slot) := by
    rw [hread]
    exact fun _ _ => hreadable
  obtain ⟨log, hrun⟩ := classify_observe hs.observes hs.sound hclassifiable
  rw [hread, hverdict] at hrun
  refine ⟨_, hrun, (Memory.read_write_of_ne _ _ fun heq => hslot ?_).trans hread⟩
  rwa [← heq]

/-! ### Locations one after the other -/

/-- The locations `slots` can be classified in turn, in a scan that tells the collector of no others
than `told`. They hold lawful words and are as they were. So is what their words lead to, and the
collector is not told of it. -/
structure Followable (sc : Scanner) (collector : Visitor) (m₀ : Memory) (arenas : List Arena)
    (blocks : List LocalBlock) (keep : Nat → Prop) (slots told : List Nat) : Prop where
  kept : ∀ slot ∈ slots, keep slot
  apart : ∀ slot ∈ slots, ∀ b ∈ blocks, slot ≠ b.header
  lawful : ∀ slot ∈ slots, sc.Lawful arenas m₀ blocks (m₀.read slot)
  heap : ∀ slot ∈ slots, ∀ a ∈ sc.headersOf m₀ (m₀.read slot), Outside arenas a →
    keep a ∧ collector.Spares told a
  targets : ∀ slot ∈ slots, ∀ b ∈ blocks, sc.Names m₀ b (m₀.read slot) →
    b.FieldsIn fun a => keep a ∧ collector.Spares told a
  headers : ∀ b ∈ blocks, collector.Spares told b.header
  fresh : collector = Visitor.observe ∨ told.Nodup

namespace Followable

variable {told after : List Nat}

theorem of_subset (h : sc.Followable collector m₀ arenas blocks keep slots told)
    (hsub : more ⊆ slots) : sc.Followable collector m₀ arenas blocks keep more told :=
  { h with
    kept := fun slot hslot => h.kept slot (hsub hslot)
    apart := fun slot hslot => h.apart slot (hsub hslot)
    lawful := fun slot hslot => h.lawful slot (hsub hslot)
    heap := fun slot hslot => h.heap slot (hsub hslot)
    targets := fun slot hslot => h.targets slot (hsub hslot) }

theorem of_perm (h : sc.Followable collector m₀ arenas blocks keep slots told) {told' : List Nat}
    (hperm : told.Perm told') : sc.Followable collector m₀ arenas blocks keep slots told' := by
  have hspares : ∀ {a}, collector.Spares told a → collector.Spares told' a := fun ha =>
    ha.imp_right fun hnot hmem => hnot (hperm.mem_iff.mpr hmem)
  exact
    { h with
      heap := fun slot hslot a ha houtside => (h.heap slot hslot a ha houtside).imp_right hspares
      targets := fun slot hslot b hb hnames i hi =>
        (h.targets slot hslot b hb hnames i hi).imp_right hspares
      headers := fun b hb => hspares (h.headers b hb)
      fresh := h.fresh.imp_right hperm.nodup_iff.mp }

/-- Later locations can still be classified when the collector was told of earlier ones. -/
theorem advance (before : List Nat)
    (h : sc.Followable collector m₀ arenas blocks keep slots (before ++ after))
    (hslots : slots ⊆ after) :
    sc.Followable collector m₀ arenas blocks (fun a => keep a ∧ collector.Spares before a) slots
      after := by
  have hsplit : ∀ {a}, keep a ∧ collector.Spares (before ++ after) a →
      (keep a ∧ collector.Spares before a) ∧ collector.Spares after a := by
    rintro a ⟨hkeep, hspares⟩
    obtain ⟨hbefore, hafter⟩ := spares_append.mp hspares
    exact ⟨⟨hkeep, hbefore⟩, hafter⟩
  refine ⟨?_, ?_, ?_, ?_, ?_, ?_, ?_⟩
  · intro slot hslot
    refine ⟨h.kept slot hslot, h.fresh.imp_right fun hnodup hmem => ?_⟩
    exact (List.nodup_append'.mp hnodup).2.2 hmem (hslots hslot)
  · exact h.apart
  · exact h.lawful
  · exact fun slot hslot a ha houtside => hsplit (h.heap slot hslot a ha houtside)
  · exact fun slot hslot b hb hnames i hi => hsplit (h.targets slot hslot b hb hnames i hi)
  · exact fun b hb => (spares_append.mp (h.headers b hb)).2
  · exact h.fresh.imp_right fun hnodup => (List.nodup_append'.mp hnodup).2.1

/-- The first of the locations is classified. The scan answers with the arena of the block that is
marked, if one is. -/
theorem classify {slot : Nat}
    (h : sc.Followable collector m₀ arenas blocks keep (slot :: slots) (slot :: told))
    (hs : sc.Views m₀ arenas blocks) (hmarks : sc.Marks m₀ p.memory blocks found keep) :
    ∃ index q, (sc.reportingTo collector).classify slot p = .ok index q ∧
      sc.Followed collector m₀ blocks found keep [slot] p q ∧
      ∀ i, index = some i → ∃ b ∈ blocks, b.index = i ∧ sc.Hits m₀ b (m₀.read slot) ∧
        q.memory.read slot = m₀.read slot := by
  have hslot : slot ∈ slot :: slots := List.mem_cons_self
  have hapart := h.apart slot hslot
  have hread := hmarks.kept slot (h.kept slot hslot) hapart
  obtain ⟨index, q, hrun, hfollowed, hindex⟩ := classify_followed collector hs hmarks hread
    (fun b hb => (spares_cons.mp (h.headers b hb)).1)
    (fun a ha houtside => (h.heap slot hslot a ha houtside).1) (h.lawful slot hslot)
    fun b hb hnames i hi => (h.targets slot hslot b hb hnames i hi).1
  refine ⟨index, q, hrun, hfollowed, fun i hi => ?_⟩
  obtain ⟨b, hb, hbi, hhits, -, hkept⟩ := hindex i hi
  exact ⟨b, hb, hbi, hhits, hkept hapart⟩

end Followable

end Scanner

end FiberStacks
