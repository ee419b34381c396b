import FiberStacks.Proofs.Scan.Marks
import FiberStacks.Scan.LocalSweep

/-!
# The sweep of one block

An unmarked block and free space may be overwritten. A marked block is unmarked and its fields are
scanned, which marks the blocks that they point at. This is fine for blocks that the sweep has yet
to come to. A field that marks a block behind the sweep ends the scan, but for two cases that the
check lets pass: the block that is being scanned, and a block without fields right below it.
-/

namespace FiberStacks

/-- The sweep, at a depth of the arena with the index, still has to come to the word, or it is none
of its words. -/
def Ahead (arenas : List Arena) (index depth address : Nat) : Prop :=
  Outside arenas address ∨ ∃ k a, k ≤ index ∧ arenas[k]? = some a ∧ a.Holds address ∧
    a.down depth ≤ address

namespace Ahead

variable {arenas : List Arena} {index depth address : Nat} {blocks : List LocalBlock}
  {b : LocalBlock}

theorem mono {index' depth' : Nat} (h : Ahead arenas index' depth' address)
    (hindex : index' ≤ index) (hdepth : depth' ≤ depth) : Ahead arenas index depth address := by
  rcases h with houtside | ⟨k, a, hk, ha, hholds, hle⟩
  · exact .inl houtside
  · refine .inr ⟨k, a, Nat.le_trans hk hindex, ha, hholds, ?_⟩
    unfold Arena.down at *
    omega

/-- The words above a block in its arena and in older ones are not of the block. -/
theorem not_spans (harranged : Arranged arenas) (hb : b.In arenas)
    (h : Ahead arenas b.index b.upper address) : ¬ b.Spans address := by
  intro hspans
  rcases h with houtside | ⟨k, a, hk, ha, hholds, hle⟩
  · exact houtside b.arena hb.mem (hb.holds hspans)
  · by_cases heq : b.index = k
    · rw [← heq, hb.found] at ha
      cases ha
      have hlt := hspans.2
      rw [hb.header_add_bytes] at hlt
      omega
    · exact harranged.not_holds hb.found ha heq (hb.holds hspans) hholds

theorem of_spans (hb : b.In arenas) (hindex : b.index ≤ index) (hdepth : b.depth ≤ depth)
    (h : b.Spans address) : Ahead arenas index depth address := by
  refine .inr ⟨b.index, b.arena, hindex, hb.found, hb.holds h, ?_⟩
  have hle := h.1
  unfold LocalBlock.header at hle
  unfold Arena.down at *
  omega

end Ahead

/-- The word is in the free part of an arena before the one with the index, when blocks down to the
depth are in use. -/
def Freed (arenas : List Arena) (index depth address : Nat) : Prop :=
  ∃ k a, k < index ∧ arenas[k]? = some a ∧ a.Holds address ∧ address < a.down depth

section Freed

variable {arenas : List Arena} {index depth address : Nat} {b : LocalBlock}

theorem Ahead.not_freed {index' : Nat} (harranged : Arranged arenas)
    (h : Ahead arenas index' depth address) : ¬ Freed arenas index depth address := by
  rintro ⟨k, a, -, ha, hholds, hlt⟩
  rcases h with houtside | ⟨j, other, -, hother, hotherHolds, hle⟩
  · exact houtside a (List.mem_of_getElem? ha) hholds
  · by_cases heq : j = k
    · rw [heq, ha] at hother
      cases hother
      omega
    · exact harranged.not_holds hother ha heq hotherHolds hholds

/-- Blocks of the arena with the index or of later ones have no words in the free parts. -/
theorem not_freed_of_spans (harranged : Arranged arenas) (hb : b.In arenas)
    (hindex : index ≤ b.index) (h : b.Spans address) : ¬ Freed arenas index depth address := by
  rintro ⟨k, a, hk, ha, hholds, -⟩
  exact harranged.not_holds hb.found ha (by omega) (hb.holds h) hholds

end Freed

theorem Scan.lift_run {α : Type} {x : Except Abort α} {a : α} (h : x = .ok a) (p : Progress) :
    (liftM x : ScanM α) p = .ok a p := by
  rw [h]
  rfl

/-- The operation ends as a pointer at a newer local block was found. -/
def Scan.Backwards {α : Type} (x : ScanM α) (p : Progress) : Prop :=
  ∃ slot sp target q, x p = .error (.violation (.backwardsLocalPointer slot sp target)) q

theorem Scan.Backwards.bind {α β : Type} {x : ScanM α} {p : Progress} (h : Backwards x p)
    (f : α → ScanM β) : Backwards (x >>= f) p := by
  obtain ⟨slot, sp, target, q, hrun⟩ := h
  exact ⟨slot, sp, target, q, Run.bind_of_error hrun f⟩

theorem Scan.Backwards.congr {α : Type} {x y : ScanM α} {p u : Progress}
    (h : Backwards y u) (heq : x p = y u) : Backwards x p := by
  obtain ⟨slot, sp, target, q, hrun⟩ := h
  exact ⟨slot, sp, target, q, heq.trans hrun⟩

namespace LocalBlock

/-- The other block is not newer, as far as the check for backward pointers can tell. That is so for
the block itself, and for a block without fields that ends where the block begins. -/
def Level (c b : LocalBlock) : Prop := c = b ∨ c.wosize = 0 ∧ c.upper = b.depth

/-- The other block is newer, and the check for backward pointers tells. -/
def Beyond (c b : LocalBlock) : Prop := b.Above c ∧ ¬ c.Level b

variable {b c : LocalBlock}

theorem Beyond.ne (h : c.Beyond b) : c ≠ b := fun heq => h.2 (.inl heq)

/-- The check for backward pointers compares where a pointer leads with where the block begins that
it is in. -/
theorem target_lt_iff (hrel : c.Above b ∨ c = b ∨ b.Above c) {i : Nat}
    (hi : i < c.wosize ∨ i = 0) :
    ((wordBytes * (i + 1) : Nat) : Int) - c.depth < -(b.depth : Int) ↔ c.Beyond b := by
  have hbytes := c.bytes_eq
  have hdepth : c.depth = c.upper + c.bytes := rfl
  simp only [wordBytes] at hbytes ⊢
  constructor
  · intro hlt
    rcases hrel with habove | rfl | habove
    · have hless := habove.depth_lt
      omega
    · omega
    · refine ⟨habove, ?_⟩
      rintro (rfl | ⟨hempty, hupper⟩) <;> omega
  · rintro ⟨habove, hlevel⟩
    have hle := habove.depth
    have hne : c.wosize = 0 → c.upper ≠ b.depth := fun hempty hupper =>
      hlevel (.inr ⟨hempty, hupper⟩)
    omega

end LocalBlock

namespace Scanner

variable {sc : Scanner} {m₀ : Memory} {arenas : List Arena} {blocks : List LocalBlock}
  {found : LocalBlock → Prop} {keep : Nat → Prop} {b c : LocalBlock} {p q u : Progress}

/-! ### Overwritten words -/

/-- From `p` to `q` no visits were made, and only words with the property may have been
overwritten. -/
structure Overwrites (p q : Progress) (changed : Nat → Prop) : Prop where
  visits : q.visits = p.visits
  words : ∀ a, q.memory.read a = p.memory.read a ∨ changed a ∧ q.memory.read a = Word.deadLocal

theorem Overwrites.kept {changed : Nat → Prop} (h : Overwrites p q changed) {a : Nat}
    (ha : ¬ changed a) : q.memory.read a = p.memory.read a :=
  (h.words a).resolve_right fun hchanged => ha hchanged.1

theorem Overwrites.refl (p : Progress) (changed : Nat → Prop) : Overwrites p p changed :=
  ⟨rfl, fun _ => .inl rfl⟩

theorem Overwrites.mono {changed changed' : Nat → Prop} (h : Overwrites p q changed)
    (hsub : ∀ a, changed a → changed' a) : Overwrites p q changed' :=
  ⟨h.visits, fun a => (h.words a).imp id fun hdead => ⟨hsub a hdead.1, hdead.2⟩⟩

theorem Overwrites.trans {changed : Nat → Prop} (h : Overwrites p u changed)
    (h' : Overwrites u q changed) : Overwrites p q changed := by
  refine ⟨h'.visits.trans h.visits, fun a => ?_⟩
  rcases h'.words a with hkept | hdead
  · rw [hkept]
    exact h.words a
  · exact .inr hdead

theorem Overwrites.worn {changed : Nat → Prop} (h : Overwrites p q changed)
    (hworn : Worn m₀ p.memory blocks) : Worn m₀ q.memory blocks := by
  intro b hb i hi
  rcases h.words (b.block + wordBytes * i) with hkept | ⟨-, hdead⟩
  · rw [hkept]
    exact hworn b hb i hi
  · exact .inr hdead

/-- From `p` to `q` no visits were made, and just the words with the property were overwritten. -/
structure Buries (p q : Progress) (gone : Nat → Prop) : Prop where
  visits : q.visits = p.visits
  dead : ∀ a, gone a → q.memory.read a = Word.deadLocal
  kept : ∀ a, ¬ gone a → q.memory.read a = p.memory.read a

theorem Buries.overwrites {gone : Nat → Prop} (h : Buries p q gone) : Overwrites p q gone := by
  refine ⟨h.visits, fun a => ?_⟩
  by_cases hgone : gone a
  · exact .inr ⟨hgone, h.dead a hgone⟩
  · exact .inl (h.kept a hgone)

theorem poison_run (address words : Nat) (p : Progress) :
    ∃ q, Scan.poison address words p = .ok () q ∧
      Buries p q fun a => a ∈ Memory.span address words := by
  refine ⟨_, rfl, rfl, fun a hgone => ?_, fun a hgone => ?_⟩
  · exact (Memory.read_fill _ _ _ _ _).trans (if_pos hgone)
  · exact Memory.read_fill_of_not_mem _ _ hgone

/-- The words of an arena below a depth. -/
theorem mem_span_free {a : Arena} (hwords : a.base % wordBytes = 0 ∧ a.length % wordBytes = 0)
    {depth : Nat} (hdepth : depth ≤ a.length) (hmod : depth % wordBytes = 0) {address : Nat} :
    address ∈ Memory.span a.base (Size.ceilDiv (a.down depth - a.base) wordBytes) ↔
      address % wordBytes = 0 ∧ a.Holds address ∧ address < a.down depth := by
  obtain ⟨hbase, hlength⟩ := hwords
  rw [Memory.mem_span_iff]
  unfold Size.ceilDiv Arena.Holds Arena.down
  simp only [wordBytes] at *
  constructor
  · rintro ⟨i, hi, rfl⟩
    omega
  · rintro ⟨haddress, ⟨hlow, -⟩, hbelow⟩
    exact ⟨(address - a.base) / 8, by omega, by omega⟩

/-- With poisoning on, the free part of an arena is overwritten. -/
theorem poisonFree_buries (sc : Scanner) (hpoison : sc.ctx.poison = true) {index depth : Nat}
    {a : Arena} (harranged : Arranged arenas) (ha : arenas[index]? = some a)
    (hdepth : depth ≤ a.length) (hwords : depth % wordBytes = 0) (p : Progress) :
    ∃ q, sc.poisonFree a (-(depth : Int)) p = .ok () q ∧
      Buries p q fun address => address % wordBytes = 0 ∧ a.Holds address ∧
        address < a.down depth := by
  have hmem := List.mem_of_getElem? ha
  obtain ⟨q, hrun, hburies⟩ :=
    poison_run a.base (Size.ceilDiv (a.down depth - a.base) wordBytes) p
  refine ⟨q, ?_, ?_⟩
  · rw [poisonFree, if_pos hpoison,
      Run.bind_of_ok (Scan.lift_run (Arena.addressAt_eq (harranged.lt_limit hmem) hdepth) p)]
    exact hrun
  · simpa only [mem_span_free (harranged.words a hmem) hdepth hwords] using hburies

/-- Overwriting the free part of an arena spares the words above it. -/
theorem poisonFree_run (sc : Scanner) {index depth : Nat} {a : Arena}
    (harranged : Arranged arenas) (ha : arenas[index]? = some a)
    (hdepth : depth ≤ a.length) (hwords : depth % wordBytes = 0) (p : Progress) :
    ∃ q, sc.poisonFree a (-(depth : Int)) p = .ok () q ∧
      Overwrites p q fun address => a.Holds address ∧ address < a.down depth := by
  by_cases hpoison : sc.ctx.poison = true
  · obtain ⟨q, hrun, hburies⟩ := poisonFree_buries sc hpoison harranged ha hdepth hwords p
    exact ⟨q, hrun, hburies.overwrites.mono fun _ => And.right⟩
  · refine ⟨p, ?_, .refl p _⟩
    rw [poisonFree, if_neg hpoison]
    rfl

/-! ### Fields -/

theorem Traced.worn {slots : List Nat} (h : sc.Traced m₀ blocks found keep slots p q)
    (hs : sc.Views m₀ arenas blocks) (hworn : Worn m₀ p.memory blocks) :
    Worn m₀ q.memory blocks := by
  intro b hb i hi
  rw [h.headers _ fun c hc => hs.ne_header_of_field hb hi hc]
  exact hworn b hb i hi

/-- The target of a pointer at a block is told by the field that it points at. -/
theorem target_eq (hplaced : Placed arenas blocks) (hb : b ∈ blocks) {w : Word}
    {i : Nat}
    (hi : i < b.wosize ∨ i = 0) (hw : w.toNat = b.block + wordBytes * i) :
    Offset.sub (Offset.ofSize w.toNat) (Offset.ofSize (b.arena.base + b.arena.length)) =
      .ok (((wordBytes * (i + 1) : Nat) : Int) - b.depth) := by
  have hin := hplaced.placed b hb
  have hfits := hin.fits
  have hinside := hplaced.arranged.inside b.arena hin.mem
  have hend := hin.header_add_bytes
  have hbytes := b.bytes_eq
  have hblock : b.block = b.header + wordBytes := rfl
  have hdepth : b.depth = b.upper + b.bytes := rfl
  unfold AddressSpace.limit at hinside
  unfold Arena.down at hend
  simp only [wordBytes] at hw hbytes hblock ⊢
  rw [Offset.ofSize_eq (by unfold Offset.limit; omega),
    Offset.ofSize_eq (by unfold Offset.limit; omega), Offset.sub,
    if_pos (by unfold Offset.limit; omega)]
  congr 1
  omega

/-- What a sweep of fields does once it has classified the first one. -/
theorem sweepFields_of_marks (hplaced : Placed arenas blocks) (hb : b ∈ blocks)
    (hc : c ∈ blocks) {slot : Nat} (hclassify : sc.classify slot p = .ok (some c.index) u)
    {w : Word} (hread : u.memory.read slot = w) (hw : c.NamedBy m₀ w) (count : Nat) :
    (c.Beyond b → Scan.Backwards
      (sc.sweepFields arenas (-(b.depth : Int)) (count + 1) slot) p) ∧
    (¬ c.Beyond b → sc.sweepFields arenas (-(b.depth : Int)) (count + 1) slot p =
      sc.sweepFields arenas (-(b.depth : Int)) count (slot + wordBytes) u) := by
  have hin := hplaced.placed c hc
  obtain ⟨i, hi, hfield⟩ := hw.field
  have htop : c.arena.top = .ok (c.arena.base + c.arena.length) :=
    Arena.top_eq (hplaced.arranged.lt_limit hin.mem)
  have htarget := target_eq hplaced hc hi hfield
  have hcheck := LocalBlock.target_lt_iff (hplaced.above_or_eq_or_above hb hc) hi
  have hstep : sc.sweepFields arenas (-(b.depth : Int)) (count + 1) slot p =
      (do
        if ((wordBytes * (i + 1) : Nat) : Int) - c.depth < -(b.depth : Int) then
          throw (.violation (.backwardsLocalPointer slot (-(b.depth : Int))
            (((wordBytes * (i + 1) : Nat) : Int) - c.depth)))
        sc.sweepFields arenas (-(b.depth : Int)) count (slot + wordBytes) : ScanM Unit) u := by
    rw [← hread] at htarget
    rw [sweepFields, Run.bind_of_ok hclassify]
    simp only [hin.found]
    rw [Run.bind_of_ok (show (get : ScanM Progress) u = .ok u u from rfl),
      Run.bind_of_ok (Scan.lift_run htop u), Run.bind_of_ok (Scan.lift_run htarget u)]
  constructor
  · intro hbeyond
    rw [if_pos (hcheck.mpr hbeyond)] at hstep
    exact ⟨_, _, _, u, hstep⟩
  · intro hbeyond
    rwa [if_neg fun hlt => hbeyond (hcheck.mp hlt)] at hstep

/-- A sweep of fields of a block ends well exactly if none of them marks a block beyond. It has then
marked what the fields point at. -/
theorem sweepFields_outcome (hs : sc.Views m₀ arenas blocks)
    (houtside : ∀ a, Outside arenas a → keep a) (hb : b ∈ blocks) (count : Nat) {slot : Nat}
    (hslots : ∀ a ∈ Memory.span slot count, keep a ∧ b.Spans a ∧ a ≠ b.header ∧
      sc.Lawful arenas m₀ blocks (m₀.read a))
    (hfields : ∀ c ∈ blocks, found c ∨ ¬ c.Beyond b → c.FieldsIn keep)
    (hworn : Worn m₀ p.memory blocks) (h : sc.Marks m₀ p.memory blocks found keep) :
    (∃ q, sc.sweepFields arenas (-(b.depth : Int)) count slot p = .ok () q ∧
      sc.Traced m₀ blocks found keep (Memory.span slot count) p q ∧
      ∀ a ∈ Memory.span slot count, ∀ c ∈ blocks, sc.Hits m₀ c (m₀.read a) → c.Beyond b →
        found c) ∨
    (Scan.Backwards (sc.sweepFields arenas (-(b.depth : Int)) count slot) p ∧
      ∃ a ∈ Memory.span slot count, ∃ c ∈ blocks, sc.Hits m₀ c (m₀.read a) ∧ c.Beyond b ∧
        ¬ found c) := by
  induction count generalizing slot found p with
  | zero => exact .inl ⟨p, rfl, Traced.refl h, by simp [Memory.span]⟩
  | succ count ih =>
      have hspan : Memory.span slot (count + 1) =
          [slot] ++ Memory.span (slot + wordBytes) count := by
        rw [Nat.add_comm count, Memory.span_add]
        simp [Memory.span]
      rw [hspan] at hslots ⊢
      obtain ⟨hkeep, hspans, hne, hlawful⟩ := hslots slot (by simp)
      have hheader : ∀ c ∈ blocks, slot ≠ c.header := by
        rintro c hc rfl
        have hsame := hs.placed.eq_of_spans hb hc hspans c.spans_header
        exact hne (congrArg LocalBlock.header hsame).symm
      have hread := h.kept slot hkeep hheader
      by_cases hbad : ∃ c ∈ blocks, sc.Hits m₀ c (m₀.read slot) ∧ c.Beyond b ∧ ¬ found c
      · obtain ⟨c, hc, hhits, hbeyond, hfound⟩ := hbad
        have hapart : ¬ c.Spans slot := fun hspansc =>
          hbeyond.ne (hs.placed.eq_of_spans hc hb hspansc hspans)
        obtain ⟨u, hclassify, hreadu⟩ := classify_of_worn hs h hworn hread hc hhits hfound hapart
        have hback :=
          (sweepFields_of_marks hs.placed hb hc hclassify hreadu hhits.names.named count).1 hbeyond
        exact .inr ⟨hback, slot, by simp, c, hc, hhits, hbeyond, hfound⟩
      · push Not at hbad
        have htargets : ∀ c ∈ blocks, sc.Names m₀ c (m₀.read slot) → c.FieldsIn keep := by
          intro c hc hnames
          by_cases hinside : c.Inside
          · refine hfields c hc (or_iff_not_imp_right.mpr fun hbeyond => ?_)
            exact hbad c hc ⟨hnames, hinside⟩ (not_not.mp hbeyond)
          · refine LocalBlock.fieldsIn_of_empty (Nat.eq_zero_of_not_pos fun hfilled => ?_) keep
            exact hinside (LocalBlock.inside_of_filled (hs.placed.placed c hc) hfilled)
        obtain ⟨index, u, hclassify, htraced, hindex⟩ :=
          classify_traced hs houtside h hread hlawful htargets
        have hreadu : u.memory.read slot = m₀.read slot := htraced.marks.kept slot hkeep hheader
        have hstep : sc.sweepFields arenas (-(b.depth : Int)) (count + 1) slot p =
            sc.sweepFields arenas (-(b.depth : Int)) count (slot + wordBytes) u := by
          cases index with
          | none => rw [sweepFields, Run.bind_of_ok hclassify]
          | some i =>
              obtain ⟨c, hc, rfl, hhits, hfound⟩ := hindex i rfl
              have hmarks :=
                sweepFields_of_marks hs.placed hb hc hclassify hreadu hhits.names.named count
              exact hmarks.2 fun hbeyond => hfound (hbad c hc hhits hbeyond)
        have hgrown : ∀ c ∈ blocks, (found c ∨ ∃ a ∈ [slot], sc.Hits m₀ c (m₀.read a)) →
            c.Beyond b → found c := by
          rintro c hc (hfound | ⟨a, ha, hhits⟩) hbeyond
          · exact hfound
          · rw [List.mem_singleton.mp ha] at hhits
            exact hbad c hc hhits hbeyond
        have hrest := ih (fun a ha => hslots a (List.mem_append_right _ ha))
          (fun c hc hcase => hfields c hc (or_iff_not_imp_right.mpr fun hbeyond =>
            hgrown c hc (hcase.resolve_right hbeyond) (not_not.mp hbeyond)))
          (htraced.worn hs hworn) htraced.marks
        rcases hrest with ⟨q, hrun, hq, hfine⟩ | ⟨hback, a, ha, c, hc, hhits, hbeyond, hfound⟩
        · refine .inl ⟨q, hstep.trans hrun, htraced.trans hq, fun a ha c hc hhits hbeyond => ?_⟩
          rcases List.mem_append.mp ha with ha | ha
          · rw [List.mem_singleton.mp ha] at hhits
            exact hbad c hc hhits hbeyond
          · exact hgrown c hc (hfine a ha c hc hhits hbeyond) hbeyond
        · exact .inr ⟨hback.congr hstep, a, List.mem_append_right _ ha, c, hc, hhits, hbeyond,
            fun hold => hfound (.inl hold)⟩

/-! ### Blocks -/

theorem blockAddress_run (harranged : Arranged arenas) (hb : b.In arenas)
    (p : Progress) : (liftM (Size.add b.header wordBytes) : ScanM Nat) p = .ok b.block p := by
  have hholds := (hb.holds b.spans_header).2
  have hinside := harranged.inside b.arena hb.mem
  refine Scan.lift_run ?_ p
  unfold LocalBlock.block AddressSpace.limit at *
  rw [Size.add, Size.limit_eq, if_pos (by simp only [wordBytes]; omega)]

theorem sweepBlock_of_notMarkable (harranged : Arranged arenas)
    (hb : b.In arenas) (sp : Int) (p : Progress) :
    sc.sweepBlock arenas sp b.header ⟨b.wosize, Color.notMarkable, b.tag⟩ p =
      (if sc.ctx.poison then Scan.poison b.block b.wosize else pure () : ScanM Unit) p := by
  unfold sweepBlock
  rw [Run.bind_of_ok (blockAddress_run harranged hb p)]
  rfl

/-- With poisoning on, the fields of an unmarked block are overwritten. -/
theorem sweepBlock_buries (sc : Scanner) (hpoison : sc.ctx.poison = true)
    (harranged : Arranged arenas) (hb : b.In arenas) (sp : Int) (p : Progress) :
    ∃ q, sc.sweepBlock arenas sp b.header ⟨b.wosize, Color.notMarkable, b.tag⟩ p = .ok () q ∧
      Buries p q fun a => a ∈ Memory.span b.block b.wosize := by
  obtain ⟨q, hrun, hburies⟩ := poison_run b.block b.wosize p
  refine ⟨q, ?_, hburies⟩
  rw [sweepBlock_of_notMarkable harranged hb, if_pos hpoison, hrun]

/-- An unmarked block is passed over, or its fields are overwritten. -/
theorem sweepBlock_of_unmarked (harranged : Arranged arenas) (hb : b.In arenas)
    (sp : Int) (p : Progress) :
    ∃ q, sc.sweepBlock arenas sp b.header ⟨b.wosize, Color.notMarkable, b.tag⟩ p = .ok () q ∧
      Overwrites p q fun a => a ∈ Memory.span b.block b.wosize := by
  by_cases hpoison : sc.ctx.poison = true
  · obtain ⟨q, hrun, hburies⟩ := sweepBlock_buries sc hpoison harranged hb sp p
    exact ⟨q, hrun, hburies.overwrites⟩
  · refine ⟨p, ?_, .refl p _⟩
    rw [sweepBlock_of_notMarkable harranged hb, if_neg hpoison]
    rfl

/-- The first field that is scanned, read off the info word of a closure. -/
theorem firstField_run (color : Nat) (p : Progress)
    (hinfo : 1 < b.wosize → p.memory.read (b.block + wordBytes) = m₀.read (b.block + wordBytes)) :
    ∃ q, firstField b.block ⟨b.wosize, color, b.tag⟩ p = .ok (b.scanStart m₀) q ∧
      q.memory = p.memory ∧ q.visits = p.visits := by
  unfold firstField LocalBlock.scanStart
  by_cases hclosure : b.tag = Tag.closure ∧ 1 < b.wosize
  · simp only [if_pos hclosure]
    rw [Run.bind_of_ok (Scan.steer_run _ _), hinfo hclosure.2]
    exact ⟨_, rfl, rfl, rfl⟩
  · simp only [if_neg hclosure]
    exact ⟨p, rfl, rfl, rfl⟩

/-- What the sweep does about the fields of a marked block. -/
def sweepScannable (sc : Scanner) (arenas : List Arena) (sp : Int) (block : Nat) (h : Header) :
    ScanM Unit := do
  if h.tag < Tag.noScan then
    let start ← firstField block h
    sc.sweepFields arenas sp (h.wosize - start) (block + start * wordBytes)

/-- How the sweep of a block ends whose fields are scanned while the blocks with the property are
marked: it has marked what the fields point at, or one of them marks a block beyond. -/
def EndsBlock (sc : Scanner) (m₀ : Memory) (blocks : List LocalBlock) (found : LocalBlock → Prop)
    (keep : Nat → Prop) (b : LocalBlock) (x : ScanM Unit) (p : Progress) : Prop :=
  (∃ q, x p = .ok () q ∧ sc.Traced m₀ blocks found keep (b.scanSlots m₀) p q ∧
    ∀ slot ∈ b.scanSlots m₀, ∀ c ∈ blocks, sc.Hits m₀ c (m₀.read slot) → c.Beyond b → found c) ∨
  (Scan.Backwards x p ∧ ∃ slot ∈ b.scanSlots m₀, ∃ c ∈ blocks, sc.Hits m₀ c (m₀.read slot) ∧
    c.Beyond b ∧ ¬ found c)

theorem sweepScannable_ends (hs : sc.Views m₀ arenas blocks)
    (houtside : ∀ a, Outside arenas a → keep a) (hb : b ∈ blocks)
    (hlawful : ∀ slot ∈ b.scanSlots m₀, sc.Lawful arenas m₀ blocks (m₀.read slot))
    (hown : b.FieldsIn keep) (hfields : ∀ c ∈ blocks, found c ∨ ¬ c.Beyond b → c.FieldsIn keep)
    (hworn : Worn m₀ p.memory blocks) (h : sc.Marks m₀ p.memory blocks found keep) (color : Nat) :
    sc.EndsBlock m₀ blocks found keep b
      (sc.sweepScannable arenas (-(b.depth : Int)) b.block ⟨b.wosize, color, b.tag⟩) p := by
  have hslots : ∀ a ∈ b.scanSlots m₀, keep a ∧ b.Spans a ∧ a ≠ b.header ∧
      sc.Lawful arenas m₀ blocks (m₀.read a) := by
    intro a ha
    refine ⟨?_, LocalBlock.spans_of_mem_scanSlots ha, LocalBlock.ne_header_of_mem_scanSlots ha,
      hlawful a ha⟩
    obtain ⟨i, hi, rfl⟩ := LocalBlock.exists_of_mem_scanSlots ha
    exact hown i hi
  unfold EndsBlock sweepScannable
  unfold LocalBlock.scanSlots at hslots ⊢
  by_cases hscan : b.tag < Tag.noScan
  · rw [if_pos hscan] at hslots
    simp only [if_pos hscan]
    have hinfo : 1 < b.wosize →
        p.memory.read (b.block + wordBytes) = m₀.read (b.block + wordBytes) := fun hlt =>
      h.read_field hs hb hown hlt
    obtain ⟨u, hfirst, hmemory, hvisits⟩ := firstField_run color p hinfo
    have hstep := Run.bind_of_ok hfirst fun start =>
      sc.sweepFields arenas (-(b.depth : Int)) (b.wosize - start) (b.block + start * wordBytes)
    rcases sweepFields_outcome hs houtside hb _ hslots hfields (hmemory ▸ hworn) (hmemory ▸ h) with
      ⟨q, hrun, htraced, hfine⟩ | ⟨hback, hbad⟩
    · refine .inl ⟨q, hstep.trans hrun, ?_, hfine⟩
      exact ⟨by rw [htraced.visits, hvisits], fun a ha => by rw [htraced.headers a ha, hmemory],
        htraced.marks⟩
    · exact .inr ⟨hback.congr hstep, hbad⟩
  · simp only [if_neg hscan]
    exact .inl ⟨p, rfl, Traced.refl h, by simp⟩

/-- A marked block is unmarked before its fields are scanned. -/
theorem sweepBlock_resets (collector : Visitor) (hs : sc.Views m₀ arenas blocks) (hb : b ∈ blocks)
    (h : sc.Marks m₀ p.memory blocks found keep) :
    ∃ reset, (sc.reportingTo collector).sweepBlock arenas (-(b.depth : Int)) b.header
          ⟨b.wosize, sc.ctx.colors.garbage, b.tag⟩ p =
        (sc.reportingTo collector).sweepScannable arenas (-(b.depth : Int)) b.block
          ⟨b.wosize, sc.ctx.colors.garbage, b.tag⟩ reset ∧
      (∀ a, a ≠ b.header → reset.memory.read a = p.memory.read a) ∧ reset.visits = p.visits ∧
      sc.Marks m₀ reset.memory blocks (fun c => found c ∧ c ≠ b) keep := by
  have hin := hs.placed.placed b hb
  have hcolors := hs.colors
  have hne : ¬ sc.ctx.colors.garbage = Color.notMarkable := by
    unfold Color.notMarkable
    omega
  let reset : Progress := (p.logging [.mark b.header]).marking b.header
    ((⟨b.wosize, sc.ctx.colors.garbage, b.tag⟩ : Header).withColor Color.notMarkable)
  have hreset : reset.memory = p.memory.write b.header (b.headerWord Color.notMarkable) := by
    rw [LocalBlock.headerWord_eq hin hs.placed.arranged]
    rfl
  refine ⟨reset, ?_, fun a ha => ?_, rfl, ?_⟩
  · unfold sweepBlock
    rw [Run.bind_of_ok (blockAddress_run hs.placed.arranged hin p), if_neg hne]
    change (if sc.ctx.colors.garbage = sc.ctx.colors.garbage then _ else _ : ScanM Unit) p = _
    rw [if_pos rfl]
    rfl
  · rw [hreset, Memory.read_write_of_ne _ _ ha.symm]
  · rw [hreset]
    exact h.write hs hb (fun c _ hcb => and_iff_left hcb) (.inr ⟨fun hfound => hfound.2 rfl, rfl⟩)

/-- A marked block is unmarked, and its fields are scanned. -/
theorem sweepBlock_of_marked (hs : sc.Views m₀ arenas blocks)
    (houtside : ∀ a, Outside arenas a → keep a) (hb : b ∈ blocks)
    (hlawful : ∀ slot ∈ b.scanSlots m₀, sc.Lawful arenas m₀ blocks (m₀.read slot))
    (hown : b.FieldsIn keep) (hfields : ∀ c ∈ blocks, found c ∨ ¬ c.Beyond b → c.FieldsIn keep)
    (hworn : Worn m₀ p.memory blocks) (h : sc.Marks m₀ p.memory blocks found keep) :
    sc.EndsBlock m₀ blocks (fun c => found c ∧ c ≠ b) keep b
      (sc.sweepBlock arenas (-(b.depth : Int)) b.header
        ⟨b.wosize, sc.ctx.colors.garbage, b.tag⟩) p := by
  obtain ⟨reset, hstep, hother, hvisits, hmarks⟩ :=
    sweepBlock_resets Visitor.observe hs hb h
  rw [reportingTo_observe hs.observes] at hstep
  have hwornReset : Worn m₀ reset.memory blocks := by
    intro c hc i hi
    rw [hother _ (hs.ne_header_of_field hc hi hb)]
    exact hworn c hc i hi
  rcases sweepScannable_ends hs houtside hb hlawful hown
    (fun c hc hcase => hfields c hc (hcase.imp_left And.left)) hwornReset hmarks
    sc.ctx.colors.garbage with ⟨q, hrun, htraced, hfine⟩ | ⟨hback, hbad⟩
  · refine .inl ⟨q, hstep.trans hrun, ⟨?_, fun a ha => ?_, htraced.marks⟩, hfine⟩
    · rw [htraced.visits, hvisits]
    · rw [htraced.headers a ha, hother a (ha b hb)]
  · exact .inr ⟨hback.congr hstep, hbad⟩

end Scanner

end FiberStacks
