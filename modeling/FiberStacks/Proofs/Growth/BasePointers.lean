import FiberStacks.Proofs.Growth.Moved
import Mathlib.Order.Interval.Finset.Nat

/-!
# What growth writes on

Growth writes on the old segment and on the new one. Where saved base pointers are kept right it
also writes on the frame records on their chain, and these may lie anywhere. So the memory of others
is as before if no record lies there.
-/

namespace FiberStacks

namespace Relocation

/-- Where an address is after the move. Those of the old body are translated, all others stay. -/
def place (r : Relocation) (a : Nat) : Nat := if r.inOld a then r.target a else a

variable {old new : Segment} {a : Nat}

theorem place_of_contains (h : old.contains a = true) :
    (between old new).place a = (between old new).target a := if_pos h

theorem place_of_not_contains (h : old.contains a = false) : (between old new).place a = a :=
  if_neg (Bool.eq_false_iff.mp h)

end Relocation

namespace BasePointers

/-- The chain ends at 0, or at the outermost record of the segment. -/
def Ends (old : Segment) (record : Nat) : Prop :=
  record = 0 ∨ old.contains record = true ∧ record + topRecordWords * wordBytes = old.high

/-- From `record` on the links lead through the records up to the end of the chain. -/
inductive Records (old : Segment) (next : Nat → Nat) : Nat → List Nat → Prop
  | done {record : Nat} : Ends old record → Records old next record []
  | link {record : Nat} {rest : List Nat} :
      ¬ Ends old record → Records old next (next record) rest →
      Records old next record (record :: rest)

variable {old new : Segment} {next next' : Nat → Nat} {record : Nat} {rs : List Nat}

theorem Records.congr (h : Records old next record rs) (heq : ∀ f ∈ rs, next f = next' f) :
    Records old next' record rs := by
  induction h with
  | done hends => exact .done hends
  | link hgoes _ ih =>
      refine .link hgoes ?_
      rw [← heq _ List.mem_cons_self]
      exact ih fun f hf => heq f (List.mem_cons_of_mem _ hf)

theorem Records.unique {rs' : List Nat} (h : Records old next record rs)
    (h' : Records old next record rs') : rs = rs' := by
  induction h generalizing rs' with
  | done hends =>
      cases h' with
      | done => rfl
      | link hgoes => exact absurd hends hgoes
  | link hgoes _ ih =>
      cases h' with
      | done hends => exact absurd hends hgoes
      | link _ hrest => rw [ih hrest]

/-- From each record on the chain goes on as it does there. -/
theorem Records.exists_of_mem {f : Nat} (h : Records old next record rs) (hf : f ∈ rs) :
    ∃ before after, rs = before ++ f :: after ∧ Records old next f (f :: after) := by
  induction h with
  | done => cases hf
  | link hgoes hrest ih =>
      rcases List.mem_cons.mp hf with rfl | hmem
      · exact ⟨[], _, rfl, .link hgoes hrest⟩
      · obtain ⟨before, after, heq, hchain⟩ := ih hmem
        exact ⟨_ :: before, after, by rw [heq, List.cons_append], hchain⟩

/-- A chain that comes to its end passes no record twice. -/
theorem Records.not_mem_rest {rest : List Nat} (h : Records old next record (record :: rest)) :
    record ∉ rest := by
  intro hmem
  cases h with
  | link _ hrest =>
      obtain ⟨before, after, heq, hchain⟩ := hrest.exists_of_mem hmem
      have hrestEq : rest = after := by
        cases hchain with
        | link _ hafter => exact hrest.unique hafter
      have hlength := congrArg List.length heq
      simp only [List.length_append, List.length_cons] at hlength
      rw [hrestEq] at hlength
      omega

theorem Records.nodup (h : Records old next record rs) : rs.Nodup := by
  induction h with
  | done => exact List.nodup_nil
  | link hgoes hrest ih =>
      exact List.nodup_cons.mpr ⟨(Records.link hgoes hrest).not_mem_rest, ih⟩

theorem Records.mem_Ico {f : Nat} (h : Records old next record rs) (hrecord : record < Size.limit)
    (hnext : ∀ a, next a < Size.limit) (hf : f ∈ rs) : f ∈ Finset.Ico 1 Size.limit := by
  induction h with
  | done => cases hf
  | link hgoes _ ih =>
      rcases List.mem_cons.mp hf with rfl | hmem
      · exact Finset.mem_Ico.mpr ⟨Nat.pos_of_ne_zero fun hzero => hgoes (.inl hzero), hrecord⟩
      · exact ih (hnext _) hmem

/-- There are no more records than addresses. -/
theorem Records.length_lt (h : Records old next record rs) (hnext : ∀ a, next a < Size.limit) :
    rs.length < maxSteps := by
  cases h with
  | done => exact Nat.succ_pos _
  | @link record rest hgoes hrest =>
      refine Nat.succ_lt_succ (Nat.lt_of_le_of_lt ?_ (Nat.sub_lt (by decide) Nat.one_pos))
      calc rest.length = rest.toFinset.card := (List.toFinset_card_of_nodup hrest.nodup).symm
        _ ≤ (Finset.Ico 1 Size.limit).card := Finset.card_le_card fun f hf =>
            hrest.mem_Ico (hnext record) hnext (List.mem_toFinset.mp hf)
        _ = Size.limit - 1 := Nat.card_Ico 1 Size.limit

variable {m : Memory} {steps : Nat}

theorem run_of_ends (hends : Ends old record) :
    run (.between old new) old new (steps + 1) record m = .ok m := by
  rw [run]
  rcases hends with hzero | htop
  · rw [if_pos hzero]
    rfl
  · split
    · rfl
    · have htop : (Relocation.between old new).inOld record = true ∧
          record + topRecordWords * wordBytes = (Relocation.between old new).oldHigh := htop
      rw [if_pos htop]
      rfl

/-- Memory is the same, but for the new segment and a record outside of the old one. -/
def Kept (old new : Segment) (record : Nat) (m m' : Memory) : Prop :=
  ∀ a, new.contains a = false → (a = record → old.contains a = true) → m'.read a = m.read a

/-- The new segment is as deep as the old one, whose records are on the word grid. -/
def Fitting (old new : Segment) (rs : List Nat) : Prop :=
  old.high - old.base ≤ new.high - new.base ∧
    ∀ f ∈ rs, old.contains f = true → f % wordBytes = 0

theorem depth_of_inOld {a : Nat} (hin : (Relocation.between old new).inOld a = true)
    (hdeep : old.high - old.base ≤ new.high - new.base) :
    a ≤ (Relocation.between old new).oldHigh ∧
      (Relocation.between old new).oldHigh - a ≤ (Relocation.between old new).newHigh := by
  obtain ⟨hbase, hhigh⟩ := Segment.contains_eq_true_iff.mp hin
  simp only [Relocation.between]
  omega

theorem isWord_target {a : Nat} (hold : old.Formed) (hnew : new.Formed)
    (hin : (Relocation.between old new).inOld a = true)
    (hdeep : old.high - old.base ≤ new.high - new.base) (haligned : a % wordBytes = 0) :
    new.IsWord ((Relocation.between old new).target a) := by
  obtain ⟨hbase, hhigh⟩ := Segment.contains_eq_true_iff.mp hin
  have holdAligned := hold.high_aligned
  have hnewAligned := hnew.high_aligned
  simp only [Segment.IsWord, Relocation.target, Relocation.between, wordBytes] at *
  omega

/-- A link into the old segment is written anew, for a record in the old one where the record is in
the new one. -/
def relink (r : Relocation) (new : Segment) (record link : Nat) (m : Memory) :
    Except Abort Memory := do
  if r.inOld link then
    let moved ← r.newAddress link
    if r.inOld record then
      new.write m (← r.newAddress record) (Word.ofNat moved)
    else
      return m.write record (Word.ofNat moved)
  else
    return m

/-- What a turn of the walk does at a record. -/
def turn (r : Relocation) (old new : Segment) (record : Nat) (m : Memory) :
    Except Abort Memory := do
  let saved ← if r.inOld record then old.read m record else pure (m.read record)
  relink r new record saved.toNat m

theorem run_succ (hgoes : ¬ Ends old record) :
    run (.between old new) old new (steps + 1) record m =
      turn (.between old new) old new record m >>=
        run (.between old new) old new steps (m.linkAt record) := by
  obtain ⟨hzero, htop⟩ := not_or.mp hgoes
  have htop : ¬ ((Relocation.between old new).inOld record = true ∧
      record + topRecordWords * wordBytes = (Relocation.between old new).oldHigh) := htop
  rw [run, if_neg hzero, if_neg htop]
  unfold turn relink
  cases (Relocation.between old new).inOld record with
  | true =>
      simp only [if_true]
      generalize hread : old.read m record = saved
      cases saved with
      | error => rfl
      | ok word =>
          obtain ⟨rfl, -⟩ := Segment.checked_read.of_eq_ok hread
          simp only [Run.ok_bind]
          split
          · simp only [bind_assoc]
            rfl
          · rfl
  | false =>
      simp only [Bool.false_eq_true, if_false, pure_bind]
      split
      · simp only [bind_assoc, pure_bind]
        rfl
      · rfl

/-- Memory after the link of a record was brought up to date. -/
def relinked (r : Relocation) (record link : Nat) (m : Memory) : Memory :=
  if r.inOld link then m.write (r.place record) (Word.ofNat (r.target link)) else m

theorem checked_relink {link : Nat} (hold : old.Formed) (hnew : new.Formed) :
    Run.Checked (Fitting old new [record])
      (fun m' => m' = relinked (.between old new) record link m ∧
        (old.contains link = true → old.contains record = true →
          new.contains ((Relocation.between old new).place record) = true))
      (relink (.between old new) new record link m) := by
  unfold relink relinked
  split
  · rename_i hlink
    refine (Relocation.checked_newAddress.of_imp fun hfits =>
      depth_of_inOld hlink hfits.1).bind ?_
    rintro _ rfl
    rw [Relocation.place]
    split
    · rename_i hin
      refine (Relocation.checked_newAddress.of_imp fun hfits =>
        depth_of_inOld hin hfits.1).bind ?_
      rintro _ rfl
      refine (Segment.checked_write.of_imp fun hfits => ?_).mono ?_
      · exact isWord_target hold hnew hin hfits.1 (hfits.2 record List.mem_cons_self hin)
      · rintro _ ⟨rfl, hwritten⟩
        exact ⟨rfl, fun _ _ => hwritten.contains⟩
    · rename_i hout
      exact .answer ⟨rfl, fun _ hin => absurd hin hout⟩
  · rename_i hlink
    exact .answer ⟨rfl, fun hin => absurd hin hlink⟩

theorem checked_turn (hold : old.Formed) (hnew : new.Formed) :
    Run.Checked (Fitting old new [record])
      (fun m' => m' = relinked (.between old new) record (m.linkAt record) m ∧
        (old.contains (m.linkAt record) = true → old.contains record = true →
          new.contains ((Relocation.between old new).place record) = true))
      (turn (.between old new) old new record m) := by
  unfold turn
  split
  · rename_i hin
    obtain ⟨hbase, hhigh⟩ := Segment.contains_eq_true_iff.mp hin
    refine (Segment.checked_read.of_imp fun hfits => ?_).bind ?_
    · exact ⟨hbase, hhigh, hfits.2 record List.mem_cons_self hin⟩
    · rintro _ ⟨rfl, -⟩
      exact checked_relink hold hnew
  · exact checked_relink hold hnew

theorem kept_relinked {link : Nat}
    (hwritten : old.contains link = true → old.contains record = true →
      new.contains ((Relocation.between old new).place record) = true) :
    Kept old new record m (relinked (.between old new) record link m) := by
  intro a ha hrecord
  unfold relinked
  split
  · rename_i hlink
    refine Memory.read_write_of_ne _ _ ?_
    rintro rfl
    cases hin : old.contains record with
    | true => exact Bool.false_ne_true (ha.symm.trans (hwritten hlink hin))
    | false =>
        have hplace : (Relocation.between old new).place record = record :=
          Relocation.place_of_not_contains hin
        have hsame := hrecord hplace
        rw [hplace, hin] at hsame
        exact Bool.false_ne_true hsame
  · rfl

/-- The walk ends, and writes on the new segment and on records outside of the old one. -/
theorem checked_run (hold : old.Formed) (hnew : new.Formed) (hrecords : Records old next record rs)
    (hsteps : rs.length < steps) (hsame : ∀ f ∈ rs, m.linkAt f = next f)
    (hapart : ∀ f ∈ rs, new.contains f = false) :
    Run.Checked (Fitting old new rs)
      (fun m' => ∀ a, new.contains a = false → (a ∈ rs → old.contains a = true) →
        m'.read a = m.read a) (run (.between old new) old new steps record m) := by
  induction hrecords generalizing steps m with
  | done hends =>
      obtain ⟨steps, rfl⟩ := Nat.exists_eq_succ_of_ne_zero (Nat.ne_of_gt hsteps)
      rw [Nat.succ_eq_add_one, run_of_ends hends]
      exact .answer fun _ _ _ => rfl
  | @link record rest hgoes hrest ih =>
      have hfresh := (Records.link hgoes hrest).not_mem_rest
      obtain ⟨steps, rfl⟩ :=
        Nat.exists_eq_succ_of_ne_zero (Nat.ne_of_gt (Nat.zero_lt_of_lt hsteps))
      rw [List.forall_mem_cons] at hsame hapart
      rw [Nat.succ_eq_add_one, run_succ hgoes, hsame.1]
      have hturn : Run.Checked (Fitting old new [record]) (Kept old new record m)
          (turn (.between old new) old new record m) :=
        (checked_turn hold hnew).mono fun m' h => h.1 ▸ kept_relinked h.2
      refine (hturn.of_imp fun hfits => ⟨hfits.1, fun f hf => ?_⟩).bind fun m₁ hkept => ?_
      · exact hfits.2 f (List.mem_singleton.mp hf ▸ List.mem_cons_self)
      have hlater : ∀ f ∈ rest, m₁.linkAt f = next f := by
        intro f hf
        have hne : f ≠ record := fun heq => hfresh (heq ▸ hf)
        rw [← hsame.2 f hf, Memory.linkAt, Memory.linkAt,
          hkept f (hapart.2 f hf) fun heq => absurd heq hne]
      have hwalk := ih (Nat.lt_of_succ_lt_succ hsteps) hlater hapart.2
      refine (hwalk.of_imp fun hfits => ?_).mono fun m' hread a hnew hold => ?_
      · exact ⟨hfits.1, fun f hf => hfits.2 f (List.mem_cons_of_mem record hf)⟩
      · rw [hread a hnew fun hmem => hold (List.mem_cons_of_mem record hmem)]
        exact hkept a hnew fun heq => hold (heq ▸ List.mem_cons_self)

theorem checked_relocate (hold : old.Formed) (hnew : new.Formed)
    (hrecords : Records old m.linkAt record rs) (hapart : ∀ f ∈ rs, new.contains f = false) :
    Run.Checked (Fitting old new rs)
      (fun r => ∀ a, new.contains a = false → (a ∈ rs → old.contains a = true) →
        r.2.read a = m.read a) (relocate (.between old new) old new record m) := by
  have hsteps := hrecords.length_lt fun a => UInt64.toNat_lt (m.read a)
  have hwalk := checked_run hold hnew hrecords hsteps (fun _ _ => rfl) hapart
  unfold relocate
  split
  · rename_i hin
    refine (Relocation.checked_newAddress.of_imp fun hfits =>
      depth_of_inOld hin hfits.1).bind fun _ _ => ?_
    exact hwalk.bind fun m' hread => .answer hread
  · exact hwalk.bind fun m' hread => .answer hread

end BasePointers

namespace TrapWalk

variable {r : Relocation} {new : Segment} {w w' : TrapWalk}

theorem read_of_step (h : w.step r new = .ok w') {a : Nat} (ha : new.contains a = false) :
    w'.memory.read a = w.memory.read a := by
  obtain ⟨rfl, -, hcell⟩ := w.checked_step.of_eq_ok h
  exact read_told (fun hmem => Bool.false_ne_true (ha.symm.trans (hcell a hmem).contains)) _

/-- The walk over the trap frames writes on the new segment. -/
theorem read_of_run {steps : Nat} (h : run r new steps w = .ok w') {a : Nat}
    (ha : new.contains a = false) : w'.memory.read a = w.memory.read a := by
  induction steps generalizing w with
  | zero =>
      rw [run] at h
      split at h <;> cases h
      rfl
  | succ steps ih =>
      rw [run] at h
      split at h
      · obtain ⟨w₁, hstep, hrest⟩ := Run.except_bind_eq_ok_iff.mp h
        rw [ih hrest, read_of_step hstep ha]
      · cases h
        rfl

end TrapWalk

/-- The copying writes on the new segment, and on the parent slot of the old one. -/
theorem Segment.read_copied_outside {m : Memory} {old new : Segment} {outer : Chain} {a : Nat}
    (hnew : new.Formed) (hsp : new.sp + wordBytes * old.usedWords = new.high)
    (hslot : a ≠ old.parentSlot) (ha : ¬ new.Owns a) :
    (copied m old new outer).read a = m.read a := by
  have hne : a ≠ new.parentSlot := by
    rintro rfl
    exact ha (owns_parentSlot hnew)
  rw [copied, read_recordParent hne, read_recordParent hslot]
  refine Memory.read_store_of_not_mem _ _ fun hmem => ha ?_
  obtain ⟨i, hi, rfl⟩ := Memory.mem_span_iff.mp hmem
  rw [liveWords, Memory.length_load] at hi
  refine owns_of_lt_high hnew (Nat.le_add_right _ _) ?_
  simp only [wordBytes] at *
  omega

namespace Domain

/-- The frame records of the running segment come to an end, and those outside of its memory lie
where `p` does not hold. -/
def RecordsAvoid (d : Domain) (m : Memory) (p : Nat → Prop) : Prop :=
  d.framePointers = true → ∀ old outer, d.running = old :: outer →
    ∃ rs, BasePointers.Records old m.linkAt d.framePointer rs ∧
      ∀ f ∈ rs, old.contains f = false → ¬ old.Owns f ∧ ¬ p f

/-- These are the frame records of a domain that runs `old`. Those outside of its memory lie where
`p` does not hold. -/
def Lists (d : Domain) (m : Memory) (p : Nat → Prop) (old : Segment) (rs : List Nat) : Prop :=
  d.framePointers = true → BasePointers.Records old m.linkAt d.framePointer rs ∧
    ∀ f ∈ rs, old.contains f = false → ¬ old.Owns f ∧ ¬ p f

variable {d : Domain} {m m' : Memory} {old new : Segment} {outer : Chain} {p : Nat → Prop}
  {rs : List Nat}

theorem RecordsAvoid.exists_lists (h : d.RecordsAvoid m p) (hrunning : d.running = old :: outer) :
    ∃ rs, d.Lists m p old rs := by
  cases hpointers : d.framePointers with
  | true =>
      obtain ⟨rs, hrecords⟩ := h hpointers old outer hrunning
      exact ⟨rs, fun _ => hrecords⟩
  | false => exact ⟨[], fun h => absurd (hpointers.symm.trans h) Bool.false_ne_true⟩

/-- Records stay where they are while a segment apart from them is written on. -/
theorem Lists.of_confines (h : d.Lists m p old rs) (hm : new.Confines m m')
    (hp : ∀ a, new.Owns a → p a) (hapart : new.Apart old) : d.Lists m' p old rs := by
  intro hpointers
  obtain ⟨hrecords, hout⟩ := h hpointers
  refine ⟨hrecords.congr fun f hf => ?_, hout⟩
  have hfree : ¬ new.Owns f := by
    intro hnew
    cases hin : old.contains f with
    | true => exact hapart f hnew (Segment.owns_of_contains hin)
    | false => exact (hout f hf hin).2 (hp f hnew)
  rw [Memory.linkAt, Memory.linkAt, hm f hfree]

/-- The walk over the frame records ends, and where none of them lies growth leaves memory alone but
for both segments. -/
theorem checked_relocatedRecords {traps : TrapWalk} (hold : old.Formed) (hnew : new.Formed)
    (hsp : new.sp + wordBytes * old.usedWords = new.high) (hapart : new.Apart old)
    (htraps : TrapWalk.relocate (.between old new) new
      (.start (Segment.copied m old new outer) d.exnHandler d.asyncExnHandler) = .ok traps)
    (hlists : d.Lists m p old rs) (hp : ∀ a, new.Owns a → p a) :
    Run.Checked (BasePointers.Fitting old new rs)
      (fun r => ∀ a, p a → ¬ old.Owns a → ¬ new.Owns a → r.2.read a = m.read a)
      (d.relocatedRecords old new traps.memory) := by
  unfold relocatedRecords
  have houtside : ∀ b, ¬ new.Owns b → new.contains b = false := fun b hb =>
    Bool.eq_false_iff.mpr fun hcontains => hb (Segment.owns_of_contains hcontains)
  have htrapped : ∀ b, b ≠ old.parentSlot → ¬ new.Owns b →
      traps.memory.read b = m.read b := fun b hslot hb =>
    (TrapWalk.read_of_run htraps (houtside b hb)).trans
      (Segment.read_copied_outside hnew hsp hslot hb)
  have hslot : ∀ a, ¬ old.Owns a → a ≠ old.parentSlot := by
    rintro a ha rfl
    exact ha (Segment.owns_parentSlot hold)
  cases hpointers : d.framePointers with
  | false =>
      refine .answer fun a _ hold hnew => ?_
      exact htrapped a (hslot a hold) hnew
  | true =>
      rw [if_pos rfl]
      obtain ⟨hchain, hout⟩ := hlists hpointers
      have hfree : ∀ f ∈ rs, f ≠ old.parentSlot ∧ ¬ new.Owns f := by
        intro f hf
        cases hin : old.contains f with
        | true =>
            refine ⟨?_, fun hown => hapart f hown (Segment.owns_of_contains hin)⟩
            rintro rfl
            have hbelow := (Segment.contains_eq_true_iff.mp hin).2
            simp only [Segment.parentSlot] at hbelow
            omega
        | false =>
            obtain ⟨hfold, hfp⟩ := hout f hf hin
            exact ⟨hslot f hfold, fun hown => hfp (hp f hown)⟩
      have hsame : ∀ f ∈ rs, m.linkAt f = traps.memory.linkAt f := fun f hf => by
        rw [Memory.linkAt, Memory.linkAt, htrapped f (hfree f hf).1 (hfree f hf).2]
      refine (BasePointers.checked_relocate hold hnew (hchain.congr hsame)
        fun f hf => houtside f (hfree f hf).2).mono fun r hread a ha hown hnewOwns => ?_
      rw [hread a (houtside a hnewOwns) fun hmem => ?_]
      · exact htrapped a (hslot a hown) hnewOwns
      · cases hin : old.contains a with
        | true => rfl
        | false => exact absurd ha (hout a hmem hin).2

end Domain

end FiberStacks
