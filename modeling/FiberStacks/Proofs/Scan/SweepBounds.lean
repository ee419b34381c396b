import FiberStacks.Proofs.Scan.Confinement
import FiberStacks.Proofs.Scan.Sweep

/-!
# The pass over the local blocks, whatever the arenas hold

The pass checks an offset against the arena before it reads a header there, and it does so at every
header. It does not check that the block ends within the arena, and it overwrites the free part of
an arena before it has checked the offset where this ends. So it stays within the arenas unless it
comes by a block that is too large for its arena, or to an arena at an offset that is none in it.
-/

namespace FiberStacks

namespace Arena

/-- Base and length of the arena are whole words. -/
structure Aligned (a : Arena) : Prop where
  base : a.base % wordBytes = 0
  length : a.length % wordBytes = 0

/-- The offset is above the arena, or so far below it that no address belongs to it. -/
def Misses (a : Arena) (sp : Int) : Prop :=
  0 < sp ∨ (a.base + a.length : Int) + sp < 0

variable {a : Arena} {sp : Int} {address : Nat}

theorem of_addressAt (h : a.addressAt sp = .ok address) :
    a.base + a.length < Size.limit ∧
      (address : Int) = ((a.base + a.length : Nat) + sp) % (Size.limit : Nat) := by
  obtain ⟨upper, hupper, haddress⟩ := Run.except_bind_eq_ok_iff.mp h
  unfold top Size.add at hupper
  split at hupper
  · rename_i hlimit
    cases hupper
    cases haddress
    refine ⟨hlimit, Int.toNat_of_nonneg (Int.emod_nonneg _ ?_)⟩
    rw [Size.limit_eq]
    decide
  · cases hupper

theorem address_eq (h : a.addressAt sp = .ok address) (hsp : sp ≤ 0)
    (hnonneg : 0 ≤ (a.base + a.length : Int) + sp) :
    (address : Int) = a.base + a.length + sp := by
  obtain ⟨hlimit, haddress⟩ := of_addressAt h
  rw [haddress, Int.emod_eq_of_lt (by push_cast; omega) (by push_cast; omega)]
  push_cast
  rfl

end Arena

/-- The address is that of a word in one of the arenas. -/
def Within (arenas : List Arena) (address : Nat) : Prop :=
  address % wordBytes = 0 ∧ ∃ a ∈ arenas, a.Holds address

/-! ### Ways to end -/

namespace Scan

/-- The run ends: it succeeds, or it reports a fault or a violation. -/
def Halts {α : Type} (x : ScanM α) : Prop :=
  ∀ p e q, x p = .error e q → (∃ f, e = .fault f) ∨ ∃ v, e = .violation v

variable {α β : Type} {x : ScanM α}

theorem halts_of_total (h : ∀ p, ∃ a q, x p = .ok a q) : Halts x := by
  intro p e q hrun
  obtain ⟨a, u, hok⟩ := h p
  cases hok.symm.trans hrun

theorem halts_pure (a : α) : Halts (pure a : ScanM α) := halts_of_total fun p => ⟨a, p, rfl⟩

theorem halts_throw (v : Violation) : Halts (throw (.violation v) : ScanM α) := by
  intro p e q hrun
  cases hrun
  exact .inr ⟨v, rfl⟩

theorem Halts.bind {f : α → ScanM β} (hx : Halts x) (hf : ∀ a, Halts (f a)) : Halts (x >>= f) := by
  intro p e q hrun
  cases hfirst : x p with
  | ok a u =>
      rw [Run.bind_of_ok hfirst] at hrun
      exact hf a u e q hrun
  | error e' u =>
      rw [Run.bind_of_error hfirst] at hrun
      cases hrun
      exact hx p e q hfirst

/-- A check that fails, fails with a fault. -/
def OnlyFaults (x : Except Abort α) : Prop := ∀ e, x = .error e → ∃ f, e = .fault f

theorem OnlyFaults.bind {x : Except Abort α} {f : α → Except Abort β} (hx : OnlyFaults x)
    (hf : ∀ a, OnlyFaults (f a)) : OnlyFaults (x >>= f) := by
  intro e h
  cases x with
  | ok a => exact hf a e h
  | error e' =>
      cases h
      exact hx e rfl

theorem faults_ok (a : α) : OnlyFaults (.ok a) := nofun

theorem faults_ite {c : Prop} [Decidable c] {x : Except Abort α} {f : Fault} (hx : OnlyFaults x) :
    OnlyFaults (if c then x else .error (.fault f)) := by
  split
  · exact hx
  · intro e h
    cases h
    exact ⟨f, rfl⟩

theorem halts_lift {x : Except Abort α} (h : OnlyFaults x) : Halts (liftM x : ScanM α) := by
  intro p e q hrun
  cases x with
  | ok a => cases hrun
  | error e' =>
      cases hrun
      exact .inl (h e rfl)

theorem halts_inspect (w : Word) : Halts (inspect w) := by
  have haddress : OnlyFaults w.headerAddress := faults_ite (faults_ok _)
  refine (halts_lift haddress).bind fun a => (halts_of_total fun p => ⟨_, _, rfl⟩).bind fun _ => ?_
  refine (halts_of_total fun p => ⟨_, _, rfl⟩).bind fun p => ?_
  exact halts_lift (haddress.bind fun _ => faults_ok _)

end Scan

namespace Scanner

open Scan

variable {sc : Scanner} {arenas : List Arena}

theorem faults_addressAt (a : Arena) (sp : Int) : OnlyFaults (a.addressAt sp) :=
  OnlyFaults.bind (faults_ite (faults_ok _)) fun _ => faults_ok _

theorem faults_newestContaining (arenas : List Arena) (address n : Nat) :
    OnlyFaults (Arenas.newestContaining arenas address n) := by
  induction n with
  | zero => exact faults_ok _
  | succ n ih =>
      unfold Arenas.newestContaining
      split
      · exact ih
      · refine OnlyFaults.bind ?_ fun contained => ?_
        · unfold Arena.contains
          split
          · exact OnlyFaults.bind (faults_ite (faults_ok _)) fun _ => faults_ok _
          · exact faults_ok _
        · split
          · exact faults_ok _
          · exact ih

theorem halts_classify (sc : Scanner) (slot : Nat) : Halts (sc.classify slot) := by
  have hvisit : ∀ value, Halts (sc.visit value slot) := fun _ =>
    halts_of_total fun p => ⟨_, _, rfl⟩
  have hblock : ∀ value, Halts (enclosing value) := by
    refine fun value => (halts_inspect value).bind fun h => ?_
    split
    · exact (halts_lift (faults_ite (faults_ok _))).bind fun _ => halts_pure _
    · exact halts_pure _
  refine (halts_of_total fun p => ⟨_, _, rfl⟩).bind fun value => ?_
  split
  · exact halts_pure _
  split
  · exact (hvisit value).bind fun _ => halts_pure _
  refine (hblock value).bind fun block => (halts_inspect block).bind fun h => ?_
  split
  · exact halts_pure _
  split
  · split
    · exact halts_pure _
    refine (halts_lift (faults_newestContaining _ _ _)).bind fun index => ?_
    split
    · exact halts_pure _
    · exact (halts_lift (faults_ite (faults_ok _))).bind fun _ =>
        (halts_of_total fun p => ⟨_, _, rfl⟩).bind fun _ => halts_pure _
  · exact (hvisit value).bind fun _ => halts_pure _

theorem halts_sweepFields (sc : Scanner) (arenas : List Arena) (sp : Int) (count slot : Nat) :
    Halts (sc.sweepFields arenas sp count slot) := by
  induction count generalizing slot with
  | zero => exact halts_pure _
  | succ count ih =>
      rw [sweepFields]
      refine (sc.halts_classify slot).bind fun index => ?_
      have hrest : Halts (sc.sweepFields arenas sp count (slot + wordBytes)) := ih _
      split
      · exact hrest
      split
      · exact hrest
      refine (halts_of_total fun p => ⟨_, _, rfl⟩).bind fun p =>
        (halts_lift (faults_ite (faults_ok _))).bind fun top =>
          (halts_lift (faults_ite (faults_ok _))).bind fun target => ?_
      split
      · exact (halts_throw _).bind fun _ => hrest
      · exact hrest

theorem halts_sweepBlock (sc : Scanner) (arenas : List Arena) (sp : Int) (headerAddress : Nat)
    (h : Header) : Halts (sc.sweepBlock arenas sp headerAddress h) := by
  refine (halts_lift (faults_ite (faults_ok _))).bind fun block => ?_
  split
  · split
    · exact halts_of_total fun p => ⟨_, _, rfl⟩
    · exact halts_pure _
  split
  · refine (halts_of_total fun p => ⟨_, _, rfl⟩).bind fun _ => ?_
    split
    · refine Halts.bind ?_ fun start => sc.halts_sweepFields arenas sp _ _
      unfold firstField
      split
      · exact (halts_of_total fun p => ⟨_, _, rfl⟩).bind fun _ => halts_pure _
      · exact halts_pure _
    · exact halts_pure _
  · exact halts_throw _

theorem halts_poisonFree (sc : Scanner) (a : Arena) (sp : Int) : Halts (sc.poisonFree a sp) := by
  unfold poisonFree
  split
  · exact (halts_lift (faults_addressAt a sp)).bind fun _ => halts_of_total fun p => ⟨_, _, rfl⟩
  · exact halts_pure _

theorem sweep_of_found {index : Nat} {sp : Int} {a : Arena} (hbelow : ¬ 0 ≤ sp)
    (ha : arenas[index]? = some a) :
    sc.sweep arenas index sp = (do
      let reach ← Offset.add (Offset.ofSize a.length) sp
      if reach < 0 then
        throw (.violation (.corruptLocalArena sp))
      else
        let address ← a.addressAt sp
        let w ← steer address
        sc.sweepAt arenas index sp address (Header.ofWord w)) := by
  rw [sweep, if_neg hbelow, ha]
  rfl

theorem halts_sweep (sc : Scanner) (arenas : List Arena) (index : Nat) (sp : Int) :
    Halts (sc.sweep arenas index sp) := by
  induction index, sp using sweep.induct arenas with
  | case1 index sp hdone =>
      rw [sweep, if_pos hdone]
      exact halts_pure _
  | case2 index sp hbelow hnone =>
      rw [sweep, if_neg hbelow, hnone]
      exact halts_pure _
  | case3 index sp hbelow a ha ihswitch ihblock =>
      rw [sweep_of_found hbelow ha]
      refine (halts_lift (faults_ite (faults_ok _))).bind fun reach => ?_
      split
      · exact halts_throw _
      refine (halts_lift (faults_addressAt a sp)).bind fun address =>
        (halts_of_total fun p => ⟨_, _, rfl⟩).bind fun w => ?_
      unfold sweepAt
      split
      · split
        · exact halts_throw _
        · rename_i hindex
          split
          · exact halts_pure _
          · exact (sc.halts_poisonFree _ sp).bind fun _ => ihswitch hindex
      · exact (sc.halts_sweepBlock arenas sp address _).bind fun _ => ihblock w

/-! ### Accesses -/

/-- What the pass may do to memory: it reads headers and fields and overwrites words, all in the
arenas. It also reads and marks the headers of the blocks that fields refer to. -/
def Confined (arenas : List Arena) : Access → Prop
  | .steer a | .classify a => Within arenas a
  | .poison a count => ∀ address ∈ Memory.span a count, Within arenas address
  | .inspect _ | .mark _ => True
  | .lookup _ _ => False

variable {sp : Int} {a : Arena} {address index : Nat} {h : Header} {p q : Progress}

theorem lift_eq_ok {α : Type} {x : Except Abort α} {b : α}
    (hrun : (liftM x : ScanM α) p = .ok b q) : x = .ok b ∧ q = p := by
  cases x with
  | ok c =>
      cases hrun
      exact ⟨rfl, rfl⟩
  | error e => cases hrun

theorem notes_poison {count : Nat} (hwords : ∀ b ∈ Memory.span address count, Within arenas b) :
    Notes (Confined arenas) (poison address count) p :=
  (notes_note hwords).bind fun _ _ _ => notes_of_accesses_eq rfl

/-- The free part of an arena is in the arena, unless the offset where it ends misses the arena. -/
theorem notes_poisonFree (ha : a ∈ arenas) (haligned : a.Aligned) (hsp : sp % wordBytes = 0)
    (hhits : sc.ctx.poison = true → ¬ a.Misses sp) :
    Notes (Confined arenas) (sc.poisonFree a sp) p := by
  unfold poisonFree
  split
  · rename_i hpoison
    refine Notes.bind (notes_lift _) fun upper q hrun => notes_poison fun address haddress => ?_
    have hhit := hhits hpoison
    unfold Arena.Misses at hhit
    have hupper := Arena.address_eq (lift_eq_ok hrun).1 (by omega) (by omega)
    obtain ⟨hbase, hlength⟩ := haligned
    obtain ⟨i, hi, rfl⟩ := Memory.mem_span_iff.mp haddress
    unfold Size.ceilDiv at hi
    simp only [wordBytes] at *
    have hmod : (a.base + 8 * i) % 8 = 0 := by omega
    exact ⟨hmod, a, ha, by omega, by omega⟩
  · exact notes_of_accesses_eq rfl

theorem notes_sweepFields {count slot : Nat}
    (hslots : ∀ b ∈ Memory.span slot count, Within arenas b) :
    Notes (Confined arenas) (sc.sweepFields arenas sp count slot) p := by
  induction count generalizing slot p with
  | zero => exact notes_of_accesses_eq rfl
  | succ count ih =>
      have hspan : Memory.span slot (count + 1) = slot :: Memory.span (slot + wordBytes) count := by
        rw [Nat.add_comm count, Memory.span_add]
        simp [Memory.span]
      rw [hspan, List.forall_mem_cons] at hslots
      rw [sweepFields]
      refine (sc.notes_classify hslots.1 (fun _ => trivial) fun _ => trivial).bind
        fun found q _ => ?_
      split
      · exact ih hslots.2
      split
      · exact ih hslots.2
      refine (notes_of_accesses_eq rfl).bind fun _ _ _ => (notes_lift _).bind fun _ _ _ =>
        (notes_lift _).bind fun target _ _ => ?_
      split
      · exact (notes_of_accesses_eq rfl).bind fun _ _ _ => ih hslots.2
      · exact ih hslots.2

/-- What is done about a block is done in the arena, if the block ends within it. -/
theorem notes_sweepBlock (ha : a ∈ arenas) (hplace : (address : Int) = a.base + a.length + sp)
    (hword : Within arenas address) (hbase : a.base ≤ address) (hfits : sp + h.blockBytes ≤ 0) :
    Notes (Confined arenas) (sc.sweepBlock arenas sp address h) p := by
  have hfields : ∀ i < h.wosize, Within arenas (address + wordBytes + wordBytes * i) := by
    intro i hi
    obtain ⟨hword, -⟩ := hword
    unfold Header.blockBytes at hfits
    simp only [wordBytes] at *
    have hmod : (address + 8 + 8 * i) % 8 = 0 := by omega
    exact ⟨hmod, a, ha, by omega, by omega⟩
  refine Notes.bind (notes_lift _) fun block q hrun => ?_
  obtain rfl : block = address + wordBytes := Size.eq_of_add_eq_ok (lift_eq_ok hrun).1
  split
  · split
    · refine notes_poison fun b hb => ?_
      obtain ⟨i, hi, rfl⟩ := Memory.mem_span_iff.mp hb
      exact hfields i hi
    · exact notes_of_accesses_eq rfl
  split
  · refine Notes.bind (notes_mark (fun _ => trivial) _ _) fun _ q _ => ?_
    split
    · refine Notes.bind ?_ fun start q _ => notes_sweepFields fun b hb => ?_
      · unfold firstField
        split
        · rename_i hclosure
          refine (notes_steer ?_).bind fun _ _ _ => notes_of_accesses_eq rfl
          exact hfields 1 hclosure.2
        · exact notes_of_accesses_eq rfl
      · obtain ⟨i, hi, rfl⟩ := Memory.mem_span_iff.mp hb
        have hfield := hfields (start + i) (by omega)
        rwa [Nat.mul_add, ← Nat.add_assoc, Nat.mul_comm wordBytes start] at hfield
    · exact notes_of_accesses_eq rfl
  · exact notes_of_accesses_eq rfl

/-! ### The course of the pass -/

/-- At the offset in the arena with the index, the pass reads the header `h`, which is at
`address`. -/
structure Finds (arenas : List Arena) (index : Nat) (sp : Int) (p : Progress) (a : Arena)
    (address : Nat) (h : Header) : Prop where
  below : sp < 0
  found : arenas[index]? = some a
  reach : 0 ≤ Offset.ofSize a.length + sp
  place : a.addressAt sp = .ok address
  header : Header.ofWord (p.memory.read address) = h

theorem finds_of_reach {reach : Int} (hbelow : sp < 0) (ha : arenas[index]? = some a)
    (hsum : Offset.add (Offset.ofSize a.length) sp = .ok reach) (hreach : ¬ reach < 0)
    (hplace : a.addressAt sp = .ok address) :
    Finds arenas index sp p a address (Header.ofWord (p.memory.read address)) := by
  unfold Offset.add at hsum
  split at hsum
  · cases hsum
    exact ⟨hbelow, ha, Int.not_lt.mp hreach, hplace, rfl⟩
  · cases hsum

theorem Finds.place_eq (hfinds : Finds arenas index sp p a address h) :
    (address : Int) = a.base + a.length + sp ∧ a.base ≤ address := by
  have hreach := hfinds.reach
  have hle := Offset.ofSize_le a.length
  have hplace := Arena.address_eq hfinds.place (Int.le_of_lt hfinds.below) (by omega)
  omega

theorem Finds.unique {a' : Arena} {address' : Nat} {h' : Header}
    (hfinds : Finds arenas index sp p a address h)
    (hfinds' : Finds arenas index sp p a' address' h') :
    address' = address ∧ h' = h := by
  obtain rfl : a = a' := Option.some.inj (hfinds.found.symm.trans hfinds'.found)
  obtain rfl : address = address' := Except.ok.inj (hfinds.place.symm.trans hfinds'.place)
  exact ⟨rfl, hfinds'.header.symm.trans hfinds.header⟩

theorem Finds.within (hfinds : Finds arenas index sp p a address h) (haligned : a.Aligned)
    (hsp : sp % wordBytes = 0) : Within arenas address := by
  obtain ⟨hplace, hbase⟩ := hfinds.place_eq
  obtain ⟨hbasemod, hlength⟩ := haligned
  have hbelow := hfinds.below
  simp only [wordBytes] at *
  have hmod : address % 8 = 0 := by omega
  exact ⟨hmod, a, List.mem_of_getElem? hfinds.found, hbase, by omega⟩

/-- One turn of the pass, from an arena, offset and state to the next. -/
inductive SweepTurn (sc : Scanner) (arenas : List Arena) :
    Nat → Int → Progress → Nat → Int → Progress → Prop
  | switch {index : Nat} {sp : Int} {a older : Arena} {address : Nat} {h : Header} {p u : Progress}
      (finds : Finds arenas (index + 1) sp p a address h) (switches : h.isLocalSwitch = true)
      (before : arenas[index]? = some older)
      (freed : sc.poisonFree older sp (p.logging [.steer address]) = .ok () u) :
      SweepTurn sc arenas (index + 1) sp p index sp u
  | block {index : Nat} {sp : Int} {a : Arena} {address : Nat} {h : Header} {p u : Progress}
      (finds : Finds arenas index sp p a address h) (ordinary : h.isLocalSwitch = false)
      (swept : sc.sweepBlock arenas sp address h (p.logging [.steer address]) = .ok () u) :
      SweepTurn sc arenas index sp p index (sp + h.blockBytes) u

/-- Turns of the pass, one after the other. -/
inductive SweepTurns (sc : Scanner) (arenas : List Arena) :
    Nat → Int → Progress → Nat → Int → Progress → Prop
  | here {index : Nat} {sp : Int} {p : Progress} : SweepTurns sc arenas index sp p index sp p
  | turn {index index' last : Nat} {sp sp' spLast : Int} {p u q : Progress}
      (first : SweepTurn sc arenas index sp p index' sp' u)
      (rest : SweepTurns sc arenas index' sp' u last spLast q) :
      SweepTurns sc arenas index sp p last spLast q

/-- The pass goes on from the header that it has found. -/
theorem Finds.sweep_eq (hfinds : Finds arenas index sp p a address h) :
    sc.sweep arenas index sp p =
      sc.sweepAt arenas index sp address h (p.logging [.steer address]) := by
  have hbelow := hfinds.below
  have hreach := hfinds.reach
  have hsum : Offset.add (Offset.ofSize a.length) sp = .ok (Offset.ofSize a.length + sp) := by
    have hle : Offset.ofSize a.length < Offset.limit := by
      unfold Offset.ofSize Offset.limit
      rw [Size.limit_eq]
      split <;> omega
    rw [Offset.add, if_pos ⟨by unfold Offset.limit; omega, by omega⟩]
  rw [sweep_of_found (by omega) hfinds.found, Run.bind_of_ok (lift_run hsum p),
    if_neg (by omega), Run.bind_of_ok (lift_run hfinds.place p), Run.bind_of_ok (steer_run _ _),
    hfinds.header]

theorem SweepTurn.sweep_eq {index' : Nat} {sp' : Int}
    (hturn : SweepTurn sc arenas index sp p index' sp' q) :
    sc.sweep arenas index sp p = sc.sweep arenas index' sp' q := by
  cases hturn with
  | switch finds switches before freed =>
      rw [finds.sweep_eq, sweepAt, if_pos switches, if_neg (Nat.succ_ne_zero _),
        Nat.add_sub_cancel, before]
      exact Run.bind_of_ok freed _
  | block finds ordinary swept =>
      rw [finds.sweep_eq, sweepAt, if_neg (by simp [ordinary])]
      exact Run.bind_of_ok swept _

theorem SweepTurns.sweep_eq {last : Nat} {spLast : Int}
    (hturns : SweepTurns sc arenas index sp p last spLast q) :
    sc.sweep arenas index sp p = sc.sweep arenas last spLast q := by
  induction hturns with
  | here => rfl
  | turn first _ ih => exact first.sweep_eq.trans ih

/-- The pass comes to what it does not check. -/
inductive Strays (sc : Scanner) (arenas : List Arena) (index : Nat) (sp : Int) (p : Progress) : Prop
  /-- The block does not end within its arena. -/
  | overruns {a : Arena} {address : Nat} {h : Header} (finds : Finds arenas index sp p a address h)
      (ordinary : h.isLocalSwitch = false) (beyond : 0 < sp + h.blockBytes)
  /-- The free part of the arena before is to be overwritten, up to an offset that misses it. -/
  | misses {a older : Arena} {address : Nat} {h : Header}
      (finds : Finds arenas index sp p a address h) (switches : h.isLocalSwitch = true)
      (positive : 0 < index) (before : arenas[index - 1]? = some older)
      (poisons : sc.ctx.poison = true) (missed : older.Misses sp)

theorem notes_sweep (haligned : ∀ a ∈ arenas, a.Aligned) (hsp : sp % wordBytes = 0)
    (hstray : ∀ index' sp' q, SweepTurns sc arenas index sp p index' sp' q →
      ¬ Strays sc arenas index' sp' q) :
    Notes (Confined arenas) (sc.sweep arenas index sp) p := by
  -- A turn that is taken carries `hstray` on: what strays later strays in the course from here.
  induction index, sp using sweep.induct arenas generalizing p with
  | case1 index sp hdone =>
      rw [sweep, if_pos hdone]
      exact notes_of_accesses_eq rfl
  | case2 index sp hbelow hnone =>
      rw [sweep, if_neg hbelow, hnone]
      exact notes_of_accesses_eq rfl
  | case3 index sp hbelow a ha ihswitch ihblock =>
      have hmem := List.mem_of_getElem? ha
      rw [sweep_of_found hbelow ha]
      refine Notes.bind (notes_lift _) fun reach u hrun => ?_
      obtain ⟨hsum, rfl⟩ := lift_eq_ok hrun
      split
      · exact notes_of_accesses_eq rfl
      rename_i hreach
      refine Notes.bind (notes_lift _) fun address v hrun => ?_
      obtain ⟨hplace, rfl⟩ := lift_eq_ok hrun
      have hfinds := finds_of_reach (p := v) (Int.not_le.mp hbelow) ha hsum hreach hplace
      obtain ⟨hat, hbase⟩ := hfinds.place_eq
      have hword := hfinds.within (haligned a hmem) hsp
      refine Notes.bind (notes_steer hword) fun w u hrun => ?_
      cases hrun
      unfold sweepAt
      split
      · rename_i hswitch
        split
        · exact notes_of_accesses_eq rfl
        rename_i hindex
        split
        · exact notes_of_accesses_eq rfl
        rename_i older holder
        have hmemOlder := List.mem_of_getElem? holder
        refine Notes.bind (notes_poisonFree hmemOlder (haligned older hmemOlder) hsp
          fun hpoison hmiss => hstray _ _ _ .here
            (.misses hfinds hswitch (Nat.pos_of_ne_zero hindex) holder hpoison hmiss))
          fun _ u hfreed => ihswitch hindex hsp fun index' sp' q hturns => ?_
        obtain ⟨k, rfl⟩ := Nat.exists_eq_succ_of_ne_zero hindex
        exact hstray _ _ _ (.turn (.switch hfinds hswitch holder hfreed) hturns)
      · rename_i hordinary
        have hfits : sp + (Header.ofWord (v.memory.read address)).blockBytes ≤ 0 := by
          by_contra hbeyond
          exact hstray _ _ _ .here
            (.overruns hfinds (Bool.not_eq_true _ ▸ hordinary) (Int.not_le.mp hbeyond))
        refine Notes.bind (notes_sweepBlock hmem hat hword hbase hfits) fun _ u hswept =>
          ihblock _ ?_ fun index' sp' q hturns => ?_
        · unfold Header.blockBytes
          simp only [wordBytes] at hsp ⊢
          omega
        · exact hstray _ _ _
            (.turn (.block hfinds (Bool.not_eq_true _ ▸ hordinary) hswept) hturns)

/-- A pass that starts in state `p` comes to the offset in the arena with the index, in state
`q`. -/
def ComesTo (sc : Scanner) (v : Arenas) (p : Progress) (index : Nat) (sp : Int) (q : Progress) :
    Prop :=
  ∃ newest u, v.arenas.getLast? = some newest ∧ sc.poisonFree newest v.savedSp p = .ok () u ∧
    SweepTurns sc v.arenas (v.arenas.length - 1) v.savedSp u index sp q

theorem ComesTo.sweepLocals_eq {v : Arenas} (hcomes : ComesTo sc v p index sp q)
    (hnative : sc.ctx.mode = .native) (hlocals : sc.locals = some v) :
    sc.sweepLocals p = sc.sweep v.arenas index sp q := by
  obtain ⟨newest, u, hnewest, hfreed, hturns⟩ := hcomes
  unfold sweepLocals
  rw [hlocals, hnative]
  simp only
  rw [hnewest]
  exact (Run.bind_of_ok hfreed _).trans hturns.sweep_eq

/-- Whatever the arenas hold, the pass over them comes to an end. It stays within the arenas, unless
the offset that it starts at misses the newest arena, or it comes to a block that does not end
within its arena, or to an arena that its offset misses. -/
theorem sweepLocals_confined {v : Arenas} (hnative : sc.ctx.mode = .native)
    (hlocals : sc.locals = some v) (haligned : ∀ a ∈ v.arenas, a.Aligned)
    (hsp : v.savedSp % wordBytes = 0) (p : Progress) :
    Halts sc.sweepLocals ∧
      (Notes (Confined v.arenas) sc.sweepLocals p ∨
        (∃ newest, v.arenas.getLast? = some newest ∧ sc.ctx.poison = true ∧
          newest.Misses v.savedSp) ∨
        ∃ index sp q, ComesTo sc v p index sp q ∧ Strays sc v.arenas index sp q) := by
  unfold sweepLocals
  rw [hlocals, hnative]
  simp only
  cases hnewest : v.arenas.getLast? with
  | none => exact ⟨halts_pure _, .inl (notes_of_accesses_eq rfl)⟩
  | some newest =>
      have hmem := List.mem_of_getLast? hnewest
      refine ⟨(sc.halts_poisonFree newest _).bind fun _ => sc.halts_sweep _ _ _, ?_⟩
      by_contra hleaves
      simp only [not_or] at hleaves
      obtain ⟨hnotes, hstart, hcourse⟩ := hleaves
      refine hnotes (Notes.bind (notes_poisonFree hmem (haligned newest hmem) hsp
        fun hpoison hmiss => hstart ⟨newest, rfl, hpoison, hmiss⟩) fun _ u hfreed => ?_)
      exact notes_sweep haligned hsp fun index sp q hturns hstrays =>
        hcourse ⟨index, sp, q, ⟨newest, u, hnewest, hfreed, hturns⟩, hstrays⟩

end Scanner

/-! ### A block that is too large

One arena, with one block in its last two words. -/

namespace CorruptArena

open Scanner (Confined Finds)

def arena : Arena := ⟨0x10000000, 0x1000⟩

def view : Arenas := ⟨[arena], -16⟩

def scanner : Scanner := ⟨ScanContext.native noFrames, Visitor.observe, .empty, some view⟩

theorem misses_not : ¬ arena.Misses view.savedSp := by
  unfold Arena.Misses
  decide

/-- The header of the block is `h`. -/
def holding (h : Header) : Progress := .start (Memory.blank.write 0x10000ff0 h.toWord)

theorem aligned : ∀ a ∈ view.arenas, a.Aligned := by
  intro a ha
  obtain rfl : a = arena := List.mem_singleton.mp ha
  exact ⟨by decide, by decide⟩

/-- The state when the words from the address were overwritten. -/
def overwritten (p : Progress) (address words : Nat) : Progress :=
  { p with
    memory := p.memory.fill address words Word.deadLocal
    accesses := .poison address words :: p.accesses }

theorem poison_eq (p : Progress) (address words : Nat) :
    Scan.poison address words p = .ok () (overwritten p address words) := rfl

theorem read_overwritten {p : Progress} {address words b : Nat}
    (h : b ∉ Memory.span address words) :
    (overwritten p address words).memory.read b = p.memory.read b :=
  Memory.read_fill_of_not_mem _ _ h

/-- The state when the free part of the arena was overwritten. -/
def freed (h : Header) : Progress := overwritten (holding h) 0x10000000 510

theorem addressAt_eq : arena.addressAt (-16) = .ok 0x10000ff0 := by decide

theorem poisonFree_run (h : Header) :
    scanner.poisonFree arena (-16) (holding h) = .ok () (freed h) := by
  have hwords : Size.ceilDiv (0x10000ff0 - arena.base) wordBytes = 510 := by decide
  rw [Scanner.poisonFree, if_pos (by decide), Run.bind_of_ok (Scan.lift_run addressAt_eq _), hwords]
  exact poison_eq _ _ _

theorem read_freed (h : Header) : (freed h).memory.read 0x10000ff0 = h.toWord := by
  have hfree : 0x10000ff0 ∉ Memory.span 0x10000000 510 := by
    rw [Memory.mem_span_iff]
    rintro ⟨i, hi, haddress⟩
    simp only [wordBytes] at haddress
    omega
  calc (freed h).memory.read 0x10000ff0
    _ = (holding h).memory.read 0x10000ff0 := read_overwritten hfree
    _ = h.toWord := Memory.read_write_same _ _ _

theorem finds {h : Header} (hheader : Header.ofWord h.toWord = h) :
    Finds view.arenas 0 (-16) (freed h) arena 0x10000ff0 h := by
  refine ⟨by decide, rfl, by decide, addressAt_eq, ?_⟩
  rw [read_freed, hheader]

theorem sweepLocals_eq {h : Header} (hheader : Header.ofWord h.toWord = h) :
    scanner.sweepLocals (holding h) =
      scanner.sweepAt view.arenas 0 (-16) 0x10000ff0 h
        ((freed h).logging [.steer 0x10000ff0]) := by
  have hcomes : Scanner.ComesTo scanner view (holding h) 0 (-16) (freed h) :=
    ⟨arena, freed h, rfl, poisonFree_run h, .here⟩
  exact (hcomes.sweepLocals_eq rfl rfl).trans (finds hheader).sweep_eq

theorem ofWord_small : Header.ofWord (Header.mk 1 1 0).toWord = ⟨1, 1, 0⟩ := by decide

theorem sweepBlock_small (p : Progress) :
    scanner.sweepBlock view.arenas (-16) 0x10000ff0 ⟨1, 1, 0⟩ p =
      .error (.violation (.corruptLocalArena (-16))) p := rfl

theorem not_strays {index : Nat} {sp : Int} {q : Progress}
    (hcomes : Scanner.ComesTo scanner view (holding ⟨1, 1, 0⟩) index sp q) :
    ¬ Scanner.Strays scanner view.arenas index sp q := by
  have hfinds := finds ofWord_small
  obtain ⟨newest, u, hnewest, hfreed, hturns⟩ := hcomes
  obtain rfl : arena = newest := Option.some.inj hnewest
  obtain rfl : freed ⟨1, 1, 0⟩ = u :=
    (EStateM.Result.ok.inj ((poisonFree_run _).symm.trans hfreed)).2
  intro hstrays
  cases hturns with
  | here =>
      cases hstrays with
      | overruns hfinds' _ hbeyond =>
          obtain ⟨rfl, rfl⟩ := hfinds.unique hfinds'
          exact absurd hbeyond (by decide)
      | misses _ _ hpositive => exact absurd hpositive (Nat.lt_irrefl 0)
  | turn hfirst _ =>
      cases hfirst with
      | block hfinds' _ hswept =>
          obtain ⟨rfl, rfl⟩ := hfinds.unique hfinds'
          cases (sweepBlock_small _).symm.trans hswept

/-- The color of the block is neither that of marked nor that of unmarked blocks. The pass reports
it and has done nothing outside of the arena. -/
theorem stays_within :
    Scan.Halts scanner.sweepLocals ∧
      Scan.Notes (Confined view.arenas) scanner.sweepLocals (holding ⟨1, 1, 0⟩) ∧
      Run.cause? scanner.sweepLocals (holding ⟨1, 1, 0⟩) =
        some (.violation (.corruptLocalArena (-16))) := by
  have hnative : scanner.ctx.mode = .native := rfl
  have hlocals : scanner.locals = some view := rfl
  obtain ⟨hhalts, hnotes⟩ :=
    Scanner.sweepLocals_confined hnative hlocals aligned (by decide) (holding ⟨1, 1, 0⟩)
  refine ⟨hhalts, ?_, ?_⟩
  · rcases hnotes with hnotes | ⟨newest, hnewest, -, hmiss⟩ | ⟨index, sp, q, hcomes, hstrays⟩
    · exact hnotes
    · obtain rfl : arena = newest := Option.some.inj hnewest
      exact absurd hmiss misses_not
    · exact absurd hstrays (not_strays hcomes)
  · rw [Run.cause?, sweepLocals_eq ofWord_small, Scanner.sweepAt, if_neg (by decide),
      Run.bind_of_error (sweepBlock_small _)]

/-- The block claims two fields where there is room for one. The pass overwrites both, and ends
well. -/
theorem leaves_arena :
    (∀ a ∈ view.arenas, a.Aligned) ∧ view.savedSp % wordBytes = 0 ∧
      (∃ q, scanner.sweepLocals (holding ⟨2, 3, 0⟩) = .ok () q) ∧
      ¬ Scan.Notes (Confined view.arenas) scanner.sweepLocals (holding ⟨2, 3, 0⟩) := by
  have hheader : Header.ofWord (Header.mk 2 3 0).toWord = ⟨2, 3, 0⟩ := by decide
  have hblock : ∀ p, scanner.sweepBlock view.arenas (-16) 0x10000ff0 ⟨2, 3, 0⟩ p =
      Scan.poison 0x10000ff8 2 p := fun _ => rfl
  have hrun : scanner.sweepLocals (holding ⟨2, 3, 0⟩) =
      .ok () (overwritten ((freed ⟨2, 3, 0⟩).logging [.steer 0x10000ff0]) 0x10000ff8 2) := by
    rw [sweepLocals_eq hheader, Scanner.sweepAt, if_neg (by decide),
      Run.bind_of_ok ((hblock _).trans (poison_eq _ _ _)), Scanner.sweep, if_pos (by decide)]
    rfl
  refine ⟨aligned, by decide, ⟨_, hrun⟩, ?_⟩
  rintro ⟨log, hlog, hallowed⟩
  rw [Run.left_of_ok hrun] at hlog
  have hmem : Access.poison 0x10000ff8 2 ∈ log := by
    have hnone : (holding ⟨2, 3, 0⟩).accesses = [] := rfl
    rw [hnone, List.append_nil] at hlog
    exact hlog ▸ List.mem_cons_self
  obtain ⟨-, a, ha, hholds⟩ := hallowed _ hmem 0x10001000 (by decide)
  obtain rfl : a = arena := List.mem_singleton.mp ha
  revert hholds
  decide

end CorruptArena

end FiberStacks
