import FiberStacks.Proofs.Scan.Walked
import FiberStacks.Proofs.Segment

/-!
# Walks over any words

A walk over compiled frames trusts nothing that it finds on the stack. Each turn moves it upwards by
a word at least, and before it reads or hands on a word it has compared the address with the end of
the stack. So whatever the words are, the walk ends after no more turns than there are live words,
it stays within these, and it succeeds only at the end of the stack.

What a walk does is told by its turns. They are related to the walk itself by `Turn.walk_eq`: a walk
goes on after a turn as it would have gone on before.
-/

namespace FiberStacks

/-- Size and stack offsets of the frame are whole words, and small enough to be added to any address
up to `high`. -/
structure FrameDescriptor.Gridded (d : FrameDescriptor) (high : Nat) : Prop where
  size_aligned : d.frameSize % wordBytes = 0
  size_small : high + d.frameSize < Size.limit
  offset_aligned : ∀ offset, .stack offset ∈ d.liveSlots → offset % wordBytes = 0
  offset_small : ∀ offset, .stack offset ∈ d.liveSlots → high + offset < Size.limit

/-! ### What classification notes -/

namespace Scan

/-- Whether the run from `p` succeeds or not, what it notes are accesses of some kind. -/
def Notes {α : Type} (allowed : Access → Prop) (x : ScanM α) (p : Progress) : Prop :=
  ∃ log, (Run.left x p).accesses = log ++ p.accesses ∧ ∀ a ∈ log, allowed a

variable {α β : Type} {allowed : Access → Prop} {p : Progress}

theorem notes_of_accesses_eq {x : ScanM α} (h : (Run.left x p).accesses = p.accesses) :
    Notes allowed x p :=
  ⟨[], h, nofun⟩

theorem notes_lift (x : Except Abort α) : Notes allowed (liftM x : ScanM α) p := by
  apply notes_of_accesses_eq
  cases x <;> rfl

theorem notes_note {a : Access} (ha : allowed a) : Notes allowed (note a) p :=
  ⟨[a], rfl, fun _ hb => List.mem_singleton.mp hb ▸ ha⟩

theorem Notes.mono {allowed' : Access → Prop} {x : ScanM α} (h : Notes allowed x p)
    (himp : ∀ a, allowed a → allowed' a) : Notes allowed' x p := by
  obtain ⟨log, hlog, hallowed⟩ := h
  exact ⟨log, hlog, fun a ha => himp a (hallowed a ha)⟩

theorem Notes.bind {x : ScanM α} {f : α → ScanM β} (hx : Notes allowed x p)
    (hf : ∀ a q, x p = .ok a q → Notes allowed (f a) q) : Notes allowed (x >>= f) p := by
  obtain ⟨first, hfirst, hallowed⟩ := hx
  cases hrun : x p with
  | error e q =>
      rw [Run.left_of_error hrun] at hfirst
      exact ⟨first, by rw [Run.left_of_error (Run.bind_of_error hrun f), hfirst], hallowed⟩
  | ok a q =>
      rw [Run.left_of_ok hrun] at hfirst
      obtain ⟨second, hsecond, hallowed'⟩ := hf a q hrun
      refine ⟨second ++ first, ?_, List.forall_mem_append.mpr ⟨hallowed', hallowed⟩⟩
      rw [Run.left, Run.bind_of_ok hrun, ← Run.left, hsecond, hfirst, List.append_assoc]

theorem Notes.discard {x : ScanM α} (hx : Notes allowed x p) :
    Notes allowed (discard x : ScanM PUnit) p := by
  change Notes allowed ((fun _ => ()) <$> x) p
  rw [← bind_pure_comp]
  exact hx.bind fun _ _ _ => notes_of_accesses_eq rfl

theorem notes_inspect (hallowed : ∀ a, allowed (.inspect a)) (w : Word) :
    Notes allowed (inspect w) p :=
  (notes_lift _).bind fun a _ _ => (notes_note (hallowed a)).bind fun _ _ _ =>
    (notes_of_accesses_eq rfl).bind fun _ _ _ => notes_lift _

theorem notes_steer {a : Nat} (ha : allowed (.steer a)) : Notes allowed (steer a) p :=
  (notes_note ha).bind fun _ _ _ => notes_of_accesses_eq rfl

theorem notes_lookup {sc : Scanner} {returnAddress base : Nat}
    (ha : allowed (.lookup returnAddress base)) :
    Notes allowed (sc.lookup returnAddress base) p :=
  (notes_note ha).bind fun _ _ _ => notes_of_accesses_eq rfl

theorem notes_mark (hallowed : ∀ a, allowed (.mark a)) (address : Nat) (h : Header) :
    Notes allowed (mark address h) p :=
  (notes_note (hallowed address)).bind fun _ _ _ => notes_of_accesses_eq rfl

end Scan

namespace Scanner

open Scan

theorem notes_enclosing {allowed : Access → Prop} {p : Progress}
    (hallowed : ∀ a, allowed (.inspect a)) (w : Word) : Notes allowed (enclosing w) p := by
  refine (notes_inspect hallowed w).bind fun h q _ => ?_
  split
  · exact (notes_lift _).bind fun _ _ _ => notes_of_accesses_eq rfl
  · exact notes_of_accesses_eq rfl

theorem notes_classify {allowed : Access → Prop} {p : Progress} (sc : Scanner) {slot : Nat}
    (hslot : allowed (.classify slot)) (hinspect : ∀ a, allowed (.inspect a))
    (hmark : ∀ a, allowed (.mark a)) : Notes allowed (sc.classify slot) p := by
  have hword : ∀ q, Notes allowed (slotWord slot) q := fun _ =>
    (notes_note hslot).bind fun _ _ _ => notes_of_accesses_eq rfl
  have hvisit : ∀ value q, Notes allowed (sc.visit value slot) q := fun _ _ =>
    notes_of_accesses_eq rfl
  have hnone : ∀ q, Notes allowed (pure none : ScanM (Option Nat)) q := fun _ =>
    notes_of_accesses_eq rfl
  refine (hword p).bind fun value q _ => ?_
  split
  · exact hnone q
  split
  · exact (hvisit value q).bind fun _ _ _ => hnone _
  refine (notes_enclosing hinspect value).bind fun block q _ =>
    (notes_inspect hinspect block).bind fun h q _ => ?_
  split
  · exact hnone q
  split
  · split
    · exact hnone q
    refine (notes_lift _).bind fun index q _ => ?_
    split
    · exact hnone q
    · exact (notes_lift _).bind fun a _ _ => (notes_mark hmark a _).bind fun _ _ _ =>
        notes_of_accesses_eq rfl
  · exact (hvisit value q).bind fun _ _ _ => hnone _

/-! ### How a walk goes on and ends -/

variable {sc : Scanner} {high n : Nat} {position position' : WalkPosition} {p q u : Progress}

/-- The visits to the live locations `ls` come to `l`, which is at `slot`, in state `u`, and hand it
to the classification. -/
structure Comes (sc : Scanner) (high base : Nat) (registers : Option Nat) (ls : List LiveLocation)
    (p : Progress) (l : LiveLocation) (slot : Nat) (u : Progress) : Prop where
  split : ∃ before after, ls = before ++ l :: after ∧
    (forM before (sc.visitLive high base registers) : ScanM Unit) p = .ok ⟨⟩ u
  reach : l.InReach high base registers
  place : l.place? base registers = some slot

/-- In a frame at `position` the walk hands the live location `l`, which is at `slot`, to the
classification, and does so in state `u`. -/
inductive Hands (sc : Scanner) (high : Nat) :
    WalkPosition → Progress → LiveLocation → Nat → Progress → Prop
  | live {sp returnAddress slot : Nat} {registers : Option Nat} {p u : Progress}
      {d : FrameDescriptor} {l : LiveLocation} (found : sc.ctx.frames returnAddress = some d)
      (compiled : d.returnsToNative = false)
      (comes : sc.Comes high sp registers d.liveSlots (p.logging [.lookup returnAddress sp]) l slot
        u) :
      Hands sc high (.frame sp registers returnAddress) p l slot u

/-- How a walk can end in `position` and state `p`: the stack is done with, the walk cannot go on,
or the classification of a live location fails. -/
inductive Stops (sc : Scanner) (high : Nat) :
    WalkPosition → Progress → EStateM.Result Abort Progress Unit → Prop
  | finished {sp : Nat} {registers : Option Nat} {p : Progress} (top : sc.chunkTop high sp = high) :
      Stops sc high (.chunk sp registers) p (.ok () p)
  | unfollowable {position : WalkPosition} {p q : Progress} {e : Abort} (cause : Unfollowable e) :
      Stops sc high position p (.error e q)
  | misread {position : WalkPosition} {p u q : Progress} {l : LiveLocation} {slot : Nat} {e : Abort}
      (hands : Hands sc high position p l slot u) (failed : sc.classify slot u = .error e q) :
      Stops sc high position p (.error e q)

/-- Turns from one position and state to another, with their number. -/
inductive Turns (sc : Scanner) (high : Nat) :
    Nat → WalkPosition → Progress → WalkPosition → Progress → Prop
  | here {position : WalkPosition} {p : Progress} : Turns sc high 0 position p position p
  | turn {n : Nat} {position position' last : WalkPosition} {p p' q : Progress}
      (first : Turn sc high position p position' p') (rest : Turns sc high n position' p' last q) :
      Turns sc high (n + 1) position p last q

theorem Turns.walk_eq {last : WalkPosition} (h : Turns sc high n position p last q) :
    sc.walk high position p = sc.walk high last q := by
  induction h with
  | here => rfl
  | turn first _ ih => exact first.walk_eq.trans ih

/-! ### Visits to live locations -/

section Visits

variable {base slot : Nat} {registers : Option Nat} {ls : List LiveLocation} {l : LiveLocation}
  {e : Abort}

theorem Comes.head (hreach : l.InReach high base registers)
    (hplace : l.place? base registers = some slot) :
    sc.Comes high base registers (l :: ls) p l slot p :=
  ⟨⟨[], ls, rfl, rfl⟩, hreach, hplace⟩

theorem Comes.tail {k : LiveLocation} (h : sc.Comes high base registers ls u l slot q)
    (hk : sc.visitLive high base registers k p = .ok ⟨⟩ u) :
    sc.Comes high base registers (k :: ls) p l slot q := by
  obtain ⟨before, after, rfl, hbefore⟩ := h.split
  exact ⟨⟨k :: before, after, rfl, Run.forM_cons_eq_ok_iff.mpr ⟨u, hk, hbefore⟩⟩, h.reach, h.place⟩

theorem Comes.mem (h : sc.Comes high base registers ls p l slot u) : l ∈ ls := by
  obtain ⟨before, after, rfl, -⟩ := h.split
  simp

/-- The slots that visits classify are those of the locations that they come to. -/
theorem notes_visitLives {allowed : Access → Prop} (hinspect : ∀ a, allowed (.inspect a))
    (hmark : ∀ a, allowed (.mark a))
    (hcomes : ∀ l slot u, sc.Comes high base registers ls p l slot u → allowed (.classify slot)) :
    Notes allowed (forM ls (sc.visitLive high base registers) : ScanM Unit) p := by
  induction ls generalizing p with
  | nil => exact notes_of_accesses_eq rfl
  | cons l ls ih =>
      rw [List.forM_cons]
      refine Notes.bind ?_ fun _ q hrun => ih fun k slot u hk => hcomes k slot u (hk.tail hrun)
      obtain ⟨-, e, hthrow, -⟩ | ⟨slot, hreach, hplace, hvisit⟩ := sc.visitLive_cases l
      · rw [hthrow]
        exact notes_of_accesses_eq rfl
      · rw [hvisit]
        exact (sc.notes_classify (hcomes l slot p (.head hreach hplace)) hinspect hmark).discard

/-- Visits fail at a location that is out of reach, or in the classification of one that they come
to. -/
theorem visitLives_error
    (hsmall : ∀ offset, .stack offset ∈ ls → base + offset < Size.limit)
    (h : (forM ls (sc.visitLive high base registers) : ScanM Unit) p = .error e q) :
    Unfollowable e ∨ ∃ l slot u, sc.Comes high base registers ls p l slot u ∧
      sc.classify slot u = .error e q := by
  induction ls generalizing p with
  | nil => cases h
  | cons l ls ih =>
      rw [List.forM_cons] at h
      cases hrun : sc.visitLive high base registers l p with
      | ok _ u =>
          rw [Run.bind_of_ok hrun] at h
          rcases ih (fun offset hmem => hsmall offset (List.mem_cons_of_mem l hmem)) h with
            hcause | ⟨k, slot, v, hcomes, hfailed⟩
          · exact .inl hcause
          · exact .inr ⟨k, slot, v, hcomes.tail hrun, hfailed⟩
      | error e' u =>
          rw [Run.bind_of_error hrun] at h
          cases h
          obtain ⟨-, e', hthrow, hcause⟩ | ⟨slot, hreach, hplace, hvisit⟩ := sc.visitLive_cases l
          · rw [hthrow] at hrun
            cases hrun
            exact .inl (hcause fun offset hl => hsmall offset (hl ▸ List.mem_cons_self))
          · rw [hvisit] at hrun
            exact .inr ⟨l, slot, p, .head hreach hplace, Run.of_discard_eq_error hrun⟩

end Visits

end Scanner

/-! ### Bounds -/

/-- The address is that of a live word of the segment, or its upper end. -/
structure Segment.InBounds (s : Segment) (a : Nat) : Prop where
  low : s.sp ≤ a
  high : a ≤ s.high
  aligned : a % wordBytes = 0

namespace Segment.InBounds

variable {s : Segment} {a : Nat}

theorem add (h : s.InBounds a) {n : Nat} (hn : n % wordBytes = 0) (hle : a + n ≤ s.high) :
    s.InBounds (a + n) :=
  ⟨Nat.le_add_right_of_le h.low, hle, by rw [Nat.add_mod, h.aligned, hn, wordBytes]⟩

theorem add_word (h : s.InBounds a) (hs : s.Formed) (hlt : a < s.high) :
    s.InBounds (a + wordBytes) := by
  have hend := hs.high_aligned
  have haligned := h.aligned
  apply h.add (Nat.mod_self _)
  simp only [wordBytes] at *
  omega

theorem chunkTop (h : s.InBounds a) (hs : s.Formed) (sc : Scanner) :
    s.InBounds (sc.chunkTop s.high a) := by
  unfold Scanner.chunkTop
  split
  · exact h.add_word hs (by omega)
  · exact h

theorem mem_liveSlots (h : s.InBounds a) (hs : s.Formed) (hlt : a < s.high) : a ∈ s.liveSlots :=
  hs.mem_liveSlots_iff.mpr ⟨h.low, hlt, h.aligned⟩

theorem sub_word_mem (h : s.InBounds a) (hs : s.Formed) (hle : s.sp + wordBytes ≤ a) :
    a - wordBytes ∈ s.liveSlots := by
  obtain ⟨-, hhigh, haligned⟩ := h
  refine hs.mem_liveSlots_iff.mpr ⟨Nat.le_sub_of_add_le hle, ?_, ?_⟩
  · simp only [wordBytes] at *
    omega
  · simp only [wordBytes] at *
    omega

end Segment.InBounds

/-- The slot of the location is a live word of the segment, if it is on the stack. Otherwise it is
in the register save area. -/
def LiveLocation.LiesIn (s : Segment) (registers : Option Nat) (slot : Nat) : LiveLocation → Prop
  | .stack _ => slot ∈ s.liveSlots
  | .register index => ∃ area, registers = some area ∧ slot = area + index * wordBytes

namespace Scanner

variable {sc : Scanner} {s : Segment} {position position' last : WalkPosition} {p p' q u : Progress}
  {n : Nat}

/-- What a walk from `start` may do to memory: it goes by live words of the segment, and classifies
what it hands on. -/
def Permitted (sc : Scanner) (s : Segment) (start : WalkPosition) (p : Progress) : Access → Prop
  | .steer a => a ∈ s.liveSlots
  | .classify slot => ∃ n position q l u, Turns sc s.high n start p position q ∧
      Hands sc s.high position q l slot u ∧ l.LiesIn s position.registers slot
  | .lookup _ _ | .inspect _ | .mark _ => True
  | .poison _ _ => False

theorem Permitted.of_turn (hturn : Turn sc s.high position p position' p') {a : Access}
    (h : Permitted sc s position' p' a) : Permitted sc s position p a := by
  cases a with
  | classify slot =>
      obtain ⟨n, last, q, l, u, hturns, hhands, hlies⟩ := h
      exact ⟨n + 1, last, q, l, u, .turn hturn hturns, hhands, hlies⟩
  | _ => exact h

section

variable (hs : s.Formed) (hgrid : ∀ a d, sc.ctx.frames a = some d → d.Gridded s.high)

include hgrid

/-- Unless the walk ends where it is, it makes a turn. -/
theorem turns_or_stops (hin : s.InBounds position.sp) :
    (∃ position' p', Turn sc s.high position p position' p') ∨
      Stops sc s.high position p (sc.walk s.high position p) := by
  cases position with
  | chunk sp registers =>
      rw [walk]
      by_cases htop : sc.chunkTop s.high sp = s.high
      · rw [if_pos htop]
        exact .inr (.finished htop)
      rw [if_neg htop]
      by_cases hbeyond : s.high < sc.chunkTop s.high sp
      · rw [if_pos hbeyond]
        exact .inr (.unfollowable (.outOfBounds _))
      · exact .inl ⟨_, _, .enter (by omega)⟩
  | frame sp registers returnAddress =>
      rw [walk, Run.bind_of_ok (lookup_run _ _ _)]
      cases hfound : sc.ctx.frames returnAddress with
      | none => exact .inr (.unfollowable (.noDescriptor _))
      | some d =>
          simp only
          cases hnative : d.returnsToNative with
          | true =>
              rw [if_pos rfl]
              by_cases hinside : s.high ≤ sp + chunkHeaderBytes
              · rw [if_pos hinside]
                exact .inr (.unfollowable (.outOfBounds _))
              · exact .inl ⟨_, _, .boundary hfound hnative (by omega)⟩
          | false =>
              have hgridded := hgrid returnAddress d hfound
              have hhigh : sp ≤ s.high := hin.high
              rw [if_neg Bool.false_ne_true, List.forM_eq_forM]
              cases hvisited : (forM d.liveSlots (sc.visitLive s.high sp registers) : ScanM Unit)
                  (p.logging [.lookup returnAddress sp]) with
              | error e q =>
                  rw [Run.bind_of_error hvisited]
                  rcases visitLives_error (fun offset hoffset => Nat.lt_of_le_of_lt
                      (Nat.add_le_add_right hhigh offset) (hgridded.offset_small offset hoffset))
                    hvisited with hcause | ⟨l, slot, u, hcomes, hfailed⟩
                  · exact .inr (.unfollowable hcause)
                  · exact .inr (.misread (.live hfound hnative hcomes) hfailed)
              | ok _ u =>
                  rw [Run.bind_of_ok hvisited]
                  by_cases hpositive : d.frameSize = 0
                  · rw [if_pos hpositive]
                    exact .inr (.unfollowable (.outOfBounds _))
                  have hsized : sp + d.frameSize < Size.limit := by
                    have hsmall := hgridded.size_small
                    omega
                  rw [if_neg hpositive, if_neg (by omega)]
                  by_cases hinside : s.high < sp + d.frameSize
                  · rw [if_pos hinside]
                    exact .inr (.unfollowable (.outOfBounds _))
                  · exact .inl ⟨_, _, .frame hfound hnative hvisited hpositive hsized (by omega)⟩

include hs

/-- A turn goes up by a word at least, and stays in bounds. -/
theorem Turn.rises (h : Turn sc s.high position p position' q) (hin : s.InBounds position.sp) :
    s.InBounds position'.sp ∧ position.sp + wordBytes ≤ position'.sp := by
  cases h with
  | enter below =>
      exact ⟨(hin.chunkTop hs sc).add_word hs below,
        Nat.add_le_add_right (sc.le_chunkTop s.high _) wordBytes⟩
  | @boundary sp _ _ _ _ found native inside =>
      have hheader : s.InBounds (sp + chunkHeaderBytes) := hin.add (by decide) (Nat.le_of_lt inside)
      exact ⟨hheader.add_word hs inside, by simp only [WalkPosition.sp]; omega⟩
  | @frame _ _ _ _ _ d found compiled visited positive sized inside =>
      have haligned := (hgrid _ _ found).size_aligned
      refine ⟨hin.add haligned inside, ?_⟩
      have hword : wordBytes ≤ d.frameSize :=
        Nat.le_of_dvd (Nat.pos_of_ne_zero positive) (Nat.dvd_of_mod_eq_zero haligned)
      exact Nat.add_le_add_left hword _

theorem Turns.rises (h : Turns sc s.high n position p last q) (hin : s.InBounds position.sp) :
    s.InBounds last.sp ∧ position.sp + wordBytes * n ≤ last.sp := by
  induction h with
  | here => exact ⟨hin, Nat.le_refl _⟩
  | turn first _ ih =>
      obtain ⟨hnext, hword⟩ := first.rises hs hgrid hin
      obtain ⟨hlast, hwords⟩ := ih hnext
      exact ⟨hlast, by simp only [wordBytes] at *; omega⟩

theorem Hands.liesIn {l : LiveLocation} {slot : Nat} (h : Hands sc s.high position p l slot u)
    (hin : s.InBounds position.sp) : l.LiesIn s position.registers slot := by
  obtain ⟨found, compiled, comes⟩ := h
  have hplace := comes.place
  cases l with
  | stack offset =>
      cases hplace
      obtain ⟨-, hbelow⟩ := comes.reach
      have haligned := (hgrid _ _ found).offset_aligned offset comes.mem
      exact (hin.add haligned (Nat.le_of_lt hbelow)).mem_liveSlots hs hbelow
  | register index =>
      obtain ⟨area, harea, rfl⟩ := Option.map_eq_some_iff.mp hplace
      exact ⟨area, harea, rfl⟩

theorem exists_turns (hin : s.InBounds position.sp) :
    ∃ n last q, Turns sc s.high n position p last q ∧
      Stops sc s.high last q (sc.walk s.high position p) := by
  -- Every turn goes up, so the distance to the upper end gets smaller.
  induction hsteps : s.high - position.sp using Nat.strongRecOn generalizing position p with
  | ind steps ih =>
      rcases turns_or_stops hgrid (p := p) hin with ⟨position', p', hturn⟩ | hstops
      · obtain ⟨hin', hword⟩ := hturn.rises hs hgrid hin
        have hhigh := hin'.high
        have hfewer : s.high - position'.sp < steps := by
          simp only [wordBytes] at hword
          omega
        obtain ⟨n, last, q, hturns, hstops⟩ := ih _ hfewer hin' rfl
        exact ⟨n + 1, last, q, .turn hturn hturns, hturn.walk_eq ▸ hstops⟩
      · exact ⟨0, position, p, .here, hstops⟩

theorem notes_walk (hin : s.InBounds position.sp) :
    Scan.Notes (Permitted sc s position p) (sc.walk s.high position) p := by
  induction position using walk.induct sc s.high generalizing p with
  | case1 sp registers htop =>
      rw [walk, if_pos htop]
      exact Scan.notes_of_accesses_eq rfl
  | case2 sp registers htop hbeyond =>
      rw [walk, if_neg htop, if_pos hbeyond]
      exact Scan.notes_of_accesses_eq rfl
  | case3 sp registers htop hbeyond ih =>
      have hbelow : sc.chunkTop s.high sp < s.high := by omega
      have hslot : sc.chunkTop s.high sp ∈ s.liveSlots :=
        (hin.chunkTop hs sc).mem_liveSlots hs hbelow
      have hturn : Turn sc s.high (.chunk sp registers) p _ _ := .enter hbelow
      rw [walk, if_neg htop, if_neg hbeyond]
      refine Scan.Notes.bind (Scan.notes_steer hslot) fun w q hrun => ?_
      cases hrun
      exact (ih _ (hturn.rises hs hgrid hin).1).mono fun a => .of_turn hturn
  | case4 sp registers returnAddress ihboundary ihframe =>
      have hsp : s.InBounds sp := hin
      rw [walk]
      refine Scan.Notes.bind (Scan.notes_lookup trivial) fun found q hrun => ?_
      cases hrun
      cases hfound : sc.ctx.frames returnAddress with
      | none => exact Scan.notes_of_accesses_eq rfl
      | some d =>
          simp only
          cases hnative : d.returnsToNative with
          | true =>
              rw [if_pos rfl]
              split
              · exact Scan.notes_of_accesses_eq rfl
              · rename_i hinside
                have hbelow : sp + chunkHeaderBytes < s.high := by omega
                have hslot : sp + chunkHeaderBytes ∈ s.liveSlots :=
                  (hsp.add (by decide) (Nat.le_of_lt hbelow)).mem_liveSlots hs hbelow
                have hturn : Turn sc s.high (.frame sp registers returnAddress) p _ _ :=
                  .boundary hfound hnative hbelow
                refine Scan.Notes.bind (Scan.notes_steer hslot) fun w q hrun => ?_
                cases hrun
                exact (ihboundary hinside _ (hturn.rises hs hgrid hin).1).mono
                  fun a => .of_turn hturn
          | false =>
              rw [if_neg Bool.false_ne_true, List.forM_eq_forM]
              refine Scan.Notes.bind (notes_visitLives (fun _ => trivial) (fun _ => trivial)
                fun l slot u hcomes => ?_) fun _ u hvisited => ?_
              · -- What the visits come to is handed on before the walk has turned.
                have hhands : Hands sc s.high (.frame sp registers returnAddress) p l slot u :=
                  .live hfound hnative hcomes
                exact ⟨0, _, _, l, u, .here, hhands, hhands.liesIn hs hgrid hin⟩
              split
              · exact Scan.notes_of_accesses_eq rfl
              rename_i hpositive
              split
              · exact Scan.notes_of_accesses_eq rfl
              split
              · exact Scan.notes_of_accesses_eq rfl
              rename_i hsized hinside
              have hturn : Turn sc s.high (.frame sp registers returnAddress) p _ _ :=
                .frame hfound hnative hvisited hpositive (by omega) (by omega)
              -- The word below the new position, which the walk reads, is above the old one.
              obtain ⟨hnext, hword⟩ := hturn.rises hs hgrid hin
              have hslot : sp + d.frameSize - wordBytes ∈ s.liveSlots :=
                hnext.sub_word_mem hs (Nat.le_trans (Nat.add_le_add_right hsp.low _) hword)
              refine Scan.Notes.bind (Scan.notes_steer hslot) fun w q hrun => ?_
              cases hrun
              exact (ihframe d hpositive hinside _ hnext).mono fun a => .of_turn hturn

end

/-- Whatever the words of a stack and the register save area are, the walk over it stops after no
more turns than there are live words: at the upper end, where it cannot go on, or where the
classification of a live location fails. It has gone by live words only, and has handed live words
on to the classification, or words of a register save area. -/
theorem scanFrames_confined {sc : Scanner} {s : Segment} (hs : s.Formed)
    (hgrid : ∀ a d, sc.ctx.frames a = some d → d.Gridded s.high) (registers : Option Nat)
    (p : Progress) :
    (∃ n last q, n ≤ s.usedWords ∧ Turns sc s.high n (.chunk s.sp registers) p last q ∧
      Stops sc s.high last q (sc.scanFrames s registers p)) ∧
    Scan.Notes (Permitted sc s (.chunk s.sp registers) p) (sc.scanFrames s registers) p := by
  have hin : s.InBounds (WalkPosition.chunk s.sp registers).sp :=
    ⟨Nat.le_refl _, hs.sp_le_high, hs.sp_aligned⟩
  obtain ⟨n, last, q, hturns, hstops⟩ := exists_turns hs hgrid (p := p) hin
  refine ⟨⟨n, last, q, ?_, hturns, hstops⟩, notes_walk hs hgrid hin⟩
  obtain ⟨hlast, hwords⟩ := hturns.rises hs hgrid hin
  have hbytes : s.sp + wordBytes * s.usedWords = s.high := hs.used_bytes
  have hhigh := hlast.high
  simp only [WalkPosition.sp, wordBytes] at *
  omega

end Scanner

/-! ### A stack of garbage

The first word happens to be a return address, and the frame that it tells of ends in another one.
The frame above that does not fit. -/

namespace GarbageStack

def frames (returnAddress : Nat) : Option FrameDescriptor :=
  if returnAddress = 0x5000 then some (.compiled 16 [.stack 0]) else none

def segment : Segment :=
  { memory := ⟨0x2000, 0x60, 0, .heap⟩, base := 0x2000, high := 0x2040, sp := 0x2020,
    poolClass := none, id := ⟨1⟩, owner := ⟨1⟩, savedExn := 0, magic := segmentMagic }

def scanner : Scanner := ⟨ScanContext.native frames, Visitor.observe, .empty, none⟩

def start : Progress := .start (Memory.blank.store segment.sp [0x5000, 0x17, 0x5000, 0x21])

theorem formed : segment.Formed := by
  constructor <;> decide

theorem gridded (a : Nat) (d : FrameDescriptor) (h : scanner.ctx.frames a = some d) :
    d.Gridded segment.high := by
  obtain rfl : .compiled 16 [.stack 0] = d := by
    change (if a = 0x5000 then some _ else none) = some d at h
    split at h <;> cases h
    rfl
  have hslots : (FrameDescriptor.compiled 16 [.stack 0]).liveSlots = [.stack 0] := by decide
  refine ⟨by decide, by decide, fun offset hoffset => ?_, fun offset hoffset => ?_⟩
  all_goals
    rw [hslots, List.mem_singleton] at hoffset
    cases hoffset
    decide

/-- The walk makes two turns and stops in the last frame. -/
theorem confined_walk :
    (∃ n last q, n ≤ 4 ∧ Scanner.Turns scanner 0x2040 n (.chunk 0x2020 none) start last q ∧
      Scanner.Stops scanner 0x2040 last q (scanner.scanFrames segment none start)) ∧
    Scan.Notes (Scanner.Permitted scanner segment (.chunk 0x2020 none) start)
      (scanner.scanFrames segment none) start ∧
    Run.cause? (scanner.scanFrames segment none) start =
      some (.violation (.frameOutOfBounds 0x2048)) := by
  obtain ⟨hstops, hnotes⟩ := Scanner.scanFrames_confined formed gridded none start
  exact ⟨hstops, hnotes, by decide +kernel⟩

end GarbageStack

end FiberStacks
