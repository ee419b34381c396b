import FiberStacks.Proofs.Holdings.Decomposition

/-!
# No segment is lost or duplicated

Whatever domains and their callers do, each segment memory that was ever obtained is in one place,
and memory that was given up is not seen again. Fibers that draw their numbers have one segment
each, while all main segments share a number.
-/

namespace FiberStacks

namespace FiberId

/-- Different places are of different fibers, or of main ones. -/
def Distinct (ids : List FiberId) : Prop :=
  ids.Pairwise fun a b => a = b → a = main

variable {ids ids' : List FiberId} {id : FiberId}

theorem Distinct.of_perm (h : Distinct ids) (hperm : ids.Perm ids') : Distinct ids' := by
  refine h.perm hperm fun hab heq => ?_
  rw [heq]
  exact hab heq.symm

theorem Distinct.of_append (h : Distinct ids) {removed : List FiberId}
    (hperm : (ids' ++ removed).Perm ids) : Distinct ids' :=
  (h.of_perm hperm.symm).sublist (List.sublist_append_left ids' removed)

theorem Distinct.cons (h : Distinct ids) (hid : id ∈ ids → id = main) : Distinct (id :: ids) := by
  refine List.pairwise_cons.mpr ⟨?_, h⟩
  rintro a ha rfl
  exact hid ha

end FiberId

namespace Holdings

/-- The fibers in use are distinct, and their numbers were drawn. -/
structure Identified (w : Holdings) : Prop where
  distinct : FiberId.Distinct (w.held.map Segment.id)
  drawn : ∀ s ∈ w.held, s.id = .main ∨ s.id.number < w.machine.nextFiber

variable {careful : Prop} {w w' v : Holdings} {op : Operation} {ops ops' : List Operation}

/-- Fibers stay distinct if the numbers that callers make up are those of main segments. -/
theorem Identified.of_decomposes (h : w.Identified) (hop : ∀ id ∈ op.ids, id = .main)
    (hdecomposes : Decomposes careful op w w') : w'.Identified := by
  obtain ⟨added, removed, hmoves, hdraws⟩ := hdecomposes
  have hids := hmoves.ids
  have hnext := hmoves.nextFiber_le
  -- Numbers that were in use before were drawn before.
  have hold : ∀ id ∈ w.held.map Segment.id, id = .main ∨ id.number < w'.machine.nextFiber := by
    intro id hid
    obtain ⟨s, hs, rfl⟩ := List.mem_map.mp hid
    exact (h.drawn s hs).imp_right fun hlt => Nat.lt_of_lt_of_le hlt hnext
  suffices hall : ∃ gone ids, (w'.held.map Segment.id ++ gone).Perm ids ∧ FiberId.Distinct ids ∧
      ∀ id ∈ ids, id = .main ∨ id.number < w'.machine.nextFiber by
    obtain ⟨gone, ids, hperm, hdistinct, hdrawn⟩ := hall
    refine ⟨hdistinct.of_append hperm, fun s hs => hdrawn _ (hperm.mem_iff.mp ?_)⟩
    exact List.mem_append_left _ (List.mem_map_of_mem hs)
  cases hdraws with
  | none => exact ⟨removed, _, hids, h.distinct, hold⟩
  | main =>
      exact ⟨removed, _, hids, h.distinct.cons fun _ => rfl,
        List.forall_mem_cons.mpr ⟨.inl rfl, hold⟩⟩
  | given hmem =>
      have hmain := hop _ hmem
      exact ⟨removed, _, hids, h.distinct.cons fun _ => hmain,
        List.forall_mem_cons.mpr ⟨.inl hmain, hold⟩⟩
  | fresh hlt =>
      refine ⟨removed, _, hids, h.distinct.cons fun hmem => ?_,
        List.forall_mem_cons.mpr ⟨.inr hlt, hold⟩⟩
      obtain ⟨s, hs, heq⟩ := List.mem_map.mp hmem
      rcases h.drawn s hs with hmain | hdrawn
      · exact heq.symm.trans hmain
      · rw [heq] at hdrawn
        exact absurd hdrawn (Nat.lt_irrefl _)
  | renewed hmem =>
      obtain ⟨gone, rest, rfl⟩ := List.append_of_mem hmem
      refine ⟨gone ++ rest, _, ?_, h.distinct, hold⟩
      refine List.Perm.cons_inv (.trans ?_ hids)
      rw [← List.append_assoc, ← List.append_assoc]
      exact List.perm_middle.symm

theorem identified_start (source : AddressSource) : (start source).Identified where
  distinct := List.Pairwise.nil
  drawn := by simp [start, held, running, stored, inHands]

theorem Step.decomposes (hstep : w.Step op w') (haccounted : w.Accounted) :
    Decomposes False op w w' :=
  decomposes_of_step haccounted hstep False.elim

theorem Run.accounted (hrun : Run w ops w') (haccounted : w.Accounted) :
    w'.Accounted ∧ w.released <+: w'.released := by
  induction hrun with
  | nil => exact ⟨haccounted, List.prefix_refl _⟩
  | cons hstep _ ih =>
      obtain ⟨added, removed, hmoves, -⟩ := hstep.decomposes haccounted
      obtain ⟨hafter, hreleased⟩ := haccounted.of_moves hmoves
      obtain ⟨hend, hrest⟩ := ih hafter
      exact ⟨hend, hreleased.trans hrest⟩

theorem Run.identified (hrun : Run w ops w') (haccounted : w.Accounted)
    (hidentified : w.Identified) (hops : ∀ op ∈ ops, ∀ id ∈ op.ids, id = .main) :
    w'.Identified := by
  induction hrun with
  | nil => exact hidentified
  | cons hstep _ ih =>
      obtain ⟨hop, hrest⟩ := List.forall_mem_cons.mp hops
      have hdecomposes := hstep.decomposes haccounted
      have hnext := hidentified.of_decomposes hop hdecomposes
      obtain ⟨added, removed, hmoves, -⟩ := hdecomposes
      exact ih (haccounted.of_moves hmoves).1 hnext hrest

theorem Run.append (hrun : Run w ops w') (hrest : Run w' ops' v) : Run w (ops ++ ops') v := by
  induction hrun with
  | nil => exact hrest
  | cons hstep _ ih => exact .cons hstep (ih hrest)

/-- Each segment memory that was ever obtained is in one place, what was given up stays so, and
fibers that draw their numbers have one segment each. -/
theorem conserved_of_run {source : AddressSource} (hrun : Run (start source) ops v)
    (hrest : Run v ops' w) :
    w.machine.space.segments.Perm
        ((w.running ++ w.stored ++ w.inHands ++ w.pooled ++ w.released).map Segment.footprint) ∧
      ((w.running ++ w.stored ++ w.inHands ++ w.pooled ++ w.released).map
        Segment.footprint).Nodup ∧
      v.released <+: w.released ∧
      ((∀ op ∈ ops ++ ops', ∀ id ∈ op.ids, id = .main) →
        (w.running ++ w.stored ++ w.inHands).Pairwise fun s t => s.id = t.id → s.id = .main) := by
  obtain ⟨hbefore, -⟩ := hrun.accounted (accounted_start source)
  obtain ⟨haccounted, hreleased⟩ := hrest.accounted hbefore
  refine ⟨haccounted.conserved, ?_, hreleased, fun hops => ?_⟩
  · have hhighs := haccounted.separate.nodup_highs
    refine List.Nodup.of_map Footprint.high ?_
    rwa [List.map_map]
  · have hidentified :=
      (hrun.append hrest).identified (accounted_start source) (identified_start source) hops
    exact List.pairwise_map.mp hidentified.distinct

/-! ### A captured fiber that is forgotten -/

namespace Captured

def calls : List Operation :=
  [.createDomain Settings.standard, .startMain 0, .alloc 0 .unit, .runFiber 0 0, .capture 0 1]

theorem starts : ∃ d₀ st₀ d st s d' st',
    Domain.create Settings.standard MachineState.initial = .ok d₀ st₀ ∧
      d₀.startMain st₀ = .ok (.ok (), d) st ∧ d.alloc .unit st = .ok (.ok s, d') st' ∧
      d'.running.length = 1 := by
  have h : Run.answers (Domain.create Settings.standard) .initial (fun d₀ st₀ =>
      Run.succeeds d₀.startMain st₀ fun _ d st =>
      Run.succeeds (d.alloc .unit) st fun _ d' _ => decide (d'.running.length = 1)) = true := by
    decide +kernel
  obtain ⟨d₀, st₀, hcreate, h⟩ := Run.exists_of_answers h
  obtain ⟨_, d, st, hstart, h⟩ := Run.exists_of_succeeds h
  obtain ⟨s, d', st', halloc, h⟩ := Run.exists_of_succeeds h
  exact ⟨d₀, st₀, d, st, s, d', st', hcreate, hstart, halloc, of_decide_eq_true h⟩

/-- The fiber is in the only continuation, which goes away. -/
theorem exists_run : ∃ v w, Run (start .ascending) calls v ∧ Run v [.forget 0] w ∧ v.released = [] ∧
    w.released.length = 1 := by
  obtain ⟨d₀, st₀, d, st, s, d', st', hcreate, hstart, halloc, hlength⟩ := starts
  have hrest : d'.suspended ≠ [] := List.ne_nil_of_length_pos (by simp [hlength])
  have hcut : (d'.run (s :: d'.suspended)).suspended = [] ++ s :: d'.suspended :=
    Domain.suspended_run d' _
  obtain ⟨j, hcapture⟩ := Domain.capture_run hcut rfl hrest
    { st' with memory := s.recordParent st'.memory (Chain.link d'.suspended) }
  have hrunning : d₀.running = [] := by
    cases hcreate
    rfl
  refine ⟨_, _, .cons (.createDomain hcreate) <| .cons (.startMain rfl hstart) <|
    .cons (.alloc rfl halloc) <| .cons (.runFiber rfl rfl (d'.runFiber_run s st')) <|
    .cons (.capture rfl hcapture) .nil, .cons (.forget rfl (Continuation.drop_eq _)) .nil, ?_, ?_⟩
  · change [] ++ d₀.running ++ [] = []
    rw [hrunning]
    rfl
  · change ([] ++ d₀.running ++ [] ++ [s]).length = 1
    rw [hrunning]
    rfl

theorem conserved_of_forget : ∃ v w, Run (start .ascending) calls v ∧ Run v [.forget 0] w ∧
    w.released.length = 1 ∧
    w.machine.space.segments.Perm
      ((w.running ++ w.stored ++ w.inHands ++ w.pooled ++ w.released).map Segment.footprint) ∧
    (w.running ++ w.stored ++ w.inHands).Pairwise fun s t => s.id = t.id → s.id = .main := by
  obtain ⟨v, w, hrun, hrest, -, hlength⟩ := exists_run
  obtain ⟨hconserved, -, -, hdistinct⟩ := conserved_of_run hrun hrest
  exact ⟨v, w, hrun, hrest, hlength, hconserved, hdistinct (by simp [calls, Operation.ids])⟩

end Captured

end Holdings

end FiberStacks
