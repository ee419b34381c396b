import FiberStacks.Proofs.Continuations.OneShot

/-!
# The fiber that a continuation remembers

A continuation remembers the number of the fiber at the head of the chain that was stored last. No
use of the continuation and no refused chain changes it. But the greatest number stands for "no
chain was ever stored", so a fiber of that number is forgotten as soon as it is stored.
-/

namespace FiberStacks

theorem Continuation.fiberId?_of_fiberOf {k : Continuation} {s : Segment} {outer : Chain}
    (hk : k.fiber = fiberOf (s :: outer)) :
    k.fiberId? = if s.id = ⟨noFiber⟩ then none else some s.id := by
  rw [fiberId?, hk]
  exact if_congr ⟨fun h => congrArg FiberId.mk h, fun h => congrArg FiberId.number h⟩ rfl rfl

namespace Custody

open Continuation (fiberOf noFiber)

variable {w w' : Custody} {j : Nat} {c : Call} {a : Answer} {e : Event} {es : List Event}
  {k : Continuation} {chain : Chain}

/-- The chain that was stored last in a continuation. -/
def lastStored? (j : Nat) (es : List Event) : Option Chain :=
  (es.filterMap fun e => e.stores? j).getLast?

/-- The fiber at the head of the chain that was stored last. -/
def lastFiber? (j : Nat) (es : List Event) : Option FiberId :=
  (lastStored? j es).bind fun chain => chain.head?.map Segment.id

theorem lastStored?_cons (e : Event) (es : List Event) :
    lastStored? j (e :: es) = (lastStored? j es).or (e.stores? j) := by
  unfold lastStored?
  cases hstores : e.stores? j with
  | none => simp [hstores]
  | some chain =>
      simp only [List.filterMap_cons, hstores, List.getLast?_cons]
      cases (es.filterMap fun e => e.stores? j).getLast? <;> rfl

theorem lastStored?_eq_none_iff : lastStored? j es = none ↔ ∀ e ∈ es, e.stores? j = none := by
  rw [lastStored?, List.getLast?_eq_none_iff, List.filterMap_eq_nil_iff]

/-! ### The number after a call -/

/-- The number that a continuation remembers, or that of no fiber if there is no such
continuation. -/
def remembered (w : Custody) (j : Nat) : Nat :=
  (w.continuations[j]?.map Continuation.fiber).getD noFiber

theorem remembered_of_getElem? (hk : w.continuations[j]? = some k) : w.remembered j = k.fiber := by
  rw [remembered, hk]
  rfl

theorem remembered_of_length_le (hj : w.continuations.length ≤ j) : w.remembered j = noFiber := by
  rw [remembered, List.getElem?_eq_none hj]
  rfl

theorem Unchanged.remembered_eq (h : w.Unchanged w') (j : Nat) :
    w'.remembered j = w.remembered j := by
  obtain ⟨journal, rfl⟩ := h
  rfl

/-- A use takes the chain out, and the number stays. -/
theorem Step.remembered_of_used {i : Nat} (hstep : w.Step c a w') (hc : c.used? = some i)
    (j : Nat) : w'.remembered j = w.remembered j := by
  rcases hstep.use_cases hc with ⟨-, -, hsame⟩ | ⟨-, hdelivers⟩
  · exact hsame.remembered_eq j
  · obtain ⟨k, hk, hset⟩ := hdelivers.exists_set hc
    rw [remembered, hset, getD_map_set hk]
    split
    · subst j
      exact (remembered_of_getElem? hk).symm
    · rfl

/-- A call changes the number only if it stores a chain. -/
theorem Step.remembered_eq (hstep : w.Step c a w') (j : Nat) :
    w'.remembered j =
      (((⟨w, c, a, w'⟩ : Event).stores? j).map fiberOf).getD (w.remembered j) := by
  cases c with
  | take? | take | takeRebound | resume | drop => exact hstep.remembered_of_used rfl j
  | create l =>
      cases hstep with
      | @create _ chain hchain =>
          simp only [Event.stores?, hchain]
          refine (getD_map_append j).trans ?_
          by_cases hj : j = w.continuations.length
          · rw [if_pos hj, if_pos hj.symm]
            rfl
          · rw [if_neg hj, if_neg (Ne.symm hj)]
            rfl
  | createEmpty =>
      cases hstep with
      | createEmpty =>
          refine (getD_map_append j).trans ?_
          split
          · subst j
            exact (remembered_of_length_le (Nat.le_refl _)).symm
          · rfl
  | replace i l =>
      rcases hstep.replace_cases with ⟨-, rfl, k, chain, hk, hchain, rfl⟩ | ⟨-, rfl, hsame⟩
      · simp only [Event.stores?, hchain]
        refine (getD_map_set hk j).trans ?_
        by_cases hj : j = i
        · rw [if_pos hj, if_pos hj.symm]
          rfl
        · rw [if_neg hj, if_neg (Ne.symm hj)]
          rfl
      · exact hsame.remembered_eq j

/-! ### The number after a run -/

theorem remembered_of_run (hrun : w.Run es w') :
    w'.remembered j = ((lastStored? j es).map fiberOf).getD (w.remembered j) := by
  induction hrun with
  | nil => rfl
  | @cons w w' w'' c a es hstep _ ih =>
      -- The later calls start from the number that the first one leaves.
      rw [ih, hstep.remembered_eq j, lastStored?_cons]
      cases lastStored? j es <;> rfl

theorem Event.mem_hands_of_stores? (h : e.stores? j = some chain) : chain ∈ e.before.hands := by
  unfold stores? at h
  split at h
  · exact List.mem_of_getElem? (Option.ite_none_right_eq_some.mp h).2
  · exact List.mem_of_getElem? (Option.ite_none_right_eq_some.mp h).2
  · cases h

/-- If nobody starts with a chain of no segments, none is ever stored. -/
theorem ne_nil_of_lastStored? (hrun : w.Run es w') (hhands : ∀ chain ∈ w.hands, chain ≠ [])
    (h : lastStored? j es = some chain) : chain ≠ [] := by
  induction hrun with
  | nil => cases h
  | @cons w w' w'' c a es hstep _ ih =>
      rw [lastStored?_cons] at h
      rcases Option.or_eq_some_iff.mp h with hlater | ⟨-, hfirst⟩
      · exact ih (hstep.hands_ne_nil hhands) hlater
      · exact hhands chain (Event.mem_hands_of_stores? hfirst)

/-- After any calls a continuation answers with the fiber of the chain that was stored last, and
with none if no chain was ever stored, unless that fiber has the greatest number. Then it answers
as if no chain had been stored. -/
theorem fiberId?_eq_lastFiber?_iff (hnew : w.continuations.length ≤ j)
    (hhands : ∀ chain ∈ w.hands, chain ≠ []) (hrun : w.Run es w')
    (hk : w'.continuations[j]? = some k) :
    (k.fiberId? = lastFiber? j es ↔ lastFiber? j es ≠ some ⟨noFiber⟩) ∧
      ((k.fiberId? = none ↔ ∀ e ∈ es, e.stores? j = none) ↔ lastFiber? j es ≠ some ⟨noFiber⟩) ∧
      (lastFiber? j es = some ⟨noFiber⟩ → k.fiberId? = none) := by
  have hfiber : k.fiber = ((lastStored? j es).map fiberOf).getD noFiber := by
    rw [← remembered_of_getElem? hk, remembered_of_run hrun, remembered_of_length_le hnew]
  rw [← lastStored?_eq_none_iff, lastFiber?]
  cases hlast : lastStored? j es with
  | none =>
      have hnone : k.fiberId? = none := if_pos (by rw [hfiber, hlast]; rfl)
      simp [hnone]
  | some chain =>
      obtain ⟨s, outer, rfl⟩ := List.exists_cons_of_ne_nil (ne_nil_of_lastStored? hrun hhands hlast)
      have hhead : k.fiber = fiberOf (s :: outer) := by
        rw [hfiber, hlast]
        rfl
      rw [Continuation.fiberId?_of_fiberOf hhead]
      by_cases hid : s.id = ⟨noFiber⟩ <;> simp [hid]

end Custody

/-! ### Two fibers, one of the greatest number

A continuation gets the chain of fibers 5 and 2, refuses the other fiber, and is used. After that it
still answers with fiber 5. A continuation that gets the other fiber answers with none. -/

namespace GreatestNumber

open Continuation (noFiber)
open Custody

def segment (n : Nat) : Segment :=
  { memory := ⟨0x1000, 0x60, 0, .heap⟩, base := 0x1000, high := 0x1040, sp := 0x1040,
    poolClass := none, id := ⟨n⟩, owner := ⟨1⟩, savedExn := 0, magic := segmentMagic }

def start : Custody :=
  { machine := MachineState.initial, domains := [], continuations := [],
    hands := [[segment 5, segment 2], [segment noFiber]] }

theorem exists_run : ∃ es w k, start.Run es w ∧ w.continuations[0]? = some k ∧
    es.map (fun e => (e.call, e.answer)) =
      [(.createEmpty, .done), (.replace 0 0, .done),
        (.replace 0 0, .stopped (.violation .continuationNotEmpty)),
        (.take? 0, .chain [segment 5, segment 2])] ∧
    lastFiber? 0 es = some ⟨5⟩ :=
  ⟨_, _, _,
    .cons .createEmpty <|
    .cons (.replace (j := 0) (l := 0) rfl rfl rfl) <|
    .cons (.replaceRefused (j := 0) (l := 0) rfl rfl rfl) <|
    .cons (.take? (j := 0) rfl rfl) .nil, rfl, rfl, rfl⟩

theorem fiber_of_taken : ∃ es w k, start.continuations.length ≤ 0 ∧
    (∀ chain ∈ start.hands, chain ≠ []) ∧ start.Run es w ∧ w.continuations[0]? = some k ∧
    es.map (fun e => (e.call, e.answer)) =
      [(.createEmpty, .done), (.replace 0 0, .done),
        (.replace 0 0, .stopped (.violation .continuationNotEmpty)),
        (.take? 0, .chain [segment 5, segment 2])] ∧
    k.fiberId? = some ⟨5⟩ := by
  have hnew : start.continuations.length ≤ 0 := Nat.le_refl 0
  have hhands : ∀ chain ∈ start.hands, chain ≠ [] := by decide
  obtain ⟨es, w, k, hrun, hk, hcalls, hlast⟩ := exists_run
  obtain ⟨hfiber, -⟩ := fiberId?_eq_lastFiber?_iff hnew hhands hrun hk
  have hother : lastFiber? 0 es ≠ some ⟨noFiber⟩ := by
    rw [hlast]
    decide
  exact ⟨es, w, k, hnew, hhands, hrun, hk, hcalls, (hfiber.mpr hother).trans hlast⟩

/-- The chain is there, but the continuation answers as if no chain had been stored. -/
theorem fiber_forgotten : ∃ es w k, start.continuations.length ≤ 0 ∧
    (∀ chain ∈ start.hands, chain ≠ []) ∧ start.Run es w ∧ w.continuations[0]? = some k ∧
    es.map (fun e => (e.call, e.answer)) = [(.create 1, .done)] ∧
    k.stored = [segment noFiber] ∧ k.fiberId? = none ∧ lastFiber? 0 es = some ⟨noFiber⟩ ∧
    ¬ ∀ e ∈ es, e.stores? 0 = none :=
  ⟨_, _, _, Nat.le_refl 0, by decide, .cons (.create (l := 1) rfl) .nil, rfl, rfl, rfl, rfl, rfl,
    fun h => nomatch h _ (List.mem_singleton_self _)⟩

end GreatestNumber

end FiberStacks
