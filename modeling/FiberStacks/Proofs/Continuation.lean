import FiberStacks.Continuation
import FiberStacks.Proofs.Run

/-!
# Runs of continuations

A chain is taken out whole or not at all, and is stored only where there is none.
-/

namespace FiberStacks.Continuation

variable {k k' : Continuation} {chain : Chain} {h : Handlers} {st st' : MachineState}

/-- The chain that goes with a continuation is the one it holds. -/
theorem drop_eq (k : Continuation) : k.drop = (k.stored, { k with stored := [] }) := by
  obtain ⟨stored, fiber⟩ := k
  cases stored <;> rfl

theorem take_of_taken (hk : k.stored = []) (st : MachineState) :
    ∃ j, k.take st = .ok (.error .continuationAlreadyResumed, k) { st with journal := j } := by
  unfold take take?
  rw [hk]
  exact ⟨_, rfl⟩

theorem take_of_stored (hk : k.stored ≠ []) (st : MachineState) :
    k.take st = .ok (.ok k.stored, { k with stored := [] }) st := by
  unfold take take?
  cases hstored : k.stored with
  | nil => exact absurd hstored hk
  | cons s outer => rfl

theorem takeRebound_of_taken (hk : k.stored = []) (h : Handlers) (st : MachineState) :
    ∃ j, k.takeRebound h st =
      .ok (.error .continuationAlreadyResumed, k) { st with journal := j } := by
  obtain ⟨j, htake⟩ := take_of_taken hk st
  refine ⟨j, ?_⟩
  unfold takeRebound
  rw [Run.bind_of_ok htake]
  rfl

theorem takeRebound_of_stored (hk : k.stored ≠ []) (h : Handlers) (st : MachineState) :
    k.takeRebound h st = .ok (.ok k.stored, { k with stored := [] })
      { st with memory := Chain.rebind st.memory k.stored h } := by
  unfold takeRebound
  rw [Run.bind_of_ok (take_of_stored hk st)]
  rfl

theorem exists_take (k : Continuation) (st : MachineState) :
    ∃ r k' st', k.take st = .ok (r, k') st' := by
  by_cases hk : k.stored = []
  · obtain ⟨j, htake⟩ := take_of_taken hk st
    exact ⟨_, _, _, htake⟩
  · exact ⟨_, _, _, take_of_stored hk st⟩

theorem exists_takeRebound (k : Continuation) (h : Handlers) (st : MachineState) :
    ∃ r k' st', k.takeRebound h st = .ok (r, k') st' := by
  by_cases hk : k.stored = []
  · obtain ⟨j, htake⟩ := takeRebound_of_taken hk h st
    exact ⟨_, _, _, htake⟩
  · exact ⟨_, _, _, takeRebound_of_stored hk h st⟩

theorem replace_eq_ok (hrun : k.replace chain st = .ok k' st') :
    k.stored = [] ∧ k' = .ofChain chain ∧ st' = st := by
  unfold replace store isEmpty at hrun
  cases hstored : k.stored with
  | nil =>
      rw [hstored] at hrun
      cases hrun
      exact ⟨rfl, rfl, rfl⟩
  | cons s outer =>
      rw [hstored] at hrun
      obtain ⟨_, st₁, -, hrun⟩ := Run.bind_eq_ok_iff.mp hrun
      cases hrun

theorem replace_eq_error {cause : Abort} (hrun : k.replace chain st = .error cause st') :
    k.stored ≠ [] ∧ cause = .violation .continuationNotEmpty ∧
      ∃ journal, st' = { st with journal } := by
  unfold replace store isEmpty at hrun
  cases hstored : k.stored with
  | nil =>
      rw [hstored] at hrun
      cases hrun
  | cons s outer =>
      rw [hstored] at hrun
      cases hrun
      exact ⟨List.cons_ne_nil s outer, rfl, _, rfl⟩

end FiberStacks.Continuation
