import FiberStacks.Proofs.Scan.Classify
import FiberStacks.Scan.Native

/-!
# The visits of an operation

Whatever the collector writes and whatever the words are, an operation of a scan only reports
locations that it was sent to, and in the order in which it was sent to them.
-/

namespace FiberStacks

namespace Scan

/-- When the operation succeeds it has told the collector of some of the locations, in their
order. -/
def Tells {α : Type} (x : ScanM α) (slots : List Nat) : Prop :=
  ∀ p a q, x p = .ok a q →
    ∃ visits : List Visit, q.visits = visits.reverse ++ p.visits ∧
      (visits.map Visit.slot).Sublist slots

variable {α β : Type}

theorem tells_of_visits_eq {x : ScanM α} (h : ∀ p a q, x p = .ok a q → q.visits = p.visits) :
    Tells x [] := by
  intro p a q hrun
  exact ⟨[], h p a q hrun, List.Sublist.refl []⟩

theorem tells_pure (a : α) : Tells (pure a) [] := by
  apply tells_of_visits_eq
  intro p b q h
  cases h
  rfl

theorem tells_lift (x : Except Abort α) : Tells (liftM x) [] := by
  apply tells_of_visits_eq
  intro p a q h
  cases x with
  | ok b =>
      cases h
      rfl
  | error e => cases h

theorem Tells.bind {x : ScanM α} {f : α → ScanM β} {xs ys : List Nat} (hx : Tells x xs)
    (hf : ∀ a, Tells (f a) ys) : Tells (x >>= f) (xs ++ ys) := by
  intro p b q h
  obtain ⟨a, u, hxu, hfq⟩ := Run.bind_eq_ok_iff.mp h
  obtain ⟨first, hu, hfirst⟩ := hx p a u hxu
  obtain ⟨second, hq, hsecond⟩ := hf a u b q hfq
  refine ⟨first ++ second, ?_, ?_⟩
  · rw [hq, hu, List.reverse_append, List.append_assoc]
  · rw [List.map_append]
    exact hfirst.append hsecond

theorem Tells.mono {x : ScanM α} {xs ys : List Nat} (hx : Tells x xs) (h : xs.Sublist ys) :
    Tells x ys := by
  intro p a q hrun
  obtain ⟨visits, hq, hslots⟩ := hx p a q hrun
  exact ⟨visits, hq, hslots.trans h⟩

theorem Tells.discard {x : ScanM α} {xs : List Nat} (hx : Tells x xs) : Tells (discard x) xs := by
  intro p _ q h
  obtain ⟨a, hrun⟩ := Run.discard_eq_ok_iff.mp h
  exact hx p a q hrun

theorem tells_note (a : Access) : Tells (note a) [] := by
  apply tells_of_visits_eq
  intro p _ q h
  cases h
  rfl

theorem tells_slotWord (a : Nat) : Tells (slotWord a) [] := by
  apply tells_of_visits_eq
  intro p _ q h
  cases h
  rfl

theorem tells_mark (a : Nat) (h : Header) : Tells (mark a h) [] := by
  apply tells_of_visits_eq
  intro p _ q hrun
  cases hrun
  rfl

theorem tells_inspect (w : Word) : Tells (inspect w) [] := by
  have hget : Tells (get : ScanM Progress) [] := by
    apply tells_of_visits_eq
    intro p _ q h
    cases h
    rfl
  exact (tells_lift _).bind fun a => (tells_note _).bind fun _ => hget.bind fun p => tells_lift _

theorem tells_forM {f : α → ScanM Unit} {slots : α → List Nat} (h : ∀ a, Tells (f a) (slots a))
    (l : List α) : Tells (forM l f) (l.flatMap slots) := by
  induction l with
  | nil => exact tells_pure ()
  | cons a l ih =>
      rw [List.forM_cons, List.flatMap_cons]
      exact (h a).bind fun _ => ih

end Scan

namespace Scanner

open Scan

theorem tells_visit (sc : Scanner) (value : Word) (slot : Nat) :
    Tells (sc.visit value slot) [slot] := by
  intro p _ q h
  cases h
  exact ⟨[⟨value, slot⟩], rfl, List.Sublist.refl [slot]⟩

theorem tells_enclosing (w : Word) : Tells (enclosing w) [] := by
  refine (tells_inspect w).bind fun h => ?_
  split
  · exact (tells_lift _).bind fun _ => tells_pure _
  · exact tells_pure w

theorem tells_classify (sc : Scanner) (slot : Nat) : Tells (sc.classify slot) [slot] := by
  have hnothing : ([] : List Nat).Sublist [slot] := List.nil_sublist _
  refine (tells_slotWord slot).bind fun value => ?_
  split
  · exact (tells_pure none).mono hnothing
  split
  · exact (tells_visit sc value slot).bind fun _ => tells_pure none
  refine (tells_enclosing value).bind fun block => (tells_inspect block).bind fun h => ?_
  split
  · exact (tells_pure none).mono hnothing
  split
  · refine Tells.mono ?_ hnothing
    split
    · exact tells_pure none
    refine (tells_lift _).bind fun index => ?_
    split
    · exact tells_pure none
    · exact (tells_lift _).bind fun a => (tells_mark a _).bind fun _ => tells_pure _
  · exact (tells_visit sc value slot).bind fun _ => tells_pure none

theorem tells_visitHandlers (sc : Scanner) (s : Segment) :
    Tells (sc.visitHandlers s) s.handlerSlots := by
  unfold visitHandlers
  rw [List.forM_eq_forM]
  have hone : ∀ slot, Tells (do sc.visit (← slotWord slot) slot) [slot] := by
    intro slot
    exact (tells_slotWord slot).bind fun w => tells_visit sc w slot
  have h := tells_forM hone s.handlerSlots
  rwa [List.flatMap_singleton'] at h

end Scanner

end FiberStacks
