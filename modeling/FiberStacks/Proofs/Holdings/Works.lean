import FiberStacks.Proofs.Holdings.WordStack

/-!
# Work on the running stack

Whatever a domain is asked to push, to pop or to make room for, it comes to two things: the running
segment is replaced by a larger one or is not, and then the stack pointer moves.
-/

namespace FiberStacks.Domain

inductive Works (d : Domain) (st : MachineState) : Domain → MachineState → Prop
  | rests : Works d st d st
  | grows {required : Nat} {grown : Bool} {d' : Domain} {st' : MachineState} :
      d.tryRealloc required st = .ok (grown, d') st' → Works d st d' st'
  | moves {d' : Domain} {st' : MachineState} {s : Segment} {outer : Chain} {sp : Nat}
      {m : Memory} :
      Works d st d' st' → d'.running = s :: outer →
      (s.Formed → ({ s with sp } : Segment).Formed) →
      Works d st (d'.setCurrent { s with sp }) { st' with memory := m }

variable {d d' : Domain} {s : Segment} {outer : Chain} {required : Nat} {st st' : MachineState}

theorem current?_eq_some_iff : d.current? = some s ↔ ∃ outer, d.running = s :: outer :=
  List.head?_eq_some_iff

theorem running_setCurrent (h : d.running = s :: outer) (s' : Segment) :
    (d.setCurrent s').running = s' :: outer := by
  rw [setCurrent, h]
  rfl

theorem works_of_ensureCapacity {r : Except StackError Unit}
    (hrun : d.ensureCapacity required st = .ok (r, d') st') : d.Works st d' st' := by
  unfold ensureCapacity at hrun
  split at hrun
  · cases hrun
    exact .rests
  · obtain ⟨⟨grown, d₁⟩, st₁, hgrow, hrun⟩ := Run.bind_eq_ok_iff.mp hrun
    cases grown <;> cases hrun <;> exact .grows hgrow

theorem works_of_push {x : Word} {r : Except StackError Unit}
    (hrun : d.push x st = .ok (r, d') st') : d.Works st d' st' := by
  unfold push at hrun
  obtain ⟨⟨_ | _, d₁⟩, st₁, hensure, hrun⟩ := Run.bind_eq_ok_iff.mp hrun
  · cases hrun
    exact works_of_ensureCapacity hensure
  · have hworks := works_of_ensureCapacity hensure
    simp only at hrun
    cases hrunning : d₁.running with
    | nil =>
        rw [hrunning] at hrun
        cases hrun
        exact hworks
    | cons s outer =>
        rw [hrunning] at hrun
        obtain ⟨m, st₂, hmemory, hrun⟩ := Run.bind_eq_ok_iff.mp hrun
        cases hmemory
        by_cases hroom : s.sp - s.base < wordBytes
        · rw [Segment.push, if_pos hroom] at hrun
          cases hrun
          exact hworks
        · have hpush : s.push st₁.memory x = .ok ({ s with sp := s.sp - wordBytes }, _) :=
            if_neg hroom
          rw [hpush] at hrun
          cases hrun
          refine hworks.moves hrunning fun hformed => ?_
          obtain ⟨sp, hpush', hdeeper, -⟩ :=
            Segment.push_run hformed (Nat.not_lt.mp hroom) st₁.memory x
          cases hpush.symm.trans hpush'
          exact hdeeper

theorem works_of_pop {x? : Option Word} (hrun : d.pop st = .ok (x?, d') st') :
    d.Works st d' st' := by
  unfold pop at hrun
  cases hcurrent : d.current? with
  | none =>
      rw [hcurrent] at hrun
      cases hrun
      exact .rests
  | some s =>
      rw [hcurrent] at hrun
      obtain ⟨m, st₁, hmemory, hrun⟩ := Run.bind_eq_ok_iff.mp hrun
      cases hmemory
      obtain ⟨outer, hrunning⟩ := current?_eq_some_iff.mp hcurrent
      by_cases hempty : s.sp = s.high
      · rw [Segment.pop?, if_pos hempty] at hrun
        cases hrun
        exact .rests
      · have hpop : s.pop? st.memory = some (_, { s with sp := s.sp + wordBytes }) := if_neg hempty
        rw [hpop] at hrun
        cases hrun
        refine Works.moves (m := st.memory) .rests hrunning fun hformed => ?_
        rcases Segment.pop?_run hformed st.memory with ⟨-, hnone⟩ | ⟨sp, y, hpop', hpopped, -⟩
        · cases hpop.symm.trans hnone
        · cases hpop.symm.trans hpop'
          exact hpopped

theorem works_of_serve {call : StackCall} {answer : StackAnswer}
    (hrun : d.serve call st = .ok (answer, d') st') : d.Works st d' st' := by
  cases call with
  | push x =>
      obtain ⟨⟨r, d₁⟩, st₁, hpush, hrun⟩ := Run.bind_eq_ok_iff.mp hrun
      cases hrun
      exact works_of_push hpush
  | pop =>
      obtain ⟨⟨x?, d₁⟩, st₁, hpop, hrun⟩ := Run.bind_eq_ok_iff.mp hrun
      cases hrun
      exact works_of_pop hpop
  | peek n =>
      cases hrun
      exact .rests
  | ensureCapacity required =>
      obtain ⟨⟨r, d₁⟩, st₁, hensure, hrun⟩ := Run.bind_eq_ok_iff.mp hrun
      cases hrun
      exact works_of_ensureCapacity hensure
  | maybeExpand =>
      obtain ⟨⟨r, d₁⟩, st₁, hensure, hrun⟩ := Run.bind_eq_ok_iff.mp hrun
      cases hrun
      exact works_of_ensureCapacity hensure
  | tryRealloc required =>
      obtain ⟨⟨grown, d₁⟩, st₁, hgrow, hrun⟩ := Run.bind_eq_ok_iff.mp hrun
      cases hrun
      exact .grows hgrow

end FiberStacks.Domain
