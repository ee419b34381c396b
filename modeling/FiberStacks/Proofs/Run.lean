import FiberStacks.Machine
import Mathlib.Tactic.Common

/-!
# Runs of operations

An operation on the state of a process, a scan or a session either answers and leaves a state, or
ends with a cause. These are the laws that take a run apart into the runs of its parts, and that put
a run together from them.
-/

namespace FiberStacks.Run

variable {ε σ α β : Type}

theorem ok_bind (a : α) (f : α → Except ε β) : (Except.ok a >>= f) = f a := rfl

theorem except_bind_eq_ok_iff {x : Except ε α} {f : α → Except ε β} {b : β} :
    x >>= f = .ok b ↔ ∃ a, x = .ok a ∧ f a = .ok b := by
  cases x with
  | ok a =>
      constructor
      · intro h
        exact ⟨a, rfl, h⟩
      · rintro ⟨a', heq, h⟩
        cases heq
        exact h
  | error e =>
      constructor
      · intro h
        cases h
      · rintro ⟨a', heq, _⟩
        cases heq

theorem bind_eq_ok_iff {x : EStateM ε σ α} {f : α → EStateM ε σ β} {s t : σ} {b : β} :
    (x >>= f) s = .ok b t ↔ ∃ a u, x s = .ok a u ∧ f a u = .ok b t := by
  change (match x s with | .ok a u => f a u | .error e u => .error e u) = .ok b t ↔ _
  cases hx : x s with
  | ok a u =>
      constructor
      · intro h
        exact ⟨a, u, rfl, h⟩
      · rintro ⟨a', u', heq, h⟩
        cases heq
        exact h
  | error e u =>
      constructor
      · intro h
        cases h
      · rintro ⟨a', u', heq, _⟩
        cases heq

theorem bind_of_ok {x : EStateM ε σ α} {s u : σ} {a : α} (hx : x s = .ok a u)
    (f : α → EStateM ε σ β) : (x >>= f) s = f a u := by
  change (match x s with | .ok a u => f a u | .error e u => .error e u) = f a u
  rw [hx]

theorem bind_of_error {x : EStateM ε σ α} {s u : σ} {e : ε} (hx : x s = .error e u)
    (f : α → EStateM ε σ β) : (x >>= f) s = .error e u := by
  change (match x s with | .ok a u => f a u | .error e u => .error e u) = .error e u
  rw [hx]

/-- An operation whose second part always answers does so if the first part does. -/
theorem exists_bind_eq_ok_iff {x : EStateM ε σ α} {f : α → EStateM ε σ β} {s : σ}
    (hf : ∀ a t, ∃ b u, f a t = .ok b u) :
    (∃ b u, (x >>= f) s = .ok b u) ↔ ∃ a t, x s = .ok a t := by
  constructor
  · rintro ⟨b, u, h⟩
    obtain ⟨a, t, hx, -⟩ := bind_eq_ok_iff.mp h
    exact ⟨a, t, hx⟩
  · rintro ⟨a, t, hx⟩
    rw [bind_of_ok hx]
    exact hf a t

/-- Whether a run answers with what passes a test. -/
def answers (x : EStateM ε σ α) (s : σ) (test : α → σ → Bool) : Bool :=
  match x s with
  | .ok a t => test a t
  | .error _ _ => false

theorem exists_of_answers {x : EStateM ε σ α} {s : σ} {test : α → σ → Bool}
    (h : answers x s test = true) : ∃ a t, x s = .ok a t ∧ test a t = true := by
  unfold answers at h
  split at h
  · exact ⟨_, _, ‹_›, h⟩
  · cases h

/-- Whether a run comes to a success that passes a test. -/
def succeeds {δ : Type} (x : EStateM ε σ (Except δ α × β)) (s : σ) (test : α → β → σ → Bool) :
    Bool :=
  answers x s fun r t => match r.1 with
    | .ok a => test a r.2 t
    | .error _ => false

theorem exists_of_succeeds {δ : Type} {x : EStateM ε σ (Except δ α × β)} {s : σ}
    {test : α → β → σ → Bool} (h : succeeds x s test = true) :
    ∃ a b t, x s = .ok (.ok a, b) t ∧ test a b t = true := by
  obtain ⟨⟨r, b⟩, t, hx, h⟩ := exists_of_answers h
  cases r with
  | ok a => exact ⟨a, b, t, hx, h⟩
  | error => cases h

/-- What cut a run short. -/
def cause? (x : EStateM ε σ α) (s : σ) : Option ε :=
  match x s with
  | .ok _ _ => none
  | .error e _ => some e

theorem exists_of_cause? {x : EStateM ε σ α} {s : σ} {e : ε} (h : cause? x s = some e) :
    ∃ t, x s = .error e t := by
  unfold cause? at h
  split at h
  · cases h
  · cases h
    exact ⟨_, ‹_›⟩

/-- The state that a run leaves, whether it answers or is cut short. -/
def left (x : EStateM ε σ α) (s : σ) : σ :=
  match x s with
  | .ok _ t => t
  | .error _ t => t

theorem left_of_ok {x : EStateM ε σ α} {s t : σ} {a : α} (h : x s = .ok a t) : left x s = t := by
  rw [left, h]

theorem left_of_error {x : EStateM ε σ α} {s t : σ} {e : ε} (h : x s = .error e t) :
    left x s = t := by
  rw [left, h]

theorem discard_of_ok {x : EStateM ε σ α} {s u : σ} {a : α} (hx : x s = .ok a u) :
    (discard x) s = .ok () u := by
  change ((fun _ => ()) <$> x) s = _
  rw [← bind_pure_comp, bind_of_ok hx]
  rfl

theorem discard_eq_ok_iff {x : EStateM ε σ α} {s u : σ} :
    (discard x) s = .ok () u ↔ ∃ a, x s = .ok a u := by
  change ((fun _ => ()) <$> x) s = _ ↔ _
  rw [← bind_pure_comp, bind_eq_ok_iff]
  constructor
  · rintro ⟨a, v, hx, hv⟩
    cases hv
    exact ⟨a, hx⟩
  · rintro ⟨a, hx⟩
    exact ⟨a, u, hx, rfl⟩

theorem of_discard_eq_error {x : EStateM ε σ α} {s t : σ} {e : ε}
    (h : (discard x) s = .error e t) : x s = .error e t := by
  change ((fun _ => ()) <$> x) s = _ at h
  rw [← bind_pure_comp] at h
  cases hx : x s with
  | ok a u =>
      rw [bind_of_ok hx] at h
      cases h
  | error e' u =>
      rw [bind_of_error hx] at h
      cases h
      rfl

theorem forM_cons_eq_ok_iff {f : α → EStateM ε σ PUnit} {a : α} {l : List α} {s t : σ} :
    (forM (a :: l) f : EStateM ε σ PUnit) s = .ok ⟨⟩ t ↔
      ∃ u, f a s = .ok ⟨⟩ u ∧ (forM l f : EStateM ε σ PUnit) u = .ok ⟨⟩ t := by
  rw [List.forM_cons, bind_eq_ok_iff]
  constructor
  · rintro ⟨_, u, h, hl⟩
    exact ⟨u, h, hl⟩
  · rintro ⟨u, h, hl⟩
    exact ⟨_, u, h, hl⟩

theorem forM_append_eq_ok_iff {f : α → EStateM ε σ PUnit} {l k : List α} {s t : σ} :
    (forM (l ++ k) f : EStateM ε σ PUnit) s = .ok ⟨⟩ t ↔
      ∃ u, (forM l f : EStateM ε σ PUnit) s = .ok ⟨⟩ u ∧
        (forM k f : EStateM ε σ PUnit) u = .ok ⟨⟩ t := by
  rw [List.forM_append, bind_eq_ok_iff]
  constructor
  · rintro ⟨_, u, h, hl⟩
    exact ⟨u, h, hl⟩
  · rintro ⟨u, h, hl⟩
    exact ⟨_, u, h, hl⟩

theorem forM_flatten (f : α → EStateM ε σ PUnit) (lists : List (List α)) :
    (forM lists fun list => forM list f) = forM lists.flatten f := by
  induction lists with
  | nil => rfl
  | cons list lists ih => rw [List.forM_cons, ih, List.flatten_cons, List.forM_append]

theorem lift_eq_ok_iff {x : Except Abort α} {st st' : MachineState} {a : α} :
    (liftM x : Machine α) st = .ok a st' ↔ x = .ok a ∧ st = st' := by
  cases x with
  | ok b =>
      constructor
      · intro h
        cases h
        exact ⟨rfl, rfl⟩
      · rintro ⟨h, rfl⟩
        cases h
        rfl
  | error e =>
      constructor
      · intro h
        cases h
      · rintro ⟨h, -⟩
        cases h

theorem bind_lift_of_ok {x : Except Abort α} {a : α} (hx : x = .ok a) (f : α → Machine β)
    (st : MachineState) : ((liftM x : Machine α) >>= f) st = f a st :=
  bind_of_ok (lift_eq_ok_iff.mpr ⟨hx, rfl⟩) f

theorem lift_of_error {x : Except Abort α} {e : Abort} (hx : x = .error e) (st : MachineState) :
    (liftM x : Machine α) st = .error e st := by
  rw [hx]
  rfl

theorem lift_bind (x : Except Abort α) (f : α → Except Abort β) :
    (liftM (x >>= f) : Machine β) = liftM x >>= fun a => liftM (f a) := by
  cases x <;> rfl

/-! ### Checks -/

/-- The operation answers with a value that satisfies `p`, or one of its checks fails. None does
under the condition `c`. -/
inductive Checked (c : Prop) (p : α → Prop) : Except Abort α → Prop
  | answer {a : α} : p a → Checked c p (.ok a)
  | fault (f : Fault) : ¬ c → Checked c p (.error (.fault f))

variable {c c' : Prop} {p : α → Prop} {q : β → Prop} {x : Except Abort α} {st : MachineState}

theorem Checked.of_eq_ok {a : α} (h : Checked c p x) (hx : x = .ok a) : p a := by
  cases h with
  | answer ha =>
      cases hx
      exact ha
  | fault => cases hx

theorem Checked.exists_ok (h : Checked c p x) (hc : c) : ∃ a, x = .ok a ∧ p a := by
  cases h with
  | answer ha => exact ⟨_, rfl, ha⟩
  | fault _ hfails => exact absurd hc hfails

theorem Checked.bind {f : α → Except Abort β} (hx : Checked c p x)
    (hf : ∀ a, p a → Checked c q (f a)) : Checked c q (x >>= f) := by
  cases hx with
  | answer ha => exact hf _ ha
  | fault e hfails => exact .fault e hfails

theorem Checked.mono {p' : α → Prop} (h : Checked c p x) (hp : ∀ a, p a → p' a) :
    Checked c p' x := by
  cases h with
  | answer ha => exact .answer (hp _ ha)
  | fault e hfails => exact .fault e hfails

theorem Checked.of_imp (h : Checked c p x) (hc : c' → c) : Checked c' p x := by
  cases h with
  | answer ha => exact .answer ha
  | fault e hfails => exact .fault e fun h => hfails (hc h)

theorem Checked.and_eq_ok (h : Checked c p x) : Checked c (fun a => p a ∧ x = .ok a) x := by
  cases h with
  | answer ha => exact .answer ⟨ha, rfl⟩
  | fault e hfails => exact .fault e hfails

theorem Checked.mapM {f : α → Except Abort β} {l : List α}
    (hf : ∀ a ∈ l, Checked c (fun _ => True) (f a)) : Checked c (fun _ => True) (l.mapM f) := by
  induction l with
  | nil => exact .answer trivial
  | cons a l ih =>
      obtain ⟨ha, hl⟩ := List.forall_mem_cons.mp hf
      rw [List.mapM_cons]
      exact ha.bind fun _ _ => (ih hl).bind fun _ _ => .answer trivial

/-- From a state the operation answers or is cut short, but it does not go on forever. -/
def EndsFrom (st : MachineState) (x : Machine α) : Prop :=
  ∀ st', x st ≠ .error .endless st'

theorem EndsFrom.of_ok {x : Machine α} {a : α} {st' : MachineState} (h : x st = .ok a st') :
    EndsFrom st x := by
  intro _ hends
  cases h.symm.trans hends

theorem EndsFrom.bind {x : Machine α} {f : α → Machine β} (hx : EndsFrom st x)
    (hf : ∀ a st', x st = .ok a st' → EndsFrom st' (f a)) : EndsFrom st (x >>= f) := by
  intro st' h
  cases hrun : x st with
  | ok a st₁ =>
      rw [bind_of_ok hrun] at h
      exact hf a st₁ hrun st' h
  | error e st₁ =>
      rw [bind_of_error hrun] at h
      cases h
      exact hx st' hrun

theorem Checked.endsFrom (h : Checked c p x) :
    EndsFrom st (liftM x : Machine α) := by
  cases h with
  | answer => exact .of_ok (lift_eq_ok_iff.mpr ⟨rfl, rfl⟩)
  | fault =>
      intro _ hends
      rw [lift_of_error rfl] at hends
      cases hends

theorem endless_iff {x : Machine α} {c : Prop} (hends : ¬ c → EndsFrom st x)
    (hendless : c → x st = .error .endless st) : (∃ st', x st = .error .endless st') ↔ c := by
  constructor
  · rintro ⟨st', h⟩
    by_contra hc
    exact hends hc st' h
  · exact fun hc => ⟨st, hendless hc⟩

end FiberStacks.Run

namespace FiberStacks.Machine

theorem memory_run (st : MachineState) : memory st = .ok st.memory st := rfl

theorem setMemory_run (m : Memory) (st : MachineState) :
    setMemory m st = .ok () { st with memory := m } := rfl

theorem modifyMemory_run (f : Memory → Memory) (st : MachineState) :
    modifyMemory f st = .ok () { st with memory := f st.memory } := rfl

end FiberStacks.Machine
