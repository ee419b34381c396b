import FiberStacks.Proofs.Domain.Switching
import FiberStacks.Proofs.Fibers.Chains
import Mathlib.Data.List.Perm.Basic

/-!
# Stacks of a process

Several domains share the state of one process. Segments move between the chains they run, the
continuations they captured, the hands of callers and the pools. A call names what it is for by its
place in these lists, and no call makes two of a segment.
-/

namespace FiberStacks

/-- The domains of a process, its continuations, and the segments in the hands of callers. -/
structure Stacks where
  machine : MachineState
  domains : List Domain
  continuations : List Continuation
  loose : List Segment

/-- A call that switches fibers, obtains a segment to switch to, or gives segments up. -/
inductive Call where
  | startMain (i : Nat)
  | alloc (i : Nat) (h : Handlers)
  | allocNoExc (i words : Nat) (h : Handlers) (id : FiberId)
  | allocMain (i words : Nat)
  | runFiber (i j : Nat)
  | returnFromFiber (i : Nat)
  | capture (i depth : Nat)
  | resume (i k : Nat) (h : Handlers)
  | free (i j : Nat)
  | dropContinuation (i j : Nat)
  deriving DecidableEq

inductive Answer where
  | done
  | failed (error : StackError)
  /-- Whether there is a new segment. -/
  | obtained (success : Bool)
  /-- The handlers of the fiber that returned, if one did. -/
  | returned (h : Option Handlers)
  /-- Whether there is a new continuation. -/
  | captured (success : Bool)
  deriving DecidableEq

def Answer.ofExcept : Except StackError Unit → Answer
  | .ok () => .done
  | .error error => .failed error

/-- A run of calls, each with its answer. -/
inductive Trace {σ : Type} (step : σ → Call → Answer → σ → Prop) :
    σ → List (Call × Answer) → σ → Prop
  | nil {w : σ} : Trace step w [] w
  | cons {w w' w'' : σ} {c : Call} {a : Answer} {rest : List (Call × Answer)} :
      step w c a w' → Trace step w' rest w'' → Trace step w ((c, a) :: rest) w''

namespace Stacks

def put (w : Stacks) (i : Nat) (d : Domain) (st : MachineState) : Stacks :=
  { w with machine := st, domains := w.domains.set i d }

/-- A new segment goes to the caller, a segment that is run or freed is taken from the callers, and
a new continuation joins the others. -/
inductive Step (w : Stacks) : Call → Answer → Stacks → Prop
  | startMain {i : Nat} {d d' : Domain} {r : Except StackError Unit} {st : MachineState} :
      w.domains[i]? = some d → d.startMain w.machine = .ok (r, d') st →
      Step w (.startMain i) (.ofExcept r) (w.put i d' st)
  | alloc {i : Nat} {d d' : Domain} {h : Handlers} {s : Segment} {st : MachineState} :
      w.domains[i]? = some d → d.alloc h w.machine = .ok (.ok s, d') st →
      Step w (.alloc i h) .done ({ w with loose := w.loose ++ [s] }.put i d' st)
  | allocFailed {i : Nat} {d d' : Domain} {h : Handlers} {e : StackError} {st : MachineState} :
      w.domains[i]? = some d → d.alloc h w.machine = .ok (.error e, d') st →
      Step w (.alloc i h) (.failed e) (w.put i d' st)
  | allocNoExc {i words : Nat} {d d' : Domain} {h : Handlers} {id : FiberId} {s? : Option Segment}
      {st : MachineState} :
      w.domains[i]? = some d → d.allocNoExc words h id w.machine = .ok (s?, d') st →
      Step w (.allocNoExc i words h id) (.obtained s?.isSome)
        ({ w with loose := w.loose ++ s?.toList }.put i d' st)
  | allocMain {i words : Nat} {d d' : Domain} {s? : Option Segment} {st : MachineState} :
      w.domains[i]? = some d → d.allocMain words w.machine = .ok (s?, d') st →
      Step w (.allocMain i words) (.obtained s?.isSome)
        ({ w with loose := w.loose ++ s?.toList }.put i d' st)
  | runFiber {i j : Nat} {d d' : Domain} {s : Segment} {st : MachineState} :
      w.domains[i]? = some d → w.loose[j]? = some s → d.runFiber s w.machine = .ok d' st →
      Step w (.runFiber i j) .done ({ w with loose := w.loose.eraseIdx j }.put i d' st)
  | returnFromFiber {i : Nat} {d d' : Domain} {h : Option Handlers} {st : MachineState} :
      w.domains[i]? = some d → d.returnFromFiber w.machine = .ok (h, d') st →
      Step w (.returnFromFiber i) (.returned h) (w.put i d' st)
  | capture {i depth : Nat} {d d' : Domain} {k? : Option Continuation} {st : MachineState} :
      w.domains[i]? = some d → d.capture depth w.machine = .ok (k?, d') st →
      Step w (.capture i depth) (.captured k?.isSome)
        ({ w with continuations := w.continuations ++ k?.toList }.put i d' st)
  | resume {i j : Nat} {d d' : Domain} {k k' : Continuation} {h : Handlers}
      {r : Except StackError Unit} {st : MachineState} :
      w.domains[i]? = some d → w.continuations[j]? = some k →
      d.resume k h w.machine = .ok (r, d', k') st →
      Step w (.resume i j h) (.ofExcept r)
        ({ w with continuations := w.continuations.set j k' }.put i d' st)
  | free {i j : Nat} {d d' : Domain} {s : Segment} {st : MachineState} :
      w.domains[i]? = some d → w.loose[j]? = some s → d.free [s] w.machine = .ok d' st →
      Step w (.free i j) .done ({ w with loose := w.loose.eraseIdx j }.put i d' st)
  | dropContinuation {i j : Nat} {d d' : Domain} {k k' : Continuation}
      {r : Except StackError Unit} {st : MachineState} :
      w.domains[i]? = some d → w.continuations[j]? = some k →
      d.dropContinuation k w.machine = .ok (r, d', k') st →
      Step w (.dropContinuation i j) (.ofExcept r)
        ({ w with continuations := w.continuations.set j k' }.put i d' st)

/-! ### Who has which segment -/

/-- The chains that run, wait in continuations, or are in the hands of callers. The exception
handler of a domain counts as saved in the segment that it runs. -/
def chains (w : Stacks) : List Chain :=
  w.domains.map Domain.suspended ++ w.continuations.map Continuation.stored ++
    w.loose.map fun s => [s]

def held (w : Stacks) : List Segment := w.chains.flatten

def pooled (w : Stacks) : List Segment := w.domains.flatMap fun d => d.pool.segments

def segments (w : Stacks) : List Segment := w.held ++ w.pooled

def without (w : Stacks) (i : Nat) : Stacks := { w with domains := w.domains.eraseIdx i }

variable {w w' : Stacks} {i j : Nat} {d : Domain} {k : Continuation} {s : Segment}

theorem chains_perm (hd : w.domains[i]? = some d) :
    w.chains.Perm (d.suspended :: (w.without i).chains) :=
  (((perm_cons_eraseIdx hd).map _).append_right _).append_right _

theorem chains_put (hd : w.domains[i]? = some d) (d' : Domain) (st : MachineState) :
    (w.put i d' st).chains.Perm (d'.suspended :: (w.without i).chains) :=
  (((set_perm_eraseIdx hd d').map _).append_right _).append_right _

theorem chains_loose (hs : w.loose[j]? = some s) :
    w.chains.Perm ([s] :: { w with loose := w.loose.eraseIdx j }.chains) :=
  (((perm_cons_eraseIdx hs).map _).append_left _).trans List.perm_middle

theorem chains_append_loose (w : Stacks) (s : Segment) :
    { w with loose := w.loose ++ [s] }.chains.Perm ([s] :: w.chains) := by
  grind [chains]

theorem chains_continuation (hk : w.continuations[j]? = some k) (k' : Continuation) :
    ∃ rest, w.chains.Perm (k.stored :: rest) ∧
      { w with continuations := w.continuations.set j k' }.chains.Perm (k'.stored :: rest) := by
  refine ⟨{ w with continuations := w.continuations.eraseIdx j }.chains, ?_, ?_⟩
  · exact ((((perm_cons_eraseIdx hk).map _).append_left _).append_right _).trans (by grind [chains])
  · exact ((((set_perm_eraseIdx hk k').map _).append_left _).append_right _).trans
      (by grind [chains])

theorem chains_append_continuation (w : Stacks) (k : Continuation) :
    { w with continuations := w.continuations ++ [k] }.chains.Perm (k.stored :: w.chains) := by
  grind [chains]

theorem pooled_perm (hd : w.domains[i]? = some d) :
    w.pooled.Perm (d.pool.segments ++ (w.without i).pooled) :=
  (perm_cons_eraseIdx hd).flatMap_right _

theorem pooled_put (hd : w.domains[i]? = some d) (d' : Domain) (st : MachineState) :
    (w.put i d' st).pooled.Perm (d'.pool.segments ++ (w.without i).pooled) :=
  (set_perm_eraseIdx hd d').flatMap_right _

theorem pooled_put_same {d' : Domain} (hd : w.domains[i]? = some d) (hpool : d'.pool = d.pool)
    (st : MachineState) : (w.put i d' st).pooled.Perm w.pooled := by
  have hput := pooled_put hd d' st
  rw [hpool] at hput
  exact hput.trans (pooled_perm hd).symm

/-! ### What a step does to the segments -/

/-- The segment that a call obtained, where `w'` are the stacks after it. -/
def obtained (w' : Stacks) : Call → Answer → Option Segment
  | .startMain i, .done => w'.domains[i]? >>= Domain.current?
  | .alloc _ _, .done | .allocNoExc _ _ _ _, .obtained true | .allocMain _ _, .obtained true =>
      w'.loose.getLast?
  | _, _ => none

/-- Segments stay apart, and those in use were in use before or are new. -/
structure Flow (w w' : Stacks) (new? : Option Segment) : Prop where
  separate : Segment.Separate w'.machine.space w'.segments
  held : ∀ t ∈ w'.held, new? = some t ∨ (t ∈ w.held ∧ ∀ s ∈ new?, s.high ≠ t.high)
  fresh : ∀ s ∈ new?, s.savedExn = 0 ∧ s.magic = segmentMagic

theorem separate_around (hsep : Segment.Separate w.machine.space w.segments)
    (hd : w.domains[i]? = some d) :
    Segment.Separate w.machine.space (w.held ++ (w.without i).pooled ++ d.pool.segments) := by
  have hpooled := pooled_perm hd
  exact hsep.perm (by grind [segments])

theorem Flow.of_held (hsep : Segment.Separate w'.machine.space w'.segments)
    (hheld : ∀ t ∈ w'.held, t ∈ w.held) : Flow w w' none :=
  ⟨hsep, fun t ht => .inr ⟨hheld t ht, by simp⟩, by simp⟩

theorem Flow.of_obtained {others : List Segment} {gone : List Segment}
    (hsep : Segment.Separate w'.machine.space (s :: (w.held ++ others)))
    (hperm : (s :: (w.held ++ others)).Perm (w'.segments ++ gone))
    (hheld : ∀ t ∈ w'.held, t = s ∨ t ∈ w.held)
    (hfresh : s.savedExn = 0 ∧ s.magic = segmentMagic) : Flow w w' (some s) where
  separate := hsep.of_perm_append hperm
  held := by
    intro t ht
    rcases hheld t ht with rfl | hmem
    · exact .inl rfl
    · refine .inr ⟨hmem, fun u hu => ?_⟩
      cases hu
      exact hsep.high_ne (List.mem_append_left _ hmem)
  fresh := by
    intro u hu
    cases hu
    exact hfresh

theorem Flow.of_moved {before after : List Chain}
    (hsep : Segment.Separate w.machine.space w.segments)
    (hspace : w'.machine.space = w.machine.space)
    (hpooled : w'.pooled.Perm w.pooled) (hchains : w.chains.Perm before)
    (hchains' : w'.chains.Perm after) (hmoved : before.flatten.Perm after.flatten) :
    Flow w w' none := by
  have hheld : w.held.Perm w'.held :=
    (hchains.flatten.trans hmoved).trans hchains'.symm.flatten
  refine .of_held ?_ fun t ht => hheld.mem_iff.mpr ht
  exact hspace ▸ hsep.perm (hheld.append hpooled.symm)

end Stacks

end FiberStacks
