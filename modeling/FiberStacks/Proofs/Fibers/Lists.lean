import FiberStacks.Proofs.Fibers.Stacks

/-!
# Lists of fibers

Switching as a program sees it: a thread runs a list of fibers, a continuation holds a list of
fibers, and calls take lists apart and put them together. There is no memory and there are no
segments here.
-/

namespace FiberStacks

/-- The fibers that a domain runs, innermost first, and its registers. -/
structure Thread where
  fibers : List Fiber
  exnHandler : Nat
  asyncExnHandler : Nat
  framePointer : Nat
  links : List NativeLink
  deriving DecidableEq

/-- The thread goes on with other fibers, and with the exception handler of the innermost one. -/
def Thread.run (t : Thread) (fs : List Fiber) : Thread :=
  { t with fibers := fs, exnHandler := (fs.head?.map Fiber.exnHandler).getD 0 }

structure Fibers where
  threads : List Thread
  /-- The fibers of each continuation, none once they were taken. -/
  suspended : List (List Fiber)
  loose : List Fiber
  deriving DecidableEq

namespace Fibers

def put (l : Fibers) (i : Nat) (t : Thread) : Fibers :=
  { l with threads := l.threads.set i t }

/-- What each call does to lists of fibers. A call that is refused does nothing. -/
inductive Step (l : Fibers) : Call → Answer → Fibers → Prop
  | startMain {i : Nat} {t : Thread} :
      l.threads[i]? = some t →
      Step l (.startMain i) .done (l.put i (t.run [.fresh .main .unit]))
  | startMainFailed {i words : Nat} : Step l (.startMain i) (.failed (.outOfMemory words)) l
  | alloc {i : Nat} {h : Handlers} (id : FiberId) :
      Step l (.alloc i h) .done { l with loose := l.loose ++ [.fresh id h] }
  | allocFailed {i words : Nat} {h : Handlers} :
      Step l (.alloc i h) (.failed (.outOfMemory words)) l
  | allocNoExc {i words : Nat} {h : Handlers} {id : FiberId} :
      Step l (.allocNoExc i words h id) (.obtained true)
        { l with loose := l.loose ++ [.fresh id h] }
  | allocNoExcFailed {i words : Nat} {h : Handlers} {id : FiberId} :
      Step l (.allocNoExc i words h id) (.obtained false) l
  | allocMain {i words : Nat} :
      Step l (.allocMain i words) (.obtained true)
        { l with loose := l.loose ++ [.fresh .main .unit] }
  | allocMainFailed {i words : Nat} : Step l (.allocMain i words) (.obtained false) l
  | runFiber {i j : Nat} {t : Thread} {f : Fiber} :
      l.threads[i]? = some t → l.loose[j]? = some f →
      Step l (.runFiber i j) .done
        ({ l with loose := l.loose.eraseIdx j }.put i (t.run (f :: t.fibers)))
  | returnFromFiber {i : Nat} {t : Thread} {f g : Fiber} {outer : List Fiber} :
      l.threads[i]? = some t → t.fibers = f :: g :: outer →
      Step l (.returnFromFiber i) (.returned (some f.handlers)) (l.put i (t.run (g :: outer)))
  | returnRefused {i : Nat} {t : Thread} :
      l.threads[i]? = some t → t.fibers.length < 2 → Step l (.returnFromFiber i) (.returned none) l
  | capture {i depth : Nat} {t : Thread} :
      l.threads[i]? = some t → 0 < depth → depth < t.fibers.length →
      Step l (.capture i depth) (.captured true)
        ({ l with suspended := l.suspended ++ [t.fibers.take depth] }.put i
          (t.run (t.fibers.drop depth)))
  | captureRefused {i depth : Nat} {t : Thread} :
      l.threads[i]? = some t → ¬ (0 < depth ∧ depth < t.fibers.length) →
      Step l (.capture i depth) (.captured false) l
  | resume {i j : Nat} {t : Thread} {fs : List Fiber} {h : Handlers} :
      l.threads[i]? = some t → l.suspended[j]? = some fs → fs ≠ [] →
      Step l (.resume i j h) .done
        ({ l with suspended := l.suspended.set j [] }.put i (t.run (Fiber.rebind fs h ++ t.fibers)))
  | resumeRefused {i j : Nat} {h : Handlers} :
      l.suspended[j]? = some [] →
      Step l (.resume i j h) (.failed .continuationAlreadyResumed) l
  | free {i j : Nat} {f : Fiber} :
      l.loose[j]? = some f → Step l (.free i j) .done { l with loose := l.loose.eraseIdx j }
  | dropContinuation {i j : Nat} {fs : List Fiber} :
      l.suspended[j]? = some fs → fs ≠ [] →
      Step l (.dropContinuation i j) .done { l with suspended := l.suspended.set j [] }
  | dropRefused {i j : Nat} :
      l.suspended[j]? = some [] →
      Step l (.dropContinuation i j) (.failed .continuationAlreadyResumed) l

end Fibers

/-! ### The fibers of stacks -/

namespace Domain

def thread (m : Memory) (d : Domain) : Thread :=
  ⟨Chain.fibers m d.suspended, d.exnHandler, d.asyncExnHandler, d.framePointer, d.links⟩

theorem thread_run (m : Memory) (d : Domain) (c : Chain) :
    (d.run c).thread m = (d.thread m).run (Chain.fibers m c) := by
  rw [thread, suspended_run]
  cases c <;> rfl

theorem length_fibers (m : Memory) (d : Domain) :
    (d.thread m).fibers.length = d.suspended.length :=
  List.length_map _

variable {m : Memory} {d : Domain} {s : Segment} {xs ys : Chain}

theorem take_fibers (hcut : d.suspended = xs ++ s :: ys) :
    (d.thread m).fibers.take (xs.length + 1) = Chain.fibers m (xs ++ [s]) := by
  rw [thread, Chain.fibers, ← List.map_take, hcut, List.append_cons]
  exact congrArg (Chain.fibers m) (List.take_left' List.length_append)

theorem drop_fibers (hcut : d.suspended = xs ++ s :: ys) :
    (d.thread m).fibers.drop (xs.length + 1) = Chain.fibers m ys := by
  rw [thread, Chain.fibers, ← List.map_drop, hcut, List.append_cons]
  exact congrArg (Chain.fibers m) (List.drop_left' List.length_append)

end Domain

namespace Stacks

def fibersIn (w : Stacks) (m : Memory) : Fibers where
  threads := w.domains.map (Domain.thread m)
  suspended := w.continuations.map fun k => Chain.fibers m k.stored
  loose := w.loose.map (Segment.fiber m)

def fibers (w : Stacks) : Fibers := w.fibersIn w.machine.memory

variable {w : Stacks} {m m' : Memory} {i j : Nat} {d : Domain} {k : Continuation} {s : Segment}

theorem fibersIn_congr (h : ∀ s ∈ w.held, s.fiber m' = s.fiber m) :
    w.fibersIn m' = w.fibersIn m := by
  have hchain : ∀ c ∈ w.chains, Chain.fibers m' c = Chain.fibers m c := fun c hc =>
    Chain.fibers_congr fun s hs => h s (List.mem_flatten_of_mem hc hs)
  unfold fibersIn
  congr 1
  · refine List.map_congr_left fun d hd => ?_
    rw [Domain.thread, Domain.thread, hchain d.suspended (by grind [chains])]
  · exact List.map_congr_left fun k hk => hchain k.stored (by grind [chains])
  · refine List.map_congr_left fun s hs => h s ?_
    exact List.mem_flatten_of_mem (show [s] ∈ w.chains by grind [chains]) List.mem_cons_self

theorem fibersIn_put (w : Stacks) (i : Nat) (d : Domain) (st : MachineState) (m : Memory) :
    (w.put i d st).fibersIn m = (w.fibersIn m).put i (d.thread m) := by
  simp only [fibersIn, put, Fibers.put, List.map_set]

theorem fibersIn_append_loose (w : Stacks) (s : Segment) (m : Memory) :
    { w with loose := w.loose ++ [s] }.fibersIn m =
      { w.fibersIn m with loose := (w.fibersIn m).loose ++ [s.fiber m] } := by
  simp only [fibersIn, List.map_append, List.map_singleton]

theorem fibersIn_erase_loose (w : Stacks) (j : Nat) (m : Memory) :
    { w with loose := w.loose.eraseIdx j }.fibersIn m =
      { w.fibersIn m with loose := (w.fibersIn m).loose.eraseIdx j } := by
  simp only [fibersIn, List.eraseIdx_map]

theorem fibersIn_append_continuation (w : Stacks) (k : Continuation) (m : Memory) :
    { w with continuations := w.continuations ++ [k] }.fibersIn m =
      { w.fibersIn m with
        suspended := (w.fibersIn m).suspended ++ [Chain.fibers m k.stored] } := by
  simp only [fibersIn, List.map_append, List.map_singleton]

theorem fibersIn_set_continuation (w : Stacks) (j : Nat) (k : Continuation) (m : Memory) :
    { w with continuations := w.continuations.set j k }.fibersIn m =
      { w.fibersIn m with
        suspended := (w.fibersIn m).suspended.set j (Chain.fibers m k.stored) } := by
  simp only [fibersIn, List.map_set]

theorem getElem?_threads (hd : w.domains[i]? = some d) (m : Memory) :
    (w.fibersIn m).threads[i]? = some (d.thread m) := by
  simp [fibersIn, hd]

theorem getElem?_suspended (hk : w.continuations[j]? = some k) (m : Memory) :
    (w.fibersIn m).suspended[j]? = some (Chain.fibers m k.stored) := by
  simp [fibersIn, hk]

theorem getElem?_loose (hs : w.loose[j]? = some s) (m : Memory) :
    (w.fibersIn m).loose[j]? = some (s.fiber m) := by
  simp [fibersIn, hs]

theorem put_thread (hd : w.domains[i]? = some d) (m : Memory) :
    (w.fibersIn m).put i (d.thread m) = w.fibersIn m := by
  have ht := getElem?_threads hd m
  obtain ⟨hi, heq⟩ := List.getElem?_eq_some_iff.mp ht
  unfold Fibers.put
  rw [← heq, List.set_getElem_self]

end Stacks

end FiberStacks
