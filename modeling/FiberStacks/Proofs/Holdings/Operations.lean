import FiberStacks.Domain.Growth
import FiberStacks.Domain.Switch
import FiberStacks.Proofs.Pool
import FiberStacks.Proofs.Segment

/-!
# Everything that a process holds

A process has domains that come and go, continuations, and chains in the hands of callers. Segments
move between them, go on the lists of a pool and come back from there, and are given up in the end.
Here are all operations that move segments, for callers that do in between with their own segments,
with memory and with the registers of domains what they like.
-/

namespace FiberStacks

/-- The rest of the process goes on. It may take addresses, as those of its own stacks, and fiber
numbers and domain numbers, but makes no segments. -/
structure MachineState.Proceeds (r r' : MachineState) : Prop where
  grows : r.space.Grows r'.space
  segments : r'.space.segments = r.space.segments
  fibers : r.nextFiber ≤ r'.nextFiber
  domains : r.nextDomain ≤ r'.nextDomain

/-- An operation. Domains, continuations and chains go by their places in the lists of them. -/
inductive Operation where
  | createDomain (settings : Settings)
  | createDefault
  | dropDomain (i : Nat)
  | startMain (i : Nat)
  | alloc (i : Nat) (h : Handlers)
  | allocNoExc (i words : Nat) (h : Handlers) (id : FiberId)
  | free (i j : Nat)
  | runFiber (i j : Nat)
  | returnFromFiber (i : Nat)
  | capture (i depth : Nat)
  | resume (i j : Nat) (h : Handlers)
  | dropContinuation (i j : Nat)
  | tryRealloc (i required : Nat)
  | newContinuation (j : Nat)
  | emptyContinuation
  | take (j : Nat)
  | takeRebound (j : Nat) (h : Handlers)
  | replace (j k : Nat)
  /-- A continuation that may still hold a chain is dropped. -/
  | forget (j : Nat)
  /-- A chain in the hands of a caller is dropped. -/
  | letGo (j : Nat)
  /-- The running segment pushes and pops. -/
  | work (i : Nat)
  /-- A caller prepares the stack of a fiber. -/
  | prepare (j : Nat)
  /-- A caller links and cuts chains. -/
  | rearrange
  /-- Registers and limits of a domain change. -/
  | adjust (i : Nat)
  /-- Memory changes, and the rest of the process goes on. -/
  | elsewhere

namespace Operation

/-- The fiber numbers that the caller makes up. -/
def ids : Operation → List FiberId
  | allocNoExc _ _ _ id => [id]
  | _ => []

end Operation

structure Holdings where
  machine : MachineState
  domains : List Domain
  continuations : List Continuation
  /-- The chains in the hands of callers. -/
  hands : List Chain
  /-- The segments whose memory was given up, in the order of the operations that did so. -/
  released : List Segment

namespace Holdings

def start (source : AddressSource) : Holdings := ⟨.start source, [], [], [], []⟩

def put (w : Holdings) (i : Nat) (d : Domain) (st : MachineState) : Holdings :=
  { w with machine := st, domains := w.domains.set i d }

/-- Operations that come to an end. What an operation gives up is told by what it lets go of: a
chain that another takes the place of, the parents of a segment that is run, what goes with a domain
or a continuation, and whatever is freed and not kept by the pool. -/
inductive Step (w : Holdings) : Operation → Holdings → Prop
  | createDomain {settings : Settings} {d : Domain} {st : MachineState} :
      Domain.create settings w.machine = .ok d st →
      Step w (.createDomain settings) { w with machine := st, domains := w.domains ++ [d] }
  | createDefault {d : Domain} {st : MachineState} :
      Domain.createDefault w.machine = .ok d st →
      Step w .createDefault { w with machine := st, domains := w.domains ++ [d] }
  | dropDomain {i : Nat} {d d' : Domain} {gone : List Segment} :
      w.domains[i]? = some d → d.drop = (gone, d') →
      Step w (.dropDomain i)
        { w with domains := w.domains.eraseIdx i, released := w.released ++ gone }
  | startMain {i : Nat} {d d' : Domain} {st : MachineState} :
      w.domains[i]? = some d → d.startMain w.machine = .ok (.ok (), d') st →
      Step w (.startMain i) ({ w with released := w.released ++ d.running }.put i d' st)
  | startMainFailed {i : Nat} {d d' : Domain} {e : StackError} {st : MachineState} :
      w.domains[i]? = some d → d.startMain w.machine = .ok (.error e, d') st →
      Step w (.startMain i) (w.put i d' st)
  | alloc {i : Nat} {d d' : Domain} {h : Handlers} {r : Except StackError Segment}
      {st : MachineState} :
      w.domains[i]? = some d → d.alloc h w.machine = .ok (r, d') st →
      Step w (.alloc i h)
        ({ w with hands := w.hands ++ r.toOption.toList.map fun s => [s] }.put i d' st)
  | allocNoExc {i words : Nat} {d d' : Domain} {h : Handlers} {id : FiberId} {s? : Option Segment}
      {st : MachineState} :
      w.domains[i]? = some d → d.allocNoExc words h id w.machine = .ok (s?, d') st →
      Step w (.allocNoExc i words h id)
        ({ w with hands := w.hands ++ s?.toList.map fun s => [s] }.put i d' st)
  | free {i j : Nat} {d d' : Domain} {chain : Chain} {st : MachineState} :
      w.domains[i]? = some d → w.hands[j]? = some chain → d.free chain w.machine = .ok d' st →
      Step w (.free i j)
        ({ w with
          hands := w.hands.eraseIdx j
          released := w.released ++ d.pool.refused chain }.put i d' st)
  | runFiber {i j : Nat} {d d' : Domain} {s : Segment} {outer : Chain} {st : MachineState} :
      w.domains[i]? = some d → w.hands[j]? = some (s :: outer) →
      d.runFiber s w.machine = .ok d' st →
      Step w (.runFiber i j)
        ({ w with hands := w.hands.eraseIdx j, released := w.released ++ outer }.put i d' st)
  | returnFromFiber {i : Nat} {d d' : Domain} {h : Handlers} {st : MachineState} :
      w.domains[i]? = some d → d.returnFromFiber w.machine = .ok (some h, d') st →
      Step w (.returnFromFiber i)
        ({ w with released := w.released ++ d.pool.refused (d.running.take 1) }.put i d' st)
  | returnRefused {i : Nat} {d d' : Domain} {st : MachineState} :
      w.domains[i]? = some d → d.returnFromFiber w.machine = .ok (none, d') st →
      Step w (.returnFromFiber i) (w.put i d' st)
  | capture {i depth : Nat} {d d' : Domain} {k? : Option Continuation} {st : MachineState} :
      w.domains[i]? = some d → d.capture depth w.machine = .ok (k?, d') st →
      Step w (.capture i depth)
        ({ w with continuations := w.continuations ++ k?.toList }.put i d' st)
  | resume {i j : Nat} {d d' : Domain} {k k' : Continuation} {h : Handlers}
      {r : Except StackError Unit} {st : MachineState} :
      w.domains[i]? = some d → w.continuations[j]? = some k →
      d.resume k h w.machine = .ok (r, d', k') st →
      Step w (.resume i j h)
        ({ w with continuations := w.continuations.set j k' }.put i d' st)
  | dropContinuation {i j : Nat} {d d' : Domain} {k k' : Continuation}
      {r : Except StackError Unit} {st : MachineState} :
      w.domains[i]? = some d → w.continuations[j]? = some k →
      d.dropContinuation k w.machine = .ok (r, d', k') st →
      Step w (.dropContinuation i j)
        ({ w with
          continuations := w.continuations.set j k'
          released := w.released ++ d.pool.refused k.stored }.put i d' st)
  | grow {i required : Nat} {d d' : Domain} {st : MachineState} :
      w.domains[i]? = some d → d.tryRealloc required w.machine = .ok (true, d') st →
      Step w (.tryRealloc i required)
        ({ w with released := w.released ++ d.pool.refused (d.running.take 1) }.put i d' st)
  | growFailed {i required : Nat} {d d' : Domain} {st : MachineState} :
      w.domains[i]? = some d → d.tryRealloc required w.machine = .ok (false, d') st →
      Step w (.tryRealloc i required) (w.put i d' st)
  | newContinuation {j : Nat} {chain : Chain} :
      w.hands[j]? = some chain →
      Step w (.newContinuation j)
        { w with
          continuations := w.continuations ++ [.ofChain chain]
          hands := w.hands.eraseIdx j }
  | emptyContinuation :
      Step w .emptyContinuation { w with continuations := w.continuations ++ [.empty] }
  | take {j : Nat} {k k' : Continuation} {r : Except StackError Chain} {st : MachineState} :
      w.continuations[j]? = some k → k.take w.machine = .ok (r, k') st →
      Step w (.take j)
        { w with
          machine := st
          continuations := w.continuations.set j k'
          hands := w.hands ++ r.toOption.toList }
  | takeRebound {j : Nat} {k k' : Continuation} {h : Handlers} {r : Except StackError Chain}
      {st : MachineState} :
      w.continuations[j]? = some k → k.takeRebound h w.machine = .ok (r, k') st →
      Step w (.takeRebound j h)
        { w with
          machine := st
          continuations := w.continuations.set j k'
          hands := w.hands ++ r.toOption.toList }
  | replace {j l : Nat} {k k' : Continuation} {chain : Chain} {st : MachineState} :
      w.continuations[j]? = some k → w.hands[l]? = some chain →
      k.replace chain w.machine = .ok k' st →
      Step w (.replace j l)
        { w with
          machine := st
          continuations := w.continuations.set j k'
          hands := w.hands.eraseIdx l }
  | forget {j : Nat} {k k' : Continuation} {chain : Chain} :
      w.continuations[j]? = some k → k.drop = (chain, k') →
      Step w (.forget j)
        { w with
          continuations := w.continuations.eraseIdx j
          released := w.released ++ chain }
  | letGo {j : Nat} {chain : Chain} :
      w.hands[j]? = some chain →
      Step w (.letGo j)
        { w with hands := w.hands.eraseIdx j, released := w.released ++ chain }
  | work {i sp : Nat} {d : Domain} {s : Segment} {outer : Chain} :
      w.domains[i]? = some d → d.running = s :: outer → ({ s with sp } : Segment).Formed →
      Step w (.work i) (w.put i (d.setCurrent { s with sp }) w.machine)
  | prepare {j sp savedExn : Nat} {s : Segment} {outer : Chain} :
      w.hands[j]? = some (s :: outer) → ({ s with sp, savedExn } : Segment).Formed →
      Step w (.prepare j) { w with hands := w.hands.set j ({ s with sp, savedExn } :: outer) }
  | rearrange {hands : List Chain} :
      hands.flatten.Perm w.hands.flatten → Step w .rearrange { w with hands }
  | adjust {i : Nat} {d d' : Domain} :
      w.domains[i]? = some d → d'.id = d.id → d'.policy = d.policy → d'.pool = d.pool →
      d'.running = d.running → Step w (.adjust i) (w.put i d' w.machine)
  | elsewhere {st : MachineState} :
      w.machine.Proceeds st → Step w .elsewhere { w with machine := st }

/-- A run of operations, one after the other. -/
inductive Run : Holdings → List Operation → Holdings → Prop
  | nil {w : Holdings} : Run w [] w
  | cons {w w' w'' : Holdings} {op : Operation} {ops : List Operation} :
      Step w op w' → Run w' ops w'' → Run w (op :: ops) w''

/-! ### Where the segments are -/

def running (w : Holdings) : List Segment := w.domains.flatMap Domain.running

def stored (w : Holdings) : List Segment := w.continuations.flatMap Continuation.stored

def inHands (w : Holdings) : List Segment := w.hands.flatten

def pooled (w : Holdings) : List Segment := w.domains.flatMap fun d => d.pool.segments

/-- The segments that are in use. -/
def held (w : Holdings) : List Segment := w.running ++ w.stored ++ w.inHands

/-- All segments there ever were. -/
def everything (w : Holdings) : List Segment := w.held ++ w.pooled ++ w.released

end Holdings

end FiberStacks
