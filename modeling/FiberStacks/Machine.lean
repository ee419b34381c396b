import FiberStacks.AddressSource.Ascending
import FiberStacks.Journal
import FiberStacks.NamedValue
import FiberStacks.Settings.Environment

/-!
# Process state

What all domains of a process share: memory, the journal, the counters that number fibers and
domains, the named values and the installed settings. Operations on it are in the monad `Machine`;
an operation that ends in an `Abort` leaves the state as it was at that moment, so what it wrote to
the journal is kept.
-/

namespace FiberStacks

structure MachineState where
  memory : Memory
  space : AddressSpace
  journal : Journal
  nextFiber : Nat
  nextDomain : Nat
  names : NamedValues
  settings : Option Settings

namespace MachineState

/-- A process that has just started, with its source of addresses. -/
def start (source : AddressSource) : MachineState :=
  { memory := Memory.blank, space := .unused source, journal := Journal.initial, nextFiber := 1,
    nextDomain := 1, names := NamedValues.empty, settings := none }

def initial : MachineState := start .ascending

end MachineState

abbrev Machine := EStateM Abort MachineState

/-- A check that fails ends the operation. -/
instance : MonadLift (Except Abort) Machine where
  monadLift
    | .ok a => pure a
    | .error e => throw e

namespace Machine

def memory : Machine Memory := return (← get).memory

def setMemory (m : Memory) : Machine Unit := modify fun r => { r with memory := m }

def modifyMemory (f : Memory → Memory) : Machine Unit :=
  modify fun r => { r with memory := f r.memory }

/-- Whether an entry of a level would be recorded or written. -/
def wouldLog (level : Level) : Machine Bool := return (← get).journal.wouldLog level

/-- Put an entry with fields into the journal, if its level passes. -/
def logFields (level : Level) (target : Target) (message : String)
    (fields : List (String × FieldValue)) : Machine Unit :=
  modify fun r =>
    { r with journal := r.journal.emit (r.journal.entry level target message fields) }

/-- Put an entry into the journal, if its level passes. -/
def log (level : Level) (target : Target) (message : String) : Machine Unit :=
  logFields level target message []

/-- Put an entry into the journal, whatever its level. -/
def logAlways (level : Level) (target : Target) (message : String)
    (fields : List (String × FieldValue)) : Machine Unit :=
  modify fun r =>
    { r with journal := r.journal.emitAlways (r.journal.entry level target message fields) }

/-- Log a violation, whatever the filter of the journal. -/
def logViolation (v : Violation) : Machine Unit :=
  logAlways .error .fatal v.report [("kind", .text v.describe)]

def fatal {α : Type} (v : Violation) : Machine α := do
  logViolation v
  throw (.violation v)

def freshFiber : Machine FiberId :=
  modifyGet fun r => (⟨r.nextFiber⟩, { r with nextFiber := r.nextFiber + 1 })

def freshDomain : Machine DomainId :=
  modifyGet fun r => (⟨r.nextDomain⟩, { r with nextDomain := r.nextDomain + 1 })

/-! ### Settings of the process -/

/-- Configure the process. Valid settings set the level and format of the journal; they are
installed unless settings were installed before. -/
def configure (s : Settings) : Machine (Except SettingsError Unit) := do
  match s.validate with
  | .error error => return .error error
  | .ok () =>
    modify fun r =>
      { r with
        journal := { r.journal with level := s.logLevel, format := s.logFormat }
        settings := r.settings.or (some s) }
    return .ok ()

/-! ### Named values -/

def register (name : String) (value : Word) : Machine Unit :=
  modify fun r => { r with names := r.names.register name value }

/-- The value of an exception. The process ends with status 2 if its name was never registered. -/
def resolve (e : NamedException) : Machine (Word × NamedException) := do
  match e.tryResolve (← get).names with
  | (some value, e) => return (value, e)
  | (none, e) =>
    modify fun r =>
      { r with journal := r.journal.writeLine ("Fatal error: exception " ++ e.name) }
    throw (.exit 2)

/-- Resolve every exception that the library needs. -/
def checkExceptions : Machine Unit :=
  NamedException.required.forM fun e => discard (resolve e)

def exceptionOf (error : StackError) : Machine Word :=
  return (← resolve (NamedException.named error.exceptionName)).1

/-- An effect that found no handler, with the value of the exception that reports it. -/
def unhandledEffect (effect : Word) : Machine (Word × Word) :=
  return ((← resolve NamedException.unhandled).1, effect)

end Machine

end FiberStacks
