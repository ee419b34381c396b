import FiberStacks.Journal.Entry

/-!
# Journal

The journal of the process: a filter by level, a format, and where entries go. Entries are written
to standard error as lines, unless a capture is active, which records every entry instead and passes
all levels. A capture remembers what was active before it and gives that back when it is released,
in whatever order captures are released.
-/

namespace FiberStacks

structure Capture where
  sink : Nat
  previous : Option Nat
  deriving DecidableEq

structure Journal where
  level : Level
  format : LineFormat
  enabled : Bool
  /-- The time stamped on new entries, in milliseconds. -/
  now : Nat
  sinks : Array (Array Entry)
  active : Option Nat
  lines : Array String

namespace Journal

def initial : Journal :=
  { level := .info, format := .plain, enabled := true, now := 0, sinks := #[], active := none,
    lines := #[] }

/-- Whether an entry of a level is recorded or written. -/
def wouldLog (j : Journal) (level : Level) : Bool :=
  j.active.isSome || (j.enabled && level != .off && j.level.rank ≤ level.rank)

/-- Record or write an entry, whatever its level. -/
def emitAlways (j : Journal) (e : Entry) : Journal :=
  match j.active with
  | some sink => { j with sinks := j.sinks.modify sink (·.push e) }
  | none => { j with lines := j.lines.push (e.render j.format) }

def emit (j : Journal) (e : Entry) : Journal :=
  if j.wouldLog e.level then j.emitAlways e else j

def entry (j : Journal) (level : Level) (target : Target) (message : String)
    (fields : List (String × FieldValue)) : Entry :=
  { level, target, message, fields, timestamp := j.now }

def writeLine (j : Journal) (line : String) : Journal :=
  { j with lines := j.lines.push line }

def capture (j : Journal) : Capture × Journal :=
  let sink := j.sinks.size
  (⟨sink, j.active⟩, { j with sinks := j.sinks.push #[], active := some sink })

def release (j : Journal) (c : Capture) : Journal :=
  { j with active := c.previous }

def entries (j : Journal) (c : Capture) : List Entry :=
  match j.sinks[c.sink]? with
  | some entries => entries.toList
  | none => []

def mentions (j : Journal) (c : Capture) (needle : String) : Bool :=
  (j.entries c).any fun e => e.message.contains needle

end Journal

end FiberStacks
