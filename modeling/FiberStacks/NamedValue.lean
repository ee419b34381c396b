import FiberStacks.Word

/-!
# Named values

Values are registered under names, and exceptions are looked up by name. Every name owns a cell from
its first registration on. A later registration writes the same cell, so whoever found the cell
before sees the new value.
-/

namespace FiberStacks

structure NamedValues where
  /-- The cell of each name, newest name first. -/
  names : List (String × Nat)
  cells : Array Word

namespace NamedValues

def empty : NamedValues := ⟨[], #[]⟩

def cell? (t : NamedValues) (name : String) : Option Nat :=
  t.names.lookup name

def cellValue (t : NamedValues) (cell : Nat) : Word :=
  t.cells.getD cell Word.null

/-- Register a value under a name, in place of any earlier one. -/
def register (t : NamedValues) (name : String) (value : Word) : NamedValues :=
  match t.cell? name with
  | some cell => { t with cells := t.cells.setIfInBounds cell value }
  | none => { names := (name, t.cells.size) :: t.names, cells := t.cells.push value }

/-- The values of a list registered one after the other. -/
def ofList (values : List (String × Word)) : NamedValues :=
  values.foldl (fun t (name, value) => t.register name value) empty

def value? (t : NamedValues) (name : String) : Option Word :=
  (t.cell? name).map t.cellValue

end NamedValues

/-- An exception that is looked up by name and remembers the cell that it found. -/
structure NamedException where
  name : String
  cell : Option Nat
  deriving DecidableEq

namespace NamedException

def named (name : String) : NamedException := ⟨name, none⟩

def continuationAlreadyResumed : NamedException := named "Effect.Continuation_already_resumed"

def unhandled : NamedException := named "Effect.Unhandled"

def stackOverflow : NamedException := named "Stack_overflow"

def outOfMemory : NamedException := named "Out_of_memory"

/-- The exceptions that the library itself needs, in the order in which they are checked. -/
def required : List NamedException :=
  [continuationAlreadyResumed, unhandled, stackOverflow, outOfMemory]

/-- The value of the exception, and the exception as it is after the look-up. The table is searched
only until a cell is found. -/
def tryResolve (e : NamedException) (t : NamedValues) : Option Word × NamedException :=
  match e.cell with
  | some cell => (some (t.cellValue cell), e)
  | none =>
    match t.cell? e.name with
    | some cell => (some (t.cellValue cell), { e with cell := some cell })
    | none => (none, e)

end NamedException

end FiberStacks
