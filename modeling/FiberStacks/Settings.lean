import FiberStacks.AddressSpace
import FiberStacks.Journal.Level
import FiberStacks.Segment
import FiberStacks.Text.Quoted

/-!
# Settings

Sizes of stacks, aids for debugging, the layout of the stacks to scan, and the journal. A valid
setting has fiber stacks that hold the words used between two checks, main stacks no smaller than
fiber stacks, and a maximum no smaller than main stacks.
-/

namespace FiberStacks

open Text

inductive ScanMode where
  | native
  | flat
  deriving DecidableEq

namespace ScanMode

def name : ScanMode → String
  | native => "Native"
  | flat => "Flat"

def parse? (text : String) : Option ScanMode :=
  match lower text with
  | "native" => some native
  | "flat" | "bytecode" => some flat
  | _ => none

end ScanMode

structure Settings where
  mainWords : Nat
  /-- Body words of a thread stack, or 0 to let the caller decide. -/
  threadWords : Nat
  /-- Body words of a fresh fiber segment and of the smallest pool class. -/
  fiberWords : Nat
  /-- The most body words of any segment. -/
  maxWords : Nat
  wipe : Bool
  framePointers : Bool
  scanMode : ScanMode
  logLevel : Level
  logFormat : LineFormat
  deriving DecidableEq

inductive SettingsError where
  | invalidValue (field message : String)
  | environmentValue (variableName message : String)
  deriving DecidableEq

namespace SettingsError

def message : SettingsError → String
  | invalidValue field message => s!"invalid configuration for '{field}': {message}"
  | environmentValue variableName message =>
    s!"failed to parse environment variable '{variableName}': {message}"

def kind : SettingsError → String
  | invalidValue .. => "InvalidValue"
  | environmentValue .. => "EnvParseError"

def describe (error : SettingsError) : String :=
  record error.kind <| match error with
    | invalidValue field message => [("field", quoted field), ("message", quoted message)]
    | environmentValue variableName message =>
      [("var", quoted variableName), ("message", quoted message)]

end SettingsError

namespace Settings

def standard : Settings :=
  { mainWords := 16384, threadWords := 0, fiberWords := 64, maxWords := 134217728, wipe := true,
    framePointers := false, scanMode := .native, logLevel := .info, logFormat := .plain }

/-- Check the constraints between sizes; the first one broken is reported. -/
def validate (s : Settings) : Except SettingsError Unit :=
  if s.fiberWords < stackThresholdWords then
    .error (.invalidValue "stack.fiber_wsize" s!"must be at least {stackThresholdWords} words")
  else if s.mainWords < s.fiberWords then
    .error (.invalidValue "stack.init_main_wsize" "must be at least fiber_wsize")
  else if s.maxWords < s.mainWords then
    .error (.invalidValue "stack.max_wsize" "must be at least init_main_wsize")
  else
    .ok ()

end Settings

end FiberStacks
