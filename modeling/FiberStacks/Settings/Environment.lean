import FiberStacks.Settings
import FiberStacks.Text.Number

/-!
# Settings from the environment

Each setting has a variable. A variable that is unset, is not valid UTF-8, does not read as a value
of its kind, or is a size below the bound in force when it is read, leaves its setting alone.
-/

namespace FiberStacks

open Text

/-- The values of environment variables, as bytes. -/
abbrev Environment := String → Option ByteArray

namespace Environment

/-- The value of a variable, if it is text. -/
def text? (env : Environment) (name : String) : Option String := do
  String.fromUTF8? (← env name)

/-- The value of a variable, if it is a size. -/
def size? (env : Environment) (name : String) : Option Nat := do
  parseSize? (← env.text? name)

/-- The value of a variable, if it is a truth value in any case. -/
def boolean? (env : Environment) (name : String) : Option Bool := do
  match lower (← env.text? name) with
  | "true" | "1" | "yes" | "on" => some true
  | "false" | "0" | "no" | "off" => some false
  | _ => none

end Environment

namespace Settings

/-- Settings with one changed, if there is a value for it. -/
def withValue {α : Type} (s : Settings) (value : Option α) (set : Settings → α → Settings) :
    Settings :=
  match value with
  | some v => set s v
  | none => s

/-- Settings with a size changed, if there is one and it is no less than `least`. -/
def withSize (s : Settings) (value : Option Nat) (least : Nat) (set : Settings → Nat → Settings) :
    Settings :=
  s.withValue (value.filter (least ≤ ·)) set

/-- The standard settings as changed by the environment. The sizes are read from the smallest to the
largest, and each is compared with the one before it. -/
def ofEnvironment (env : Environment) : Settings :=
  let s := standard
  let s := s.withSize (env.size? "CACTUS_FIBER_WSIZE") stackThresholdWords
    fun s n => { s with fiberWords := n }
  let s := s.withSize (env.size? "CACTUS_INIT_MAIN_STACK_WSIZE") s.fiberWords
    fun s n => { s with mainWords := n }
  let s := s.withValue (env.size? "CACTUS_INIT_THREAD_STACK_WSIZE")
    fun s n => { s with threadWords := n }
  let s := s.withSize (env.size? "CACTUS_MAX_STACK_WSIZE") s.mainWords
    fun s n => { s with maxWords := n }
  let s := s.withValue (env.boolean? "CACTUS_DEBUG_WIPE") fun s b => { s with wipe := b }
  let s := s.withValue (env.boolean? "CACTUS_FRAME_POINTERS")
    fun s b => { s with framePointers := b }
  let s := s.withValue ((env.text? "CACTUS_SCAN_MODE").bind ScanMode.parse?)
    fun s mode => { s with scanMode := mode }
  let s := s.withValue ((env.text? "CACTUS_LOG_LEVEL").bind Level.parse?)
    fun s level => { s with logLevel := level }
  s.withValue ((env.text? "CACTUS_LOG_FORMAT").bind LineFormat.parse?)
    fun s format => { s with logFormat := format }

end Settings

end FiberStacks
