import FiberStacks.Machine
import Mathlib.Tactic.Common

/-!
# When the environment makes valid settings

Sizes are read from the smallest to the largest. Each is compared with the one below it when it is
read, but a size that is not read keeps its standard value, whatever was read below it. So a
variable can raise one size above the standard value of the next, and then the settings are not
valid. Nothing else makes them so, and a variable that is refused is as good as unset.
-/

namespace FiberStacks

namespace Environment

/-- The value of a variable, if it is a size and no less than `least`. -/
def sizeFrom? (env : Environment) (least : Nat) (name : String) : Option Nat :=
  (env.size? name).filter (least ≤ ·)

/-! ### Sizes in force -/

def readFiberWords? (env : Environment) : Option Nat :=
  env.sizeFrom? stackThresholdWords "CACTUS_FIBER_WSIZE"

def fiberWords (env : Environment) : Nat := env.readFiberWords?.getD Settings.standard.fiberWords

def readMainWords? (env : Environment) : Option Nat :=
  env.sizeFrom? env.fiberWords "CACTUS_INIT_MAIN_STACK_WSIZE"

def mainWords (env : Environment) : Nat := env.readMainWords?.getD Settings.standard.mainWords

def readMaxWords? (env : Environment) : Option Nat :=
  env.sizeFrom? env.mainWords "CACTUS_MAX_STACK_WSIZE"

def maxWords (env : Environment) : Nat := env.readMaxWords?.getD Settings.standard.maxWords

/-- A size was read that is above the standard value of the next one, and no variable raises the
next one to it. -/
def Exceeds (env : Environment) (read? : Option Nat) (next : String) (standard : Nat) : Prop :=
  ∃ n, read? = some n ∧ standard < n ∧ env.sizeFrom? n next = none

/-- The fiber size that was read exceeds the main size. -/
def FiberExceeds (env : Environment) : Prop :=
  env.Exceeds env.readFiberWords? "CACTUS_INIT_MAIN_STACK_WSIZE" Settings.standard.mainWords

/-- The main size that was read exceeds the maximum. -/
def MainExceeds (env : Environment) : Prop :=
  env.Exceeds env.readMainWords? "CACTUS_MAX_STACK_WSIZE" Settings.standard.maxWords

/-! ### Variables that are refused -/

def unset (env : Environment) (name : String) : Environment :=
  fun other => if other = name then none else env other

/-- The variable is unset, is no text, does not read as a value of its kind, or is a size below its
bound. -/
inductive Refuses (env : Environment) : String → Prop
  | fiberWords : env.readFiberWords? = none → Refuses env "CACTUS_FIBER_WSIZE"
  | mainWords : env.readMainWords? = none → Refuses env "CACTUS_INIT_MAIN_STACK_WSIZE"
  | threadWords :
      env.size? "CACTUS_INIT_THREAD_STACK_WSIZE" = none →
      Refuses env "CACTUS_INIT_THREAD_STACK_WSIZE"
  | maxWords : env.readMaxWords? = none → Refuses env "CACTUS_MAX_STACK_WSIZE"
  | wipe : env.boolean? "CACTUS_DEBUG_WIPE" = none → Refuses env "CACTUS_DEBUG_WIPE"
  | framePointers :
      env.boolean? "CACTUS_FRAME_POINTERS" = none → Refuses env "CACTUS_FRAME_POINTERS"
  | scanMode :
      (env.text? "CACTUS_SCAN_MODE").bind ScanMode.parse? = none → Refuses env "CACTUS_SCAN_MODE"
  | logLevel :
      (env.text? "CACTUS_LOG_LEVEL").bind Level.parse? = none → Refuses env "CACTUS_LOG_LEVEL"
  | logFormat :
      (env.text? "CACTUS_LOG_FORMAT").bind LineFormat.parse? = none →
      Refuses env "CACTUS_LOG_FORMAT"

variable {env : Environment} {least standard : Nat} {name other : String}

theorem text?_unset :
    (env.unset name).text? other = if other = name then none else env.text? other := by
  unfold text? unset
  split <;> rfl

theorem size?_unset :
    (env.unset name).size? other = if other = name then none else env.size? other := by
  unfold size?
  rw [text?_unset]
  split <;> rfl

theorem boolean?_unset :
    (env.unset name).boolean? other = if other = name then none else env.boolean? other := by
  unfold boolean?
  rw [text?_unset]
  split <;> rfl

theorem sizeFrom?_unset : (env.unset name).sizeFrom? least other =
    if other = name then none else env.sizeFrom? least other := by
  unfold sizeFrom?
  rw [size?_unset]
  split <;> rfl

theorem le_of_sizeFrom? {n : Nat} (h : env.sizeFrom? least name = some n) : least ≤ n := by
  obtain ⟨-, hle⟩ := Option.filter_eq_some_iff.mp h
  exact of_decide_eq_true hle

/-- The next size is below one in force exactly if that one was read and exceeds it. -/
theorem getD_lt_iff_exceeds {read? : Option Nat} {low : Nat} (hlow : low ≤ standard) :
    (env.sizeFrom? (read?.getD low) name).getD standard < read?.getD low ↔
      env.Exceeds read? name standard := by
  unfold Exceeds
  cases hnext : env.sizeFrom? (read?.getD low) name with
  | some n =>
      have hle := le_of_sizeFrom? hnext
      refine iff_of_false (Nat.not_lt.mpr hle) ?_
      rintro ⟨m, rfl, -, hnone⟩
      cases hnext.symm.trans hnone
  | none =>
      cases read? with
      | none => exact iff_of_false (Nat.not_lt.mpr hlow) (by rintro ⟨_, ⟨⟩, _⟩)
      | some n =>
          constructor
          · exact fun hlt => ⟨n, rfl, hlt, hnext⟩
          · rintro ⟨_, ⟨⟩, hlt, -⟩
            exact hlt

theorem mainWords_lt_iff : env.mainWords < env.fiberWords ↔ env.FiberExceeds :=
  getD_lt_iff_exceeds (by decide)

theorem maxWords_lt_iff : env.maxWords < env.mainWords ↔ env.MainExceeds :=
  getD_lt_iff_exceeds (by decide)

theorem threshold_le_fiberWords (env : Environment) : stackThresholdWords ≤ env.fiberWords := by
  unfold fiberWords
  cases hread : env.readFiberWords? with
  | none => decide
  | some n => exact le_of_sizeFrom? hread

end Environment

namespace Settings

variable {env : Environment} {name : String}

/-! ### Settings that are read -/

variable {α : Type} {set : Settings → α → Settings}

theorem withValue_eq (get : Settings → α) (h : ∀ s, set s (get s) = s) (s : Settings)
    (value : Option α) : s.withValue value set = set s (value.getD (get s)) := by
  cases value with
  | none => exact (h s).symm
  | some v => rfl

/-- Each setting is what its variable reads as, with the sizes in force as bounds. -/
theorem ofEnvironment_eq (env : Environment) : ofEnvironment env =
    ((((((((standard.withValue env.readFiberWords? fun s n => { s with fiberWords := n }).withValue
      env.readMainWords? fun s n => { s with mainWords := n }).withValue
      (env.size? "CACTUS_INIT_THREAD_STACK_WSIZE") fun s n => { s with threadWords := n }).withValue
      env.readMaxWords? fun s n => { s with maxWords := n }).withValue
      (env.boolean? "CACTUS_DEBUG_WIPE") fun s b => { s with wipe := b }).withValue
      (env.boolean? "CACTUS_FRAME_POINTERS") fun s b => { s with framePointers := b }).withValue
      ((env.text? "CACTUS_SCAN_MODE").bind ScanMode.parse?)
        fun s mode => { s with scanMode := mode }).withValue
      ((env.text? "CACTUS_LOG_LEVEL").bind Level.parse?)
        fun s level => { s with logLevel := level }).withValue
      ((env.text? "CACTUS_LOG_FORMAT").bind LineFormat.parse?)
        fun s format => { s with logFormat := format } := by
  have hfiber : (standard.withValue env.readFiberWords?
      fun s n => { s with fiberWords := n }).fiberWords = env.fiberWords := by
    rw [withValue_eq fiberWords fun _ => rfl]
    rfl
  have hmain : (((standard.withValue env.readFiberWords?
      fun s n => { s with fiberWords := n }).withValue env.readMainWords?
      fun s n => { s with mainWords := n }).withValue (env.size? "CACTUS_INIT_THREAD_STACK_WSIZE")
      fun s n => { s with threadWords := n }).mainWords = env.mainWords := by
    rw [withValue_eq threadWords fun _ => rfl, withValue_eq mainWords fun _ => rfl,
      withValue_eq fiberWords fun _ => rfl]
    rfl
  unfold Environment.readMaxWords?
  rw [← hmain]
  unfold Environment.readMainWords?
  rw [← hfiber]
  rfl

/-- The sizes that have to be in order. -/
def sizes (s : Settings) : Nat × Nat × Nat := (s.fiberWords, s.mainWords, s.maxWords)

theorem sizes_withValue (h : ∀ s a, (set s a).sizes = s.sizes) (s : Settings) (value : Option α) :
    (s.withValue value set).sizes = s.sizes := by
  cases value with
  | none => rfl
  | some v => exact h s v

theorem sizes_ofEnvironment (env : Environment) :
    (ofEnvironment env).sizes = (env.fiberWords, env.mainWords, env.maxWords) := by
  rw [ofEnvironment_eq, sizes_withValue, sizes_withValue, sizes_withValue, sizes_withValue,
    sizes_withValue, withValue_eq maxWords, sizes, withValue_eq threadWords,
    withValue_eq mainWords, withValue_eq fiberWords]
  · rfl
  all_goals intros; rfl

/-- A variable that is refused leaves all settings alone. -/
theorem ofEnvironment_unset (h : env.Refuses name) :
    ofEnvironment (env.unset name) = ofEnvironment env := by
  rw [ofEnvironment_eq, ofEnvironment_eq]
  cases h <;> rename_i hnone <;>
    simp only [Environment.readFiberWords?, Environment.readMainWords?, Environment.readMaxWords?,
      Environment.fiberWords, Environment.mainWords] at hnone ⊢ <;>
    simp only [Environment.sizeFrom?_unset, Environment.size?_unset, Environment.boolean?_unset,
      Environment.text?_unset, reduceIte, String.reduceEq, Option.bind_none, hnone]

/-! ### Validity -/

theorem validate_cases (env : Environment) : (ofEnvironment env).validate =
    if env.mainWords < env.fiberWords then
      .error (.invalidValue "stack.init_main_wsize" "must be at least fiber_wsize")
    else if env.maxWords < env.mainWords then
      .error (.invalidValue "stack.max_wsize" "must be at least init_main_wsize")
    else
      .ok () := by
  have hsizes := sizes_ofEnvironment env
  simp only [sizes, Prod.mk.injEq] at hsizes
  obtain ⟨hfiber, hmain, hmax⟩ := hsizes
  rw [validate, hfiber, hmain, hmax, if_neg (Nat.not_lt.mpr env.threshold_le_fiberWords)]

/-- A process is configured if its settings are valid, and stays as it is if they are not. -/
theorem configure_run (s : Settings) (st : MachineState) :
    ∃ st', Machine.configure s st = .ok s.validate st' ∧ (s.validate ≠ .ok () → st' = st) := by
  unfold Machine.configure
  cases hvalid : s.validate with
  | error e => exact ⟨st, rfl, fun _ => rfl⟩
  | ok => exact ⟨_, rfl, fun h => absurd rfl h⟩

/-- Settings from the environment are valid unless a size that was read exceeds the next one, and
the first that does is reported. The process is configured with them exactly if they are valid, and
variables that are refused do not matter. -/
theorem validate_ofEnvironment (env : Environment) :
    ((ofEnvironment env).validate = .ok () ↔ ¬ env.FiberExceeds ∧ ¬ env.MainExceeds) ∧
      ((ofEnvironment env).validate =
          .error (.invalidValue "stack.init_main_wsize" "must be at least fiber_wsize") ↔
        env.FiberExceeds) ∧
      ((ofEnvironment env).validate =
          .error (.invalidValue "stack.max_wsize" "must be at least init_main_wsize") ↔
        ¬ env.FiberExceeds ∧ env.MainExceeds) ∧
      (∀ st, ∃ st', Machine.configure (ofEnvironment env) st =
          .ok (ofEnvironment env).validate st' ∧
        (env.FiberExceeds ∨ env.MainExceeds → st' = st)) ∧
      ∀ name, env.Refuses name → ofEnvironment (env.unset name) = ofEnvironment env := by
  have hcases := validate_cases env
  rw [← env.mainWords_lt_iff, ← env.maxWords_lt_iff]
  have hok : (ofEnvironment env).validate = .ok () ↔
      ¬ env.mainWords < env.fiberWords ∧ ¬ env.maxWords < env.mainWords := by
    rw [hcases]
    split_ifs <;> simp_all
  refine ⟨hok, ?_, ?_, fun st => ?_, fun name => ofEnvironment_unset⟩
  · rw [hcases]
    split_ifs <;> simp_all
  · rw [hcases]
    split_ifs <;> simp_all
  · obtain ⟨st', hrun, hsame⟩ := configure_run (ofEnvironment env) st
    refine ⟨st', hrun, fun hexceeds => hsame fun hvalid => ?_⟩
    obtain ⟨hfiber, hmain⟩ := hok.mp hvalid
    exact hexceeds.elim hfiber hmain

end Settings

/-! ### Large fibers

Fibers start with more words than the standard main stack has. -/

namespace LargeFibers

def assignments : List (String × String) := [("CACTUS_FIBER_WSIZE", "20000")]

/-- The environment that sets the variables of a list. -/
def environment (assignments : List (String × String)) : Environment :=
  fun name => (assignments.lookup name).map String.toUTF8

/-- The size is read, though it breaks an invariant together with the standard main size, and the
process is not configured. -/
theorem not_configured : (environment assignments).size? "CACTUS_FIBER_WSIZE" = some 20000 ∧
    (Settings.ofEnvironment (environment assignments)).validate ≠ .ok () ∧
    Machine.configure (Settings.ofEnvironment (environment assignments)) .initial =
      .ok (.error (.invalidValue "stack.init_main_wsize" "must be at least fiber_wsize"))
        .initial := by
  have hvalidate : (Settings.ofEnvironment (environment assignments)).validate =
      .error (.invalidValue "stack.init_main_wsize" "must be at least fiber_wsize") := rfl
  refine ⟨by decide +kernel, ?_, rfl⟩
  rw [hvalidate]
  exact nofun

/-- Larger main stacks mend that, and a maximum that is no number is ignored. -/
theorem valid_with_main_stacks :
    (Settings.ofEnvironment (environment (("CACTUS_INIT_MAIN_STACK_WSIZE", "20000") ::
      ("CACTUS_MAX_STACK_WSIZE", "unlimited") :: assignments))).validate = .ok () := by
  refine (Settings.validate_ofEnvironment _).1.mpr ⟨?_, ?_⟩
  · rw [← Environment.mainWords_lt_iff]
    decide +kernel
  · rw [← Environment.maxWords_lt_iff]
    decide +kernel

end LargeFibers

end FiberStacks
