import FiberStacks.Proofs.Run
import Mathlib.Tactic.Common

/-!
# Configuring a process more than once

Of all valid settings that a process is configured with, the first are installed and stay. The
journal does not keep to them: its level and format follow each valid call, so in the end they are
those of the last one. The two agree exactly if the first and the last valid settings ask for the
same level and format. Settings that are not valid change nothing.
-/

namespace FiberStacks

namespace Settings

def isValid (s : Settings) : Bool := s.validate.isOk

theorem isValid_iff {s : Settings} : s.isValid = true ↔ s.validate = .ok () := by
  unfold isValid
  cases hvalid : s.validate with
  | ok => exact iff_of_true rfl rfl
  | error e => exact iff_of_false Bool.false_ne_true nofun

/-- The level and the format of the journal. -/
def logging (s : Settings) : Level × LineFormat := (s.logLevel, s.logFormat)

/-- The first valid settings of a list. -/
def first? (calls : List Settings) : Option Settings := (calls.filter isValid).head?

/-- The last valid settings of a list. -/
def last? (calls : List Settings) : Option Settings := (calls.filter isValid).getLast?

variable {s : Settings} {calls : List Settings}

theorem first?_cons : first? (s :: calls) = if s.isValid then some s else first? calls := by
  unfold first?
  rw [List.filter_cons]
  split <;> rfl

theorem last?_cons :
    last? (s :: calls) = if s.isValid then (last? calls).or s else last? calls := by
  unfold last?
  rw [List.filter_cons]
  split
  · rw [List.getLast?_cons]
    cases (calls.filter isValid).getLast? <;> rfl
  · rfl

theorem last?_eq_none_iff : last? calls = none ↔ first? calls = none :=
  List.getLast?_eq_none_iff.trans List.head?_eq_none_iff.symm

end Settings

open Settings (first? last?)

namespace MachineState

/-- The level and the format of the journal. -/
def logging (st : MachineState) : Level × LineFormat := (st.journal.level, st.journal.format)

/-- The state with these settings, and this level and format of the journal. -/
def configured (st : MachineState) (settings : Option Settings) (l : Level × LineFormat) :
    MachineState :=
  { st with journal := { st.journal with level := l.1, format := l.2 }, settings }

section Configured

variable (st : MachineState) (settings settings' : Option Settings) (l l' : Level × LineFormat)

@[simp] theorem settings_configured : (st.configured settings l).settings = settings := rfl

@[simp] theorem logging_configured : (st.configured settings l).logging = l := rfl

@[simp] theorem configured_configured :
    (st.configured settings l).configured settings' l' = st.configured settings' l' := rfl

@[simp] theorem configured_self : st.configured st.settings st.logging = st := rfl

end Configured

/-- The state `after` some calls has the settings, the level and the format of the first valid call,
or those from `before` if none was valid. -/
def FirstWins (before : MachineState) (calls : List Settings) (after : MachineState) : Prop :=
  match first? calls with
  | some s => after.settings = some s ∧ after.logging = s.logging
  | none => after.settings = before.settings ∧ after.logging = before.logging

end MachineState

namespace Machine

variable {st : MachineState}

/-- Configure the process with each settings of a list in turn. -/
def configureEach (calls : List Settings) : Machine (List (Except SettingsError Unit)) :=
  calls.mapM configure

theorem configure_of_isValid {s : Settings} (h : s.isValid = true) :
    configure s st = .ok (.ok ()) (st.configured (st.settings.or (some s)) s.logging) := by
  unfold configure
  rw [Settings.isValid_iff.mp h]
  rfl

theorem configure_of_not_isValid {s : Settings} (h : ¬ s.isValid = true) :
    configure s st = .ok s.validate st := by
  rw [Settings.isValid_iff] at h
  unfold configure
  cases hvalid : s.validate with
  | ok => exact absurd hvalid h
  | error e => rfl

theorem configureEach_cons {s : Settings} {calls : List Settings}
    {answer : Except SettingsError Unit} {answers : List (Except SettingsError Unit)}
    {after last : MachineState} (hfirst : configure s st = .ok answer after)
    (hrest : configureEach calls after = .ok answers last) :
    configureEach (s :: calls) st = .ok (answer :: answers) last := by
  unfold configureEach at hrest ⊢
  rw [List.mapM_cons, Run.bind_of_ok hfirst, Run.bind_of_ok hrest]
  rfl

/-- Each call is answered by the check of its own settings, and the state keeps the settings of the
first valid call and the level and format of the last. -/
theorem configureEach_run (calls : List Settings) (st : MachineState) :
    configureEach calls st = .ok (calls.map Settings.validate)
      (st.configured (st.settings.or (first? calls))
        (((last? calls).map Settings.logging).getD st.logging)) := by
  induction calls generalizing st with
  | nil =>
      have hsettings : st.settings.or (first? []) = st.settings := Option.or_none
      rw [hsettings]
      rfl
  | cons s calls ih =>
      by_cases hs : s.isValid = true
      · refine (configureEach_cons (configure_of_isValid hs) (ih _)).trans ?_
        have hlast : (((last? calls).or (some s)).map Settings.logging).getD st.logging =
            ((last? calls).map Settings.logging).getD s.logging := by
          cases last? calls <;> rfl
        have hfirst : (st.settings.or (some s)).or (first? calls) = st.settings.or (some s) := by
          rw [Option.or_assoc, Option.some_or]
        rw [List.map_cons, Settings.isValid_iff.mp hs, Settings.first?_cons, Settings.last?_cons,
          if_pos hs, if_pos hs, hlast, MachineState.settings_configured, hfirst,
          MachineState.logging_configured, MachineState.configured_configured]
      · refine (configureEach_cons (configure_of_not_isValid hs) (ih st)).trans ?_
        rw [List.map_cons, Settings.first?_cons, Settings.last?_cons, if_neg hs, if_neg hs]

/-- Configure a process that has no settings any number of times. Each call is answered by the check
of its own settings; the first valid settings are installed; the level and the format are those of
the last valid ones; nothing else changes. The first valid call decides all three exactly if the
last one has its level and format. -/
theorem firstWins_iff (calls : List Settings) (hnone : st.settings = none) :
    ∃ st', configureEach calls st = .ok (calls.map Settings.validate) st' ∧
      st'.settings = first? calls ∧
      st'.logging = ((last? calls).map Settings.logging).getD st.logging ∧
      st'.configured none st.logging = st ∧
      (st.FirstWins calls st' ↔
        (last? calls).map Settings.logging = (first? calls).map Settings.logging) := by
  have hsettings : st.settings.or (first? calls) = first? calls := by rw [hnone, Option.none_or]
  refine ⟨_, configureEach_run calls st, hsettings, rfl, ?_, ?_⟩
  · rw [MachineState.configured_configured, ← hnone, MachineState.configured_self]
  · rw [hsettings]
    unfold MachineState.FirstWins
    cases hfirst : first? calls with
    | none =>
        rw [Settings.last?_eq_none_iff.mpr hfirst]
        exact iff_of_true ⟨hnone.symm, rfl⟩ rfl
    | some s =>
        obtain ⟨last, hlast⟩ : ∃ last, last? calls = some last :=
          Option.ne_none_iff_exists'.mp fun h => by
            cases hfirst.symm.trans (Settings.last?_eq_none_iff.mp h)
        rw [hlast]
        change _ ∧ last.logging = s.logging ↔ some last.logging = some s.logging
        rw [Option.some_inj, MachineState.settings_configured, and_iff_right rfl]

end Machine

/-! ### A second call that is more verbose -/

namespace SecondCall

def verbose : Settings := { Settings.standard with logLevel := .debug, logFormat := .json }

def narrow : Settings := { verbose with fiberWords := 8 }

def wide : Settings := { Settings.standard with fiberWords := 128 }

/-- The settings of the first call stay, with a level and a format that the journal has left. -/
theorem journal_follows : ∃ st',
    Machine.configureEach [.standard, verbose] .initial = .ok [.ok (), .ok ()] st' ∧
      st'.settings = some .standard ∧
      (st'.journal.level, st'.journal.format) = (.debug, .json) ∧
      (Settings.standard.logLevel, Settings.standard.logFormat) = (.info, .plain) ∧
      ¬ MachineState.initial.FirstWins [.standard, verbose] st' :=
  ⟨_, rfl, rfl, rfl, rfl, fun h => absurd h.2 (by decide)⟩

/-- A call that fails does no harm, nor does one that asks for the level and format in force. -/
theorem journal_keeps : MachineState.initial.settings = none ∧
    ∃ st', Machine.configureEach [narrow, .standard, narrow, wide] .initial =
        .ok ([narrow, .standard, narrow, wide].map Settings.validate) st' ∧
      st'.settings = some .standard ∧
      MachineState.initial.FirstWins [narrow, .standard, narrow, wide] st' := by
  have hnone : MachineState.initial.settings = none := rfl
  obtain ⟨st', hrun, hsettings, -, -, hiff⟩ :=
    Machine.firstWins_iff [narrow, .standard, narrow, wide] hnone
  exact ⟨hnone, st', hrun, hsettings, hiff.mpr (by decide)⟩

end SecondCall

end FiberStacks
