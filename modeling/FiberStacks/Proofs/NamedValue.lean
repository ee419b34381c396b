import FiberStacks.NamedValue
import Mathlib.Data.List.Induction
import Mathlib.Logic.Function.Basic

/-!
# Named values and the exceptions that remember a cell

A cell belongs to one name for good, so it does not matter when an exception has found its own: in
every order of registrations and look-ups an exception is resolved to the value that was registered
last under its name, which is what the table itself answers.
-/

namespace FiberStacks

namespace NamedValues

variable {t : NamedValues} {name x : String} {value : Word} {cell : Nat}

theorem register_of_some (hname : t.cell? name = some cell) :
    t.register name value = { t with cells := t.cells.setIfInBounds cell value } := by
  simp only [register, hname]

theorem register_of_none (hname : t.cell? name = none) :
    t.register name value =
      { names := (name, t.cells.size) :: t.names, cells := t.cells.push value } := by
  simp only [register, hname]

/-- A name without a cell gets the next one, and nothing else changes for any name. -/
theorem cell?_register :
    (t.register name value).cell? x =
      if x = name then some ((t.cell? name).getD t.cells.size) else t.cell? x := by
  by_cases hx : x = name
  · subst hx
    rw [if_pos rfl]
    cases hcell : t.cell? x with
    | some cell =>
      rw [register_of_some hcell]
      exact hcell
    | none =>
      rw [register_of_none hcell]
      exact List.lookup_cons_self
  · rw [if_neg hx]
    cases hcell : t.cell? name with
    | some cell =>
      rw [register_of_some hcell]
      rfl
    | none =>
      have hbeq : (x == name) = false := beq_eq_false_iff_ne.mpr hx
      rw [register_of_none hcell]
      simp only [cell?, List.lookup_cons, hbeq]

/-- A cell stays the cell of its name. -/
theorem cell?_register_of_some (hcell : t.cell? x = some cell) :
    (t.register name value).cell? x = some cell := by
  rw [cell?_register]
  split
  · next heq => rw [← heq, hcell, Option.getD_some]
  · exact hcell

theorem size_le_register : t.cells.size ≤ (t.register name value).cells.size := by
  unfold register
  split <;> simp

/-- Every name owns a cell of the table, and no two names the same one. -/
structure Distinct (t : NamedValues) : Prop where
  bound : ∀ {x cell}, t.cell? x = some cell → cell < t.cells.size
  name_eq : ∀ {x y cell}, t.cell? x = some cell → t.cell? y = some cell → x = y

theorem Distinct.empty : empty.Distinct := ⟨nofun, nofun⟩

/-- The cell that a name has after a registration under it. -/
theorem Distinct.own_lt_size (h : t.Distinct) :
    (t.cell? name).getD t.cells.size < (t.register name value).cells.size := by
  cases hname : t.cell? name with
  | some own => simpa [register_of_some hname] using h.bound hname
  | none => simp [register_of_none hname]

theorem Distinct.ne_own (h : t.Distinct) (hne : x ≠ name) (hcell : t.cell? x = some cell) :
    cell ≠ (t.cell? name).getD t.cells.size := by
  cases hname : t.cell? name with
  | some own =>
    rintro rfl
    exact hne (h.name_eq hcell hname)
  | none => exact Nat.ne_of_lt (h.bound hcell)

theorem Distinct.register (h : t.Distinct) : (t.register name value).Distinct where
  bound {x cell} hx := by
    rw [cell?_register] at hx
    split at hx
    · exact Option.some.inj hx ▸ h.own_lt_size
    · exact Nat.lt_of_lt_of_le (h.bound hx) size_le_register
  name_eq {x y cell} hx hy := by
    rw [cell?_register] at hx hy
    -- If one of them is `name` and the other is not, the other owns an old cell of its own.
    by_cases hxname : x = name <;> by_cases hyname : y = name
    · exact hxname.trans hyname.symm
    · rw [if_pos hxname] at hx
      rw [if_neg hyname] at hy
      exact absurd (Option.some.inj hx).symm (h.ne_own hyname hy)
    · rw [if_neg hxname] at hx
      rw [if_pos hyname] at hy
      exact absurd (Option.some.inj hy).symm (h.ne_own hxname hx)
    · rw [if_neg hxname] at hx
      rw [if_neg hyname] at hy
      exact h.name_eq hx hy

theorem cellValue_register_own (h : t.Distinct) :
    (t.register name value).cellValue ((t.cell? name).getD t.cells.size) = value := by
  unfold cellValue
  cases hname : t.cell? name with
  | some own => simp [register_of_some hname, h.bound hname]
  | none => simp [register_of_none hname]

theorem cellValue_register_of_ne (hne : cell ≠ (t.cell? name).getD t.cells.size)
    (hlt : cell < t.cells.size) : (t.register name value).cellValue cell = t.cellValue cell := by
  unfold cellValue
  cases hname : t.cell? name with
  | some own =>
    have howns : own ≠ cell := by simpa [hname] using hne.symm
    simp [register_of_some hname, hlt, howns]
  | none => simp [register_of_none hname, Array.getElem_push, hlt, Nat.lt_succ_of_lt hlt]

theorem Distinct.value?_register (h : t.Distinct) :
    (t.register name value).value? x = if x = name then some value else t.value? x := by
  unfold value?
  rw [cell?_register]
  split
  · exact congrArg some (cellValue_register_own h)
  · next hne =>
    cases hcell : t.cell? x with
    | some cell =>
      exact congrArg some (cellValue_register_of_ne (h.ne_own hne hcell) (h.bound hcell))
    | none => rfl

end NamedValues

/-- A call on the named values and the exceptions. -/
inductive NameCall (ι : Type) where
  | register (name : String) (value : Word)
  | find (name : String)
  | resolve (e : ι)

namespace NameCall

variable {ι : Type}

/-- The value that a call registers under a name. -/
def registered? (x : String) : NameCall ι → Option Word
  | register name value => if x = name then some value else none
  | find _ => none
  | resolve _ => none

/-- The value that the calls register last under a name. -/
def latest? (calls : List (NameCall ι)) (x : String) : Option Word :=
  (calls.filterMap (registered? x)).getLast?

theorem latest?_concat (calls : List (NameCall ι)) (call : NameCall ι) (x : String) :
    latest? (calls ++ [call]) x = (call.registered? x).or (latest? calls x) := by
  unfold latest?
  rw [List.filterMap_append]
  cases hcall : call.registered? x <;> simp [hcall]

end NameCall

inductive NameAnswer where
  | done
  | found (value : Option Word)

/-- The named values, and a family of exceptions that are looked up in them. -/
structure NameState (ι : Type) where
  values : NamedValues
  exceptions : ι → NamedException

namespace NameState

open NameCall (latest? latest?_concat)

variable {ι : Type} {s : NameState ι} {names : ι → String} {calls : List (NameCall ι)}

/-- No value is registered, and no exception has found its cell. -/
def fresh (names : ι → String) : NameState ι :=
  ⟨NamedValues.empty, fun e => NamedException.named (names e)⟩

/-- What is registered is the latest, and an exception knows no cell but that of its name. -/
structure Follows (names : ι → String) (calls : List (NameCall ι)) (s : NameState ι) : Prop where
  distinct : s.values.Distinct
  value?_eq : ∀ x, s.values.value? x = latest? calls x
  name_eq : ∀ e, (s.exceptions e).name = names e
  cell?_eq : ∀ {e cell}, (s.exceptions e).cell = some cell → s.values.cell? (names e) = some cell

theorem follows_fresh (names : ι → String) : Follows names [] (fresh names) :=
  ⟨.empty, fun _ => rfl, fun _ => rfl, nofun⟩

/-- A remembered cell holds what the table has under the name. -/
theorem Follows.tryResolve_eq (h : Follows names calls s) (e : ι) :
    ((s.exceptions e).tryResolve s.values).1 = s.values.value? (names e) := by
  unfold NamedException.tryResolve NamedValues.value?
  rw [h.name_eq]
  cases hcell : (s.exceptions e).cell with
  | some cell => simp [h.cell?_eq hcell]
  | none => cases s.values.cell? (names e) <;> rfl

/-- An exception that has been looked up keeps its name, and the cell that it knows then is the cell
of the name. -/
theorem Follows.known (h : Follows names calls s) (e : ι) :
    ((s.exceptions e).tryResolve s.values).2.name = names e ∧
      ∀ {cell}, ((s.exceptions e).tryResolve s.values).2.cell = some cell →
        s.values.cell? (names e) = some cell := by
  unfold NamedException.tryResolve
  cases hcell : (s.exceptions e).cell with
  | some cell => exact ⟨h.name_eq e, fun hsame => h.cell?_eq hsame⟩
  | none =>
    simp only [h.name_eq]
    cases hfound : s.values.cell? (names e) with
    | some cell => exact ⟨rfl, fun hsame => hsame⟩
    | none => exact ⟨h.name_eq e, fun hsame => absurd (hcell.symm.trans hsame) nofun⟩

/-- A registration changes the value of its name only, also for the exceptions that know a cell. -/
theorem Follows.register (h : Follows names calls s) (name : String) (value : Word) :
    Follows names (calls ++ [.register name value])
      { s with values := s.values.register name value } where
  distinct := h.distinct.register
  value?_eq x := by
    rw [latest?_concat, ← h.value?_eq]
    refine h.distinct.value?_register.trans ?_
    simp only [NameCall.registered?]
    split <;> rfl
  name_eq := h.name_eq
  cell?_eq hcell := NamedValues.cell?_register_of_some (h.cell?_eq hcell)

theorem Follows.find (h : Follows names calls s) (name : String) :
    Follows names (calls ++ [.find name]) s :=
  { h with value?_eq := fun x => (h.value?_eq x).trans (latest?_concat calls (.find name) x).symm }

variable [DecidableEq ι]

theorem Follows.resolve (h : Follows names calls s) (e : ι) :
    Follows names (calls ++ [.resolve e])
      { s with exceptions :=
          Function.update s.exceptions e ((s.exceptions e).tryResolve s.values).2 } where
  distinct := h.distinct
  value?_eq x := (h.value?_eq x).trans (latest?_concat calls (.resolve e) x).symm
  name_eq e' := by
    by_cases heq : e' = e
    · subst heq
      simpa using (h.known e').1
    · simpa [heq] using h.name_eq e'
  cell?_eq {e' cell} hcell := by
    by_cases heq : e' = e
    · subst heq
      exact (h.known e').2 (by simpa using hcell)
    · exact h.cell?_eq (by simpa [heq] using hcell)

/-- The answer to a call, and the state after it. -/
def serve (s : NameState ι) : NameCall ι → NameAnswer × NameState ι
  | .register name value => (.done, { s with values := s.values.register name value })
  | .find name => (.found (s.values.value? name), s)
  | .resolve e =>
    let (value, known) := (s.exceptions e).tryResolve s.values
    (.found value, { s with exceptions := Function.update s.exceptions e known })

/-- The answers to calls made one after the other, and the state after them. -/
def serveAll (s : NameState ι) : List (NameCall ι) → List NameAnswer × NameState ι
  | [] => ([], s)
  | call :: calls =>
    let rest := (s.serve call).2.serveAll calls
    ((s.serve call).1 :: rest.1, rest.2)

theorem serveAll_append (s : NameState ι) (before after : List (NameCall ι)) :
    s.serveAll (before ++ after) =
      ((s.serveAll before).1 ++ ((s.serveAll before).2.serveAll after).1,
        ((s.serveAll before).2.serveAll after).2) := by
  induction before generalizing s with
  | nil => rfl
  | cons call before ih => simp only [List.cons_append, serveAll, ih]

theorem length_serveAll (s : NameState ι) (calls : List (NameCall ι)) :
    (s.serveAll calls).1.length = calls.length := by
  induction calls generalizing s with
  | nil => rfl
  | cons call calls ih => simp only [serveAll, List.length_cons, ih]

/-- The answer to a call depends on the calls before it only. -/
theorem getElem?_serveAll (s : NameState ι) (before after : List (NameCall ι)) (call : NameCall ι) :
    (s.serveAll (before ++ call :: after)).1[before.length]? =
      some ((s.serveAll before).2.serve call).1 := by
  rw [serveAll_append]
  have hlength := length_serveAll s before
  simp [serveAll, ← hlength]

theorem Follows.serve (h : Follows names calls s) (call : NameCall ι) :
    Follows names (calls ++ [call]) (s.serve call).2 := by
  cases call with
  | register name value => exact h.register name value
  | find name => exact h.find name
  | resolve e => exact h.resolve e

theorem follows_serveAll (names : ι → String) (calls : List (NameCall ι)) :
    Follows names calls ((fresh names).serveAll calls).2 := by
  induction calls using List.reverseRecOn with
  | nil => exact follows_fresh names
  | append_singleton calls call ih =>
    rw [serveAll_append]
    exact ih.serve call

/-- Whatever calls come before it and after it, resolving an exception answers with the value that
was registered last under its name, and so does finding the name in its place. -/
theorem resolve_eq_find (names : ι → String) (before after : List (NameCall ι)) (e : ι) :
    ((fresh names).serveAll (before ++ .resolve e :: after)).1[before.length]? =
        some (.found (latest? before (names e))) ∧
      ((fresh names).serveAll (before ++ .find (names e) :: after)).1[before.length]? =
        some (.found (latest? before (names e))) := by
  have hfollows := follows_serveAll names before
  rw [getElem?_serveAll, getElem?_serveAll, ← hfollows.value?_eq]
  exact ⟨congrArg (fun w => some (NameAnswer.found w)) (hfollows.tryResolve_eq e), rfl⟩

end NameState

end FiberStacks
