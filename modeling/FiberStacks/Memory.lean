import FiberStacks.Word
import Std.Data.TreeMap

/-!
# Memory

One memory holds everything that has an address: stacks, handler blocks, heap blocks, register save
areas and local arenas. It maps addresses to words; an address that was never written reads zero.
Each operation has one law that says what a later read sees.
-/

namespace FiberStacks

structure Memory where
  cells : Std.TreeMap Nat Word

namespace Memory

def blank : Memory := ⟨∅⟩

def read (m : Memory) (address : Nat) : Word :=
  m.cells.getD address 0

def write (m : Memory) (address : Nat) (w : Word) : Memory :=
  ⟨m.cells.insert address w⟩

/-- Write `w` into `count` consecutive words from `address` upwards. -/
def fill (m : Memory) (address : Nat) : Nat → Word → Memory
  | 0, _ => m
  | count + 1, w => (m.write address w).fill (address + wordBytes) count w

def store (m : Memory) (address : Nat) : List Word → Memory
  | [] => m
  | w :: rest => (m.write address w).store (address + wordBytes) rest

/-- The addresses of `count` consecutive words from `address` upwards. -/
def span (address count : Nat) : List Nat :=
  (List.range count).map fun i => address + wordBytes * i

/-- The `count` consecutive words from `address` upwards. -/
def load (m : Memory) (address count : Nat) : List Word :=
  (span address count).map m.read

theorem read_write (m : Memory) (a b : Nat) (w : Word) :
    (m.write a w).read b = if a = b then w else m.read b := by
  simp [read, write, Std.TreeMap.getD_insert]

@[simp]
theorem read_write_same (m : Memory) (a : Nat) (w : Word) : (m.write a w).read a = w := by
  simp [read_write]

theorem read_write_of_ne (m : Memory) {a b : Nat} (w : Word) (h : a ≠ b) :
    (m.write a w).read b = m.read b := by
  simp [read_write, h]

/-- Filling changes the filled words and no other. -/
theorem read_fill (m : Memory) (a n : Nat) (w : Word) (b : Nat) :
    (m.fill a n w).read b = if b ∈ span a n then w else m.read b := by
  induction n generalizing m a with
  | zero => simp [fill, span]
  | succ n ih =>
    have step : b ∈ span a (n + 1) ↔ a = b ∨ b ∈ span (a + wordBytes) n := by
      simp only [span, List.mem_map, List.mem_range, wordBytes]
      constructor
      · rintro ⟨i, hi, rfl⟩
        cases i with
        | zero => exact Or.inl rfl
        | succ i => exact Or.inr ⟨i, by omega, by omega⟩
      · rintro (rfl | ⟨i, hi, rfl⟩)
        · exact ⟨0, by omega, by omega⟩
        · exact ⟨i + 1, by omega, by omega⟩
    rw [fill, ih]
    by_cases h : b ∈ span (a + wordBytes) n
    · simp [h, step]
    · simp only [h, if_false, step, or_false, read_write]

@[simp]
theorem length_span (a n : Nat) : (span a n).length = n := by
  simp [span]

@[simp]
theorem length_load (m : Memory) (a n : Nat) : (m.load a n).length = n := by
  simp [load]

/-- Storing changes nothing below its first word. -/
theorem read_store_below (m : Memory) {a b : Nat} (ws : List Word) (h : b < a) :
    (m.store a ws).read b = m.read b := by
  induction ws generalizing m a with
  | nil => rfl
  | cons w rest ih =>
    rw [store, ih _ (by omega), read_write_of_ne _ _ (by omega)]

/-- A stored list is read back. -/
theorem load_store (m : Memory) (a : Nat) (ws : List Word) :
    (m.store a ws).load a ws.length = ws := by
  induction ws generalizing m a with
  | nil => rfl
  | cons w rest ih =>
    have tail := ih (m.write a w) (a + wordBytes)
    simp only [load, span, List.length_cons, List.range_succ_eq_map, List.map_cons, List.map_map,
      store] at tail ⊢
    refine List.cons_eq_cons.mpr ⟨?_, ?_⟩
    · simp [read_store_below _ rest (show a < a + wordBytes by simp [wordBytes])]
    · refine Eq.trans (List.map_congr_left fun i _ => ?_) tail
      simp only [Function.comp_apply]
      congr 1
      simp only [wordBytes]
      omega

end Memory

end FiberStacks
