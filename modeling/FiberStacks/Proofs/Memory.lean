import FiberStacks.Memory
import Mathlib.Data.List.Nodup
import Mathlib.Tactic.Common

/-!
# Consecutive words

Stretches of memory that hold given words one after the other.
-/

namespace FiberStacks.Memory

theorem span_add (a n k : Nat) : span a (n + k) = span a n ++ span (a + wordBytes * n) k := by
  unfold span
  rw [List.range_add, List.map_append, List.map_map]
  congr 1
  refine List.map_congr_left fun i _ => ?_
  simp only [Function.comp_apply, Nat.mul_add, Nat.add_assoc]

theorem load_add (m : Memory) (a n k : Nat) :
    m.load a (n + k) = m.load a n ++ m.load (a + wordBytes * n) k := by
  rw [load, span_add, List.map_append]
  rfl

theorem load_one (m : Memory) (a : Nat) : m.load a 1 = [m.read a] := by
  simp [load, span]

theorem mem_span_iff {a n b : Nat} : b ∈ span a n ↔ ∃ i < n, b = a + wordBytes * i := by
  simp only [span, List.mem_map, List.mem_range]
  constructor
  · rintro ⟨i, hi, rfl⟩
    exact ⟨i, hi, rfl⟩
  · rintro ⟨i, hi, rfl⟩
    exact ⟨i, hi, rfl⟩

theorem nodup_span (a n : Nat) : (span a n).Nodup := by
  refine List.Nodup.map (fun i j heq => ?_) List.nodup_range
  simp only [wordBytes] at heq
  omega

theorem read_store_of_not_mem (m : Memory) {a b : Nat} (ws : List Word)
    (h : b ∉ span a ws.length) : (m.store a ws).read b = m.read b := by
  induction ws generalizing m a with
  | nil => rfl
  | cons w ws ih =>
      have hlater : b ∉ span (a + wordBytes) ws.length := by
        intro hmem
        obtain ⟨i, hi, rfl⟩ := mem_span_iff.mp hmem
        refine h (mem_span_iff.mpr ⟨i + 1, Nat.succ_lt_succ hi, ?_⟩)
        rw [Nat.mul_add, Nat.mul_one, Nat.add_comm (wordBytes * i), Nat.add_assoc]
      have hne : a ≠ b := by
        rintro rfl
        exact h (mem_span_iff.mpr ⟨0, Nat.succ_pos _, rfl⟩)
      rw [store, ih _ hlater, read_write_of_ne _ _ hne]

/-- Words that were loaded elsewhere and stored here are read back one by one. -/
theorem read_store_load (m m₀ : Memory) (a b : Nat) {i n : Nat} (hi : i < n) :
    (m.store a (m₀.load b n)).read (a + wordBytes * i) = m₀.read (b + wordBytes * i) := by
  have hload := load_store m a (m₀.load b n)
  rw [length_load] at hload
  have hword := congrArg (fun ws => ws[i]?) hload
  simpa [load, span, hi] using hword

theorem read_fill_of_not_mem (m : Memory) {a n b : Nat} (w : Word) (h : b ∉ span a n) :
    (m.fill a n w).read b = m.read b := by
  rw [read_fill, if_neg h]

/-- The words stand in memory from the address upwards. -/
def Spells (m : Memory) (a : Nat) (ws : List Word) : Prop := m.load a ws.length = ws

theorem spells_append_iff {m : Memory} {a : Nat} {ws more : List Word} :
    m.Spells a (ws ++ more) ↔ m.Spells a ws ∧ m.Spells (a + wordBytes * ws.length) more := by
  unfold Spells
  rw [List.length_append, load_add]
  constructor
  · intro h
    exact List.append_inj h (length_load m a ws.length)
  · rintro ⟨hws, hmore⟩
    rw [hws, hmore]

theorem spells_cons_iff {m : Memory} {a : Nat} {w : Word} {ws : List Word} :
    m.Spells a (w :: ws) ↔ m.read a = w ∧ m.Spells (a + wordBytes) ws := by
  rw [← List.singleton_append, spells_append_iff]
  simp [Spells, load_one]

end FiberStacks.Memory
