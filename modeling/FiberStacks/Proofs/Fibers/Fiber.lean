import FiberStacks.Proofs.Segment
import Mathlib.Data.List.ModifyLast

/-!
# Fibers

What a program can tell of a fiber: its identity, its live words, its handlers and the exception
handler it goes on with. Where its segment lies, and which segment is the parent, is not part of
that, so a fiber is the same while memory changes in other segments or in its recorded parent.
-/

namespace FiberStacks

structure Fiber where
  id : FiberId
  /-- The live words, innermost first. -/
  words : List Word
  handlers : Handlers
  exnHandler : Nat
  deriving DecidableEq

namespace Fiber

/-- A fiber that has not run yet. -/
def fresh (id : FiberId) (h : Handlers) : Fiber := ⟨id, [], h, 0⟩

/-- Fibers of which the outermost gets other handlers. -/
def rebind (fs : List Fiber) (h : Handlers) : List Fiber :=
  fs.modifyLast fun f => { f with handlers := h }

theorem rebind_concat (fs : List Fiber) (f : Fiber) (h : Handlers) :
    rebind (fs ++ [f]) h = fs ++ [{ f with handlers := h }] :=
  List.modifyLast_concat _ f fs

end Fiber

namespace Segment

def fiber (m : Memory) (s : Segment) : Fiber :=
  ⟨s.id, s.liveWords m, s.handlers m, s.savedExn⟩

variable {s t : Segment} {m m' : Memory}

theorem fiber_congr (hs : s.Formed)
    (h : ∀ a, s.base ≤ a → a < s.high + 3 * wordBytes → m'.read a = m.read a) :
    s.fiber m' = s.fiber m := by
  have hbase := hs.base_le_sp
  have hhigh := hs.sp_le_high
  have hwords : s.liveWords m' = s.liveWords m := by
    refine List.map_congr_left fun a ha => ?_
    have hlive := hs.mem_liveSlots_iff.mp ha
    exact h a (by omega) (by omega)
  have hhandlers : s.handlers m' = s.handlers m :=
    handlers_congr fun a hlow => h a (by omega)
  rw [fiber, fiber, hwords, hhandlers]

theorem fiber_of_read (h : ∀ a, m'.read a = m.read a) : fiber m' = fiber m := by
  have hread : m'.read = m.read := funext h
  funext s
  simp only [fiber, liveWords, Memory.load, handlers, hread]

theorem fiber_of_owns (hs : s.Formed) (hm : ∀ a, s.Owns a → m'.read a = m.read a) :
    s.fiber m' = s.fiber m := by
  refine fiber_congr hs fun a hlow hhigh => hm a ⟨hlow, ?_⟩
  simp only [handlerBlockBytes, wordBytes] at hhigh ⊢
  omega

/-- A fiber does not notice changes in a segment apart from its own. -/
theorem fiber_of_apart (hs : s.Formed) (hapart : t.Apart s) (hm : t.Confines m m') :
    s.fiber m' = s.fiber m :=
  fiber_of_owns hs fun a ha => hm a fun ht => hapart a ht ha

theorem fiber_recordParent (hs : s.Formed) (address : Nat) :
    s.fiber (s.recordParent m address) = s.fiber m := by
  refine fiber_congr hs fun a _ hhigh => read_recordParent ?_ address
  simp only [parentSlot]
  omega

theorem fiber_setHandlers (hs : s.Formed) (h : Handlers) :
    s.fiber (s.setHandlers m h) = { s.fiber m with handlers := h } := by
  have hwords : s.liveWords (s.setHandlers m h) = s.liveWords m := by
    refine List.map_congr_left fun a ha => sameOutside_setHandlers h a ?_
    exact .inl (hs.mem_liveSlots_iff.mp ha).2.1
  rw [fiber, fiber, hwords, handlers_setHandlers]

theorem Obtained.fiber_eq {h : Handlers} {id : FiberId} (hnew : s.Obtained m m' h id) :
    s.fiber m' = Fiber.fresh id h := by
  have hused : s.usedWords = 0 := by rw [usedWords, hnew.empty, Nat.sub_self, Nat.zero_div]
  have hwords : s.liveWords m' = [] := by
    rw [liveWords, hused]
    rfl
  rw [fiber, hwords, hnew.identity, hnew.handlers, hnew.unsaved, Fiber.fresh]

end Segment

end FiberStacks
