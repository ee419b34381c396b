import FiberStacks.Proofs.Domain.Segments
import FiberStacks.Proofs.Fibers.Fiber

/-!
# Chains that take segments over from each other

The chains of a process and the segments in its pools have memory of their own. Chains are joined
and cut at one segment, and memory changes in that segment only, so no other fiber notices, and
each chain goes on to record its parents.
-/

namespace FiberStacks

namespace Chain

variable {m m' : Memory} {s : Segment} {xs ys zs : Chain}

def fibers (m : Memory) (c : Chain) : List Fiber := c.map (Segment.fiber m)

theorem fibers_append (m : Memory) (xs ys : Chain) :
    fibers m (xs ++ ys) = fibers m xs ++ fibers m ys :=
  List.map_append

theorem fibers_congr {c : Chain} (h : ∀ s ∈ c, s.fiber m' = s.fiber m) : fibers m' c = fibers m c :=
  List.map_congr_left h

/-- The segment `s` of a recorded chain may get other parents, if it records them. -/
theorem Recorded.relink (h : Recorded m (xs ++ s :: ys))
    (hxs : ∀ t ∈ xs, m'.read t.parentSlot = m.read t.parentSlot)
    (hs : s.recordedParent m' = link zs) (hzs : Recorded m' zs) : Recorded m' (xs ++ s :: zs) := by
  induction xs with
  | nil => exact ⟨hs, hzs⟩
  | cons x xs ih =>
      obtain ⟨hx, htail⟩ := h
      refine ⟨?_, ih htail fun t ht => hxs t (List.mem_cons_of_mem x ht)⟩
      have hsame : x.recordedParent m' = x.recordedParent m := by
        rw [Segment.recordedParent, Segment.recordedParent, hxs x List.mem_cons_self]
      rw [hsame, hx]
      cases xs <;> rfl

end Chain

namespace Segment.Separate

variable {space : AddressSpace} {s t : Segment} {others : List Segment} {m m' : Memory}

theorem fiber_eq (h : Separate space (s :: others)) (hm : s.Confines m m') (ht : t ∈ others) :
    t.fiber m' = t.fiber m :=
  fiber_of_apart (h.formed t (List.mem_cons_of_mem s ht)) ((List.pairwise_cons.mp h.apart).1 t ht)
    hm

theorem read_parentSlot (h : Separate space (s :: others)) (hm : s.Confines m m')
    (ht : t ∈ others) : m'.read t.parentSlot = m.read t.parentSlot := by
  have hslot := owns_parentSlot (h.formed t (List.mem_cons_of_mem s ht))
  exact hm _ fun hs => (List.pairwise_cons.mp h.apart).1 t ht _ hs hslot

theorem recorded (h : Separate space (s :: others)) (hm : s.Confines m m') {c : Chain}
    (hc : Chain.Recorded m c) (hsub : ∀ t ∈ c, t ∈ others) : Chain.Recorded m' c :=
  hc.congr fun t ht => h.read_parentSlot hm (hsub t ht)

theorem link_lt (h : Separate space others) {c : Chain} (hsub : ∀ t ∈ c, t ∈ others) :
    c.link < Size.limit := by
  cases c with
  | nil => decide
  | cons t outer => exact (h.formed t (hsub t List.mem_cons_self)).high_lt

/-- A chain gets other handlers on its outermost segment and is put on top of another one. -/
theorem fibers_rebound {h : Handlers} {xs ys : Chain} (hsep : Separate space (s :: others))
    (hm : s.Confines m m') (hs : s.fiber m' = { s.fiber m with handlers := h })
    (hxs : ∀ t ∈ xs, t ∈ others) (hys : ∀ t ∈ ys, t ∈ others) :
    Chain.fibers m' (xs ++ s :: ys) =
      Fiber.rebind (Chain.fibers m (xs ++ [s])) h ++ Chain.fibers m ys := by
  have hinner : Chain.fibers m' xs = Chain.fibers m xs :=
    Chain.fibers_congr fun t ht => hsep.fiber_eq hm (hxs t ht)
  have houter : Chain.fibers m' ys = Chain.fibers m ys :=
    Chain.fibers_congr fun t ht => hsep.fiber_eq hm (hys t ht)
  calc
    Chain.fibers m' (xs ++ s :: ys) =
        Chain.fibers m' xs ++ s.fiber m' :: Chain.fibers m' ys := Chain.fibers_append _ _ _
    _ = Chain.fibers m xs ++ { s.fiber m with handlers := h } :: Chain.fibers m ys := by
      rw [hinner, houter, hs]
    _ = Chain.fibers m xs ++ [{ s.fiber m with handlers := h }] ++ Chain.fibers m ys :=
      List.append_cons _ _ _
    _ = Fiber.rebind (Chain.fibers m (xs ++ [s])) h ++ Chain.fibers m ys := by
      rw [Chain.fibers_append]
      exact congrArg (· ++ _) (Fiber.rebind_concat _ (s.fiber m) h).symm

end Segment.Separate

namespace Chain

def AllRecorded (m : Memory) (chains : List Chain) : Prop := ∀ c ∈ chains, Recorded m c

variable {space : AddressSpace} {m m' : Memory} {s : Segment} {xs ys : Chain}
  {chains chains' rest : List Chain} {others : List Segment}

namespace AllRecorded

theorem perm (h : AllRecorded m chains) (hperm : chains.Perm chains') : AllRecorded m chains' :=
  fun c hc => h c (hperm.mem_iff.mpr hc)

theorem cons (h : AllRecorded m chains) (hc : Recorded m xs) : AllRecorded m (xs :: chains) :=
  List.forall_mem_cons.mpr ⟨hc, h⟩

theorem tail (h : AllRecorded m (xs :: chains)) : AllRecorded m chains :=
  fun c hc => h c (List.mem_cons_of_mem xs hc)

/-- Chains apart from a segment go on to record their parents when it changes. -/
theorem frame (h : AllRecorded m chains) (hsep : Segment.Separate space (s :: others))
    (hm : s.Confines m m') (hsub : ∀ t ∈ chains.flatten, t ∈ others) : AllRecorded m' chains :=
  fun c hc => hsep.recorded hm (h c hc) fun t ht => hsub t (List.mem_flatten_of_mem hc ht)

/-- The chain that ends with `s` is put on top of another one. -/
theorem join (h : AllRecorded m (ys :: (xs ++ [s]) :: rest))
    (hsep : Segment.Separate space ((ys :: (xs ++ [s]) :: rest).flatten ++ others))
    (hm : s.Confines m m') (hs : s.recordedParent m' = link ys) :
    AllRecorded m' ((xs ++ s :: ys) :: rest) := by
  have hfocus : Segment.Separate space (s :: (xs ++ ys ++ rest.flatten ++ others)) :=
    hsep.perm (by grind)
  have hys : Recorded m' ys := hfocus.recorded hm (h ys List.mem_cons_self) (by grind)
  refine cons (h.tail.tail.frame hfocus hm (by grind)) ?_
  refine (h (xs ++ [s]) (by simp)).relink (fun t ht => ?_) hs hys
  exact hfocus.read_parentSlot hm (by grind)

theorem obtain {h : Handlers} {id : FiberId} (hall : AllRecorded m rest)
    (hsep : Segment.Separate space (s :: others)) (hnew : s.Obtained m m' h id)
    (hsub : ∀ t ∈ rest.flatten, t ∈ others) : AllRecorded m' ([s] :: rest) :=
  cons (hall.frame hsep (hnew.kept.confines hnew.formed) hsub) ⟨hnew.unparented, trivial⟩

theorem split (h : AllRecorded m ((xs ++ s :: ys) :: rest))
    (hsep : Segment.Separate space (((xs ++ s :: ys) :: rest).flatten ++ others))
    (hm : s.Confines m m') (hs : s.recordedParent m' = 0) :
    AllRecorded m' (ys :: (xs ++ [s]) :: rest) := by
  have hfocus : Segment.Separate space (s :: (xs ++ ys ++ rest.flatten ++ others)) :=
    hsep.perm (by grind)
  have hchain := h (xs ++ s :: ys) List.mem_cons_self
  have hys : Recorded m' ys := hfocus.recorded hm hchain.of_append.2 (by grind)
  refine cons (cons (h.tail.frame hfocus hm (by grind)) ?_) hys
  exact hchain.relink (fun t ht => hfocus.read_parentSlot hm (by grind)) hs trivial

end AllRecorded

end Chain

end FiberStacks
