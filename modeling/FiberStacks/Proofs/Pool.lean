import FiberStacks.Pool.Exchange
import FiberStacks.Proofs.Run
import Mathlib.Data.List.Basic
import Mathlib.Data.List.FinRange
import Mathlib.Data.List.Perm.Basic

/-!
# Exchange of segments with a pool

A segment that is taken leaves the pool, and one that is given back joins it or is gone. The state
of the process changes in its journal, and in the words of a body that is wiped.
-/

namespace FiberStacks

/-- If two functions agree but for one more element at `k`, the lists that they describe do. -/
theorem flatMap_perm_cons {α β : Type} {f g : α → List β} {k : α} {b : β} (hk : f k = b :: g k)
    (hne : ∀ j, j ≠ k → f j = g j) {l : List α} (hmem : k ∈ l) (hnodup : l.Nodup) :
    (l.flatMap f).Perm (b :: l.flatMap g) := by
  induction l with
  | nil => cases hmem
  | cons j l ih =>
      obtain ⟨hj, hl⟩ := List.nodup_cons.mp hnodup
      rw [List.flatMap_cons, List.flatMap_cons]
      rcases List.mem_cons.mp hmem with rfl | hmem
      · have hsame : l.flatMap f = l.flatMap g := by
          refine List.flatMap_congr fun i hi => hne i ?_
          rintro rfl
          exact hj hi
        rw [hk, hsame]
        exact List.Perm.refl _
      · have hjk : j ≠ k := by
          rintro rfl
          exact hj hmem
        rw [hne j hjk]
        exact ((ih hmem hl).append_left (g j)).trans List.perm_middle

/-- A list has the same members as one with the member at some place in front. -/
theorem perm_cons_eraseIdx {α : Type} {l : List α} {i : Nat} {a : α} (h : l[i]? = some a) :
    l.Perm (a :: l.eraseIdx i) := by
  obtain ⟨hi, rfl⟩ := List.getElem?_eq_some_iff.mp h
  exact (List.getElem_cons_eraseIdx_perm hi).symm

theorem set_perm_eraseIdx {α : Type} {l : List α} {i : Nat} {a : α} (h : l[i]? = some a) (b : α) :
    (l.set i b).Perm (b :: l.eraseIdx i) := by
  obtain ⟨hi, -⟩ := List.getElem?_eq_some_iff.mp h
  exact List.set_perm_cons_eraseIdx hi b

namespace Pool

theorem segments_perm {p q : Pool} {k : SizeClass} {s : Segment} (hk : p.list k = s :: q.list k)
    (hne : ∀ j, j ≠ k → p.list j = q.list j) : p.segments.Perm (s :: q.segments) :=
  flatMap_perm_cons hk hne (List.mem_finRange k) (List.nodup_finRange 5)

theorem list_setList_same (p : Pool) (k : SizeClass) (segments : List Segment) :
    (p.setList k segments).list k = segments := by
  rw [list_setList, if_pos rfl]

theorem list_setList_of_ne {p : Pool} {j k : SizeClass} (h : j ≠ k) (segments : List Segment) :
    (p.setList k segments).list j = p.list j := by
  rw [list_setList, if_neg h.symm]

variable {p q : Pool} {k : SizeClass} {s : Segment}

/-- Pool `p` is pool `q` with one more segment in front of the list of a class. The counters are
left open. -/
structure Gains (q : Pool) (k : SizeClass) (s : Segment) (p : Pool) : Prop where
  front : p.list k = s :: q.list k
  other : ∀ j, j ≠ k → p.list j = q.list j
  owner : p.owner = q.owner
  baseWords : p.baseWords = q.baseWords
  wipe : p.wipe = q.wipe

theorem Gains.segments (h : q.Gains k s p) : p.segments.Perm (s :: q.segments) :=
  segments_perm h.front h.other

theorem Gains.mem_list {j : SizeClass} {t : Segment} (h : q.Gains k s p) (ht : t ∈ p.list j) :
    (j = k ∧ t = s) ∨ t ∈ q.list j := by
  by_cases hj : j = k
  · subst hj
    rw [h.front] at ht
    exact (List.mem_cons.mp ht).imp_left fun heq => ⟨rfl, heq⟩
  · exact .inr (h.other j hj ▸ ht)

theorem Gains.mem_list_of_mem {j : SizeClass} {t : Segment} (h : q.Gains k s p)
    (ht : t ∈ q.list j) : t ∈ p.list j := by
  by_cases hj : j = k
  · subst hj
    rw [h.front]
    exact List.mem_cons_of_mem s ht
  · rwa [h.other j hj]

theorem gains_setList (p : Pool) (k : SizeClass) (s : Segment) (stats : PoolStats) :
    p.Gains k s { p.setList k (s :: p.list k) with stats } where
  front := list_setList_same p k _
  other := fun _ hj => list_setList_of_ne hj _
  owner := rfl
  baseWords := rfl
  wipe := rfl

theorem take_of_nil (h : p.list k = []) :
    p.take k = (none, { p with stats := { p.stats with misses := p.stats.misses + 1 } }) := by
  simp only [take, h]

theorem take_of_cons {rest : List Segment} (h : p.list k = s :: rest) :
    p.take k =
      (some s, { p.setList k rest with stats := { p.stats with hits := p.stats.hits + 1 } }) := by
  simp only [take, h]

theorem gains_of_take (h : p.take k = (some s, q)) : q.Gains k s p := by
  cases hlist : p.list k with
  | nil =>
      rw [take_of_nil hlist] at h
      cases h
  | cons t rest =>
      rw [take_of_cons hlist] at h
      cases h
      refine ⟨?_, fun j hj => (list_setList_of_ne hj rest).symm, rfl, rfl, rfl⟩
      rw [hlist]
      exact congrArg (s :: ·) (list_setList_same p k rest).symm

theorem eq_of_take_none (h : p.take k = (none, q)) : q = { p with stats := q.stats } := by
  cases hlist : p.list k with
  | nil =>
      rw [take_of_nil hlist] at h
      cases h
      rfl
  | cons t rest =>
      rw [take_of_cons hlist] at h
      cases h

/-- The class on whose list the pool keeps a segment that is given back, if it keeps it. -/
def keeps? (p : Pool) (s : Segment) : Option SizeClass :=
  if s.owner = p.owner then s.poolClass else none

theorem keeps?_eq_some_iff :
    p.keeps? s = some k ↔ s.owner = p.owner ∧ s.poolClass = some k := by
  unfold keeps?
  split
  · next howner => exact (and_iff_right howner).symm
  · next howner => exact iff_of_false nofun fun h => howner h.1

/-- The segments of a chain that the pool does not keep when the chain is freed. -/
def refused (p : Pool) (chain : Chain) : List Segment :=
  chain.filter fun s => (p.keeps? s).isNone

theorem refused_cons (p : Pool) (s : Segment) (chain : Chain) :
    p.refused (s :: chain) = p.refused [s] ++ p.refused chain :=
  List.filter_append [s] chain

theorem keeps?_congr {p q : Pool} (howner : p.owner = q.owner) : p.keeps? = q.keeps? := by
  funext s
  simp only [keeps?, howner]

theorem refused_congr {p q : Pool} (howner : p.owner = q.owner) : p.refused = q.refused := by
  funext chain
  simp only [refused, keeps?_congr howner]

theorem giveBack_of_kept (h : p.keeps? s = some k) (m : Memory) :
    p.giveBack m s =
      (.recycled k,
        { p.setList k (s :: p.list k) with
          stats := { p.stats with recycled := p.stats.recycled + 1 } },
        if p.wipe then s.wipe m else m) := by
  unfold keeps? at h
  simp only [giveBack, h]

theorem giveBack_of_refused (h : p.keeps? s = none) (m : Memory) :
    p.giveBack m s =
      (.released, { p with stats := { p.stats with released := p.stats.released + 1 } }, m) := by
  unfold keeps? at h
  simp only [giveBack, h]

/-! ### Runs -/

/-- Taking a segment may only add to the journal of the process, and to the counters. -/
theorem reuse?_cases (p : Pool) (k? : Option SizeClass) (st : MachineState) :
    ∃ s? q j, p.reuse? k? st = .ok (s?, q) { st with journal := j } ∧
      match s? with
      | some s => ∃ k, k? = some k ∧ q.Gains k s p
      | none => q = { p with stats := q.stats } := by
  cases k? with
  | none => exact ⟨none, p, st.journal, rfl, rfl⟩
  | some k =>
      rcases htake : p.take k with ⟨s?, q⟩
      simp only [reuse?, reuse, htake]
      cases s? with
      | none => exact ⟨none, q, st.journal, rfl, eq_of_take_none htake⟩
      | some s => exact ⟨some s, q, _, rfl, k, rfl, gains_of_take htake⟩

theorem reuse?_run (p : Pool) (k? : Option SizeClass) (st : MachineState) :
    ∃ s? q j, p.reuse? k? st = .ok (s?, q) { st with journal := j } ∧
      match s? with
      | some s => p.segments.Perm (s :: q.segments)
      | none => q.segments = p.segments := by
  obtain ⟨s?, q, j, hrun, hcases⟩ := p.reuse?_cases k? st
  refine ⟨s?, q, j, hrun, ?_⟩
  cases s? with
  | none =>
      simp only at hcases ⊢
      rw [hcases]
      rfl
  | some s =>
      obtain ⟨k, -, hgains⟩ := hcases
      exact hgains.segments

theorem recycle_run (p : Pool) (s : Segment) (st : MachineState) :
    p.recycle s [] st =
      .ok ((p.giveBack st.memory s).1, (p.giveBack st.memory s).2.1)
        { st with memory := (p.giveBack st.memory s).2.2 } := rfl

end Pool

end FiberStacks
