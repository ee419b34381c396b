import FiberStacks.Proofs.Pool
import Mathlib.Data.List.Forall2
import Mathlib.Logic.Function.Basic
import Mathlib.Order.Bounds.Defs

/-!
# The history of a pool

A pool is one stack for each class, and its counters tell how often it was used. Places in the
history of calls tell apart segments that look the same: a segment waits in the pool from the call
that gave it back until a call takes it or the pool is cleared.
-/

namespace FiberStacks.Pool

inductive Call where
  | take (k : SizeClass)
  | giveBack (s : Segment)
  | clear

namespace Call

@[simp]
def isTake : Call → Bool
  | take _ => true
  | _ => false

@[simp]
def isGiveBack : Call → Bool
  | giveBack _ => true
  | _ => false

end Call

inductive Answer where
  | taken (s? : Option Segment)
  | given (d : Disposition)
  | cleared (count : Nat)

/-- Segments that a call released by clearing the pool. -/
@[simp]
def Answer.dropped : Answer → Nat
  | cleared count => count
  | _ => 0

def dropped : List Answer → Nat
  | [] => 0
  | answer :: answers => answer.dropped + dropped answers

@[simp]
theorem dropped_concat (answers : List Answer) (answer : Answer) :
    dropped (answers ++ [answer]) = dropped answers + answer.dropped := by
  induction answers with
  | nil => exact Nat.add_comm answer.dropped 0
  | cons first answers ih => rw [List.cons_append, dropped, dropped, ih, Nat.add_assoc]

def serve (p : Pool) : Call → Machine (Answer × Pool)
  | .take k => do
    let (s?, p) ← p.reuse k
    return (.taken s?, p)
  | .giveBack s => do
    let (d, p) ← p.recycle s []
    return (.given d, p)
  | .clear => return (.cleared p.clear.1, p.clear.2)

/-- The answers to calls made one after the other, and the pool after them. -/
def serveAll (p : Pool) : List Call → Machine (List Answer × Pool)
  | [] => return ([], p)
  | call :: calls => do
    let (answer, p) ← p.serve call
    let (answers, p) ← p.serveAll calls
    return (answer :: answers, p)

/-- What a call does to a pool. -/
inductive Serves (p : Pool) : Call → Answer → Pool → Prop where
  | hit {k : SizeClass} {s : Segment} {q : Pool} (gains : q.Gains k s p)
      (stats : q.stats = { p.stats with hits := p.stats.hits + 1 }) :
      Serves p (.take k) (.taken (some s)) q
  | miss {k : SizeClass} (nil : p.list k = []) :
      Serves p (.take k) (.taken none)
        { p with stats := { p.stats with misses := p.stats.misses + 1 } }
  | kept {k : SizeClass} {s : Segment} {q : Pool} (keeps : p.keeps? s = some k)
      (gains : p.Gains k s q)
      (stats : q.stats = { p.stats with recycled := p.stats.recycled + 1 }) :
      Serves p (.giveBack s) (.given (.recycled k)) q
  | refused {s : Segment} (keeps : p.keeps? s = none) :
      Serves p (.giveBack s) (.given .released)
        { p with stats := { p.stats with released := p.stats.released + 1 } }
  | cleared {q : Pool} (nil : ∀ k, q.list k = []) (owner : q.owner = p.owner)
      (stats : q.stats = { p.stats with released := p.stats.released + p.totalCached }) :
      Serves p .clear (.cleared p.totalCached) q

theorem serves_take (p : Pool) (k : SizeClass) :
    p.Serves (.take k) (.taken (p.take k).1) (p.take k).2 := by
  cases hlist : p.list k with
  | nil =>
    rw [take_of_nil hlist]
    exact .miss hlist
  | cons s rest =>
    have htake := take_of_cons hlist
    rw [htake]
    exact .hit (gains_of_take htake) rfl

theorem serves_giveBack (p : Pool) (s : Segment) (m : Memory) :
    p.Serves (.giveBack s) (.given (p.giveBack m s).1) (p.giveBack m s).2.1 := by
  cases hkeeps : p.keeps? s with
  | some k =>
    rw [giveBack_of_kept hkeeps]
    exact .kept hkeeps (gains_setList p k s _) rfl
  | none =>
    rw [giveBack_of_refused hkeeps]
    exact .refused hkeeps

theorem serves_clear (p : Pool) : p.Serves .clear (.cleared p.clear.1) p.clear.2 :=
  .cleared (fun _ => Vector.getElem_replicate _) rfl rfl

/-- Every call is answered. -/
theorem serve_run (p : Pool) (call : Call) (st : MachineState) :
    ∃ answer q st', p.serve call st = .ok (answer, q) st' ∧ p.Serves call answer q := by
  cases call with
  | take k =>
    obtain ⟨st', hrun⟩ : ∃ st', p.reuse k st = .ok (p.take k) st' := by
      unfold reuse
      rcases p.take k with ⟨_ | s, q⟩
      · exact ⟨st, rfl⟩
      · exact ⟨_, rfl⟩
    exact ⟨_, _, st', Run.bind_of_ok hrun _, p.serves_take k⟩
  | giveBack s => exact ⟨_, _, _, rfl, p.serves_giveBack s st.memory⟩
  | clear => exact ⟨_, _, st, rfl, p.serves_clear⟩

/-- What a pool has been through: calls, and the answers to them. -/
inductive History (owner : DomainId) (baseWords : Nat) (wipe : Bool) :
    List Call → List Answer → Pool → Prop where
  | start : History owner baseWords wipe [] [] (empty owner baseWords wipe)
  | call {calls : List Call} {answers : List Answer} {p q : Pool} {call : Call} {answer : Answer}
      (before : History owner baseWords wipe calls answers p) (serves : p.Serves call answer q) :
      History owner baseWords wipe (calls ++ [call]) (answers ++ [answer]) q

variable {owner : DomainId} {baseWords : Nat} {wipe : Bool} {calls : List Call}
  {answers : List Answer} {p q : Pool} {call : Call} {answer : Answer}

theorem History.serveAll_run (h : History owner baseWords wipe calls answers p)
    (later : List Call) (st : MachineState) :
    ∃ more q st', p.serveAll later st = .ok (more, q) st' ∧
      History owner baseWords wipe (calls ++ later) (answers ++ more) q := by
  induction later generalizing calls answers p st with
  | nil => exact ⟨[], p, st, rfl, by simpa using h⟩
  | cons call later ih =>
    obtain ⟨answer, q, st₁, hserve, hserves⟩ := p.serve_run call st
    obtain ⟨more, r, st₂, hrun, hhistory⟩ := ih (h.call hserves) st₁
    refine ⟨answer :: more, r, st₂, ?_, by simpa using hhistory⟩
    exact (Run.bind_of_ok hserve _).trans (Run.bind_of_ok hrun _)

/-! ### Counters -/

theorem length_segments (p : Pool) : p.segments.length = p.totalCached := by
  unfold segments totalCached
  rw [List.length_flatMap, List.sum_eq_foldl, List.foldl_map]
  rfl

theorem Gains.totalCached {k : SizeClass} {s : Segment} (h : q.Gains k s p) :
    p.totalCached = q.totalCached + 1 := by
  rw [← length_segments, ← length_segments, h.segments.length_eq, List.length_cons]

theorem totalCached_stats (p : Pool) (stats : PoolStats) :
    { p with stats }.totalCached = p.totalCached := rfl

theorem totalCached_of_nil (h : ∀ k, p.list k = []) : p.totalCached = 0 := by
  rw [← length_segments]
  simp [segments, h]

/-- Every call is counted, and the segments that were kept and not taken since are there or were
dropped when the pool was cleared. -/
structure Balanced (calls : List Call) (answers : List Answer) (p : Pool) : Prop where
  cached : p.stats.recycled = p.stats.hits + dropped answers + p.totalCached
  gives : p.stats.recycled + p.stats.released = calls.countP Call.isGiveBack + dropped answers
  takes : p.stats.hits + p.stats.misses = calls.countP Call.isTake

theorem Balanced.step (h : Balanced calls answers p) (serves : p.Serves call answer q) :
    Balanced (calls ++ [call]) (answers ++ [answer]) q := by
  obtain ⟨hcached, hgives, htakes⟩ := h
  cases serves with
  | hit gains stats =>
    have htotal := gains.totalCached
    constructor <;> simp [stats] <;> omega
  | miss nil => constructor <;> simp [totalCached_stats] <;> omega
  | kept keeps gains stats =>
    have htotal := gains.totalCached
    constructor <;> simp [stats] <;> omega
  | refused keeps => constructor <;> simp [totalCached_stats] <;> omega
  | cleared nil howner stats =>
    have htotal := totalCached_of_nil nil
    constructor <;> simp [stats] <;> omega

theorem History.balanced (h : History owner baseWords wipe calls answers p) :
    Balanced calls answers p := by
  induction h with
  | start => exact ⟨by simp [empty, dropped, totalCached_of_nil, list], rfl, rfl⟩
  | call before serves ih => exact ih.step serves

/-! ### Order -/

/-- At call `t` the segment that call `i` gave back waits on the list of a class: it was kept, and
it was neither dropped nor taken since. A call that took a segment took the one that was given back
by the call that `source` tells. -/
structure Waiting (owner : DomainId) (calls : List Call) (source : Nat → Option Nat)
    (k : SizeClass) (t i : Nat) : Prop where
  lt : i < t
  kept : ∃ s, calls[i]? = some (.giveBack s) ∧ s.owner = owner ∧ s.poolClass = some k
  undropped : ∀ j, i < j → j < t → calls[j]? ≠ some .clear
  untaken : ∀ j, i < j → j < t → ∀ l, calls[j]? = some (.take l) → source j ≠ some i

/-- Call `t` takes the segment that was given back last of those that wait in a class, and none if
none waits. -/
def TakesLatest (owner : DomainId) (calls : List Call) (answers : List Answer)
    (source : Nat → Option Nat) (k : SizeClass) (t : Nat) : Prop :=
  match source t with
  | some i =>
    IsGreatest { i | Waiting owner calls source k t i } i ∧
      ∃ s, calls[i]? = some (.giveBack s) ∧ answers[t]? = some (.taken (some s))
  | none => (∀ i, ¬Waiting owner calls source k t i) ∧ answers[t]? = some (.taken none)

section Waiting

variable {calls' : List Call} {source source' : Nat → Option Nat} {j k : SizeClass} {t i : Nat}
  {a : Option Nat} {s : Segment}

theorem Waiting.congr (hcalls : ∀ j < t, calls'[j]? = calls[j]?)
    (hsource : ∀ j < t, source' j = source j) (h : Waiting owner calls source k t i) :
    Waiting owner calls' source' k t i where
  lt := h.lt
  kept := hcalls i h.lt ▸ h.kept
  undropped j hij hjt := hcalls j hjt ▸ h.undropped j hij hjt
  untaken j hij hjt := hcalls j hjt ▸ hsource j hjt ▸ h.untaken j hij hjt

theorem Waiting.class_eq (h : Waiting owner calls source k t i)
    (h' : Waiting owner calls source j t i) : j = k := by
  obtain ⟨s, hs, -, hclass⟩ := h.kept
  obtain ⟨s', hs', -, hclass'⟩ := h'.kept
  cases hs.symm.trans hs'
  exact Option.some.inj (hclass'.symm.trans hclass)

/-- A later call changes nothing about what waited before it. -/
theorem waiting_concat_iff (ht : t ≤ calls.length) :
    Waiting owner (calls ++ [call]) (Function.update source calls.length a) k t i ↔
      Waiting owner calls source k t i := by
  have hcalls : ∀ j < t, (calls ++ [call])[j]? = calls[j]? :=
    fun j hj => List.getElem?_append_left (hj.trans_le ht)
  have hsource : ∀ j < t, Function.update source calls.length a j = source j :=
    fun j hj => Function.update_of_ne (hj.trans_le ht).ne a source
  exact ⟨Waiting.congr (fun j hj => (hcalls j hj).symm) fun j hj => (hsource j hj).symm,
    Waiting.congr hcalls hsource⟩

/-- What waits after a call: what has waited, unless the call drops or takes it, and what the call
itself gives back. -/
theorem waiting_succ_iff (hcall : calls[t]? = some call) :
    Waiting owner calls source k (t + 1) i ↔
      (Waiting owner calls source k t i ∧ call ≠ .clear ∧
          ∀ l, call = .take l → source t ≠ some i) ∨
        (i = t ∧ ∃ s, call = .giveBack s ∧ s.owner = owner ∧ s.poolClass = some k) := by
  constructor
  · intro h
    rcases (Nat.lt_succ_iff.mp h.lt).lt_or_eq with hlt | rfl
    · have hbefore : ∀ j < t, j < t + 1 := fun j hj => hj.trans (Nat.lt_succ_self t)
      refine .inl ⟨⟨hlt, h.kept, fun j hij hjt => h.undropped j hij (hbefore j hjt),
        fun j hij hjt => h.untaken j hij (hbefore j hjt)⟩, ?_, ?_⟩
      · rintro rfl
        exact h.undropped t hlt (Nat.lt_succ_self t) hcall
      · rintro l rfl
        exact h.untaken t hlt (Nat.lt_succ_self t) l hcall
    · obtain ⟨s, hs, howned⟩ := h.kept
      exact .inr ⟨rfl, s, Option.some.inj (hcall.symm.trans hs), howned⟩
  · rintro (⟨h, hclear, htake⟩ | ⟨rfl, s, rfl, howned⟩)
    -- Between `i` and `t + 1` there are the calls between `i` and `t`, and call `t` itself.
    · refine ⟨h.lt.trans (Nat.lt_succ_self t), h.kept, fun j hij hjt => ?_,
        fun j hij hjt l hl => ?_⟩
      · rcases (Nat.lt_succ_iff.mp hjt).lt_or_eq with hlt | rfl
        · exact h.undropped j hij hlt
        · rw [hcall]
          exact fun heq => hclear (Option.some.inj heq)
      · rcases (Nat.lt_succ_iff.mp hjt).lt_or_eq with hlt | rfl
        · exact h.untaken j hij hlt l hl
        · exact htake l (Option.some.inj (hcall.symm.trans hl))
    · exact ⟨Nat.lt_succ_self i, ⟨s, hcall, howned⟩, fun j hij hjt => by omega,
        fun j hij hjt => by omega⟩

theorem waiting_length_concat_iff :
    Waiting owner (calls ++ [call]) (Function.update source calls.length a) k
        (calls ++ [call]).length i ↔
      (Waiting owner calls source k calls.length i ∧ call ≠ .clear ∧
          ∀ l, call = .take l → a ≠ some i) ∨
        (i = calls.length ∧ ∃ s, call = .giveBack s ∧ s.owner = owner ∧ s.poolClass = some k) := by
  rw [List.length_append, List.length_singleton, waiting_succ_iff List.getElem?_concat_length,
    waiting_concat_iff le_rfl, Function.update_self]

/-- The list of a class holds what waits, the latest in front. -/
structure Stack (owner : DomainId) (calls : List Call) (source : Nat → Option Nat)
    (k : SizeClass) (places : List Nat) (segments : List Segment) : Prop where
  given : List.Forall₂ (fun i s => calls[i]? = some (.giveBack s)) places segments
  descending : places.Pairwise (· > ·)
  mem_iff : ∀ i, i ∈ places ↔ Waiting owner calls source k calls.length i

variable {places : List Nat} {segments : List Segment}

theorem stack_empty (owner : DomainId) (source : Nat → Option Nat) (k : SizeClass) :
    Stack owner [] source k [] [] where
  given := .nil
  descending := .nil
  mem_iff i := ⟨nofun, fun h => absurd h.lt (Nat.not_lt_zero i)⟩

theorem Stack.given_concat (h : Stack owner calls source k places segments) (call : Call) :
    List.Forall₂ (fun i s => (calls ++ [call])[i]? = some (.giveBack s)) places segments :=
  h.given.imp fun _ _ hgiven => by
    rwa [List.getElem?_append_left (List.getElem?_eq_some_iff.mp hgiven).1]

/-- A call that gives nothing to a class, takes nothing from it and does not clear it. -/
theorem Stack.idle (h : Stack owner calls source k places segments) (hclear : call ≠ .clear)
    (htake : ∀ l, call = .take l → ∀ i ∈ places, a ≠ some i)
    (hgive : ∀ s, call = .giveBack s → s.owner = owner → s.poolClass ≠ some k) :
    Stack owner (calls ++ [call]) (Function.update source calls.length a) k places segments where
  given := h.given_concat call
  descending := h.descending
  mem_iff i := by
    rw [waiting_length_concat_iff, ← h.mem_iff]
    constructor
    · intro hmem
      exact .inl ⟨hmem, hclear, fun l hl => htake l hl i hmem⟩
    · rintro (⟨hmem, -⟩ | ⟨-, s, hs, howner, hclass⟩)
      · exact hmem
      · exact absurd hclass (hgive s hs howner)

theorem Stack.take (h : Stack owner calls source k (i :: places) (s :: segments)) :
    Stack owner (calls ++ [.take k]) (Function.update source calls.length (some i)) k places
      segments where
  given := (List.forall₂_cons.mp (h.given_concat (.take k))).2
  descending := h.descending.of_cons
  mem_iff j := by
    rw [waiting_length_concat_iff, ← h.mem_iff]
    constructor
    · intro hmem
      have hlt : j < i := List.rel_of_pairwise_cons h.descending hmem
      refine .inl ⟨List.mem_cons_of_mem i hmem, nofun, fun _ _ heq => ?_⟩
      exact hlt.ne' (Option.some.inj heq)
    · rintro (⟨hmem, -, htake⟩ | ⟨-, s, hs, -⟩)
      · refine (List.mem_cons.mp hmem).resolve_left ?_
        rintro rfl
        exact htake k rfl rfl
      · cases hs

theorem Stack.giveBack (h : Stack owner calls source k places segments) (howner : s.owner = owner)
    (hclass : s.poolClass = some k) :
    Stack owner (calls ++ [.giveBack s]) (Function.update source calls.length a) k
      (calls.length :: places) (s :: segments) where
  given := .cons List.getElem?_concat_length (h.given_concat (.giveBack s))
  descending := .cons (fun i hi => ((h.mem_iff i).mp hi).lt) h.descending
  mem_iff i := by
    rw [waiting_length_concat_iff, ← h.mem_iff, List.mem_cons, or_comm]
    refine or_congr ?_ ?_
    · exact ⟨fun hmem => ⟨hmem, nofun, nofun⟩, And.left⟩
    · exact ⟨fun heq => ⟨heq, s, rfl, howner, hclass⟩, And.left⟩

theorem stack_clear (owner : DomainId) (calls : List Call) (source : Nat → Option Nat)
    (k : SizeClass) (a : Option Nat) :
    Stack owner (calls ++ [.clear]) (Function.update source calls.length a) k [] [] where
  given := .nil
  descending := .nil
  mem_iff i := by
    rw [waiting_length_concat_iff]
    refine ⟨nofun, ?_⟩
    rintro (⟨-, hclear, -⟩ | ⟨-, s, hs, -⟩)
    · exact absurd rfl hclear
    · cases hs

/-- The front of a stack is what was given back last. -/
theorem Stack.isGreatest (h : Stack owner calls source k (i :: places) segments) :
    IsGreatest { i | Waiting owner calls source k calls.length i } i := by
  refine ⟨(h.mem_iff i).mp List.mem_cons_self, fun j hj => ?_⟩
  rcases List.mem_cons.mp ((h.mem_iff j).mpr hj) with rfl | hmem
  · exact le_rfl
  · exact (List.rel_of_pairwise_cons h.descending hmem).le

theorem Stack.owned (h : Stack owner calls source k places segments) (hs : s ∈ segments) :
    s.owner = owner ∧ s.poolClass = some k := by
  obtain ⟨n, hn, rfl⟩ := List.getElem_of_mem hs
  have hplace : n < places.length := h.given.length_eq ▸ hn
  obtain ⟨s, hgiven, howned⟩ := ((h.mem_iff places[n]).mp (List.getElem_mem hplace)).kept
  have hsame : some (Call.giveBack segments[n]) = some (.giveBack s) :=
    (h.given.get hplace hn).symm.trans hgiven
  cases hsame
  exact howned

theorem Stack.takesLatest_some (h : Stack owner calls source k (i :: places) (s :: segments))
    (hlength : answers.length = calls.length) :
    TakesLatest owner (calls ++ [call]) (answers ++ [.taken (some s)])
      (Function.update source calls.length (some i)) k calls.length := by
  unfold TakesLatest
  rw [Function.update_self, ← hlength, List.getElem?_concat_length, hlength]
  simp only [waiting_concat_iff le_rfl]
  exact ⟨h.isGreatest, s, (List.forall₂_cons.mp (h.given_concat call)).1, rfl⟩

theorem Stack.takesLatest_none (h : Stack owner calls source k [] [])
    (hlength : answers.length = calls.length) :
    TakesLatest owner (calls ++ [call]) (answers ++ [.taken none])
      (Function.update source calls.length none) k calls.length := by
  unfold TakesLatest
  rw [Function.update_self, ← hlength, List.getElem?_concat_length, hlength]
  simp only [waiting_concat_iff le_rfl]
  exact ⟨fun i hi => List.not_mem_nil ((h.mem_iff i).mpr hi), trivial⟩

theorem TakesLatest.concat (h : TakesLatest owner calls answers source k t)
    (hlength : answers.length = calls.length) (ht : t < calls.length) :
    TakesLatest owner (calls ++ [call]) (answers ++ [answer])
      (Function.update source calls.length a) k t := by
  unfold TakesLatest at h ⊢
  rw [Function.update_of_ne ht.ne, List.getElem?_append_left (hlength ▸ ht)]
  simp only [waiting_concat_iff ht.le]
  cases hsource : source t with
  | none =>
    rw [hsource] at h
    exact h
  | some i =>
    rw [hsource] at h
    obtain ⟨hgreatest, s, hs, hanswer⟩ := h
    refine ⟨hgreatest, s, ?_, hanswer⟩
    rwa [List.getElem?_append_left (List.getElem?_eq_some_iff.mp hs).1]

/-- Every list of the pool is a stack, and every call that took a segment took the front of one. -/
structure Tracks (owner : DomainId) (calls : List Call) (answers : List Answer)
    (source : Nat → Option Nat) (p : Pool) : Prop where
  owner_eq : p.owner = owner
  length_eq : answers.length = calls.length
  lists : ∀ k, ∃ places, Stack owner calls source k places (p.list k)
  takes : ∀ t k, calls[t]? = some (.take k) → TakesLatest owner calls answers source k t

theorem tracks_empty (owner : DomainId) (baseWords : Nat) (wipe : Bool) :
    Tracks owner [] [] (fun _ => none) (empty owner baseWords wipe) where
  owner_eq := rfl
  length_eq := rfl
  lists k := ⟨[], by simpa [empty, list] using stack_empty owner _ k⟩
  takes t k ht := by simp at ht

/-- Of a call that changes no owner, what is left to show is about the lists and its own answer. -/
theorem Tracks.concat (h : Tracks owner calls answers source p) (howner : q.owner = p.owner)
    (hlists : ∀ k, ∃ places, Stack owner (calls ++ [call])
      (Function.update source calls.length a) k places (q.list k))
    (htakes : ∀ k, call = .take k → TakesLatest owner (calls ++ [call]) (answers ++ [answer])
      (Function.update source calls.length a) k calls.length) :
    Tracks owner (calls ++ [call]) (answers ++ [answer])
      (Function.update source calls.length a) q where
  owner_eq := howner.trans h.owner_eq
  length_eq := by simp [h.length_eq]
  lists := hlists
  takes t k ht := by
    rcases lt_trichotomy t calls.length with hlt | rfl | hgt
    · rw [List.getElem?_append_left hlt] at ht
      exact (h.takes t k ht).concat h.length_eq hlt
    · exact htakes k (Option.some.inj (List.getElem?_concat_length.symm.trans ht))
    · have hbound := (List.getElem?_eq_some_iff.mp ht).1
      simp only [List.length_append, List.length_singleton] at hbound
      omega

theorem Tracks.hit (h : Tracks owner calls answers source p) (gains : q.Gains k s p) :
    ∃ a, Tracks owner (calls ++ [.take k]) (answers ++ [.taken (some s)])
      (Function.update source calls.length a) q := by
  obtain ⟨places, hstack⟩ := h.lists k
  rw [gains.front] at hstack
  obtain ⟨i, rest, -, -, rfl⟩ := List.forall₂_cons_right_iff.mp hstack.given
  refine ⟨some i, h.concat gains.owner.symm (fun j => ?_) fun l hl => ?_⟩
  · by_cases hj : j = k
    · subst hj
      exact ⟨rest, hstack.take⟩
    · obtain ⟨others, hother⟩ := h.lists j
      rw [gains.other j hj] at hother
      refine ⟨others, hother.idle nofun (fun _ _ i' hi' heq => ?_) nofun⟩
      -- One call gives back to one class only.
      cases heq
      exact hj (hstack.isGreatest.1.class_eq ((hother.mem_iff i).mp hi'))
  · cases hl
    exact hstack.takesLatest_some h.length_eq

theorem Tracks.miss (h : Tracks owner calls answers source p) (nil : p.list k = [])
    (stats : PoolStats) :
    ∃ a, Tracks owner (calls ++ [.take k]) (answers ++ [.taken none])
      (Function.update source calls.length a) { p with stats } := by
  refine ⟨none, h.concat rfl (fun j => ?_) fun l hl => ?_⟩
  · obtain ⟨places, hstack⟩ := h.lists j
    exact ⟨places, hstack.idle nofun nofun nofun⟩
  · cases hl
    obtain ⟨places, hstack⟩ := h.lists k
    rw [nil] at hstack
    cases hstack.given
    exact hstack.takesLatest_none h.length_eq

theorem Tracks.kept (h : Tracks owner calls answers source p) (keeps : p.keeps? s = some k)
    (gains : p.Gains k s q) :
    ∃ a, Tracks owner (calls ++ [.giveBack s]) (answers ++ [answer])
      (Function.update source calls.length a) q := by
  obtain ⟨howner, hclass⟩ := keeps?_eq_some_iff.mp keeps
  rw [h.owner_eq] at howner
  refine ⟨none, h.concat gains.owner (fun j => ?_) nofun⟩
  obtain ⟨places, hstack⟩ := h.lists j
  by_cases hj : j = k
  · subst hj
    rw [gains.front]
    exact ⟨_, hstack.giveBack howner hclass⟩
  · rw [gains.other j hj]
    refine ⟨places, hstack.idle nofun nofun fun s' hs' _ hclass' => ?_⟩
    cases hs'
    exact hj (Option.some.inj (hclass'.symm.trans hclass))

theorem Tracks.refused (h : Tracks owner calls answers source p) (keeps : p.keeps? s = none)
    (stats : PoolStats) :
    ∃ a, Tracks owner (calls ++ [.giveBack s]) (answers ++ [answer])
      (Function.update source calls.length a) { p with stats } := by
  refine ⟨none, h.concat rfl (fun j => ?_) nofun⟩
  obtain ⟨places, hstack⟩ := h.lists j
  refine ⟨places, hstack.idle nofun nofun fun s' hs' howner hclass => ?_⟩
  cases hs'
  have hkept : p.keeps? s = some j := keeps?_eq_some_iff.mpr ⟨howner.trans h.owner_eq.symm, hclass⟩
  cases keeps.symm.trans hkept

theorem Tracks.cleared (h : Tracks owner calls answers source p) (nil : ∀ k, q.list k = [])
    (howner : q.owner = p.owner) :
    ∃ a, Tracks owner (calls ++ [.clear]) (answers ++ [answer])
      (Function.update source calls.length a) q := by
  refine ⟨none, h.concat howner (fun k => ⟨[], ?_⟩) nofun⟩
  rw [nil k]
  exact stack_clear owner calls source k none

theorem Tracks.step (h : Tracks owner calls answers source p) (serves : p.Serves call answer q) :
    ∃ a, Tracks owner (calls ++ [call]) (answers ++ [answer])
      (Function.update source calls.length a) q := by
  cases serves with
  | hit gains stats => exact h.hit gains
  | miss nil => exact h.miss nil _
  | kept keeps gains stats => exact h.kept keeps gains
  | refused keeps => exact h.refused keeps _
  | cleared nil howner stats => exact h.cleared nil howner

theorem History.tracks (h : History owner baseWords wipe calls answers p) :
    ∃ source, Tracks owner calls answers source p := by
  induction h with
  | start => exact ⟨_, tracks_empty owner baseWords wipe⟩
  | call before serves ih =>
    obtain ⟨source, htracks⟩ := ih
    obtain ⟨a, hstep⟩ := htracks.step serves
    exact ⟨_, hstep⟩

end Waiting

/-- Any calls on a new pool are answered. Each `take` gets the segment of its class and of the
pool's domain that was given back last of those not yet taken or dropped, and none exactly if there
is none; no list ever holds another segment, and the counters account for every call. -/
theorem serveAll_lifo (owner : DomainId) (baseWords : Nat) (wipe : Bool) (calls : List Call)
    (st : MachineState) :
    ∃ answers p st', (empty owner baseWords wipe).serveAll calls st = .ok (answers, p) st' ∧
      answers.length = calls.length ∧
      (∃ source, ∀ t k, calls[t]? = some (.take k) →
        TakesLatest owner calls answers source k t) ∧
      (∀ k, ∀ s ∈ p.list k, s.owner = owner ∧ s.poolClass = some k) ∧
      Balanced calls answers p := by
  obtain ⟨answers, p, st', hrun, hhistory⟩ := History.start.serveAll_run calls st
  simp only [List.nil_append] at hhistory
  obtain ⟨source, htracks⟩ := hhistory.tracks
  refine ⟨answers, p, st', hrun, htracks.length_eq, ⟨source, htracks.takes⟩, fun k s hs => ?_,
    hhistory.balanced⟩
  obtain ⟨places, hstack⟩ := htracks.lists k
  exact hstack.owned hs

end FiberStacks.Pool
