import FiberStacks.Proofs.Domain.Freeing
import Mathlib.Data.List.Perm.Basic

/-!
# Who has a chain

Callers store chains in continuations, and take them out again, resume them or drop them, each in
whatever domain. A use of a continuation either gets the whole chain or changes nothing.
-/

namespace FiberStacks

theorem Segment.owns_of_mem_handlerSlots {s : Segment} {a : Nat} (hs : s.Formed)
    (ha : a ∈ s.handlerSlots) : s.Owns a := by
  obtain ⟨i, hi, rfl⟩ := Memory.mem_span_iff.mp ha
  have hle := Nat.le_trans hs.base_le_sp hs.sp_le_high
  simp only [Owns, handlerBlockBytes, wordBytes]
  omega

/-- The domains of a process, its continuations, and the chains in the hands of callers. -/
structure Custody where
  machine : MachineState
  domains : List Domain
  continuations : List Continuation
  hands : List Chain

namespace Custody

/-- A call that makes or fills a continuation, or uses one. Domains, continuations and chains go by
their places. -/
inductive Call where
  | create (l : Nat)
  | createEmpty
  | replace (j l : Nat)
  /-- Take the chain without a report. -/
  | take? (j : Nat)
  | take (j : Nat)
  | takeRebound (j : Nat) (h : Handlers)
  | resume (i j : Nat) (h : Handlers)
  | drop (i j : Nat)
  deriving DecidableEq

inductive Answer where
  | done
  | chain (chain : Chain)
  | nothing
  | failed (error : StackError)
  /-- The process stops. -/
  | stopped (cause : Abort)
  deriving DecidableEq

namespace Answer

def ofOption : Option Chain → Answer
  | some c => chain c
  | none => nothing

def ofChain : Except StackError Chain → Answer
  | .ok c => chain c
  | .error error => failed error

def ofUnit : Except StackError Unit → Answer
  | .ok () => done
  | .error error => failed error

end Answer

namespace Call

/-- The continuation that a call uses. -/
def used? : Call → Option Nat
  | create _ | createEmpty | replace _ _ => none
  | take? j | take j | takeRebound j _ | resume _ j _ | drop _ j => some j

/-- What a use answers that does not get a chain. -/
def failure : Call → Answer
  | take? _ => .nothing
  | _ => .failed .continuationAlreadyResumed

/-- All that a call names is there. -/
def Names (w : Custody) : Call → Prop
  | create l => l < w.hands.length
  | createEmpty => True
  | replace j l => j < w.continuations.length ∧ l < w.hands.length
  | take? j | take j | takeRebound j _ => j < w.continuations.length
  | resume i j _ | drop i j => i < w.domains.length ∧ j < w.continuations.length

end Call

/-- Calls on continuations. A chain that is stored leaves the hands of its owner, and a chain that
is taken gets into the hands of the taker. -/
inductive Step (w : Custody) : Call → Answer → Custody → Prop
  | create {l : Nat} {chain : Chain} :
      w.hands[l]? = some chain →
      Step w (.create l) .done
        { w with
          continuations := w.continuations ++ [.ofChain chain]
          hands := w.hands.eraseIdx l }
  | createEmpty :
      Step w .createEmpty .done { w with continuations := w.continuations ++ [.empty] }
  | replace {j l : Nat} {k k' : Continuation} {chain : Chain} {st : MachineState} :
      w.continuations[j]? = some k → w.hands[l]? = some chain →
      k.replace chain w.machine = .ok k' st →
      Step w (.replace j l) .done
        { w with
          machine := st
          continuations := w.continuations.set j k'
          hands := w.hands.eraseIdx l }
  | replaceRefused {j l : Nat} {k : Continuation} {chain : Chain} {cause : Abort}
      {st : MachineState} :
      w.continuations[j]? = some k → w.hands[l]? = some chain →
      k.replace chain w.machine = .error cause st →
      Step w (.replace j l) (.stopped cause) { w with machine := st }
  | take? {j : Nat} {k k' : Continuation} {chain? : Option Chain} :
      w.continuations[j]? = some k → k.take? = (chain?, k') →
      Step w (.take? j) (.ofOption chain?)
        { w with
          continuations := w.continuations.set j k'
          hands := w.hands ++ chain?.toList }
  | take {j : Nat} {k k' : Continuation} {r : Except StackError Chain} {st : MachineState} :
      w.continuations[j]? = some k → k.take w.machine = .ok (r, k') st →
      Step w (.take j) (.ofChain r)
        { w with
          machine := st
          continuations := w.continuations.set j k'
          hands := w.hands ++ r.toOption.toList }
  | takeRebound {j : Nat} {k k' : Continuation} {h : Handlers} {r : Except StackError Chain}
      {st : MachineState} :
      w.continuations[j]? = some k → k.takeRebound h w.machine = .ok (r, k') st →
      Step w (.takeRebound j h) (.ofChain r)
        { w with
          machine := st
          continuations := w.continuations.set j k'
          hands := w.hands ++ r.toOption.toList }
  | resume {i j : Nat} {d d' : Domain} {k k' : Continuation} {h : Handlers}
      {r : Except StackError Unit} {st : MachineState} :
      w.domains[i]? = some d → w.continuations[j]? = some k →
      d.resume k h w.machine = .ok (r, d', k') st →
      Step w (.resume i j h) (.ofUnit r)
        { w with
          machine := st
          domains := w.domains.set i d'
          continuations := w.continuations.set j k' }
  | drop {i j : Nat} {d d' : Domain} {k k' : Continuation} {r : Except StackError Unit}
      {st : MachineState} :
      w.domains[i]? = some d → w.continuations[j]? = some k →
      d.dropContinuation k w.machine = .ok (r, d', k') st →
      Step w (.drop i j) (.ofUnit r)
        { w with
          machine := st
          domains := w.domains.set i d'
          continuations := w.continuations.set j k' }

/-! ### What a use leaves -/

/-- Nothing changes but the journal. -/
def Unchanged (w w' : Custody) : Prop :=
  ∃ journal, w' = { w with machine := { w.machine with journal } }

/-- The chain that a continuation holds, empty if there is no chain or no such continuation. -/
def stored (w : Custody) (j : Nat) : Chain :=
  (w.continuations[j]?.map Continuation.stored).getD []

/-- The outermost segment of the chain has the handlers, and no other word has changed. -/
def Rebound (chain : Chain) (h : Handlers) (m m' : Memory) : Prop :=
  ∃ xs s, chain = xs ++ [s] ∧ s.handlers m' = h ∧ ∀ a ∉ s.handlerSlots, m'.read a = m.read a

/-- What a use leaves that gets the chain. The caller has it then, or a domain runs it in front of
what it ran, with the exception handler that was saved in the head, or a domain has freed it and
keeps its segments in the pool but for those that the pool refuses. -/
inductive Delivers (w : Custody) (chain : Chain) : Call → Answer → Custody → Prop
  | take? {j : Nat} {k : Continuation} :
      w.continuations[j]? = some k →
      Delivers w chain (.take? j) (.chain chain)
        { w with
          continuations := w.continuations.set j { k with stored := [] }
          hands := w.hands ++ [chain] }
  | take {j : Nat} {k : Continuation} :
      w.continuations[j]? = some k →
      Delivers w chain (.take j) (.chain chain)
        { w with
          continuations := w.continuations.set j { k with stored := [] }
          hands := w.hands ++ [chain] }
  | takeRebound {j : Nat} {h : Handlers} {k : Continuation} {memory : Memory} :
      w.continuations[j]? = some k → Rebound chain h w.machine.memory memory →
      Delivers w chain (.takeRebound j h) (.chain chain)
        { w with
          machine := { w.machine with memory }
          continuations := w.continuations.set j { k with stored := [] }
          hands := w.hands ++ [chain] }
  | resume {i j : Nat} {h : Handlers} {d : Domain} {k : Continuation} {m : Memory} :
      w.domains[i]? = some d → w.continuations[j]? = some k →
      Rebound chain h w.machine.memory m →
      Delivers w chain (.resume i j h) .done
        { w with
          machine := { w.machine with memory := (Chain.append m chain d.suspended).2 }
          domains := w.domains.set i
            { d with
              running := chain ++ d.suspended
              exnHandler := Domain.savedExn chain }
          continuations := w.continuations.set j { k with stored := [] } }
  | drop {i j : Nat} {d d' : Domain} {k : Continuation} {st : MachineState} :
      w.domains[i]? = some d → w.continuations[j]? = some k →
      d.free chain w.machine = .ok d' st → d.Reclaims chain w.machine d' st →
      Delivers w chain (.drop i j) .done
        { w with
          machine := st
          domains := w.domains.set i d'
          continuations := w.continuations.set j { k with stored := [] } }

variable {w w' : Custody} {c : Call} {a : Answer} {i j l : Nat} {d : Domain} {k k' : Continuation}
  {chain : Chain} {h : Handlers} {m : Memory} {st st' : MachineState}

theorem stored_of_getElem? (hk : w.continuations[j]? = some k) : w.stored j = k.stored := by
  rw [stored, hk]
  rfl

theorem rebound_rebind (hchain : chain ≠ []) : Rebound chain h m (Chain.rebind m chain h) := by
  obtain ⟨xs, s, rfl⟩ := (List.eq_nil_or_concat' chain).resolve_left hchain
  rw [Chain.rebind, List.getLast?_concat]
  refine ⟨xs, s, rfl, Segment.handlers_setHandlers h, fun a ha => ?_⟩
  exact Memory.read_store_of_not_mem _ _ ha

theorem set_same {α : Type} {xs : List α} {x : α} (hx : xs[i]? = some x) : xs.set i x = xs := by
  obtain ⟨hi, rfl⟩ := List.getElem?_eq_some_iff.mp hx
  exact List.set_getElem_self hi

/-- A use of a continuation without a chain changes nothing, and one of a continuation with a chain
gets it. -/
theorem Step.use_cases (hstep : w.Step c a w') (hc : c.used? = some j) :
    (w.stored j = [] ∧ a = c.failure ∧ w.Unchanged w') ∨
      (w.stored j ≠ [] ∧ w.Delivers (w.stored j) c a w') := by
  cases hstep with
  | create => cases hc
  | createEmpty => cases hc
  | replace => cases hc
  | replaceRefused => cases hc
  | @take? j' k k' chain? hk htake =>
      cases hc
      rw [stored_of_getElem? hk]
      cases hstored : k.stored with
      | nil =>
          rw [Continuation.take?, hstored] at htake
          cases htake
          refine .inl ⟨rfl, rfl, w.machine.journal, ?_⟩
          rw [set_same hk, Option.toList_none, List.append_nil]
      | cons s outer =>
          rw [Continuation.take?, hstored] at htake
          cases htake
          exact .inr ⟨List.cons_ne_nil s outer, .take? hk⟩
  | @take j' k k' r st hk htake =>
      cases hc
      rw [stored_of_getElem? hk]
      by_cases hstored : k.stored = []
      · obtain ⟨j, hrefused⟩ := Continuation.take_of_taken hstored w.machine
        cases hrefused.symm.trans htake
        refine .inl ⟨hstored, rfl, j, ?_⟩
        simp only [set_same hk, Except.toOption, Option.toList_none, List.append_nil]
      · cases (Continuation.take_of_stored hstored _).symm.trans htake
        exact .inr ⟨hstored, .take hk⟩
  | @takeRebound j' k k' h r st hk htake =>
      cases hc
      rw [stored_of_getElem? hk]
      by_cases hstored : k.stored = []
      · obtain ⟨j, hrefused⟩ := Continuation.takeRebound_of_taken hstored _ w.machine
        cases hrefused.symm.trans htake
        refine .inl ⟨hstored, rfl, j, ?_⟩
        simp only [set_same hk, Except.toOption, Option.toList_none, List.append_nil]
      · cases (Continuation.takeRebound_of_stored hstored _ _).symm.trans htake
        exact .inr ⟨hstored, .takeRebound hk (rebound_rebind hstored)⟩
  | @resume i j d d' k k' h r st hd hk hrun =>
      cases hc
      rw [stored_of_getElem? hk]
      rcases List.eq_nil_or_concat' k.stored with hstored | ⟨xs, s, hstored⟩
      · obtain ⟨j, hrefused⟩ := Domain.resume_of_taken (d := d) (h := h) hstored w.machine
        cases hrefused.symm.trans hrun
        refine .inl ⟨hstored, rfl, j, ?_⟩
        rw [set_same hd, set_same hk]
      · have hne : k.stored ≠ [] := by simp [hstored]
        cases (Domain.resume_run hstored w.machine).symm.trans hrun
        have hresumed := Delivers.resume (w := w) hd hk (rebound_rebind (h := h) hne)
        rw [← Domain.savedExn_append hne d.suspended, hstored] at hresumed
        rw [hstored]
        simp only [Chain.append, Chain.rebind, List.getLast?_concat, List.append_assoc,
          List.cons_append, List.nil_append] at hresumed
        exact .inr ⟨by simp, hresumed⟩
  | @drop i j d d' k k' r st hd hk hrun =>
      cases hc
      rw [stored_of_getElem? hk]
      rcases Domain.dropContinuation_cases hrun with
        ⟨hstored, rfl, rfl, rfl, j, rfl⟩ | ⟨hstored, rfl, rfl, hfree⟩
      · refine .inl ⟨hstored, rfl, j, ?_⟩
        rw [set_same hd, set_same hk]
      · exact .inr ⟨hstored, .drop hd hk hfree (Domain.reclaims_of_free hfree)⟩

/-- A chain is stored where there is none, and refused where there is one. -/
theorem Step.replace_cases (hstep : w.Step (.replace j l) a w') :
    (w.stored j = [] ∧ a = .done ∧ ∃ k chain, w.continuations[j]? = some k ∧
        w.hands[l]? = some chain ∧ w' = { w with
          continuations := w.continuations.set j (.ofChain chain)
          hands := w.hands.eraseIdx l }) ∨
      (w.stored j ≠ [] ∧ a = .stopped (.violation .continuationNotEmpty) ∧ w.Unchanged w') := by
  cases hstep with
  | replace hk hchain hrun =>
      obtain ⟨hstored, rfl, rfl⟩ := Continuation.replace_eq_ok hrun
      exact .inl ⟨(stored_of_getElem? hk).trans hstored, rfl, _, _, hk, hchain, rfl⟩
  | replaceRefused hk hchain hrun =>
      obtain ⟨hstored, rfl, journal, rfl⟩ := Continuation.replace_eq_error hrun
      exact .inr ⟨(stored_of_getElem? hk).trans_ne hstored, rfl, journal, rfl⟩

/-! ### What is stored after a call -/

theorem stored_length : w.stored w.continuations.length = [] := by
  rw [stored, List.getElem?_eq_none (Nat.le_refl _)]
  rfl

/-- What is read off a list after one member was replaced. -/
theorem getD_map_set {α β : Type} {xs : List α} {x y : α} {f : α → β} {b : β}
    (hx : xs[j]? = some x) (i : Nat) :
    ((xs.set j y)[i]?.map f).getD b = if i = j then f y else (xs[i]?.map f).getD b := by
  obtain ⟨hj, -⟩ := List.getElem?_eq_some_iff.mp hx
  rw [List.getElem?_set]
  by_cases hij : i = j
  · rw [if_pos hij.symm, if_pos hij, if_pos hj]
    rfl
  · rw [if_neg (Ne.symm hij), if_neg hij]

/-- What is read off a list after a member was added at the end. -/
theorem getD_map_append {α β : Type} {xs : List α} {y : α} {f : α → β} {b : β} (i : Nat) :
    ((xs ++ [y])[i]?.map f).getD b = if i = xs.length then f y else (xs[i]?.map f).getD b := by
  by_cases hi : i = xs.length
  · rw [if_pos hi, hi, List.getElem?_concat_length]
    rfl
  · rw [if_neg hi, List.getElem?_append]
    split
    · rfl
    · have hbeyond : [y][i - xs.length]? = none :=
        List.getElem?_eq_none (by simp only [List.length_singleton]; omega)
      rw [hbeyond, List.getElem?_eq_none (by omega)]

theorem stored_of_set (hk : w.continuations[j]? = some k)
    (hset : w'.continuations = w.continuations.set j k') (i : Nat) :
    w'.stored i = if i = j then k'.stored else w.stored i := by
  rw [stored, hset]
  exact getD_map_set hk i

theorem stored_of_append (happend : w'.continuations = w.continuations ++ [k]) (i : Nat) :
    w'.stored i = if i = w.continuations.length then k.stored else w.stored i := by
  rw [stored, happend]
  exact getD_map_append i

theorem Unchanged.stored_eq (h : w.Unchanged w') (i : Nat) : w'.stored i = w.stored i := by
  obtain ⟨journal, rfl⟩ := h
  rfl

theorem Unchanged.memory_eq (h : w.Unchanged w') : w'.machine.memory = w.machine.memory := by
  obtain ⟨journal, rfl⟩ := h
  rfl

namespace Delivers

theorem exists_set (hdelivers : w.Delivers chain c a w') (hc : c.used? = some j) :
    ∃ k, w.continuations[j]? = some k ∧
      w'.continuations = w.continuations.set j { k with stored := [] } := by
  cases hdelivers <;> cases hc <;> exact ⟨_, ‹_›, rfl⟩

theorem hands_eq (hdelivers : w.Delivers chain c a w') :
    w'.hands = w.hands ++ [chain] ∨ w'.hands = w.hands := by
  cases hdelivers with
  | take? | take | takeRebound => exact .inl rfl
  | resume | drop => exact .inr rfl

end Delivers

/-- Nobody gets a chain of no segments. -/
theorem Step.hands_ne_nil (hstep : w.Step c a w') (h : ∀ chain ∈ w.hands, chain ≠ []) :
    ∀ chain ∈ w'.hands, chain ≠ [] := by
  cases hc : c.used? with
  | some j =>
      rcases hstep.use_cases hc with ⟨-, -, journal, rfl⟩ | ⟨hne, hdelivers⟩
      · exact h
      · rcases hdelivers.hands_eq with hhands | hhands
        · rw [hhands, List.forall_mem_append]
          exact ⟨h, by simpa using hne⟩
        · rwa [hhands]
  | none =>
      cases hstep with
      | create | replace => exact fun chain hmem => h chain (List.mem_of_mem_eraseIdx hmem)
      | createEmpty | replaceRefused => exact h
      | take? | take | takeRebound | resume | drop => cases hc

theorem Rebound.read_eq {m' : Memory} (h : Rebound chain h m m') (hformed : ∀ s ∈ chain, s.Formed)
    {a : Nat} (ha : ∀ s ∈ chain, ¬ s.Owns a) : m'.read a = m.read a := by
  obtain ⟨xs, s, rfl, -, hothers⟩ := h
  have hs : s ∈ xs ++ [s] := by simp
  exact hothers a fun hmem => ha s hs (Segment.owns_of_mem_handlerSlots (hformed s hs) hmem)

/-- A use writes on the segments of the chain that it gets. -/
theorem Delivers.read_eq (hdelivers : w.Delivers chain c a w') (hformed : ∀ s ∈ chain, s.Formed)
    {p : Nat} (hp : ∀ s ∈ chain, ¬ s.Owns p) :
    w'.machine.memory.read p = w.machine.memory.read p := by
  cases hdelivers with
  | take? | take => rfl
  | takeRebound _ hrebound => exact hrebound.read_eq hformed hp
  | @resume i j h d k m hd hk hrebound =>
      refine .trans ?_ (hrebound.read_eq hformed hp)
      obtain ⟨xs, s, rfl, -⟩ := hrebound
      have hs : s ∈ xs ++ [s] := by simp
      simp only [Chain.append, List.getLast?_concat]
      refine Segment.read_recordParent ?_ _
      rintro rfl
      exact hp s hs (Segment.owns_parentSlot (hformed s hs))
  | drop _ _ _ hreclaims => exact hreclaims.elsewhere hformed hp

/-! ### Segments with memory of their own -/

/-- The segments that are stored, and those in the hands of callers. -/
def waiting (w : Custody) : List Segment :=
  w.continuations.flatMap Continuation.stored ++ w.hands.flatten

/-- The segments that wait are in use, each has memory of its own, and nobody has a chain of no
segments in hands. -/
structure Kept (w : Custody) : Prop where
  formed : ∀ s ∈ w.waiting, s.Formed
  tagged : ∀ s ∈ w.waiting, s.magic = segmentMagic
  apart : w.waiting.Pairwise Segment.Apart
  nonempty : ∀ chain ∈ w.hands, chain ≠ []

theorem exists_of_mem_stored {s : Segment} (hs : s ∈ w.stored j) :
    ∃ k, w.continuations[j]? = some k ∧ s ∈ k.stored := by
  cases hk : w.continuations[j]? with
  | none =>
      rw [stored, hk] at hs
      cases hs
  | some k => exact ⟨k, rfl, stored_of_getElem? hk ▸ hs⟩

theorem mem_waiting_of_stored {s : Segment} (hs : s ∈ w.stored j) : s ∈ w.waiting := by
  obtain ⟨k, hk, hs⟩ := exists_of_mem_stored hs
  exact List.mem_append_left _ (List.mem_flatMap_of_mem (List.mem_of_getElem? hk) hs)

theorem flatMap_set_perm {α β : Type} {f : α → List β} {xs : List α} {x : α} (hx : xs[i]? = some x)
    (y : α) : ((xs.set i y).flatMap f).Perm (f y ++ (xs.eraseIdx i).flatMap f) :=
  (set_perm_eraseIdx hx y).flatMap_right f

theorem flatMap_perm {α β : Type} {f : α → List β} {xs : List α} {x : α} (hx : xs[i]? = some x) :
    (xs.flatMap f).Perm (f x ++ (xs.eraseIdx i).flatMap f) :=
  (perm_cons_eraseIdx hx).flatMap_right f

theorem hands_perm (hchain : w.hands[l]? = some chain) :
    w.hands.flatten.Perm (chain ++ (w.hands.eraseIdx l).flatten) := by
  simpa only [List.flatMap_id, id] using flatMap_perm (f := id) hchain

namespace Kept

theorem stored_apart (h : w.Kept) (hij : i ≠ j) {s t : Segment} (hs : s ∈ w.stored i)
    (ht : t ∈ w.stored j) : s.Apart t := by
  obtain ⟨k, hk, hs⟩ := exists_of_mem_stored hs
  obtain ⟨k', hk', ht⟩ := exists_of_mem_stored ht
  obtain ⟨hi, rfl⟩ := List.getElem?_eq_some_iff.mp hk
  obtain ⟨hj, rfl⟩ := List.getElem?_eq_some_iff.mp hk'
  have happart := (List.pairwise_flatMap.mp (List.pairwise_append.mp h.apart).1).2
  rw [List.pairwise_iff_getElem] at happart
  rcases Nat.lt_or_gt_of_ne hij with hlt | hgt
  · exact happart i j hi hj hlt s hs t ht
  · exact (happart j i hj hi hgt t ht s hs).symm

/-- Some of the segments that waited go on to wait. -/
theorem of_perm_append (h : w.Kept) (gone : List Segment)
    (hperm : w.waiting.Perm (w'.waiting ++ gone)) (hnonempty : ∀ chain ∈ w'.hands, chain ≠ []) :
    w'.Kept where
  formed := fun s hs => h.formed s (hperm.mem_iff.mpr (List.mem_append_left _ hs))
  tagged := fun s hs => h.tagged s (hperm.mem_iff.mpr (List.mem_append_left _ hs))
  apart := (List.pairwise_append.mp (h.apart.perm hperm fun hst => hst.symm)).1
  nonempty := hnonempty

theorem of_unchanged (h : w.Kept) (hunchanged : w.Unchanged w') : w'.Kept := by
  obtain ⟨journal, rfl⟩ := hunchanged
  exact ⟨h.formed, h.tagged, h.apart, h.nonempty⟩

theorem of_delivers (h : w.Kept) (hc : c.used? = some j)
    (hdelivers : w.Delivers (w.stored j) c a w') (hnonempty : ∀ chain ∈ w'.hands, chain ≠ []) :
    w'.Kept := by
  obtain ⟨k, hk, hset⟩ := hdelivers.exists_set hc
  have hbefore := flatMap_perm (f := Continuation.stored) hk
  have hafter := flatMap_set_perm (f := Continuation.stored) hk { k with stored := [] }
  rw [stored_of_getElem? hk] at hdelivers
  rcases hdelivers.hands_eq with hhands | hhands
  · exact h.of_perm_append [] (by grind [waiting]) hnonempty
  · exact h.of_perm_append k.stored (by grind [waiting]) hnonempty

theorem of_step (h : w.Kept) (hstep : w.Step c a w') : w'.Kept := by
  have hnonempty := hstep.hands_ne_nil h.nonempty
  cases hc : c.used? with
  | some j =>
      rcases hstep.use_cases hc with ⟨-, -, hunchanged⟩ | ⟨-, hdelivers⟩
      · exact h.of_unchanged hunchanged
      · exact h.of_delivers hc hdelivers hnonempty
  | none =>
      cases hstep with
      | create hchain =>
          have hhands := hands_perm hchain
          exact h.of_perm_append [] (by grind [waiting, Continuation.ofChain]) hnonempty
      | createEmpty =>
          exact h.of_perm_append [] (by grind [waiting, Continuation.empty]) hnonempty
      | @replace j l k k' chain st hk hchain hrun =>
          obtain ⟨hstored, rfl, -⟩ := Continuation.replace_eq_ok hrun
          have hbefore := flatMap_perm (f := Continuation.stored) hk
          have hafter := flatMap_set_perm (f := Continuation.stored) hk (.ofChain chain)
          have hhands := hands_perm hchain
          exact h.of_perm_append [] (by grind [waiting, Continuation.ofChain]) hnonempty
      | replaceRefused hk hchain hrun =>
          obtain ⟨-, -, journal, rfl⟩ := Continuation.replace_eq_error hrun
          exact h.of_unchanged ⟨journal, rfl⟩
      | take? | take | takeRebound | resume | drop => cases hc

end Kept

/-- Whatever a call names, it comes to an answer. -/
theorem Kept.exists_step (h : w.Kept) (hnames : c.Names w) : ∃ a w', w.Step c a w' := by
  have hget : ∀ {α : Type} {xs : List α} {i : Nat}, i < xs.length → ∃ x, xs[i]? = some x :=
    fun hi => ⟨_, List.getElem?_eq_getElem hi⟩
  cases c with
  | create l =>
      obtain ⟨chain, hchain⟩ := hget hnames
      exact ⟨_, _, .create hchain⟩
  | createEmpty => exact ⟨_, _, .createEmpty⟩
  | replace j l =>
      obtain ⟨k, hk⟩ := hget hnames.1
      obtain ⟨chain, hchain⟩ := hget hnames.2
      cases hrun : k.replace chain w.machine with
      | ok k' st => exact ⟨_, _, .replace hk hchain hrun⟩
      | error cause st => exact ⟨_, _, .replaceRefused hk hchain hrun⟩
  | take? j =>
      obtain ⟨k, hk⟩ := hget hnames
      exact ⟨_, _, .take? hk rfl⟩
  | take j =>
      obtain ⟨k, hk⟩ := hget hnames
      obtain ⟨r, k', st, hrun⟩ := k.exists_take w.machine
      exact ⟨_, _, .take hk hrun⟩
  | takeRebound j h =>
      obtain ⟨k, hk⟩ := hget hnames
      obtain ⟨r, k', st, hrun⟩ := k.exists_takeRebound h w.machine
      exact ⟨_, _, .takeRebound hk hrun⟩
  | resume i j h =>
      obtain ⟨d, hd⟩ := hget hnames.1
      obtain ⟨k, hk⟩ := hget hnames.2
      obtain ⟨r, d', k', st, hrun⟩ := d.exists_resume k h w.machine
      exact ⟨_, _, .resume hd hk hrun⟩
  | drop i j =>
      obtain ⟨d, hd⟩ := hget hnames.1
      obtain ⟨k, hk⟩ := hget hnames.2
      have htagged : ∀ s ∈ k.stored, s.magic = segmentMagic := fun s hs =>
        h.tagged s (mem_waiting_of_stored (stored_of_getElem? hk ▸ hs))
      obtain ⟨r, d', k', st, hrun⟩ := d.exists_dropContinuation htagged w.machine
      exact ⟨_, _, .drop hd hk hrun⟩

end Custody

end FiberStacks
