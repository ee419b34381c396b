import FiberStacks.Proofs.Continuations.Custody

/-!
# One use for each chain

A chain that was stored is got by the first use of the continuation, whole and with the words that
its segments had when it was stored. Every further use fails and changes nothing, until a chain is
stored again. As long as there is a chain, no other one can be stored.
-/

namespace FiberStacks

namespace Custody

/-- A call with its answer, and what there was before and after it. -/
structure Event where
  before : Custody
  call : Call
  answer : Answer
  after : Custody

/-- A run of calls, from any domains. -/
inductive Run : Custody → List Event → Custody → Prop
  | nil {w : Custody} : Run w [] w
  | cons {w w' w'' : Custody} {c : Call} {a : Answer} {es : List Event} :
      w.Step c a w' → Run w' es w'' → Run w (⟨w, c, a, w'⟩ :: es) w''

namespace Event

/-- The chain that is stored in a continuation. -/
def stores? (e : Event) (j : Nat) : Option Chain :=
  match e.call, e.answer with
  | .create l, .done => if e.before.continuations.length = j then e.before.hands[l]? else none
  | .replace i l, .done => if i = j then e.before.hands[l]? else none
  | _, _ => none

/-- The continuation is used, and that does not fail. -/
def succeeds (j : Nat) (e : Event) : Bool :=
  e.call.used? = some j ∧ e.answer ≠ e.call.failure

end Event

/-- What can become of a continuation, which has a chain or not. With a chain comes memory as it was
when the chain was stored. -/
inductive History (j : Nat) : Option (Chain × Memory) → List Event → Prop
  | nil {x : Option (Chain × Memory)} : History j x []
  | stores {e : Event} {es : List Event} {chain : Chain} :
      e.stores? j = some chain → History j (some (chain, e.before.machine.memory)) es →
      History j none (e :: es)
  | uses {e : Event} {es : List Event} {chain : Chain} {m : Memory} :
      e.call.used? = some j → e.before.Delivers chain e.call e.answer e.after →
      (∀ s ∈ chain, ∀ p, s.Owns p → e.before.machine.memory.read p = m.read p) →
      History j none es → History j (some (chain, m)) (e :: es)
  | fails {e : Event} {es : List Event} :
      e.call.used? = some j → e.answer = e.call.failure → e.before.Unchanged e.after →
      History j none es → History j none (e :: es)
  | refuses {e : Event} {es : List Event} {x : Chain × Memory} {l : Nat} :
      e.call = .replace j l → e.answer = .stopped (.violation .continuationNotEmpty) →
      e.before.Unchanged e.after → History j (some x) es → History j (some x) (e :: es)
  | other {e : Event} {es : List Event} {x : Option (Chain × Memory)} :
      e.call.used? ≠ some j → (∀ l, e.call ≠ .replace j l) → e.stores? j = none →
      History j x es → History j x (e :: es)

namespace History

variable {j : Nat} {x : Option (Chain × Memory)} {es es' : List Event}

theorem of_append (h : History j x (es ++ es')) : History j x es ∧ ∃ x', History j x' es' := by
  induction es generalizing x with
  | nil => exact ⟨.nil, x, h⟩
  | cons e es ih =>
      cases h with
      | stores hstores hrest => exact (ih hrest).imp_left (.stores hstores)
      | uses hused hdelivers hwords hrest =>
          exact (ih hrest).imp_left (.uses hused hdelivers hwords)
      | fails hused hanswer hsame hrest => exact (ih hrest).imp_left (.fails hused hanswer hsame)
      | refuses hcall hanswer hsame hrest =>
          exact (ih hrest).imp_left (.refuses hcall hanswer hsame)
      | other hused hcall hstores hrest => exact (ih hrest).imp_left (.other hused hcall hstores)

/-- While nothing is stored, there is one use for the chain that is there, and none if there is no
chain. -/
theorem countP_succeeds_le (h : History j x es) (hstores : ∀ e ∈ es, e.stores? j = none) :
    es.countP (Event.succeeds j) ≤ if x.isSome then 1 else 0 := by
  induction h with
  | nil => exact Nat.zero_le _
  | @stores e es chain hstored => simp [hstores e] at hstored
  | @uses e es chain m hused _ _ _ ih =>
      have hrest := ih fun e he => hstores e (List.mem_cons_of_mem _ he)
      rw [List.countP_cons]
      simp only [Option.isSome_none, Option.isSome_some, Bool.false_eq_true, if_false,
        if_true] at hrest ⊢
      split <;> omega
  | @fails e es hused hanswer _ _ ih =>
      have hrest := ih fun e he => hstores e (List.mem_cons_of_mem _ he)
      rwa [List.countP_cons_of_neg (by simp [Event.succeeds, hanswer])]
  | @refuses e es x l hcall _ _ _ ih =>
      have hrest := ih fun e he => hstores e (List.mem_cons_of_mem _ he)
      rwa [List.countP_cons_of_neg (by simp [Event.succeeds, hcall, Call.used?])]
  | @other e es x hused _ _ _ ih =>
      have hrest := ih fun e he => hstores e (List.mem_cons_of_mem _ he)
      rwa [List.countP_cons_of_neg (by simp [Event.succeeds, hused])]

end History

/-- The continuation has the chain with its words as in `m`, or no chain. -/
def Deposited (w : Custody) (j : Nat) : Option (Chain × Memory) → Prop
  | none => w.stored j = []
  | some (chain, m) => chain ≠ [] ∧ w.stored j = chain ∧
      ∀ s ∈ chain, ∀ p, s.Owns p → w.machine.memory.read p = m.read p

/-- What a continuation has, with memory as it is. -/
def deposit (w : Custody) (j : Nat) : Option (Chain × Memory) :=
  if w.stored j = [] then none else some (w.stored j, w.machine.memory)

variable {w w' : Custody} {i j : Nat} {c : Call} {a : Answer} {es : List Event}
  {x : Option (Chain × Memory)}

theorem deposited_deposit (w : Custody) (j : Nat) : w.Deposited j (w.deposit j) := by
  unfold deposit
  split
  · assumption
  · rename_i hne
    exact ⟨hne, rfl, fun _ _ _ _ => rfl⟩

namespace Deposited

theorem eq_none_iff (h : w.Deposited j x) : x = none ↔ w.stored j = [] := by
  rcases x with _ | ⟨chain, m⟩
  · exact iff_of_true rfl h
  · obtain ⟨hne, hstored, -⟩ := h
    exact iff_of_false nofun (hstored ▸ hne)

theorem congr (h : w.Deposited j x) (hstored : w'.stored j = w.stored j)
    (hread : ∀ s ∈ w.stored j, ∀ p, s.Owns p →
      w'.machine.memory.read p = w.machine.memory.read p) : w'.Deposited j x := by
  rcases x with _ | ⟨chain, m⟩
  · exact hstored.trans h
  · obtain ⟨hne, rfl, hwords⟩ := h
    exact ⟨hne, hstored, fun s hs p hp => (hread s hs p hp).trans (hwords s hs p hp)⟩

theorem of_unchanged (h : w.Deposited j x) (hsame : w.Unchanged w') : w'.Deposited j x :=
  h.congr (hsame.stored_eq j) fun _ _ _ _ => by rw [hsame.memory_eq]

/-- A use of another continuation leaves the chain alone. -/
theorem of_delivers (h : w.Deposited j x) (hkept : w.Kept) (hc : c.used? = some i) (hij : i ≠ j)
    (hdelivers : w.Delivers (w.stored i) c a w') : w'.Deposited j x := by
  obtain ⟨k, hk, hset⟩ := hdelivers.exists_set hc
  refine h.congr ?_ fun s hs p hp => ?_
  · rw [stored_of_set hk hset, if_neg (Ne.symm hij)]
  · refine hdelivers.read_eq (fun t ht => hkept.formed t (mem_waiting_of_stored ht)) ?_
    exact fun t ht ht' => hkept.stored_apart hij ht hs p ht' hp

end Deposited

theorem History.of_used (h : w.Deposited j x) (hkept : w.Kept) (hc : c.used? = some i)
    (hstep : w.Step c a w') :
    ∃ x', w'.Deposited j x' ∧ ∀ es, History j x' es → History j x (⟨w, c, a, w'⟩ :: es) := by
  have hplain : ∀ l, c ≠ .replace j l := by
    rintro l rfl
    cases hc
  have hstores : (⟨w, c, a, w'⟩ : Event).stores? j = none := by
    cases c <;> first | rfl | cases hc
  by_cases hij : i = j
  · subst hij
    rcases hstep.use_cases hc with ⟨hnone, rfl, hsame⟩ | ⟨hne, hdelivers⟩
    · obtain rfl := h.eq_none_iff.mpr hnone
      exact ⟨none, h.of_unchanged hsame, fun es => .fails hc rfl hsame⟩
    · obtain ⟨k, hk, hset⟩ := hdelivers.exists_set hc
      rcases x with _ | ⟨chain, m⟩
      · exact absurd h hne
      · obtain ⟨-, rfl, hwords⟩ := h
        refine ⟨none, ?_, fun es => .uses hc hdelivers hwords⟩
        exact (stored_of_set hk hset i).trans (if_pos rfl)
  · have hother : c.used? ≠ some j := by
      rw [hc]
      exact fun heq => hij (Option.some.inj heq)
    refine ⟨x, ?_, fun es => .other hother hplain hstores⟩
    rcases hstep.use_cases hc with ⟨-, -, hsame⟩ | ⟨-, hdelivers⟩
    · exact h.of_unchanged hsame
    · exact h.of_delivers hkept hc hij hdelivers

theorem History.of_stored {chain : Chain} (h : w.Deposited j x) (hc : c.used? = none)
    (hcall : i ≠ j → ∀ l, c ≠ .replace j l) (hnone : w.stored i = []) (hchain : chain ≠ [])
    (hstores : (⟨w, c, a, w'⟩ : Event).stores? j = if i = j then some chain else none)
    (hstored : w'.stored j = if j = i then chain else w.stored j)
    (hmemory : w'.machine.memory = w.machine.memory) :
    ∃ x', w'.Deposited j x' ∧ ∀ es, History j x' es → History j x (⟨w, c, a, w'⟩ :: es) := by
  by_cases hij : i = j
  · subst hij
    rw [if_pos rfl] at hstores hstored
    obtain rfl := h.eq_none_iff.mpr hnone
    refine ⟨some (chain, w.machine.memory), ⟨hchain, hstored, ?_⟩, fun es => .stores hstores⟩
    exact fun _ _ _ _ => by rw [hmemory]
  · rw [if_neg hij] at hstores
    rw [if_neg (Ne.symm hij)] at hstored
    refine ⟨x, h.congr hstored fun _ _ _ _ => by rw [hmemory], fun es => ?_⟩
    exact .other (by simp [hc]) (hcall hij) hstores

/-- Each call takes the history of each continuation one event further. -/
theorem History.of_step (h : w.Deposited j x) (hkept : w.Kept) (hstep : w.Step c a w') :
    ∃ x', w'.Deposited j x' ∧ ∀ es, History j x' es → History j x (⟨w, c, a, w'⟩ :: es) := by
  cases c with
  | take? | take | takeRebound | resume | drop => exact of_used h hkept rfl hstep
  | create l =>
      cases hstep with
      | @create _ chain hchain =>
          refine of_stored h rfl (fun _ _ => nofun) stored_length
            (hkept.nonempty _ (List.mem_of_getElem? hchain)) ?_
            (stored_of_append (k := .ofChain chain) rfl j) rfl
          simp only [Event.stores?, hchain]
  | createEmpty =>
      cases hstep with
      | createEmpty =>
          refine ⟨x, h.congr ?_ fun _ _ _ _ => rfl, fun es => .other nofun (fun _ => nofun) rfl⟩
          rw [stored_of_append (w := w) (k := .empty) rfl]
          split
          · rename_i hj
            rw [hj, stored_length]
            rfl
          · rfl
  | replace i l =>
      rcases hstep.replace_cases with ⟨hnone, rfl, k, chain, hk, hchain, rfl⟩ | ⟨hne, rfl, hsame⟩
      · refine of_stored h rfl ?_ hnone (hkept.nonempty _ (List.mem_of_getElem? hchain)) ?_ ?_ rfl
        · rintro hij l ⟨⟩
          exact hij rfl
        · simp only [Event.stores?, hchain]
        · change _ = if j = i then (Continuation.ofChain chain).stored else _
          exact stored_of_set hk rfl j
      · refine ⟨x, h.of_unchanged hsame, fun es => ?_⟩
        by_cases hij : i = j
        · subst hij
          rcases x with _ | x
          · exact absurd h hne
          · exact .refuses rfl rfl hsame
        · refine .other nofun ?_ rfl
          rintro l ⟨⟩
          exact hij rfl

theorem history_of_run (hrun : w.Run es w') (hkept : w.Kept) (h : w.Deposited j x) :
    History j x es := by
  induction hrun generalizing x with
  | nil => exact .nil
  | cons hstep _ ih =>
      obtain ⟨x', h', hhistory⟩ := History.of_step h hkept hstep
      exact hhistory _ (ih (hkept.of_step hstep) h')

theorem kept_of_run (hrun : w.Run es w') (hkept : w.Kept) : w'.Kept := by
  induction hrun with
  | nil => exact hkept
  | cons hstep _ ih => exact ih (hkept.of_step hstep)

/-- Each continuation has a history in which a chain is got by the first use after it was stored,
and all other uses fail. So between two chains that are stored at most one use succeeds. Every call
comes to an answer. -/
theorem one_shot (hkept : w.Kept) (hrun : w.Run es w') :
    (∀ j, History j (w.deposit j) es) ∧
      (∀ j earlier between later, es = earlier ++ between ++ later →
        (∀ e ∈ between, e.stores? j = none) → between.countP (Event.succeeds j) ≤ 1) ∧
      ∀ c, c.Names w' → ∃ a w'', w'.Step c a w'' := by
  have hhistory : ∀ j, History j (w.deposit j) es := fun j =>
    history_of_run hrun hkept (w.deposited_deposit j)
  refine ⟨hhistory, ?_, fun c => (kept_of_run hrun hkept).exists_step⟩
  rintro j earlier between later rfl hstores
  obtain ⟨x, hbetween⟩ := (hhistory j).of_append.1.of_append.2
  exact (hbetween.countP_succeeds_le hstores).trans (by split <;> decide)

end Custody

/-! ### A chain that is resumed once

Two fibers wait in a continuation. One domain resumes them, and a caller is too late to take them.
Then another fiber is stored, a third one is refused, and the other is taken. -/

namespace Late

open Custody

def segment (n : Nat) : Segment :=
  { memory := ⟨0x1000 * n, 0x60, 0, .heap⟩, base := 0x1000 * n, high := 0x1000 * n + 0x40,
    sp := 0x1000 * n + 0x40, poolClass := none, id := ⟨n⟩, owner := ⟨1⟩, savedExn := 0,
    magic := segmentMagic }

def domain : Domain := Domain.ofSettings ⟨1⟩ Settings.standard

def handlers : Handlers := ⟨3, 5, 7⟩

def start : Custody :=
  { machine := MachineState.initial, domains := [domain], continuations := [],
    hands := [[segment 1, segment 2], [segment 3], [segment 4]] }

theorem kept : start.Kept where
  formed := by
    intro s hs
    have hmem : s ∈ [1, 2, 3, 4].map segment := hs
    simp only [List.map_cons, List.map_nil, List.mem_cons, List.not_mem_nil, or_false] at hmem
    rcases hmem with rfl | rfl | rfl | rfl <;> constructor <;> decide
  tagged := by decide
  apart := by
    have happart : ∀ {m n : Nat}, m < n → (segment m).Apart (segment n) := by
      intro m n hmn a
      simp only [Segment.Owns, segment, handlerBlockBytes]
      omega
    have hsorted : [1, 2, 3, 4].Pairwise (· < ·) := by decide
    exact List.Pairwise.map segment (fun _ _ => happart) hsorted
  nonempty := by decide

theorem exists_run : ∃ es w, start.Run es w ∧
    es.map (fun e => (e.call, e.answer)) =
      [(.create 0, .done), (.resume 0 0 handlers, .done),
        (.take 0, .failed .continuationAlreadyResumed), (.replace 0 0, .done),
        (.replace 0 0, .stopped (.violation .continuationNotEmpty)),
        (.take? 0, .chain [segment 3])] := by
  obtain ⟨j, htake⟩ := Continuation.take_of_taken (k := ⟨[], 1⟩) rfl
    { MachineState.initial with memory := _ }
  have hstored : (Continuation.ofChain [segment 1, segment 2]).stored =
      [segment 1] ++ [segment 2] := rfl
  have hresume := Domain.resume_run (d := domain) (h := handlers) hstored MachineState.initial
  exact ⟨_, _,
    .cons (.create (l := 0) rfl) <|
    .cons (.resume (i := 0) (j := 0) rfl rfl hresume) <|
    .cons (.take (j := 0) rfl htake) <|
    .cons (.replace (j := 0) (l := 0) rfl rfl rfl) <|
    .cons (.replaceRefused (j := 0) (l := 0) rfl rfl rfl) <|
    .cons (.take? (j := 0) rfl rfl) .nil, rfl⟩

theorem resumed_once : ∃ es w, start.Kept ∧ start.Run es w ∧
    es.map (fun e => (e.call, e.answer)) =
      [(.create 0, .done), (.resume 0 0 handlers, .done),
        (.take 0, .failed .continuationAlreadyResumed), (.replace 0 0, .done),
        (.replace 0 0, .stopped (.violation .continuationNotEmpty)),
        (.take? 0, .chain [segment 3])] ∧
    ∀ j, History j none es := by
  obtain ⟨es, w, hrun, hcalls⟩ := exists_run
  obtain ⟨hhistory, -⟩ := one_shot kept hrun
  exact ⟨es, w, kept, hrun, hcalls, hhistory⟩

end Late

end FiberStacks
