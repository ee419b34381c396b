import FiberStacks.Proofs.Holdings.Linked

/-!
# Recorded parents never go stale

Callers link and cut chains through their segments, at any place in a chain that they hold or that a
domain runs, and domains run fibers, capture and resume them, free them and make them grow. Every
one of these calls keeps the two accounts of who is whose parent in step. So in all states that are
reached in this way each segment records the handler block of its parent, or 0 if it has none.
-/

namespace FiberStacks

/-- A cut is made at one segment, or there is none. -/
theorem Chain.splitAfter_cases {m m' : Memory} {chain inner rest : Chain} {depth : Nat}
    (h : Chain.splitAfter m chain depth = (inner, rest, m')) :
    (inner = chain ∧ rest = [] ∧ m' = m) ∨
      ∃ xs s, chain = xs ++ s :: rest ∧ inner = xs ++ [s] ∧ m' = s.recordParent m 0 := by
  unfold splitAfter at h
  split at h
  · cases h
    exact .inl ⟨rfl, rfl, rfl⟩
  · rename_i hdepth
    cases hlast : chain[depth - 1]? with
    | none =>
        rw [hlast] at h
        cases h
        exact .inl ⟨rfl, rfl, rfl⟩
    | some s =>
        rw [hlast] at h
        cases h
        obtain ⟨hlt, hs⟩ := List.getElem?_eq_some_iff.mp hlast
        have hnext : depth - 1 + 1 = depth := by omega
        refine .inr ⟨chain.take (depth - 1), s, ?_, ?_, rfl⟩
        · have hcons := List.drop_eq_getElem_cons hlt
          rw [hnext, hs] at hcons
          rw [← hcons, List.take_append_drop]
        · have hsnoc := List.take_concat_get' chain (depth - 1) hlt
          rw [hnext, hs] at hsnoc
          exact hsnoc.symm

/-! ### Calls that keep the parent of a segment -/

namespace Segment

variable {s s' : Segment} {m m' : Memory}

/-- Whether a call records a parent, or that there is none. -/
def Call.recordsParent : Call → Bool
  | setParent _ | reinit _ _ => true
  | _ => false

theorem read_setHandlers_parentSlot (h : Handlers) :
    (s.setHandlers m h).read s.parentSlot = m.read s.parentSlot := by
  refine Memory.read_store_of_not_mem _ _ fun hmem => ?_
  obtain ⟨i, hi, heq⟩ := Memory.mem_span_iff.mp hmem
  simp only [List.length_cons, List.length_nil, parentSlot, wordBytes] at hi heq
  omega

theorem Call.read_parentSlot_of_apply {call : Call} (hcall : call.recordsParent = false)
    (hs : s.Formed) (hrun : call.apply s m = .ok (s', m')) :
    m'.read s.parentSlot = m.read s.parentSlot := by
  cases hbody : call.onBody with
  | true =>
      obtain ⟨sp, -, -, hwithin⟩ := body_of_apply hbody hs hrun
      exact hwithin _ s.contains_parentSlot
  | false =>
      cases call with
      | setHandlers h =>
          cases hrun
          exact read_setHandlers_parentSlot h
      | setParent => cases hcall
      | reinit => cases hcall
      | _ => cases hbody

end Segment

namespace Holdings

variable {w w' v : Holdings} {op : Operation} {i j depth : Nat} {d d' : Domain} {s s' : Segment}
  {c c' chain outer parents : Chain} {k k' : Continuation} {st : MachineState}

/-- The chains that no domain has. -/
def aside (w : Holdings) : List Chain := w.continuations.map Continuation.stored ++ w.hands

/-- All chains, among them each pooled segment alone. -/
def chains (w : Holdings) : List Chain := w.domains.flatMap Domain.chains ++ w.aside

def Linked (w : Holdings) : Prop := w.machine.Linked w.chains

/-! ### Calls on segments -/

/-- A chain that callers can reach is replaced, one in their hands or one that a domain runs. -/
inductive Replaces (w : Holdings) (c c' : Chain) : Holdings → Prop
  | inHand {j : Nat} : w.hands[j]? = some c → Replaces w c c' { w with hands := w.hands.set j c' }
  | running {i : Nat} {d : Domain} : w.domains[i]? = some d → d.running = c →
      Replaces w c c' (w.put i { d with running := c' } w.machine)

/-- What a call on a segment leaves: other memory, and chains that the caller gets. -/
def handOver (v : Holdings) (m : Memory) (chains : List Chain) : Holdings :=
  { v with machine := { v.machine with memory := m }, hands := v.hands ++ chains }

/-- A call on a segment of a chain that callers can reach. Parents that are replaced or cut off go
to the caller, and a segment that is made ready for another fiber lets go of its parents. -/
inductive SegmentCall (w : Holdings) : Holdings → Prop
  | setParent {j : Nat} {xs outer parents : Chain} {s : Segment} {v : Holdings} :
      w.hands[j]? = some parents →
      Replaces { w with hands := w.hands.eraseIdx j } (xs ++ s :: outer)
        (xs ++ (Chain.attach w.machine.memory s parents).1) v →
      SegmentCall w (v.handOver (Chain.attach w.machine.memory s parents).2 [outer])
  | takeParent {xs outer : Chain} {s : Segment} {v : Holdings} :
      Replaces w (xs ++ s :: outer) (xs ++ (Chain.attach w.machine.memory s []).1) v →
      SegmentCall w (v.handOver (Chain.attach w.machine.memory s []).2 [outer])
  | splitAfter {depth : Nat} {xs outer inner rest : Chain} {s : Segment} {m : Memory}
      {v : Holdings} :
      Chain.splitAfter w.machine.memory (s :: outer) depth = (inner, rest, m) →
      Replaces w (xs ++ s :: outer) (xs ++ inner) v → SegmentCall w (v.handOver m [rest])
  | reinit {xs outer : Chain} {s : Segment} {h : Handlers} {id : FiberId} {v : Holdings} :
      Replaces w (xs ++ s :: outer) (xs ++ [(s.reinit w.machine.memory h id).1]) v →
      SegmentCall w { v.handOver (s.reinit w.machine.memory h id).2 [] with
        released := v.released ++ outer }
  | apply {xs outer : Chain} {s s' : Segment} {call : Segment.Call} {m : Memory} {v : Holdings} :
      call.recordsParent = false → call.apply s w.machine.memory = .ok (s', m) →
      Replaces w (xs ++ s :: outer) (xs ++ s' :: outer) v → SegmentCall w (v.handOver m [])

theorem domains_chains (hd : w.domains[i]? = some d) :
    (w.domains.flatMap Domain.chains).Perm
      (d.chains ++ (w.domains.eraseIdx i).flatMap Domain.chains) :=
  (domains_perm hd).flatMap_right Domain.chains

theorem domains_chains_put (hd : w.domains[i]? = some d) (d' : Domain) :
    ((w.domains.set i d').flatMap Domain.chains).Perm
      (d'.chains ++ (w.domains.eraseIdx i).flatMap Domain.chains) :=
  (domains_put hd d').flatMap_right Domain.chains

/-- One chain is replaced, and all others stay. -/
theorem Replaces.exists_rest (h : Replaces w c c' v) :
    v.machine = w.machine ∧ ∃ rest, w.chains.Perm (c :: rest) ∧ v.chains.Perm (c' :: rest) := by
  cases h with
  | @inHand j hc =>
      have hbefore := perm_cons_eraseIdx hc
      have hafter := set_perm_eraseIdx hc c'
      refine ⟨rfl, w.domains.flatMap Domain.chains ++
        (w.continuations.map Continuation.stored ++ w.hands.eraseIdx j), ?_, ?_⟩
      · grind [chains, aside]
      · grind [chains, aside]
  | @running i d hd hrunning =>
      have hbefore := domains_chains hd
      have hafter := domains_chains_put hd { d with running := c' }
      refine ⟨rfl, d.pool.chains ++ (w.domains.eraseIdx i).flatMap Domain.chains ++ w.aside, ?_, ?_⟩
      · rw [Domain.chains, hrunning] at hbefore
        grind [chains]
      · exact hafter.append_right w.aside

/-- A chain is replaced together with chains that are given, and others are handed over. -/
theorem linked_handOver (given : List Chain) {chains : List Chain} {m : Memory}
    (h : w.machine.Linked (given ++ w.chains)) (hreplaces : Replaces w c c' v)
    (hop : ∀ rest, w.machine.Linked (c :: (given ++ rest)) →
      { w.machine with memory := m }.Linked (c' :: (chains ++ rest))) :
    (v.handOver m chains).Linked := by
  obtain ⟨hmachine, rest, hbefore, hafter⟩ := hreplaces.exists_rest
  have hlinked := hop rest (h.perm (by grind))
  rw [← hmachine] at hlinked
  refine hlinked.perm ?_
  unfold Holdings.chains aside handOver at *
  grind

theorem Linked.of_segmentCall (h : w.Linked) (hcall : w.SegmentCall w') : w'.Linked := by
  cases hcall with
  | @setParent j xs outer parents s v hc hreplaces =>
      have hhands := perm_cons_eraseIdx hc
      have hgiven : w.machine.Linked
          ([parents] ++ { w with hands := w.hands.eraseIdx j }.chains) :=
        h.perm (by grind [chains, aside])
      exact linked_handOver [parents] hgiven hreplaces fun rest hrest => hrest.attach xs
  | @takeParent xs outer s v hreplaces =>
      exact linked_handOver [] h hreplaces fun rest hrest => hrest.detach xs
  | @splitAfter depth xs outer inner rest s m v hsplit hreplaces =>
      refine linked_handOver [] h hreplaces fun others hothers => ?_
      rcases Chain.splitAfter_cases hsplit with ⟨rfl, rfl, rfl⟩ | ⟨ys, t, hcut, rfl, rfl⟩
      · exact hothers.nil_cons.perm (.swap _ _ _)
      · rw [hcut, ← List.append_assoc] at hothers
        rw [← List.append_assoc]
        exact hothers.detach (xs ++ ys)
  | @reinit xs outer s h' id v hreplaces =>
      refine linked_handOver [] h hreplaces fun rest hrest => ?_
      have hs := hrest.formed xs
      have hobtained := Segment.obtained_reinit (m := w.machine.memory) h' id
        (hs.base_le_sp.trans hs.sp_le_high) hs.high_aligned hs.high_le
      have hcut : { w.machine with memory := (s.reinit w.machine.memory h' id).2 }.Linked _ :=
        hrest.unlink xs rfl (hobtained.kept.confines hobtained.formed) hobtained.unparented
      exact ((hcut.replace xs hobtained.formed rfl rfl).perm (.swap _ _ _)).tail
  | @apply xs outer s s' call m v hcall hrun hreplaces =>
      refine linked_handOver [] h hreplaces fun rest hrest => ?_
      have hs := hrest.formed xs
      have hkeeps := Segment.Call.keeps_of_apply hs hrun
      have htouched : { w.machine with memory := m }.Linked _ :=
        hrest.touch xs rfl hkeeps.confines (Segment.Call.read_parentSlot_of_apply hcall hs hrun)
      exact htouched.replace xs hkeeps.formed hkeeps.base_eq hkeeps.high_eq

/-! ### Operations -/

/-- An operation of a domain that takes chains from beside the domains and leaves others there. -/
theorem Linked.of_domain (before after : List Chain) {rest : List Chain} (h : w.Linked)
    (hd : w.domains[i]? = some d) (hdomains : w'.domains = w.domains.set i d')
    (hbefore : w.aside.Perm (before ++ rest)) (hafter : w'.aside.Perm (after ++ rest))
    (hop : ∀ rest, w.machine.Linked (d.chains ++ (before ++ rest)) →
      w'.machine.Linked (d'.chains ++ (after ++ rest))) : w'.Linked := by
  have hold := domains_chains hd
  have hnew := domains_chains_put hd d'
  refine (hop ((w.domains.eraseIdx i).flatMap Domain.chains ++ rest) (h.perm ?_)).perm ?_
  · grind [chains]
  · grind [chains]

/-- An operation of a domain that concerns no other chains. -/
theorem Linked.of_put (h : w.Linked) (hd : w.domains[i]? = some d)
    (hop : ∀ rest, w.machine.Linked (d.chains ++ rest) → st.Linked (d'.chains ++ rest)) :
    (w.put i d' st).Linked :=
  h.of_domain [] [] hd rfl (.refl _) (.refl _) hop

/-- An operation beside the domains. -/
theorem Linked.of_aside (h : w.Linked) (hdomains : w'.domains = w.domains)
    (hop : ∀ rest, w.machine.Linked (w.aside ++ rest) → w'.machine.Linked (w'.aside ++ rest)) :
    w'.Linked := by
  have hlinked := hop _ (h.perm List.perm_append_comm)
  rw [← hdomains] at hlinked
  exact hlinked.perm List.perm_append_comm

theorem Linked.of_perm (gone : List Chain) (h : w.Linked) (hdomains : w'.domains = w.domains)
    (hmachine : w'.machine = w.machine) (hperm : w.aside.Perm (gone ++ w'.aside)) : w'.Linked := by
  refine h.of_aside hdomains fun rest hrest => ?_
  have hfront : w.machine.Linked (gone ++ (w'.aside ++ rest)) :=
    hrest.perm (List.append_assoc gone _ _ ▸ hperm.append_right rest)
  exact hmachine ▸ hfront.drop gone

theorem aside_continuation (hk : w.continuations[j]? = some k) :
    w.aside.Perm (k.stored :: { w with continuations := w.continuations.eraseIdx j }.aside) :=
  ((perm_cons_eraseIdx hk).map Continuation.stored).append_right w.hands

theorem aside_set (hk : w.continuations[j]? = some k) (k' : Continuation) :
    { w with continuations := w.continuations.set j k' }.aside.Perm
      (k'.stored :: { w with continuations := w.continuations.eraseIdx j }.aside) :=
  ((set_perm_eraseIdx hk k').map Continuation.stored).append_right w.hands

theorem aside_hand (hc : w.hands[j]? = some c) :
    w.aside.Perm (c :: { w with hands := w.hands.eraseIdx j }.aside) :=
  ((perm_cons_eraseIdx hc).append_left _).trans List.perm_middle

theorem aside_append (w : Holdings) (chains : List Chain) :
    { w with hands := w.hands ++ chains }.aside.Perm (chains ++ w.aside) := by
  unfold aside
  grind

theorem aside_concat (w : Holdings) (ks : List Continuation) :
    { w with continuations := w.continuations ++ ks }.aside.Perm
      (ks.map Continuation.stored ++ w.aside) := by
  unfold aside
  grind

theorem linked_create {settings : Settings} (h : w.Linked)
    (hrun : Domain.create settings w.machine = .ok d st) :
    ({ w with machine := st, domains := w.domains ++ [d] } : Holdings).Linked := by
  cases hrun
  have hchains : ({ w with domains := w.domains ++
      [.ofSettings ⟨w.machine.nextDomain⟩ settings] } : Holdings).chains.Perm ([] :: w.chains) := by
    have hpool : (Domain.ofSettings ⟨w.machine.nextDomain⟩ settings).chains = [[]] := by
      rw [Domain.chains, Pool.chains, Domain.pooled_ofSettings]
      rfl
    unfold chains
    rw [List.flatMap_append, List.flatMap_singleton, hpool]
    change (w.domains.flatMap Domain.chains ++ [[]] ++ w.aside).Perm _
    grind
  have hlinked := h.nil_cons.perm hchains.symm
  exact ⟨hlinked.separate, hlinked.recorded⟩

/-- A continuation from which a chain may have been taken out. -/
theorem Linked.of_taken {r : Except StackError Chain} (h : w.Linked)
    (hk : w.continuations[j]? = some k)
    (hop : ∀ rest, w.machine.Linked (k.stored :: rest) →
      st.Linked (r.toOption.toList ++ k'.stored :: rest)) :
    ({ w with
      machine := st
      continuations := w.continuations.set j k'
      hands := w.hands ++ r.toOption.toList } : Holdings).Linked := by
  refine h.of_aside rfl fun rest hrest => ?_
  have hafter := (aside_append { w with continuations := w.continuations.set j k' }
    r.toOption.toList).trans ((aside_set hk k').append_left _)
  refine (hop _ (hrest.perm ((aside_continuation hk).append_right rest))).perm ?_
  exact .trans (by simp) (hafter.symm.append_right rest)

theorem linked_of_take {r : Except StackError Chain} (hrun : k.take w.machine = .ok (r, k') st)
    (rest : List Chain) (h : w.machine.Linked (k.stored :: rest)) :
    st.Linked (r.toOption.toList ++ k'.stored :: rest) := by
  by_cases hstored : k.stored = []
  · obtain ⟨journal, htake⟩ := Continuation.take_of_taken hstored w.machine
    cases htake.symm.trans hrun
    exact ⟨h.separate, h.recorded⟩
  · cases (Continuation.take_of_stored hstored w.machine).symm.trans hrun
    exact h.nil_cons.perm (.swap _ _ _)

theorem linked_of_takeRebound {r : Except StackError Chain} {h' : Handlers}
    (hrun : k.takeRebound h' w.machine = .ok (r, k') st) (rest : List Chain)
    (h : w.machine.Linked (k.stored :: rest)) :
    st.Linked (r.toOption.toList ++ k'.stored :: rest) := by
  rcases List.eq_nil_or_concat' k.stored with hstored | ⟨xs, s, hstored⟩
  · obtain ⟨journal, htake⟩ := Continuation.takeRebound_of_taken hstored h' w.machine
    cases htake.symm.trans hrun
    exact ⟨h.separate, h.recorded⟩
  · have hne : k.stored ≠ [] := by simp [hstored]
    cases (Continuation.takeRebound_of_stored hne h' w.machine).symm.trans hrun
    simp only [Chain.rebind, hstored, List.getLast?_concat] at h ⊢
    have hrebound : { w.machine with memory := s.setHandlers w.machine.memory h' }.Linked _ :=
      h.touch xs rfl ((Segment.sameOutside_setHandlers h').confines (h.formed xs))
        (Segment.read_setHandlers_parentSlot h')
    exact hrebound.nil_cons.perm (.swap _ _ _)

/-- Callers link chains through their segments only, the rest of the process leaves alone what
segments record, and domains do not walk frame records. -/
def Heeds (w w' : Holdings) : Operation → Prop
  | .rearrange => w'.hands.Perm w.hands
  | .elsewhere => ∀ c ∈ w.chains, ∀ s ∈ c,
      w'.machine.memory.read s.parentSlot = w.machine.memory.read s.parentSlot
  | .tryRealloc i _ => ∀ d, w.domains[i]? = some d → d.framePointers = false
  | _ => True

theorem Linked.of_step (h : w.Linked) (hstep : w.Step op w') (hheeds : w.Heeds w' op) :
    w'.Linked := by
  cases hstep with
  | createDomain hrun => exact linked_create h hrun
  | createDefault hrun =>
      obtain ⟨r, st₁, hget, hrun⟩ := Run.bind_eq_ok_iff.mp hrun
      cases hget
      exact linked_create h hrun
  | @dropDomain i d d' gone hd hdrop =>
      have hperm := domains_chains hd
      refine MachineState.Linked.drop d.chains (h.perm ?_)
      grind [chains, aside]
  | startMain hd hrun => exact h.of_put hd fun _ hrest => Domain.linked_of_startMain hrest hrun
  | startMainFailed hd hrun =>
      exact h.of_put hd fun _ hrest => Domain.linked_of_startMain hrest hrun
  | alloc hd hrun =>
      exact h.of_domain [] _ hd rfl (.refl w.aside) (aside_append w _) fun _ hrest =>
        Domain.linked_of_alloc hrest hrun
  | allocNoExc hd hrun =>
      exact h.of_domain [] _ hd rfl (.refl w.aside) (aside_append w _) fun _ hrest =>
        Domain.linked_of_allocNoExc hrest hrun
  | @free i j d d' chain st hd hc hrun =>
      exact h.of_domain [chain] [] hd rfl (aside_hand hc) (.refl _)
        fun _ hrest => Domain.linked_of_free hrest hrun
  | @runFiber i j d d' s outer st hd hc hrun =>
      exact h.of_domain [s :: outer] [] hd rfl (aside_hand hc) (.refl _)
        fun _ hrest => Domain.linked_of_runFiber hrest hrun
  | returnFromFiber hd hrun =>
      exact h.of_put hd fun _ hrest => Domain.linked_of_returnFromFiber hrest hrun
  | returnRefused hd hrun =>
      exact h.of_put hd fun _ hrest => Domain.linked_of_returnFromFiber hrest hrun
  | capture hd hrun =>
      exact h.of_domain [] _ hd rfl (.refl w.aside) (aside_concat w _) fun _ hrest =>
        Domain.linked_of_capture hrest hrun
  | @resume i j d d' k k' h' r st hd hk hrun =>
      exact h.of_domain [k.stored] [k'.stored] hd rfl
        (aside_continuation hk) (aside_set hk k') fun _ hrest => Domain.linked_of_resume hrest hrun
  | @dropContinuation i j d d' k k' r st hd hk hrun =>
      exact h.of_domain [k.stored] [k'.stored] hd rfl
        (aside_continuation hk) (aside_set hk k') fun _ hrest =>
          Domain.linked_of_dropContinuation hrest hrun
  | grow hd hrun =>
      exact h.of_put hd fun _ hrest => Domain.linked_of_tryRealloc hrest (hheeds _ hd) hrun
  | growFailed hd hrun =>
      exact h.of_put hd fun _ hrest => Domain.linked_of_tryRealloc hrest (hheeds _ hd) hrun
  | @newContinuation j chain hc =>
      have hafter := aside_concat { w with hands := w.hands.eraseIdx j } [.ofChain chain]
      exact h.of_perm [] rfl rfl ((aside_hand hc).trans hafter.symm)
  | emptyContinuation =>
      exact h.of_aside rfl fun rest hrest =>
        hrest.nil_cons.perm ((aside_concat w [.empty]).symm.append_right rest)
  | take hk hrun => exact h.of_taken hk (linked_of_take hrun)
  | takeRebound hk hrun => exact h.of_taken hk (linked_of_takeRebound hrun)
  | @replace j l k k' chain st hk hc hrun =>
      obtain ⟨hstored, rfl, rfl⟩ := Continuation.replace_eq_ok hrun
      have hbefore := (aside_hand hc).trans ((aside_continuation
        (w := { w with hands := w.hands.eraseIdx l }) hk).cons chain)
      have hafter := aside_set (w := { w with hands := w.hands.eraseIdx l }) hk (.ofChain chain)
      rw [hstored] at hbefore
      exact h.of_perm [[]] rfl rfl
        (hbefore.trans (.trans (.swap _ _ _) (hafter.symm.cons [])))
  | @forget j k k' chain hk hdrop => exact h.of_perm [k.stored] rfl rfl (aside_continuation hk)
  | @letGo j chain hc => exact h.of_perm [chain] rfl rfl (aside_hand hc)
  | @work i sp d s outer hd hrunning hformed =>
      refine h.of_put hd fun rest hrest => ?_
      rw [Domain.chains, hrunning] at hrest
      rw [Domain.setCurrent, Domain.chains, hrunning]
      exact hrest.replace [] hformed rfl rfl
  | @prepare j sp savedExn s outer hc hformed =>
      have hreplaces : w.Replaces (s :: outer) ({ s with sp, savedExn } :: outer) _ := .inHand hc
      obtain ⟨-, rest, hbefore, hafter⟩ := hreplaces.exists_rest
      exact ((h.perm hbefore).replace [] hformed rfl rfl).perm hafter.symm
  | rearrange hperm =>
      exact h.of_perm [] rfl rfl (hheeds.symm.append_left _)
  | @adjust i d d' hd hid hpolicy hpool hrunning =>
      refine h.of_put hd fun rest hrest => ?_
      rwa [Domain.chains, hpool, hrunning]
  | elsewhere hmachine =>
      exact h.carry hmachine.grows fun t ht => by
        obtain ⟨c, hc, ht⟩ := List.mem_flatten.mp ht
        exact hheeds c hc t ht

/-- The states that are reached by operations and by calls on segments. -/
inductive Tended : Holdings → Prop
  | start (source : AddressSource) : Tended (start source)
  | operation {w w' : Holdings} {op : Operation} :
      Tended w → w.Step op w' → w.Heeds w' op → Tended w'
  | call {w w' : Holdings} : Tended w → w.SegmentCall w' → Tended w'

theorem linked_start (source : AddressSource) : (start source).Linked := ⟨.nil _, nofun⟩

theorem Tended.linked (h : Tended w) : w.Linked := by
  induction h with
  | start source => exact linked_start source
  | operation _ hstep hheeds ih => exact ih.of_step hstep hheeds
  | call _ hcall ih => exact ih.of_segmentCall hcall

/-- However chains were linked and cut, each segment that runs, or is in a continuation or in the
hands of a caller, records the handler block of the parent that it has, or 0 if it has none, and
each pooled segment records 0. -/
theorem recordedParent_of_tended (h : Tended w) :
    (∀ chain ∈ w.domains.map Domain.running ++ w.continuations.map Continuation.stored ++ w.hands,
      ∀ xs s outer, chain = xs ++ s :: outer →
        s.recordedParent w.machine.memory = (outer.head?.map Segment.high).getD 0) ∧
      ∀ s ∈ w.pooled, s.recordedParent w.machine.memory = 0 := by
  have hrecorded := h.linked.recorded
  constructor
  · rintro _ hc xs s outer rfl
    refine (hrecorded (xs ++ s :: outer) ?_).recordedParent_eq
    rw [List.append_assoc] at hc
    refine (List.mem_append.mp hc).elim (fun hrunning => ?_) (List.mem_append_right _)
    obtain ⟨d, hd, heq⟩ := List.mem_map.mp hrunning
    exact List.mem_append_left _ (List.mem_flatMap.mpr ⟨d, hd, heq ▸ List.mem_cons_self⟩)
  · intro s hs
    obtain ⟨d, hd, hs⟩ := List.mem_flatMap.mp hs
    have hc : [s] ∈ w.chains := List.mem_append_left _ (List.mem_flatMap.mpr
      ⟨d, hd, List.mem_cons_of_mem _ (List.mem_map_of_mem hs)⟩)
    exact (hrecorded [s] hc).1

/-! ### A fiber that grows, is captured and is resumed

Meanwhile its creator links two other fibers. -/

namespace Relinked

def handlers : Handlers := ⟨3, 5, 7⟩

theorem resumes : ∃ d₀ st₀ d₁ st₁ s d₂ st₂ a d₃ st₃ b d₄ st₄ d₅ st₅ d₆ st₆ k d₇ st₇ r k' d₈ st₈,
    Domain.create Settings.standard MachineState.initial = .ok d₀ st₀ ∧
      d₀.startMain st₀ = .ok (.ok (), d₁) st₁ ∧ d₁.alloc handlers st₁ = .ok (.ok s, d₂) st₂ ∧
      d₂.alloc handlers st₂ = .ok (.ok a, d₃) st₃ ∧ d₃.alloc handlers st₃ = .ok (.ok b, d₄) st₄ ∧
      d₄.runFiber s st₄ = .ok d₅ st₅ ∧ d₅.framePointers = false ∧
      d₅.tryRealloc 1 st₅ = .ok (true, d₆) st₆ ∧ d₆.capture 1 st₆ = .ok (some k, d₇) st₇ ∧
      d₇.resume k handlers st₇ = .ok (r, d₈, k') st₈ ∧ d₈.running.length = 2 ∧
      s ∈ d₈.pool.segments := by
  have h : Run.answers (Domain.create Settings.standard) .initial (fun d₀ st₀ =>
      Run.succeeds d₀.startMain st₀ fun _ d₁ st₁ =>
      Run.succeeds (d₁.alloc handlers) st₁ fun s d₂ st₂ =>
      Run.succeeds (d₂.alloc handlers) st₂ fun _ d₃ st₃ =>
      Run.succeeds (d₃.alloc handlers) st₃ fun _ d₄ st₄ =>
      Run.answers (d₄.runFiber s) st₄ fun d₅ st₅ =>
      Run.answers (d₅.tryRealloc 1) st₅ fun q st₆ => q.1 &&
      Run.answers (q.2.capture 1) st₆ fun c st₇ => c.1.any fun k =>
      Run.answers (c.2.resume k handlers) st₇ fun r _ =>
        decide (d₅.framePointers = false ∧ r.2.1.running.length = 2 ∧
          s ∈ r.2.1.pool.segments)) = true := by
    decide +kernel
  obtain ⟨d₀, st₀, hcreate, h⟩ := Run.exists_of_answers h
  obtain ⟨_, d₁, st₁, hstart, h⟩ := Run.exists_of_succeeds h
  obtain ⟨s, d₂, st₂, hfirst, h⟩ := Run.exists_of_succeeds h
  obtain ⟨a, d₃, st₃, hsecond, h⟩ := Run.exists_of_succeeds h
  obtain ⟨b, d₄, st₄, hthird, h⟩ := Run.exists_of_succeeds h
  obtain ⟨d₅, st₅, hrun, h⟩ := Run.exists_of_answers h
  obtain ⟨⟨_, d₆⟩, st₆, hgrow, h⟩ := Run.exists_of_answers h
  obtain ⟨rfl, h⟩ := (Bool.and_eq_true _ _).mp h
  obtain ⟨⟨k?, d₇⟩, st₇, hcapture, h⟩ := Run.exists_of_answers h
  obtain ⟨k, rfl, h⟩ := (Option.any_eq_true _ _).mp h
  obtain ⟨⟨r, d₈, k'⟩, st₈, hresume, h⟩ := Run.exists_of_answers h
  obtain ⟨hframes, hlength, hpooled⟩ := of_decide_eq_true h
  exact ⟨d₀, st₀, d₁, st₁, s, d₂, st₂, a, d₃, st₃, b, d₄, st₄, d₅, st₅, d₆, st₆, k, d₇, st₇, r, k',
    d₈, st₈, hcreate, hstart, hfirst, hsecond, hthird, hrun, hframes, hgrow, hcapture, hresume,
    hlength, hpooled⟩

/-- The fiber that has grown records the main segment, the first of the linked fibers records the
second, and the segment that the fiber has left records that it has no parent. -/
theorem parents_of_relinked : ∃ w d new main a b s, Tended w ∧ w.domains = [d] ∧
    d.running = [new, main] ∧ w.hands = [[a, b], []] ∧ s ∈ w.pooled ∧
    new.recordedParent w.machine.memory = main.high ∧
    main.recordedParent w.machine.memory = 0 ∧ a.recordedParent w.machine.memory = b.high ∧
    b.recordedParent w.machine.memory = 0 ∧ s.recordedParent w.machine.memory = 0 := by
  obtain ⟨d₀, st₀, d₁, st₁, s, d₂, st₂, a, d₃, st₃, b, d₄, st₄, d₅, st₅, d₆, st₆, k, d₇, st₇, r, k',
    d₈, st₈, hcreate, hstart, hfirst, hsecond, hthird, hrun, hframes, hgrow, hcapture, hresume,
    hlength, hpooled⟩ := resumes
  obtain ⟨new, main, hrunning⟩ := List.length_eq_two.mp hlength
  have hcreated := (Tended.start .ascending).operation (.createDomain hcreate) trivial
  have hstarted := hcreated.operation (.startMain (i := 0) rfl hstart) trivial
  have hobtained := ((hstarted.operation (.alloc (i := 0) rfl hfirst) trivial).operation
    (.alloc (i := 0) rfl hsecond) trivial).operation (.alloc (i := 0) rfl hthird) trivial
  have hran := hobtained.operation (.runFiber (i := 0) (j := 0) rfl rfl hrun) trivial
  have hgrown := hran.operation (.grow (i := 0) rfl hgrow) fun d hd => by
    cases hd
    exact hframes
  have hcaptured := hgrown.operation (.capture (i := 0) rfl hcapture) trivial
  have hresumed := hcaptured.operation (.resume (i := 0) (j := 0) rfl rfl hresume) trivial
  have hlinked := hresumed.call (.setParent (j := 1) (s := a) rfl
    (show Replaces _ ([] ++ a :: []) _ _ from .inHand (j := 0) rfl))
  obtain ⟨hchains, hpool⟩ := recordedParent_of_tended hlinked
  have hruns : d₈.running ∈ [d₈.running, k'.stored, [a, b], []] := List.mem_cons_self
  have hhands : [a, b] ∈ [d₈.running, k'.stored, [a, b], []] := by simp
  have hs : s ∈ [d₈].flatMap fun d => d.pool.segments :=
    List.mem_flatMap.mpr ⟨d₈, List.mem_singleton_self d₈, hpooled⟩
  exact ⟨_, d₈, new, main, a, b, s, hlinked, rfl, hrunning, rfl, hs,
    hchains _ hruns [] new [main] hrunning, hchains _ hruns [new] main [] hrunning,
    hchains _ hhands [] a [b] rfl, hchains _ hhands [a] b [] rfl, hpool s hs⟩

end Relinked

end Holdings

end FiberStacks
