import FiberStacks.Proofs.Growth.BasePointers
import FiberStacks.Proofs.Holdings.Accounts

/-!
# Operations that regroup segments in use

Some operations make no segment and free none. They put segments in use elsewhere, or give them up,
and write on segments in use at most.
-/

namespace FiberStacks

/-- The fibers that an operation brings into use: none, that of main segments, one that the caller
names, a new one, or one that goes out of use with another segment. -/
inductive Operation.Draws (op : Operation) (next next' : Nat) :
    List FiberId → List FiberId → Prop
  | none {removed : List FiberId} : Draws op next next' [] removed
  | main {removed : List FiberId} : Draws op next next' [.main] removed
  | given {id : FiberId} {removed : List FiberId} :
      id ∈ op.ids → Draws op next next' [id] removed
  | fresh {removed : List FiberId} : next < next' → Draws op next next' [⟨next⟩] removed
  | renewed {id : FiberId} {removed : List FiberId} :
      id ∈ removed → Draws op next next' [id] removed

theorem MachineState.proceeds_memory (r : MachineState) (m : Memory) (j : Journal) :
    r.Proceeds { r with memory := m, journal := j } :=
  ⟨.refl _, rfl, Nat.le_refl _, Nat.le_refl _⟩

namespace Holdings

/-- What a careful caller heeds. Nobody writes on pooled segments, and when a segment grows no frame
record lies there or in memory that was never handed out, where the new segment may be. -/
def Respects (w w' : Holdings) : Operation → Prop
  | .elsewhere => ∀ s ∈ w.pooled, ∀ a, s.Owns a →
      w'.machine.memory.read a = w.machine.memory.read a
  | .tryRealloc i _ => ∀ d, w.domains[i]? = some d →
      d.RecordsAvoid w.machine.memory fun a =>
        ¬ w.machine.space.Taken a ∨ ∃ s ∈ w.pooled, s.Owns a
  | _ => True

variable {careful : Prop} {w w' : Holdings} {i : Nat} {d d' : Domain} {s t : Segment}
  {st st' : MachineState} {m : Memory} {gone : List Segment}

/-! ### Memory of the pools -/

theorem Accounted.apart_of_held (h : w.Accounted) (ht : t ∈ w.held) (hs : s ∈ w.pooled) :
    t.Apart s := by
  have happart := h.separate.apart
  rw [everything, List.pairwise_append, List.pairwise_append] at happart
  exact happart.1.2.2 t ht s hs

/-- What is written on a segment in use concerns no pooled segment. -/
theorem Accounted.spared (h : w.Accounted) (ht : t ∈ w.held) (hbare : s.bare = t.bare)
    (hm : s.Confines w.machine.memory m) :
    ∀ u ∈ w.pooled, ∀ a, u.Owns a → m.read a = w.machine.memory.read a := by
  intro u hu a ha
  refine hm a fun howns => ?_
  obtain ⟨-, hbase, hhigh, -⟩ := Segment.bare_eq_iff.mp hbare
  refine h.apart_of_held ht hu a ?_ ha
  rwa [Segment.Owns, ← hbase, ← hhigh]

/-! ### Moves of one domain, and of none -/

theorem getElem?_put (hd : w.domains[i]? = some d) (d' : Domain) (st : MachineState) :
    (w.put i d' st).domains[i]? = some d' := by
  obtain ⟨hi, -⟩ := List.getElem?_eq_some_iff.mp hd
  exact List.getElem?_set_self hi

theorem regroups_put (gone : List Segment) (hd : w.domains[i]? = some d)
    (hdomains : w'.domains = w.domains.set i d') (hreleased : w'.released = w.released ++ gone)
    (hmachine : w.machine.Proceeds w'.machine) (hshelves : d'.shelves = d.shelves)
    (hheld : Segment.Uses (d.running ++ (w.stored ++ w.inHands))
      (d'.running ++ (w'.stored ++ w'.inHands ++ gone)))
    (hspared : careful → ∀ s ∈ w.pooled, ∀ a, s.Owns a →
      w'.machine.memory.read a = w.machine.memory.read a) :
    w.Regroups careful gone w' where
  machine := hmachine
  shelves := by
    rw [hdomains]
    exact map_put hd hshelves
  released := hreleased
  held := by
    have hbefore := (domains_perm hd).flatMap_right Domain.running
    have hafter := (domains_put hd d').flatMap_right Domain.running
    have hall := hheld.append_right ((w.domains.eraseIdx i).flatMap Domain.running)
    simp only [List.flatMap_cons] at hbefore hafter
    refine (Segment.Uses.of_perm ?_).trans (hall.trans (.of_perm ?_))
    · simp only [held, running]
      grind
    · simp only [held, running, hdomains]
      grind
  spared := hspared

theorem regroups_aside (gone : List Segment) (hdomains : w'.domains = w.domains)
    (hreleased : w'.released = w.released ++ gone) (hmachine : w.machine.Proceeds w'.machine)
    (hheld : Segment.Uses (w.stored ++ w.inHands) (w'.stored ++ w'.inHands ++ gone))
    (hspared : careful → ∀ s ∈ w.pooled, ∀ a, s.Owns a →
      w'.machine.memory.read a = w.machine.memory.read a) :
    w.Regroups careful gone w' where
  machine := hmachine
  shelves := by rw [hdomains]
  released := hreleased
  held := by
    have hall := (Segment.Uses.refl w.running).append hheld
    rw [held, held, running, running, hdomains]
    simp only [List.append_assoc] at hall ⊢
    exact hall
  spared := hspared

theorem regroups_put_nil (hd : w.domains[i]? = some d) (hdomains : w'.domains = w.domains.set i d')
    (hreleased : w'.released = w.released) (hmachine : w.machine.Proceeds w'.machine)
    (hshelves : d'.shelves = d.shelves)
    (hheld : Segment.Uses (d.running ++ (w.stored ++ w.inHands))
      (d'.running ++ (w'.stored ++ w'.inHands)))
    (hspared : careful → ∀ s ∈ w.pooled, ∀ a, s.Owns a →
      w'.machine.memory.read a = w.machine.memory.read a) :
    w.Regroups careful [] w' := by
  refine regroups_put [] hd hdomains ?_ hmachine hshelves ?_ hspared
  · rw [hreleased, List.append_nil]
  · rwa [List.append_nil]

theorem regroups_aside_nil (hdomains : w'.domains = w.domains)
    (hreleased : w'.released = w.released) (hmachine : w.machine.Proceeds w'.machine)
    (hheld : Segment.Uses (w.stored ++ w.inHands) (w'.stored ++ w'.inHands))
    (hspared : careful → ∀ s ∈ w.pooled, ∀ a, s.Owns a →
      w'.machine.memory.read a = w.machine.memory.read a) :
    w.Regroups careful [] w' := by
  refine regroups_aside [] hdomains ?_ hmachine ?_ hspared
  · rw [hreleased, List.append_nil]
  · rwa [List.append_nil]

theorem regroups_elsewhere (hmachine : w.machine.Proceeds st)
    (hspared : careful → ∀ s ∈ w.pooled, ∀ a, s.Owns a →
      st.memory.read a = w.machine.memory.read a) :
    w.Regroups careful [] { w with machine := st } :=
  regroups_aside_nil rfl rfl hmachine (.refl _) hspared

/-- The operation is a sequence of moves, and brings fibers into use as it may. -/
def Decomposes (careful : Prop) (op : Operation) (w w' : Holdings) : Prop :=
  ∃ added removed, Moves careful w added removed w' ∧
    op.Draws w.machine.nextFiber w'.machine.nextFiber added removed

variable {op : Operation} {j depth : Nat} {k k' : Continuation} {chain : Chain} {h : Handlers}

theorem regroups_rearrange {hands : List Chain} (hperm : hands.flatten.Perm w.hands.flatten) :
    w.Regroups careful [] { w with hands } :=
  regroups_aside_nil rfl rfl (w.machine.proceeds_memory _ _)
    ((Segment.Uses.refl _).append (.of_perm hperm)) fun _ _ _ _ _ => rfl

theorem Regroups.decomposes (hregroups : w.Regroups careful gone w') :
    Decomposes careful op w w' :=
  ⟨[], _, .single (.regroup hregroups), .none⟩

theorem stored_perm (hk : w.continuations[j]? = some k) :
    w.stored.Perm (k.stored ++ (w.continuations.eraseIdx j).flatMap Continuation.stored) :=
  (perm_cons_eraseIdx hk).flatMap_right _

theorem stored_set (hk : w.continuations[j]? = some k) (k' : Continuation) :
    ((w.continuations.set j k').flatMap Continuation.stored).Perm
      (k'.stored ++ (w.continuations.eraseIdx j).flatMap Continuation.stored) :=
  (set_perm_eraseIdx hk k').flatMap_right _

theorem inHands_perm (hc : w.hands[j]? = some chain) :
    w.inHands.Perm (chain ++ (w.hands.eraseIdx j).flatten) :=
  (perm_cons_eraseIdx hc).flatten

theorem inHands_set (hc : w.hands[j]? = some chain) (chain' : Chain) :
    (w.hands.set j chain').flatten.Perm (chain' ++ (w.hands.eraseIdx j).flatten) :=
  (set_perm_eraseIdx hc chain').flatten

/-! ### Work, and the rest of the process -/

theorem decomposes_createDomain {settings : Settings}
    (hrun : Domain.create settings w.machine = .ok d st) :
    Decomposes careful op w { w with machine := st, domains := w.domains ++ [d] } := by
  cases hrun
  exact ⟨[], [], .single .create, .none⟩

theorem decomposes_dropDomain {gone : List Segment} (hd : w.domains[i]? = some d)
    (hdrop : d.drop = (gone, d')) :
    Decomposes careful op w
      { w with domains := w.domains.eraseIdx i, released := w.released ++ gone } := by
  obtain ⟨rfl, -⟩ := Domain.segments_of_drop hdrop
  exact ⟨[], _, .single (.drop hd), .none⟩

theorem decomposes_work {sp : Nat} {outer : Chain} (hd : w.domains[i]? = some d)
    (hrunning : d.running = s :: outer) (hformed : ({ s with sp } : Segment).Formed) :
    Decomposes careful op w (w.put i (d.setCurrent { s with sp }) w.machine) := by
  refine Regroups.decomposes (regroups_put_nil hd rfl rfl (w.machine.proceeds_memory _ _) rfl ?_
    fun _ _ _ _ _ => rfl)
  rw [Domain.setCurrent, hrunning]
  have huses : Segment.Uses (s :: outer) ({ s with sp } :: outer) := .cons hformed outer
  exact huses.append_right _

theorem decomposes_adjust (hd : w.domains[i]? = some d) (hid : d'.id = d.id)
    (hpolicy : d'.policy = d.policy) (hpool : d'.pool = d.pool)
    (hrunning : d'.running = d.running) :
    Decomposes careful op w (w.put i d' w.machine) := by
  refine Regroups.decomposes (regroups_put_nil hd rfl rfl (w.machine.proceeds_memory _ _) ?_ ?_
    fun _ _ _ _ _ => rfl)
  · simp only [Domain.shelves, Domain.supplier, hid, hpolicy, hpool]
  · rw [hrunning]
    exact .refl _

theorem decomposes_prepare {sp savedExn : Nat} {outer : Chain}
    (hc : w.hands[j]? = some (s :: outer)) (hformed : ({ s with sp, savedExn } : Segment).Formed) :
    Decomposes careful op w
      { w with hands := w.hands.set j ({ s with sp, savedExn } :: outer) } := by
  refine Regroups.decomposes (regroups_aside_nil rfl rfl (w.machine.proceeds_memory _ _) ?_
    fun _ _ _ _ _ => rfl)
  refine (Segment.Uses.refl _).append ((Segment.Uses.of_perm (inHands_perm hc).symm).trans
    (.trans ?_ (.of_perm (inHands_set hc _))))
  exact .append_right (.cons hformed outer) _

theorem decomposes_rearrange {hands : List Chain} (hperm : hands.flatten.Perm w.hands.flatten) :
    Decomposes careful op w { w with hands } :=
  (regroups_rearrange hperm).decomposes

theorem decomposes_elsewhere (hmachine : w.machine.Proceeds st)
    (hrespects : careful → ∀ s ∈ w.pooled, ∀ a, s.Owns a →
      st.memory.read a = w.machine.memory.read a) :
    Decomposes careful op w { w with machine := st } :=
  (regroups_elsewhere hmachine hrespects).decomposes

theorem decomposes_letGo (hc : w.hands[j]? = some chain) :
    Decomposes careful op w
      { w with hands := w.hands.eraseIdx j, released := w.released ++ chain } := by
  refine Regroups.decomposes (regroups_aside chain rfl rfl (w.machine.proceeds_memory _ _) ?_
    fun _ _ _ _ _ => rfl)
  refine .of_perm ?_
  have hperm := inHands_perm hc
  change (w.stored ++ (w.hands.eraseIdx j).flatten ++ chain).Perm _
  grind

/-! ### Continuations -/

theorem decomposes_newContinuation (hc : w.hands[j]? = some chain) :
    Decomposes careful op w
      { w with
        continuations := w.continuations ++ [.ofChain chain]
        hands := w.hands.eraseIdx j } := by
  refine Regroups.decomposes (regroups_aside_nil rfl rfl (w.machine.proceeds_memory _ _)
    (.of_perm ?_) fun _ _ _ _ _ => rfl)
  have hperm := inHands_perm hc
  have hstored : (w.continuations ++ [Continuation.ofChain chain]).flatMap Continuation.stored =
      w.stored ++ chain := by
    simp [stored, Continuation.ofChain]
  change ((w.continuations ++ [Continuation.ofChain chain]).flatMap Continuation.stored ++
    (w.hands.eraseIdx j).flatten).Perm _
  rw [hstored]
  grind

theorem decomposes_emptyContinuation :
    Decomposes careful op w { w with continuations := w.continuations ++ [.empty] } := by
  refine Regroups.decomposes (regroups_aside_nil rfl rfl (w.machine.proceeds_memory _ _)
    (.of_perm ?_) fun _ _ _ _ _ => rfl)
  have hstored : (w.continuations ++ [Continuation.empty]).flatMap Continuation.stored =
      w.stored := by
    simp [stored, Continuation.empty]
  change ((w.continuations ++ [Continuation.empty]).flatMap Continuation.stored ++
    w.inHands).Perm _
  rw [hstored]

theorem decomposes_forget (hk : w.continuations[j]? = some k) (hdrop : k.drop = (chain, k')) :
    Decomposes careful op w
      { w with
        continuations := w.continuations.eraseIdx j
        released := w.released ++ chain } := by
  obtain ⟨rfl, rfl⟩ := Prod.mk.inj (k.drop_eq.symm.trans hdrop)
  refine Regroups.decomposes (regroups_aside k.stored rfl rfl (w.machine.proceeds_memory _ _) ?_
    fun _ _ _ _ _ => rfl)
  refine .of_perm ?_
  have hperm := stored_perm hk
  change ((w.continuations.eraseIdx j).flatMap Continuation.stored ++ w.inHands ++ k.stored).Perm _
  grind

/-- A continuation whose chain goes to the caller, or that has none. -/
theorem decomposes_taken {m : Memory} {journal : Journal} {hands : List Chain}
    (hk : w.continuations[j]? = some k) (hchain : (k'.stored ++ hands.flatten).Perm k.stored)
    (hspared : careful → ∀ s ∈ w.pooled, ∀ a, s.Owns a →
      m.read a = w.machine.memory.read a) :
    Decomposes careful op w
      { w with
        machine := { w.machine with memory := m, journal }
        continuations := w.continuations.set j k'
        hands := w.hands ++ hands } := by
  refine Regroups.decomposes (regroups_aside_nil rfl rfl (w.machine.proceeds_memory _ _)
    (.of_perm ?_) hspared)
  have hbefore := stored_perm hk
  have hafter := stored_set hk k'
  change ((w.continuations.set j k').flatMap Continuation.stored ++
    (w.hands ++ hands).flatten).Perm (w.stored ++ w.hands.flatten)
  simp only [List.perm_iff_count, List.flatten_append, List.count_append] at hchain hbefore hafter ⊢
  intro t
  have hchain := hchain t
  have hbefore := hbefore t
  have hafter := hafter t
  omega

theorem decomposes_take {r : Except StackError Chain} (hk : w.continuations[j]? = some k)
    (hrun : k.take w.machine = .ok (r, k') st) :
    Decomposes careful op w
      { w with
        machine := st
        continuations := w.continuations.set j k'
        hands := w.hands ++ r.toOption.toList } := by
  by_cases hstored : k.stored = []
  · obtain ⟨journal, htake⟩ := Continuation.take_of_taken hstored w.machine
    cases htake.symm.trans hrun
    exact decomposes_taken hk (by simp [Except.toOption]) fun _ _ _ _ _ => rfl
  · cases (Continuation.take_of_stored hstored w.machine).symm.trans hrun
    exact decomposes_taken hk (by simp [Except.toOption]) fun _ _ _ _ _ => rfl

theorem mem_held_of_stored (hk : w.continuations[j]? = some k) (hs : s ∈ k.stored) : s ∈ w.held :=
  List.mem_append_left _ (List.mem_append_right _
    (List.mem_flatMap.mpr ⟨k, List.mem_of_getElem? hk, hs⟩))

theorem mem_held_of_hands (hc : w.hands[j]? = some chain) (hs : s ∈ chain) : s ∈ w.held :=
  List.mem_append_right _ (List.mem_flatten.mpr ⟨chain, List.mem_of_getElem? hc, hs⟩)

theorem mem_held_of_running (hd : w.domains[i]? = some d) (hs : s ∈ d.running) : s ∈ w.held :=
  List.mem_append_left _ (List.mem_append_left _
    (List.mem_flatMap.mpr ⟨d, List.mem_of_getElem? hd, hs⟩))

theorem Accounted.formed_of_held (h : w.Accounted) (hs : s ∈ w.held) : s.Formed :=
  h.separate.formed s (List.mem_append_left _ (List.mem_append_left _ hs))

theorem decomposes_takeRebound {r : Except StackError Chain} (haccounted : w.Accounted)
    (hk : w.continuations[j]? = some k) (hrun : k.takeRebound h w.machine = .ok (r, k') st) :
    Decomposes careful op w
      { w with
        machine := st
        continuations := w.continuations.set j k'
        hands := w.hands ++ r.toOption.toList } := by
  rcases List.eq_nil_or_concat' k.stored with hstored | ⟨xs, s, hstored⟩
  · obtain ⟨journal, htake⟩ := Continuation.takeRebound_of_taken hstored h w.machine
    cases htake.symm.trans hrun
    exact decomposes_taken hk (by simp [Except.toOption]) fun _ _ _ _ _ => rfl
  · have hne : k.stored ≠ [] := by simp [hstored]
    cases (Continuation.takeRebound_of_stored hne h w.machine).symm.trans hrun
    refine decomposes_taken hk (by simp [Except.toOption]) fun _ => ?_
    have hs : s ∈ w.held := mem_held_of_stored hk (by simp [hstored])
    simp only [Chain.rebind, hstored, List.getLast?_concat]
    exact haccounted.spared hs rfl
      ((Segment.sameOutside_setHandlers h).confines (haccounted.formed_of_held hs))

theorem decomposes_replace {l : Nat} (hk : w.continuations[j]? = some k)
    (hc : w.hands[l]? = some chain) (hrun : k.replace chain w.machine = .ok k' st) :
    Decomposes careful op w
      { w with
        machine := st
        continuations := w.continuations.set j k'
        hands := w.hands.eraseIdx l } := by
  obtain ⟨hstored, rfl, rfl⟩ := Continuation.replace_eq_ok hrun
  refine Regroups.decomposes (regroups_aside_nil rfl rfl (w.machine.proceeds_memory _ _)
    (.of_perm ?_) fun _ _ _ _ _ => rfl)
  have hbefore := stored_perm hk
  have hafter := stored_set hk (.ofChain chain)
  have hhands := inHands_perm hc
  rw [hstored, List.nil_append] at hbefore
  change ((w.continuations.set j (.ofChain chain)).flatMap Continuation.stored ++
    (w.hands.eraseIdx l).flatten).Perm _
  simp only [Continuation.ofChain] at hafter ⊢
  grind

/-! ### Switching fibers -/

/-- The process may go on before a domain does nothing that lasts. -/
theorem regroups_quiet (hd : w.domains[i]? = some d) (hmachine : w.machine.Proceeds st)
    (hmemory : st.memory = w.machine.memory) (hquiet : d.Quiet st d' st') :
    w.Regroups careful [] (w.put i d' st') := by
  obtain ⟨stats, journal, rfl, rfl⟩ := hquiet
  exact regroups_put_nil hd rfl rfl
    ⟨hmachine.grows, hmachine.segments, hmachine.fibers, hmachine.domains⟩ rfl (.refl _)
    fun _ _ _ a _ => congrArg (Memory.read · a) hmemory

theorem decomposes_quiet (hd : w.domains[i]? = some d) (hquiet : d.Quiet w.machine d' st) :
    Decomposes careful op w (w.put i d' st) :=
  (regroups_quiet hd (w.machine.proceeds_memory _ _) rfl hquiet).decomposes

theorem decomposes_runFiber {outer : Chain} (haccounted : w.Accounted)
    (hd : w.domains[i]? = some d) (hc : w.hands[j]? = some (s :: outer))
    (hrun : d.runFiber s w.machine = .ok d' st) :
    Decomposes careful op w
      ({ w with hands := w.hands.eraseIdx j, released := w.released ++ outer }.put i d' st) := by
  obtain ⟨rfl, rfl⟩ := Domain.runFiber_eq_ok hrun
  have hs : s ∈ w.held := mem_held_of_hands hc List.mem_cons_self
  refine Regroups.decomposes (regroups_put outer hd rfl rfl
    (w.machine.proceeds_memory _ w.machine.journal) rfl ?_ fun _ => ?_)
  · refine ((Segment.Uses.of_suspended d).append_right _).trans (.of_perm ?_)
    have hhands := inHands_perm hc
    change (s :: d.suspended ++ (w.stored ++ (w.hands.eraseIdx j).flatten ++ outer)).Perm _
    grind
  · exact haccounted.spared hs rfl
      ((Segment.sameOutside_recordParent _).confines (haccounted.formed_of_held hs))

theorem decomposes_returnRefused (haccounted : w.Accounted) (hd : w.domains[i]? = some d)
    (hrun : d.returnFromFiber w.machine = .ok (none, d') st) :
    Decomposes careful op w (w.put i d' st) := by
  cases Domain.returns_of_returnFromFiber hrun with
  | idle => exact decomposes_quiet hd (.refl d _)
  | @lone s hrunning =>
      have hs : s ∈ w.held := mem_held_of_running hd (by simp [hrunning])
      refine Regroups.decomposes (regroups_put_nil hd rfl rfl
        (w.machine.proceeds_memory _ w.machine.journal) rfl (.refl _) fun _ => ?_)
      exact haccounted.spared hs rfl
        ((Segment.sameOutside_recordParent _).confines (haccounted.formed_of_held hs))

/-- A segment of the suspended chain runs, but for what is saved in it. -/
theorem exists_running_of_suspended (hs : s ∈ d.suspended) :
    ∃ t ∈ d.running, t.bare = s.bare :=
  Segment.exists_bare_eq (Segment.Uses.of_suspended d).bare hs

theorem formed_of_suspended (hformed : ∀ t ∈ d.running, t.Formed) (hs : s ∈ d.suspended) :
    s.Formed :=
  (Segment.Uses.of_suspended d).formed hformed s hs

theorem decomposes_capture {k? : Option Continuation} (haccounted : w.Accounted)
    (hd : w.domains[i]? = some d) (hrun : d.capture depth w.machine = .ok (k?, d') st) :
    Decomposes careful op w
      ({ w with continuations := w.continuations ++ k?.toList }.put i d' st) := by
  by_cases hdepth : 0 < depth ∧ depth < d.running.length
  · obtain ⟨xs, s, ys, hcut, hlength, hrest⟩ := Domain.exists_cut hdepth.1 hdepth.2
    obtain ⟨journal, hcapture⟩ := Domain.capture_run hcut hlength hrest w.machine
    cases hcapture.symm.trans hrun
    have hmem : s ∈ d.suspended := by simp [hcut]
    refine Regroups.decomposes (regroups_put_nil hd rfl rfl
      (w.machine.proceeds_memory _ journal) rfl ?_ fun _ => ?_)
    · refine ((Segment.Uses.of_suspended d).append_right _).trans (.of_perm ?_)
      rw [hcut]
      change (ys ++ ((w.continuations ++ [Continuation.ofChain (xs ++ [s])]).flatMap
        Continuation.stored ++ w.inHands)).Perm _
      simp only [List.flatMap_append, List.flatMap_singleton, Continuation.ofChain]
      change (ys ++ (w.stored ++ (xs ++ [s]) ++ w.inHands)).Perm _
      grind
    · obtain ⟨t, ht, hbare⟩ := exists_running_of_suspended hmem
      refine haccounted.spared (mem_held_of_running hd ht) hbare.symm
        ((Segment.sameOutside_recordParent _).confines ?_)
      exact formed_of_suspended
        (fun t ht => haccounted.formed_of_held (mem_held_of_running hd ht)) hmem
  · cases (Domain.capture_of_refused hdepth w.machine).symm.trans hrun
    rw [Option.toList_none, List.append_nil]
    exact decomposes_quiet hd (.refl d _)

theorem decomposes_resume {r : Except StackError Unit} (haccounted : w.Accounted)
    (hd : w.domains[i]? = some d) (hk : w.continuations[j]? = some k)
    (hrun : d.resume k h w.machine = .ok (r, d', k') st) :
    Decomposes careful op w
      ({ w with continuations := w.continuations.set j k' }.put i d' st) := by
  have hbefore := stored_perm hk
  have hafter := stored_set hk k'
  rcases List.eq_nil_or_concat' k.stored with hstored | ⟨xs, s, hstored⟩
  · obtain ⟨journal, hresume⟩ := Domain.resume_of_taken (d := d) (h := h) hstored w.machine
    cases hresume.symm.trans hrun
    refine Regroups.decomposes (regroups_put_nil hd rfl rfl
      (w.machine.proceeds_memory _ journal) rfl (.of_perm ?_) fun _ _ _ _ _ => rfl)
    change (d.running ++ ((w.continuations.set j k).flatMap Continuation.stored ++
      w.inHands)).Perm _
    grind
  · cases (Domain.resume_run (d := d) (h := h) hstored w.machine).symm.trans hrun
    have hs : s ∈ w.held := mem_held_of_stored hk (by simp [hstored])
    refine Regroups.decomposes (regroups_put_nil hd rfl rfl
      (w.machine.proceeds_memory _ w.machine.journal) rfl ?_ fun _ => ?_)
    · refine ((Segment.Uses.of_suspended d).append_right _).trans (.of_perm ?_)
      rw [hstored] at hbefore
      change (xs ++ s :: d.suspended ++ ((w.continuations.set j
        { k with stored := [] }).flatMap Continuation.stored ++ w.inHands)).Perm _
      grind
    · exact haccounted.spared hs rfl (((Segment.sameOutside_setHandlers h).trans
        (Segment.sameOutside_recordParent _)).confines (haccounted.formed_of_held hs))

end Holdings

end FiberStacks
