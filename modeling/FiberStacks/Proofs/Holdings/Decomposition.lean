import FiberStacks.Proofs.Domain.Freeing
import FiberStacks.Proofs.Holdings.Regrouping

/-!
# Operations are made of moves

Each operation is a sequence of moves. An operation of a careful caller is one of careful moves: the
caller leaves the memory of pooled segments alone, and so does growth if no frame record lies there.
-/

namespace FiberStacks.Holdings

variable {careful : Prop} {w w' : Holdings} {op : Operation} {i j required words : Nat}
  {d d' : Domain} {s : Segment} {st st' : MachineState} {h : Handlers} {id : FiberId}
  {chain : Chain} {hands : List Chain} {k k' : Continuation}

theorem put_self (hd : w.domains[i]? = some d) : w.put i d w.machine = w := by
  obtain ⟨hi, rfl⟩ := List.getElem?_eq_some_iff.mp hd
  rw [put, List.set_getElem_self]

/-! ### Freeing -/

theorem moves_free (hands : List Chain) (hd : w.domains[i]? = some d)
    (hhands : w.hands = (chain.map fun s => [s]) ++ hands)
    (hrun : d.free chain w.machine = .ok d' st) :
    Moves careful w [] (chain.map Segment.id)
      ({ w with hands, released := w.released ++ d.pool.refused chain }.put i d' st) := by
  induction chain generalizing w d with
  | nil =>
      cases hrun
      have hsame : ({ w with hands, released := w.released ++ d'.pool.refused [] }.put i d'
          w.machine) = w := by
        refine .trans ?_ (put_self hd)
        simp only [Pool.refused, List.filter_nil, List.append_nil]
        rw [← (show w.hands = hands from hhands)]
      rw [hsame]
      exact .refl
  | cons s chain ih =>
      obtain ⟨d₁, st₁, hfirst, hrest⟩ := Run.bind_eq_ok_iff.mp
        (show (d.freeSegment s >>= fun d => d.free chain) w.machine = .ok d' st from hrun)
      have hfrees := Domain.frees_of_freeSegment hfirst
      -- What a pool refuses depends on its owner only, so it is the same at each segment.
      have hrefused : d₁.pool.refused = d.pool.refused :=
        Pool.refused_congr (congrArg Supplier.owner hfrees.supplier_eq)
      have hmoves := ih (w := { w with
          hands := (chain.map fun s => [s]) ++ hands
          released := w.released ++ d.pool.refused [s] }.put i d₁ st₁)
        (getElem?_put hd d₁ st₁) rfl hrest
      have hall := (Moves.single (.free hd hhands hfrees)).trans hmoves
      simp only [put, List.set_set, hrefused] at hall
      rw [Pool.refused_cons, ← List.append_assoc]
      exact hall

/-- The hands of callers may change as long as they hold the same segments. -/
theorem Moves.rearrange {added removed : List FiberId} (hmoves : Moves careful w added removed w')
    (hperm : hands.flatten.Perm w'.hands.flatten) :
    Moves careful w added removed { w' with hands } := by
  have hall := hmoves.tail (.regroup (regroups_rearrange hperm))
  rwa [List.append_nil, List.map_nil, List.append_nil] at hall

theorem flatten_singletons (chain : Chain) : (chain.map fun s => [s]).flatten = chain := by
  induction chain with
  | nil => rfl
  | cons s chain ih => rw [List.map_cons, List.flatten_cons, ih, List.singleton_append]

theorem decomposes_free (hd : w.domains[i]? = some d) (hc : w.hands[j]? = some chain)
    (hrun : d.free chain w.machine = .ok d' st) :
    Decomposes careful op w
      ({ w with
        hands := w.hands.eraseIdx j
        released := w.released ++ d.pool.refused chain }.put i d' st) := by
  have hapart : Moves careful w [] []
      { w with hands := (chain.map fun s => [s]) ++ w.hands.eraseIdx j } := by
    refine Moves.rearrange .refl ?_
    rw [List.flatten_append, flatten_singletons]
    exact (inHands_perm hc).symm
  exact ⟨[], _, hapart.trans (moves_free (w.hands.eraseIdx j) hd rfl hrun), .none⟩

theorem decomposes_dropContinuation {r : Except StackError Unit} (hd : w.domains[i]? = some d)
    (hk : w.continuations[j]? = some k)
    (hrun : d.dropContinuation k w.machine = .ok (r, d', k') st) :
    Decomposes careful op w
      ({ w with
        continuations := w.continuations.set j k'
        released := w.released ++ d.pool.refused k.stored }.put i d' st) := by
  rcases Domain.dropContinuation_cases hrun with
    ⟨hstored, -, rfl, rfl, journal, rfl⟩ | ⟨-, -, rfl, hfree⟩
  · refine Regroups.decomposes (regroups_put_nil hd rfl ?_
      (w.machine.proceeds_memory _ journal) rfl (.of_perm ?_) fun _ _ _ _ _ => rfl)
    · change w.released ++ d'.pool.refused k'.stored = _
      rw [hstored]
      exact List.append_nil _
    · have hbefore := stored_perm hk
      have hafter := stored_set hk k'
      change (d'.running ++ ((w.continuations.set j k').flatMap Continuation.stored ++
        w.inHands)).Perm _
      grind
  · have hregroups : w.Regroups careful [] { w with
        continuations := w.continuations.set j { k with stored := [] }
        hands := (k.stored.map fun s => [s]) ++ w.hands } := by
      refine regroups_aside_nil rfl rfl (w.machine.proceeds_memory _ _) (.of_perm ?_)
        fun _ _ _ _ _ => rfl
      have hbefore := stored_perm hk
      have hafter := stored_set hk { k with stored := [] }
      change ((w.continuations.set j { k with stored := [] }).flatMap Continuation.stored ++
        ((k.stored.map fun s => [s]) ++ w.hands).flatten).Perm (w.stored ++ w.hands.flatten)
      rw [List.flatten_append, flatten_singletons]
      grind
    exact ⟨[], _, (Moves.single (.regroup hregroups)).trans
      (moves_free w.hands hd rfl hfree), .none⟩

/-- The head of the running chain is freed, and its parent runs. -/
theorem decomposes_returnFromFiber (haccounted : w.Accounted) (hd : w.domains[i]? = some d)
    (hrun : d.returnFromFiber w.machine = .ok (some h, d') st) :
    Decomposes careful op w
      ({ w with released := w.released ++ d.pool.refused (d.running.take 1) }.put i d' st) := by
  cases Domain.returns_of_returnFromFiber hrun with
  | @ended finished parent outer _ _ hrunning hfrees =>
      have hmem : finished ∈ w.held := mem_held_of_running hd (by simp [hrunning])
      have hregroups : w.Regroups careful [] ({ w with hands := [finished] :: w.hands }.put i
          (d.run (parent :: outer))
          { w.machine with memory := finished.recordParent w.machine.memory 0 }) := by
        refine regroups_put_nil hd rfl rfl (w.machine.proceeds_memory _ w.machine.journal) rfl
          (.of_perm ?_) fun _ => ?_
        · rw [hrunning]
          change (parent :: outer ++ (w.stored ++ finished :: w.inHands)).Perm _
          grind
        · exact haccounted.spared hmem rfl
            ((Segment.sameOutside_recordParent _).confines (haccounted.formed_of_held hmem))
      have hall := (Moves.single (.regroup hregroups)).tail
        (.free (getElem?_put (w := { w with hands := [finished] :: w.hands }) hd _ _) rfl hfrees)
      simp only [put, List.set_set] at hall
      rw [hrunning]
      exact ⟨_, _, hall, .none⟩

/-! ### Obtaining -/

theorem moves_obtain (hd : w.domains[i]? = some d)
    (hobtains : d.Obtains words h id w.machine s d' st) :
    Moves careful w [id] [] ({ w with hands := w.hands ++ [[s]] }.put i d' st) := by
  refine (Moves.single (.obtain hd hobtains)).rearrange ?_
  change (w.hands ++ [[s]]).flatten.Perm ([s] :: w.hands).flatten
  rw [List.flatten_append, List.flatten_cons]
  exact List.perm_append_comm

theorem decomposes_allocNoExc {s? : Option Segment} (hd : w.domains[i]? = some d)
    (hrun : d.allocNoExc words h id w.machine = .ok (s?, d') st) :
    Decomposes careful (.allocNoExc i words h id) w
      ({ w with hands := w.hands ++ s?.toList.map fun s => [s] }.put i d' st) := by
  cases s? with
  | none =>
      rw [Option.toList_none, List.map_nil, List.append_nil]
      exact decomposes_quiet hd (Domain.quiet_of_allocNoExc hrun)
  | some s =>
      have hobtains := Domain.obtains_of_allocNoExc hrun
      exact ⟨_, _, moves_obtain hd hobtains, .given List.mem_cons_self⟩

theorem decomposes_alloc {r : Except StackError Segment} (hd : w.domains[i]? = some d)
    (hrun : d.alloc h w.machine = .ok (r, d') st) :
    Decomposes careful op w
      ({ w with hands := w.hands ++ r.toOption.toList.map fun s => [s] }.put i d' st) := by
  unfold Domain.alloc at hrun
  obtain ⟨id, st₁, hfresh, hrun⟩ := Run.bind_eq_ok_iff.mp hrun
  cases hfresh
  obtain ⟨⟨s?, d₁⟩, st₂, halloc, hpure⟩ := Run.bind_eq_ok_iff.mp hrun
  -- A number is drawn for the fiber whether or not there is memory for it.
  have hdrawn : w.machine.Proceeds { w.machine with nextFiber := w.machine.nextFiber + 1 } :=
    ⟨.refl _, rfl, Nat.le_succ _, Nat.le_refl _⟩
  cases s? with
  | none =>
      cases hpure
      simp only [Except.toOption, Option.toList_none, List.map_nil, List.append_nil]
      exact (regroups_quiet hd hdrawn rfl (Domain.quiet_of_allocNoExc halloc)).decomposes
  | some s =>
      cases hpure
      have hregroups : w.Regroups careful [] { w with
          machine := { w.machine with nextFiber := w.machine.nextFiber + 1 } } :=
        regroups_elsewhere hdrawn fun _ _ _ _ _ => rfl
      have hobtains := Domain.obtains_of_allocNoExc halloc
      refine ⟨_, _, (Moves.single (.regroup hregroups)).trans (moves_obtain (w := { w with
        machine := { w.machine with nextFiber := w.machine.nextFiber + 1 } }) hd hobtains), ?_⟩
      refine .fresh ?_
      have hnext := hobtains.nextFiber_eq
      exact hnext.symm ▸ Nat.lt_succ_self _

/-- The main segment takes the place of the running chain. -/
theorem decomposes_startMain (hd : w.domains[i]? = some d)
    (hrun : d.startMain w.machine = .ok (.ok (), d') st) :
    Decomposes careful op w ({ w with released := w.released ++ d.running }.put i d' st) := by
  unfold Domain.startMain Domain.allocMain at hrun
  obtain ⟨⟨s?, d₁⟩, st₁, halloc, hpure⟩ := Run.bind_eq_ok_iff.mp hrun
  cases s? with
  | none => cases hpure
  | some s =>
      cases hpure
      have hobtains := Domain.obtains_of_allocNoExc halloc
      have hregroups : ({ w with hands := [s] :: w.hands }.put i d₁ st).Regroups careful d.running
          ({ w with released := w.released ++ d.running }.put i
            { d₁ with running := [s], exnHandler := 0 } st) := by
        refine regroups_put _ (getElem?_put hd d₁ st) (List.set_set ..).symm rfl
          (st.proceeds_memory _ _) rfl (.of_perm ?_) fun _ _ _ _ _ => rfl
        rw [hobtains.running_eq]
        change ([s] ++ (w.stored ++ w.inHands ++ d.running)).Perm
          (d.running ++ (w.stored ++ s :: w.inHands))
        grind
      exact ⟨_, _, (Moves.single (.obtain hd hobtains)).tail (.regroup hregroups), .main⟩

theorem decomposes_startMainFailed {e : StackError} (hd : w.domains[i]? = some d)
    (hrun : d.startMain w.machine = .ok (.error e, d') st) :
    Decomposes careful op w (w.put i d' st) := by
  unfold Domain.startMain Domain.allocMain at hrun
  obtain ⟨⟨s?, d₁⟩, st₁, halloc, hpure⟩ := Run.bind_eq_ok_iff.mp hrun
  cases s? with
  | none =>
      cases hpure
      exact decomposes_quiet hd (Domain.quiet_of_allocNoExc halloc)
  | some s => cases hpure

/-! ### Growth -/

theorem Accounted.kept_apart (haccounted : w.Accounted) (hd : w.domains[i]? = some d) :
    Segment.Separate w.machine.space d.segments :=
  (haccounted.separate.perm (everything_perm hd)).sublist (List.sublist_append_left _ _)

theorem pooled_subset_of_obtains (hd : w.domains[i]? = some d)
    (hobtains : d.Obtains words h id st s d' st') :
    ∀ t ∈ (w.put i d' st').pooled, t ∈ w.pooled := by
  intro t ht
  obtain ⟨d₁, hd₁, k, hk⟩ := mem_pooled_iff.mp ht
  rcases List.mem_or_eq_of_mem_set hd₁ with hmem | rfl
  · exact mem_pooled_iff.mpr ⟨d₁, hmem, k, hk⟩
  · exact mem_pooled_iff.mpr ⟨d, List.mem_of_getElem? hd, k, hobtains.list_subset k t hk⟩

/-- Growth between two segments in use spares the pools if no frame record lies there. -/
theorem Accounted.spared_of_relocated {old new : Segment} {outer : Chain} {traps : TrapWalk}
    {framePointer : Nat} {m : Memory} {p : Nat → Prop} (haccounted : w.Accounted)
    (hold : old ∈ w.held) (hnew : new ∈ w.held) (hapart : new.Apart old)
    (hroom : old.usedWords * wordBytes ≤ new.high - new.base)
    (htraps : TrapWalk.relocate (.between old new) (Segment.filled old new)
      (.start (Segment.copied w.machine.memory old (Segment.filled old new) outer) d.exnHandler
        d.asyncExnHandler) = .ok traps)
    (hwalk : d.relocatedRecords old (Segment.filled old new) traps.memory = .ok (framePointer, m))
    {rs : List Nat} (hlists : d.Lists w.machine.memory p old rs) (hp : ∀ a, new.Owns a → p a)
    (hpooled : ∀ s ∈ w.pooled, ∀ a, s.Owns a → p a) :
    ∀ s ∈ w.pooled, ∀ a, s.Owns a → m.read a = w.machine.memory.read a := by
  intro s hs a ha
  obtain ⟨hfilled, hsp⟩ := Segment.filled_formed (haccounted.formed_of_held hnew) hroom
  have hchecked := Domain.checked_relocatedRecords (haccounted.formed_of_held hold) hfilled hsp
    hapart htraps hlists hp
  exact hchecked.of_eq_ok hwalk a (hpooled s hs a ha)
    (fun howns => haccounted.apart_of_held hold hs a howns ha)
    (fun howns => haccounted.apart_of_held hnew hs a howns ha)

/-- A segment that is obtained comes from a pool or has addresses that were not handed out. -/
theorem owns_of_obtains (hd : w.domains[i]? = some d)
    (hobtains : d.Obtains words h id w.machine s d' st) {a : Nat} (ha : s.Owns a) :
    ¬ w.machine.space.Taken a ∨ ∃ t ∈ w.pooled, t.Owns a := by
  rcases hobtains.owns with ⟨k, t, ht, howns⟩ | hfree
  · exact .inr ⟨t, mem_pooled_iff.mpr ⟨d, List.mem_of_getElem? hd, k, ht⟩, howns a ha⟩
  · exact .inl (hfree a ha)

/-- The running segment moves to the one in hand, and is in hand then. -/
theorem regroups_moved {old new : Segment} {outer : Chain} {moved : Domain} {m : Memory}
    (hd : w.domains[i]? = some d) (hhands : w.hands = [new] :: hands)
    (hrunning : d.running = old :: outer) (hmoved : moved.running = Segment.filled old new :: outer)
    (hshelves : moved.shelves = d.shelves) (hfilled : (Segment.filled old new).Formed)
    (hspared : careful → ∀ s ∈ w.pooled, ∀ a, s.Owns a → m.read a = w.machine.memory.read a) :
    w.Regroups careful []
      ({ w with hands := [old] :: hands }.put i moved { w.machine with memory := m }) := by
  refine regroups_put_nil hd rfl rfl (w.machine.proceeds_memory _ _) hshelves ?_ hspared
  have huses := Segment.Uses.cons hfilled (outer ++ (w.stored ++ old :: hands.flatten))
  refine (Segment.Uses.of_perm ?_).trans (huses.trans (.of_perm ?_))
  · rw [hrunning, inHands, hhands]
    change (new :: (outer ++ (w.stored ++ old :: hands.flatten))).Perm
      (old :: outer ++ (w.stored ++ new :: hands.flatten))
    grind
  · rw [hmoved]
    exact List.Perm.refl _

/-- A domain that grows obtains a segment, moves there, and frees the old one. -/
theorem decomposes_grow (haccounted : w.Accounted) (hd : w.domains[i]? = some d)
    (hrun : d.tryRealloc required w.machine = .ok (true, d') st)
    (hrespects : careful → d.RecordsAvoid w.machine.memory fun a =>
      ¬ w.machine.space.Taken a ∨ ∃ s ∈ w.pooled, s.Owns a) :
    Decomposes careful op w
      ({ w with released := w.released ++ d.pool.refused (d.running.take 1) }.put i d' st) := by
  rcases Domain.tryRealloc_cases hrun with ⟨hfalse, -⟩ | ⟨old, outer, needed, words, new, d₁,
    journal, st₁, -, hrunning, -, -, halloc, hmove⟩
  · cases hfalse
  have hsep := haccounted.kept_apart hd
  have hobtains := Domain.obtains_of_allocNoExc halloc
  obtain ⟨hobtained, hpool, hseparate⟩ :=
    Domain.allocated_of_allocNoExc (by exact hsep) halloc
  have hapart : ∀ t ∈ d.running, new.Apart t := fun t ht =>
    (List.pairwise_cons.mp hseparate.apart).1 t (List.mem_append_left _ ht)
  obtain ⟨traps, framePointer, m, links, d₂, hroom, htraps, hwalk, -, hfree, rfl⟩ :=
    Domain.moveTo_eq_ok hmove
  have hrunning₁ := hobtains.running_eq.trans hrunning
  have hnew : ∀ a, new.Owns a → ¬ w.machine.space.Taken a ∨ ∃ s ∈ w.pooled, s.Owns a :=
    fun _ => owns_of_obtains (w := { w with machine := { w.machine with journal } }) hd hobtains
  -- First the segment is in the hands of the domain, then it takes the place of the old one.
  have hlogged : w.Regroups careful [] { w with machine := { w.machine with journal } } :=
    regroups_elsewhere (w.machine.proceeds_memory _ _) fun _ _ _ _ _ => rfl
  have hobtain := (Moves.single (.regroup hlogged)).tail (.obtain hd hobtains)
  have haccounted₁ := (haccounted.of_moves hobtain).1
  have hd₁ := getElem?_put (w := { w with hands := [new] :: w.hands }) hd d₁ st₁
  obtain ⟨moved, hmoved⟩ : ∃ moved : Domain, moved = { d₁ with
      running := Segment.filled old new :: outer, exnHandler := traps.exnHandler,
      asyncExnHandler := traps.asyncExnHandler, framePointer, links } := ⟨_, rfl⟩
  obtain ⟨hfilled, -⟩ := Segment.filled_formed hobtained.formed hroom
  have hregroups : ({ w with hands := [new] :: w.hands }.put i d₁ st₁).Regroups careful []
      ({ { w with hands := [new] :: w.hands }.put i d₁ st₁ with hands := [old] :: w.hands }.put i
        moved { st₁ with memory := m }) := by
    refine regroups_moved hd₁ rfl hrunning₁ (by rw [hmoved]) (by rw [hmoved]; rfl) hfilled
      fun hcareful => ?_
    have hapartOld := hapart old (by simp [hrunning])
    obtain ⟨rs, hlists⟩ := (hrespects hcareful).exists_lists hrunning
    have hkept := hlists.of_confines (hobtained.kept.confines hobtained.formed) hnew hapartOld
    refine haccounted₁.spared_of_relocated (mem_held_of_running hd₁ (by simp [hrunning₁]))
      (mem_held_of_hands (j := 0) rfl (List.mem_singleton_self new)) hapartOld hroom htraps hwalk
      (by rw [hpool]; exact hkept) hnew ?_
    exact fun s hs a ha => .inr ⟨s, pooled_subset_of_obtains hd hobtains s hs, ha⟩
  have hfrees := Domain.frees_of_freeSegment hfree
  obtain ⟨hfreed, -⟩ := hfrees.eq
  have hd₂ := getElem?_put (w := { { w with hands := [new] :: w.hands }.put i d₁ st₁ with
    hands := [old] :: w.hands }) hd₁ moved { st₁ with memory := m }
  have hmoves := (hobtain.tail (.regroup hregroups)).tail
    (.free hd₂ rfl (hfrees.of_pool (by rw [hmoved])))
  have hrefused : d₁.pool.refused = d.pool.refused :=
    Pool.refused_congr (congrArg Supplier.owner hobtains.supplier_eq)
  subst hmoved
  simp only [put, List.set_set, hrefused] at hmoves
  rw [hrunning, hfreed]
  exact ⟨_, _, hmoves, .renewed (by simp)⟩

theorem decomposes_growFailed (hd : w.domains[i]? = some d)
    (hrun : d.tryRealloc required w.machine = .ok (false, d') st) :
    Decomposes careful op w (w.put i d' st) := by
  rcases Domain.tryRealloc_cases hrun with ⟨-, hquiet⟩ | ⟨_, _, _, _, _, _, _, _, htrue, -⟩
  · exact decomposes_quiet hd hquiet
  · cases htrue

/-! ### All operations -/

/-- Every operation is made of moves. -/
theorem decomposes_of_step (haccounted : w.Accounted) (hstep : w.Step op w')
    (hrespects : careful → w.Respects w' op) : Decomposes careful op w w' := by
  cases hstep with
  | createDomain hrun => exact decomposes_createDomain hrun
  | createDefault hrun => exact decomposes_createDomain hrun
  | dropDomain hd hdrop => exact decomposes_dropDomain hd hdrop
  | startMain hd hrun => exact decomposes_startMain hd hrun
  | startMainFailed hd hrun => exact decomposes_startMainFailed hd hrun
  | alloc hd hrun => exact decomposes_alloc hd hrun
  | allocNoExc hd hrun => exact decomposes_allocNoExc hd hrun
  | free hd hc hrun => exact decomposes_free hd hc hrun
  | runFiber hd hc hrun => exact decomposes_runFiber haccounted hd hc hrun
  | returnFromFiber hd hrun => exact decomposes_returnFromFiber haccounted hd hrun
  | returnRefused hd hrun => exact decomposes_returnRefused haccounted hd hrun
  | capture hd hrun => exact decomposes_capture haccounted hd hrun
  | resume hd hk hrun => exact decomposes_resume haccounted hd hk hrun
  | dropContinuation hd hk hrun => exact decomposes_dropContinuation hd hk hrun
  | grow hd hrun =>
      exact decomposes_grow haccounted hd hrun fun hcareful => hrespects hcareful _ hd
  | growFailed hd hrun => exact decomposes_growFailed hd hrun
  | newContinuation hc => exact decomposes_newContinuation hc
  | emptyContinuation => exact decomposes_emptyContinuation
  | take hk hrun => exact decomposes_take hk hrun
  | takeRebound hk hrun => exact decomposes_takeRebound haccounted hk hrun
  | replace hk hc hrun => exact decomposes_replace hk hc hrun
  | forget hk hdrop => exact decomposes_forget hk hdrop
  | letGo hc => exact decomposes_letGo hc
  | work hd hrunning hformed => exact decomposes_work hd hrunning hformed
  | prepare hc hformed => exact decomposes_prepare hc hformed
  | rearrange hperm => exact decomposes_rearrange hperm
  | adjust hd hid hpolicy hpool hrunning => exact decomposes_adjust hd hid hpolicy hpool hrunning
  | elsewhere hmachine => exact decomposes_elsewhere hmachine hrespects

end FiberStacks.Holdings
