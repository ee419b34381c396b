import FiberStacks.Proofs.Domain.Exchange
import FiberStacks.Proofs.Domain.Switching
import FiberStacks.Proofs.Holdings.Operations
import Mathlib.Data.List.Perm.Basic
import Mathlib.Logic.Relation

/-!
# Moves of segments

Every operation is made of five moves: segments in use change places, one is obtained, one is freed,
a domain comes, and a domain goes. No move makes two of a segment or loses one, and what is given up
stays so.
-/

namespace FiberStacks

namespace Segment

/-- The segments are used by their fibers, and perhaps reordered. -/
structure Uses (before after : List Segment) : Prop where
  rested : (after.map Segment.rested).Perm (before.map Segment.rested)
  formed : (∀ s ∈ before, s.Formed) → ∀ s ∈ after, s.Formed

namespace Uses

variable {before after later more further : List Segment} {s : Segment}

theorem of_perm (h : after.Perm before) : Uses before after :=
  ⟨h.map _, fun hformed s hs => hformed s (h.mem_iff.mp hs)⟩

theorem refl (segments : List Segment) : Uses segments segments := of_perm (List.Perm.refl _)

theorem trans (h : Uses before after) (h' : Uses after later) : Uses before later :=
  ⟨h'.rested.trans h.rested, fun hformed => h'.formed (h.formed hformed)⟩

theorem append (h : Uses before after) (h' : Uses more further) :
    Uses (before ++ more) (after ++ further) where
  rested := by
    rw [List.map_append, List.map_append]
    exact h.rested.append h'.rested
  formed := by
    intro hformed s hs
    rcases List.mem_append.mp hs with hmem | hmem
    · exact h.formed (fun t ht => hformed t (List.mem_append_left _ ht)) s hmem
    · exact h'.formed (fun t ht => hformed t (List.mem_append_right _ ht)) s hmem

theorem append_right (h : Uses before after) (more : List Segment) :
    Uses (before ++ more) (after ++ more) :=
  h.append (refl more)

/-- A segment gets another stack pointer, and another exception handler is saved in it. -/
theorem cons {sp savedExn : Nat} (hs : ({ s with sp, savedExn } : Segment).Formed)
    (segments : List Segment) :
    Uses (s :: segments) ({ s with sp, savedExn } :: segments) where
  rested := List.Perm.refl _
  formed := fun hformed =>
    List.forall_mem_cons.mpr ⟨hs, fun t ht => hformed t (List.mem_cons_of_mem s ht)⟩

theorem of_suspended (d : Domain) : Uses d.running d.suspended := by
  cases hrunning : d.running with
  | nil =>
      rw [Domain.suspended_of_nil hrunning]
      exact refl []
  | cons s outer =>
      rw [Domain.suspended_of_cons hrunning]
      refine ⟨List.Perm.refl _, fun hformed => ?_⟩
      obtain ⟨hs, houter⟩ := List.forall_mem_cons.mp hformed
      exact List.forall_mem_cons.mpr ⟨hs.resave d.exnHandler, houter⟩

theorem bare (h : Uses before after) : (after.map Segment.bare).Perm (before.map Segment.bare) := by
  have hbare := h.rested.map Segment.bare
  rwa [List.map_map, List.map_map] at hbare

theorem ids (h : Uses before after) : (after.map Segment.id).Perm (before.map Segment.id) := by
  have hid := h.rested.map Segment.id
  rwa [List.map_map, List.map_map] at hid

end Uses

end Segment

/-- What a domain keeps, and on what terms. -/
def Domain.shelves (d : Domain) : Supplier × (SizeClass → List Segment) :=
  (d.supplier, d.pool.list)

namespace Holdings

def suppliers (w : Holdings) : List Supplier := w.domains.map Domain.supplier

/-- Segments in use change places, those in `gone` are given up, and the pools are as before. -/
structure Regroups (careful : Prop) (w : Holdings) (gone : List Segment) (w' : Holdings) :
    Prop where
  machine : w.machine.Proceeds w'.machine
  shelves : w'.domains.map Domain.shelves = w.domains.map Domain.shelves
  released : w'.released = w.released ++ gone
  held : Segment.Uses w.held (w'.held ++ gone)
  /-- Careful callers leave the memory of segments alone that are in a pool. -/
  spared : careful → ∀ s ∈ w.pooled, ∀ a, s.Owns a →
    w'.machine.memory.read a = w.machine.memory.read a

/-- A move, with the fibers of the segments that it puts in use and of those that it puts out of
use. -/
inductive Move (careful : Prop) (w : Holdings) :
    List FiberId → List FiberId → Holdings → Prop
  | regroup {gone : List Segment} {w' : Holdings} :
      w.Regroups careful gone w' → Move careful w [] (gone.map Segment.id) w'
  | obtain {i words : Nat} {d d' : Domain} {h : Handlers} {id : FiberId} {s : Segment}
      {st : MachineState} :
      w.domains[i]? = some d → d.Obtains words h id w.machine s d' st →
      Move careful w [id] [] ({ w with hands := [s] :: w.hands }.put i d' st)
  | free {i : Nat} {d d' : Domain} {s : Segment} {hands : List Chain} {st : MachineState} :
      w.domains[i]? = some d → w.hands = [s] :: hands → d.Frees s w.machine d' st →
      Move careful w [] [s.id]
        ({ w with hands, released := w.released ++ d.pool.refused [s] }.put i d' st)
  | create {settings : Settings} {journal : Journal} :
      Move careful w [] []
        { w with
          machine := { w.machine with nextDomain := w.machine.nextDomain + 1, journal }
          domains := w.domains ++ [.ofSettings ⟨w.machine.nextDomain⟩ settings] }
  | drop {i : Nat} {d : Domain} :
      w.domains[i]? = some d →
      Move careful w [] (d.running.map Segment.id)
        { w with
          domains := w.domains.eraseIdx i
          released := w.released ++ (d.running ++ d.pool.segments) }

/-- Moves one after the other, with all fibers that come into use and go out of use. -/
inductive Moves (careful : Prop) (w : Holdings) :
    List FiberId → List FiberId → Holdings → Prop
  | refl : Moves careful w [] [] w
  | tail {w' w'' : Holdings} {added removed added' removed' : List FiberId} :
      Moves careful w added removed w' → Move careful w' added' removed' w'' →
      Moves careful w (added ++ added') (removed ++ removed') w''

/-! ### Domains among the others -/

variable {careful : Prop} {w w' w'' : Holdings} {i : Nat} {d d' : Domain} {st : MachineState}
  {added removed added' removed' : List FiberId}

theorem domains_perm (hd : w.domains[i]? = some d) :
    w.domains.Perm (d :: w.domains.eraseIdx i) :=
  perm_cons_eraseIdx hd

theorem domains_put (hd : w.domains[i]? = some d) (d' : Domain) :
    (w.domains.set i d').Perm (d' :: w.domains.eraseIdx i) :=
  set_perm_eraseIdx hd d'

theorem map_put {β : Type} {f : Domain → β} (hd : w.domains[i]? = some d) (h : f d' = f d) :
    (w.domains.set i d').map f = w.domains.map f := by
  have hmap : (w.domains.map f)[i]? = some (f d) := by rw [List.getElem?_map, hd, Option.map_some]
  obtain ⟨hi, heq⟩ := List.getElem?_eq_some_iff.mp hmap
  rw [List.map_set, h, ← heq, List.set_getElem_self]

/-- The segments of all domains but one. -/
def others (w : Holdings) (i : Nat) : List Segment :=
  (w.domains.eraseIdx i).flatMap Domain.segments

theorem running_pooled_perm {domains : List Domain}
    (hperm : domains.Perm (d :: w.domains.eraseIdx i)) :
    (domains.flatMap Domain.running ++ domains.flatMap fun d => d.pool.segments).Perm
      (d.segments ++ w.others i) :=
  (List.flatMap_append_perm domains Domain.running fun d => d.pool.segments).trans
    (hperm.flatMap_right Domain.segments)

theorem everything_perm (hd : w.domains[i]? = some d) :
    w.everything.Perm (d.segments ++ (w.others i ++ w.stored ++ w.inHands ++ w.released)) := by
  have hperm := running_pooled_perm (domains_perm hd)
  unfold everything held running pooled
  grind

theorem everything_put (hd : w.domains[i]? = some d) (d' : Domain) (st : MachineState) :
    (w.put i d' st).everything.Perm
      (d'.segments ++ (w.others i ++ w.stored ++ w.inHands ++ w.released)) := by
  have hperm := running_pooled_perm (domains_put hd d')
  unfold everything held running pooled
  change ((w.domains.set i d').flatMap Domain.running ++ w.stored ++ w.inHands ++
    (w.domains.set i d').flatMap (fun d => d.pool.segments) ++ w.released).Perm _
  grind

theorem supplier_mem (hd : w.domains[i]? = some d) : d.supplier ∈ w.suppliers :=
  List.mem_map_of_mem (List.mem_of_getElem? hd)

theorem pooled_eq (w : Holdings) :
    w.pooled = (w.domains.map Domain.shelves).flatMap fun x => (List.finRange 5).flatMap x.2 := by
  rw [List.flatMap_map]
  rfl

theorem suppliers_eq (w : Holdings) :
    w.suppliers = (w.domains.map Domain.shelves).map Prod.fst := by
  rw [List.map_map]
  rfl

theorem mem_pooled_iff {s : Segment} :
    s ∈ w.pooled ↔ ∃ d ∈ w.domains, ∃ k, s ∈ d.pool.list k := by
  simp [pooled, Pool.segments]

/-! ### What moves do to the whole -/

/-- What a move leaves of all segments. Some are new, the others are there as before. -/
structure Audit (w w' : Holdings) : Prop where
  everything : ∃ new, w.machine.space.Yields w.suppliers new w'.machine.space ∧
    (w'.everything.map Segment.bare).Perm ((new ++ w.everything).map Segment.bare)
  formed : (∀ s ∈ w.everything, s.Formed) → ∀ s ∈ w'.everything, s.Formed
  released : w.released <+: w'.released
  domains : w.machine.nextDomain ≤ w'.machine.nextDomain
  suppliers : w'.suppliers.Sublist w.suppliers ∨
    (∃ o, w'.suppliers = w.suppliers ++ [o] ∧ o.id = ⟨w.machine.nextDomain⟩ ∧ o.owner = o.id ∧
      w.machine.nextDomain < w'.machine.nextDomain)

theorem Regroups.audit {gone : List Segment} (h : w.Regroups careful gone w') : Audit w w' := by
  have hpooled : w'.pooled = w.pooled := by rw [pooled_eq, pooled_eq, h.shelves]
  have hsuppliers : w'.suppliers = w.suppliers := by
    rw [suppliers_eq, suppliers_eq, h.shelves]
  have hheld := h.held.bare
  have hreleased := h.released
  refine ⟨⟨[], .nothing h.machine.grows h.machine.segments, ?_⟩, ?_, ?_, h.machine.domains,
    .inl (hsuppliers ▸ List.Sublist.refl _)⟩
  · simp only [everything, hpooled, hreleased, List.map_append, List.nil_append] at hheld ⊢
    grind
  · intro hformed s hs
    have hin := h.held.formed fun t ht => hformed t (by simp [everything, ht])
    simp only [everything, hpooled, hreleased, List.mem_append] at hs hin hformed
    grind
  · rw [hreleased]
    exact List.prefix_append _ _

theorem running_put_same (hd : w.domains[i]? = some d) (h : d'.running = d.running) :
    (w.put i d' st).running = w.running :=
  congrArg List.flatten (map_put hd h)

theorem audit_obtain {words : Nat} {h : Handlers} {id : FiberId} {s : Segment}
    (hd : w.domains[i]? = some d) (hobtains : d.Obtains words h id w.machine s d' st)
    (htagged : ∀ s ∈ w.everything, s.magic = segmentMagic) :
    Audit w ({ w with hands := [s] :: w.hands }.put i d' st) := by
  have hbefore := everything_perm hd
  have hafter := everything_put (w := { w with hands := [s] :: w.hands }) hd d' st
  obtain ⟨new, hyields, hsegments⟩ := hobtains.segments fun t ht =>
    htagged t (hbefore.mem_iff.mpr (List.mem_append_left _ ht))
  refine ⟨⟨new, hyields.mono ?_, ?_⟩, fun hformed t ht => ?_, List.prefix_refl _,
    hobtains.nextDomain_eq.ge, .inl ?_⟩
  · simpa using supplier_mem hd
  · refine (hafter.map Segment.bare).trans (.trans ?_ ((hbefore.append_left new).map _).symm)
    change ((d'.segments ++
      (w.others i ++ w.stored ++ (s :: w.inHands) ++ w.released)).map _).Perm _
    simp only [List.map_append, List.map_cons] at hsegments ⊢
    grind
  · have hbelow : ∀ t ∈ d.segments, t.Formed := fun t ht =>
      hformed t (hbefore.mem_iff.mpr (List.mem_append_left _ ht))
    obtain ⟨hs, hsegments⟩ := hobtains.formed hbelow
    rcases List.mem_append.mp (hafter.mem_iff.mp ht) with hmem | hmem
    · exact hsegments t hmem
    · have hrest : t = s ∨ t ∈ w.others i ++ w.stored ++ w.inHands ++ w.released := by
        change t ∈ w.others i ++ w.stored ++ (s :: w.inHands) ++ w.released at hmem
        grind
      rcases hrest with rfl | hmem
      · exact hs
      · exact hformed t (hbefore.mem_iff.mpr (List.mem_append_right _ hmem))
  · have hsuppliers : ({ w with hands := [s] :: w.hands }.put i d' st).suppliers = w.suppliers :=
      map_put hd hobtains.supplier_eq
    exact hsuppliers ▸ List.Sublist.refl _

theorem audit_free {s : Segment} {hands : List Chain} (hd : w.domains[i]? = some d)
    (hhands : w.hands = [s] :: hands) (hfrees : d.Frees s w.machine d' st) :
    Audit w ({ w with hands, released := w.released ++ d.pool.refused [s] }.put i d' st) := by
  have hbefore := everything_perm hd
  have hafter := everything_put
    (w := { w with hands, released := w.released ++ d.pool.refused [s] }) hd d' st
  have hsegments := hfrees.segments
  have hin : w.inHands = s :: hands.flatten := by
    rw [inHands, hhands]
    rfl
  have hsame : ({ w with hands, released := w.released ++ d.pool.refused [s] }.put i d'
      st).everything.Perm w.everything := by
    refine hafter.trans (.trans ?_ hbefore.symm)
    rw [hin]
    change (d'.segments ++ (w.others i ++ w.stored ++ hands.flatten ++
      (w.released ++ d.pool.refused [s]))).Perm _
    simp only [List.perm_iff_count, List.count_append, List.count_cons] at hsegments ⊢
    intro t
    have ht := hsegments t
    omega
  refine ⟨⟨[], ?_, hsame.map _⟩, fun hformed t ht => hformed t (hsame.mem_iff.mp ht),
    List.prefix_append _ _, hfrees.nextDomain_eq.ge, .inl ?_⟩
  · have hspace := hfrees.space_eq
    exact .nothing (hspace ▸ .refl _) (hspace ▸ rfl)
  · have hsuppliers : ({ w with hands, released := w.released ++ d.pool.refused [s] }.put i d'
        st).suppliers = w.suppliers := map_put hd hfrees.supplier_eq
    exact hsuppliers ▸ List.Sublist.refl _

/-- What a move leaves can be accounted for. -/
theorem Move.audit (h : w.Move careful added removed w')
    (htagged : ∀ s ∈ w.everything, s.magic = segmentMagic) : Audit w w' := by
  cases h with
  | regroup hregroups => exact hregroups.audit
  | obtain hd hobtains => exact audit_obtain hd hobtains htagged
  | free hd hhands hfrees => exact audit_free hd hhands hfrees
  | @create settings journal =>
      have hsame : ({ w with
          machine := { w.machine with nextDomain := w.machine.nextDomain + 1, journal }
          domains := w.domains ++ [.ofSettings ⟨w.machine.nextDomain⟩ settings] } :
            Holdings).everything = w.everything := by
        change (w.domains ++ [_]).flatMap Domain.running ++ w.stored ++ w.inHands ++
          (w.domains ++ [_]).flatMap (fun d : Domain => d.pool.segments) ++ w.released =
            w.everything
        rw [Domain.flatMap_running_concat, Domain.flatMap_pooled_concat]
        rfl
      refine ⟨⟨[], .nothing (.refl _) rfl, ?_⟩, fun hformed => hsame ▸ hformed,
        List.prefix_refl _, Nat.le_succ _, .inr ⟨_, List.map_append, rfl, rfl, Nat.lt_succ_self _⟩⟩
      rw [hsame]
      exact List.Perm.refl _
  | @drop i d hd =>
      have hperm := running_pooled_perm (domains_perm hd)
      have hrest := List.flatMap_append_perm (w.domains.eraseIdx i) Domain.running
        fun d => d.pool.segments
      have hsame : ({ w with
          domains := w.domains.eraseIdx i
          released := w.released ++ (d.running ++ d.pool.segments) } :
            Holdings).everything.Perm w.everything := by
        refine .trans ?_ (everything_perm hd).symm
        change ((w.domains.eraseIdx i).flatMap Domain.running ++ w.stored ++ w.inHands ++
          (w.domains.eraseIdx i).flatMap (fun d => d.pool.segments) ++
          (w.released ++ d.segments)).Perm (d.segments ++ ((w.domains.eraseIdx i).flatMap
            (fun d => d.running ++ d.pool.segments) ++ w.stored ++ w.inHands ++ w.released))
        grind
      refine ⟨⟨[], .nothing (.refl _) rfl, hsame.map _⟩,
        fun hformed t ht => hformed t (hsame.mem_iff.mp ht), List.prefix_append _ _,
        Nat.le_refl _, .inl ?_⟩
      exact (List.eraseIdx_sublist w.domains i).map _

/-- The fibers that come into use and those that go out of use make the difference. -/
theorem Move.ids (h : w.Move careful added removed w') :
    (w'.held.map Segment.id ++ removed).Perm (added ++ w.held.map Segment.id) := by
  cases h with
  | regroup hregroups =>
      have hids := hregroups.held.ids
      rwa [List.map_append] at hids
  | @obtain i words d d' h id s st hd hobtains =>
      have hrunning : (w.put i d' st).running = w.running :=
        running_put_same hd hobtains.running_eq
      have hheld : ({ w with hands := [s] :: w.hands }.put i d' st).held =
          w.running ++ w.stored ++ s :: w.inHands :=
        congrArg (· ++ w.stored ++ s :: w.inHands) hrunning
      rw [hheld, ← hobtains.id_eq, List.append_nil]
      exact List.perm_middle.map Segment.id
  | @free i d d' s hands st hd hhands hfrees =>
      have hrunning : (w.put i d' st).running = w.running :=
        running_put_same hd hfrees.running_eq
      have hin : w.inHands = s :: hands.flatten := congrArg List.flatten hhands
      have hheld : ({ w with hands, released := w.released ++ d.pool.refused [s] }.put i d'
          st).held = w.running ++ w.stored ++ hands.flatten :=
        congrArg (· ++ w.stored ++ hands.flatten) hrunning
      rw [hheld, held, hin]
      refine (List.perm_append_singleton _ _).trans ?_
      exact (List.perm_middle.map Segment.id).symm
  | create =>
      rw [List.append_nil, List.nil_append]
      change List.Perm (((w.domains ++ [_]).flatMap Domain.running ++ w.stored ++
        w.inHands).map Segment.id) _
      rw [Domain.flatMap_running_concat]
      exact List.Perm.refl _
  | @drop i d hd =>
      have hperm := (domains_perm hd).flatMap_right Domain.running
      have hheld : w.held.Perm (d.running ++ ((w.domains.eraseIdx i).flatMap Domain.running ++
          w.stored ++ w.inHands)) := by
        rw [← List.append_assoc, ← List.append_assoc]
        exact (hperm.append_right _).append_right _
      refine .trans ?_ (hheld.map Segment.id).symm
      rw [List.map_append]
      exact List.perm_append_comm

theorem Move.nextFiber_le (h : w.Move careful added removed w') :
    w.machine.nextFiber ≤ w'.machine.nextFiber := by
  cases h with
  | regroup hregroups => exact hregroups.machine.fibers
  | obtain _ hobtains => exact hobtains.nextFiber_eq.ge
  | free _ _ hfrees => exact hfrees.nextFiber_eq.ge
  | create => exact Nat.le_refl _
  | drop => exact Nat.le_refl _

namespace Moves

theorem single (h : w.Move careful added removed w') : Moves careful w added removed w' :=
  tail refl h

theorem trans (h : Moves careful w added removed w') (h' : Moves careful w' added' removed' w'') :
    Moves careful w (added ++ added') (removed ++ removed') w'' := by
  induction h' with
  | refl => simpa using h
  | tail _ hmove ih =>
      rw [← List.append_assoc, ← List.append_assoc]
      exact ih.tail hmove

theorem ids (h : Moves careful w added removed w') :
    (w'.held.map Segment.id ++ removed).Perm (added ++ w.held.map Segment.id) := by
  induction h with
  | refl => simp
  | tail _ hmove ih =>
      have hids := hmove.ids
      simp only [List.perm_iff_count, List.count_append] at ih hids ⊢
      intro id
      have hbefore := ih id
      have hafter := hids id
      omega

theorem nextFiber_le (h : Moves careful w added removed w') :
    w.machine.nextFiber ≤ w'.machine.nextFiber := by
  induction h with
  | refl => exact Nat.le_refl _
  | tail _ hmove ih => exact ih.trans hmove.nextFiber_le

end Moves

end Holdings

end FiberStacks
