import FiberStacks.Proofs.Holdings.Moves

/-!
# The account of all segments

At all times the segments in use, in pools and given up are those that were ever obtained, each of
them once and with memory of its own. Each was built by the domain that it names as its owner, as
long as that domain lives.
-/

namespace FiberStacks

namespace Segment

variable {space space' : AddressSpace} {segments more : List Segment} {s : Segment}

theorem exists_bare_eq (hperm : (more.map bare).Perm (segments.map bare)) (hs : s ∈ more) :
    ∃ t ∈ segments, t.bare = s.bare :=
  List.mem_map.mp (hperm.mem_iff.mp (List.mem_map_of_mem hs))

/-- Whether segments have memory of their own does not depend on what is done with them. -/
theorem Separate.of_bare (h : Separate space segments)
    (hperm : (more.map bare).Perm (segments.map bare)) (hformed : ∀ s ∈ more, s.Formed) :
    Separate space more where
  formed := hformed
  handed := by
    intro s hs a ha
    obtain ⟨t, ht, heq⟩ := exists_bare_eq hperm hs
    obtain ⟨-, hbase, hhigh, -⟩ := bare_eq_iff.mp heq
    refine h.handed t ht a ?_
    rwa [Owns, hbase, hhigh]
  apart := by
    have hbare : (segments.map bare).Pairwise Apart := List.pairwise_map.mpr h.apart
    have hmore : (more.map bare).Pairwise Apart := hbare.perm hperm.symm fun hst => hst.symm
    exact (List.pairwise_map (f := bare).mp hmore).imp fun hst => hst

theorem Separate.of_yields {suppliers : List Supplier} {new : List Segment}
    (h : Separate space segments) (hyields : space.Yields suppliers new space') :
    Separate space' (new ++ segments) := by
  cases hyields with
  | nothing hgrows _ => exact h.grow hgrows
  | segment _ _ _ hformed _ hgrants _ => exact h.cons hformed hgrants

theorem map_footprint_bare (segments : List Segment) :
    (segments.map bare).map footprint = segments.map footprint := by
  rw [List.map_map]
  rfl

end Segment

namespace Holdings

/-- All segments that were ever obtained are accounted for. -/
structure Accounted (w : Holdings) : Prop where
  separate : Segment.Separate w.machine.space w.everything
  conserved : w.machine.space.segments.Perm (w.everything.map Segment.footprint)
  low : ∀ s ∈ w.everything, 0 < s.base
  distinct : (w.suppliers.map Supplier.id).Nodup
  numbered : ∀ o ∈ w.suppliers, o.owner = o.id ∧ o.id.number < w.machine.nextDomain
  owned : ∀ s ∈ w.everything, s.owner.number < w.machine.nextDomain
  made : ∀ s ∈ w.everything, ∀ o ∈ w.suppliers, s.owner = o.id → o.Makes s
  tagged : ∀ s ∈ w.everything, s.magic = segmentMagic

theorem everything_start (source : AddressSource) : (start source).everything = [] := rfl

theorem accounted_start (source : AddressSource) : (start source).Accounted where
  separate := by
    rw [everything_start]
    exact .nil _
  conserved := List.Perm.refl _
  low := by simp [everything_start]
  distinct := List.nodup_nil
  numbered := by simp [suppliers, start]
  owned := by simp [everything_start]
  made := by simp [everything_start]
  tagged := by simp [everything_start]

variable {w w' : Holdings} {careful : Prop} {added removed : List FiberId}

/-- What is true of a segment however it is used carries over if it is true of new segments. -/
theorem Audit.forall_everything {p : Segment → Prop} (h : Audit w w')
    (hbare : ∀ s t : Segment, s.bare = t.bare → p s → p t)
    (hold : ∀ s ∈ w.everything, p s)
    (hnew : ∀ o ∈ w.suppliers, ∀ words start id, o.policy.align ∣ start →
      0 < (Segment.built o words id start).base →
      (∀ a, (Segment.built o words id start).Owns a → ¬ w.machine.space.Taken a) →
      p (.built o words id start)) :
    ∀ s ∈ w'.everything, p s := by
  intro s hs
  obtain ⟨new, hyields, hperm⟩ := h.everything
  obtain ⟨t, ht, heq⟩ := Segment.exists_bare_eq hperm hs
  refine hbare t s heq ?_
  rcases List.mem_append.mp ht with hmem | hmem
  · cases hyields with
    | nothing => cases hmem
    | segment hsupplier haligned hbuilt _ hpos hgrants =>
        rw [List.mem_singleton.mp hmem]
        subst hbuilt
        exact hnew _ hsupplier _ _ _ haligned hpos fun a ha => hgrants.free a ha.1 ha.2
  · exact hold t hmem

theorem Audit.grows (h : Audit w w') : w.machine.space.Grows w'.machine.space := by
  obtain ⟨new, hyields, -⟩ := h.everything
  exact hyields.grows

theorem Audit.conserved (h : Audit w w')
    (hbefore : w.machine.space.segments.Perm (w.everything.map Segment.footprint)) :
    w'.machine.space.segments.Perm (w'.everything.map Segment.footprint) := by
  obtain ⟨new, hyields, hperm⟩ := h.everything
  have hfootprints := hperm.map Segment.footprint
  rw [Segment.map_footprint_bare, Segment.map_footprint_bare, List.map_append] at hfootprints
  refine .trans ?_ hfootprints.symm
  cases hyields with
  | nothing _ hrecorded => exact hrecorded ▸ hbefore
  | segment _ _ _ _ _ _ hrecorded => exact hrecorded ▸ hbefore.cons _

/-- A domain was there before, or has the next number. -/
theorem Audit.mem_suppliers (h : Audit w w') {o : Supplier} (ho : o ∈ w'.suppliers) :
    o ∈ w.suppliers ∨ (o.id.number = w.machine.nextDomain ∧ o.owner = o.id ∧
      w.machine.nextDomain < w'.machine.nextDomain) := by
  rcases h.suppliers with hsub | ⟨o', heq, hid, howner, hlt⟩
  · exact .inl (hsub.subset ho)
  · rw [heq] at ho
    rcases List.mem_append.mp ho with hmem | hmem
    · exact .inl hmem
    · rw [List.mem_singleton.mp hmem]
      exact .inr ⟨congrArg DomainId.number hid, howner, hlt⟩

/-- A new domain has a number that no segment names as its owner. -/
theorem Audit.mem_suppliers_of_lt (h : Audit w w') {o : Supplier} (ho : o ∈ w'.suppliers)
    (hlt : o.id.number < w.machine.nextDomain) : o ∈ w.suppliers := by
  rcases h.mem_suppliers ho with hmem | ⟨hid, -⟩
  · exact hmem
  · exact absurd hid hlt.ne

theorem Accounted.made_of_audit (h : w.Accounted) (haudit : Audit w w') :
    ∀ s ∈ w'.everything, ∀ o ∈ w'.suppliers, s.owner = o.id → o.Makes s := by
  intro s hs o ho
  revert s
  refine haudit.forall_everything (fun s t heq hs howner => ?_) (fun s hs howner => ?_) ?_
  · obtain ⟨-, -, -, -, howners, -⟩ := Segment.bare_eq_iff.mp heq
    obtain ⟨words, start, haligned, hmade⟩ := hs (howners ▸ howner)
    exact ⟨words, start, haligned, heq ▸ hmade⟩
  · exact h.made s hs o (haudit.mem_suppliers_of_lt ho (howner ▸ h.owned s hs)) howner
  · intro o' ho' words start id haligned _ _ howner
    have hid : o'.id = o.id := howner
    have hold := haudit.mem_suppliers_of_lt ho (hid ▸ (h.numbered o' ho').2)
    obtain rfl : o' = o := List.inj_on_of_nodup_map h.distinct ho' hold hid
    exact ⟨words, start, haligned, rfl⟩

theorem Accounted.of_audit (h : w.Accounted) (haudit : Audit w w') : w'.Accounted where
  separate := by
    obtain ⟨new, hyields, hperm⟩ := haudit.everything
    exact (h.separate.of_yields hyields).of_bare hperm (haudit.formed h.separate.formed)
  conserved := haudit.conserved h.conserved
  low := by
    refine haudit.forall_everything (fun s t heq hs => ?_) h.low fun _ _ _ _ _ _ hpos _ => hpos
    obtain ⟨-, hbase, -⟩ := Segment.bare_eq_iff.mp heq
    exact hbase ▸ hs
  distinct := by
    rcases haudit.suppliers with hsub | ⟨o, heq, hid, -, -⟩
    · exact h.distinct.sublist (hsub.map _)
    · rw [heq, List.map_append, List.map_singleton]
      refine h.distinct.append (List.nodup_singleton _) fun id hmem hnew => ?_
      obtain ⟨o', ho', rfl⟩ := List.mem_map.mp hmem
      have hlt := (h.numbered o' ho').2
      rw [List.mem_singleton.mp hnew, hid] at hlt
      exact Nat.lt_irrefl _ hlt
  numbered := by
    intro o ho
    rcases haudit.mem_suppliers ho with hmem | ⟨hid, howner, hlt⟩
    · obtain ⟨howner, hlt⟩ := h.numbered o hmem
      exact ⟨howner, Nat.lt_of_lt_of_le hlt haudit.domains⟩
    · exact ⟨howner, hid.trans_lt hlt⟩
  owned := by
    refine haudit.forall_everything (fun s t heq hs => ?_) (fun s hs => ?_) ?_
    · obtain ⟨-, -, -, -, howner, -⟩ := Segment.bare_eq_iff.mp heq
      exact howner ▸ hs
    · exact Nat.lt_of_lt_of_le (h.owned s hs) haudit.domains
    · intro o ho words start id _ _ _
      exact Nat.lt_of_lt_of_le (h.numbered o ho).2 haudit.domains
  made := h.made_of_audit haudit
  tagged := by
    refine haudit.forall_everything (fun s t heq hs => ?_) h.tagged fun _ _ _ _ _ _ _ _ => rfl
    obtain ⟨-, -, -, -, -, htag⟩ := Segment.bare_eq_iff.mp heq
    exact htag ▸ hs

theorem Accounted.of_move (h : w.Accounted) (hmove : w.Move careful added removed w') :
    w'.Accounted :=
  h.of_audit (hmove.audit h.tagged)

theorem Accounted.of_moves (h : w.Accounted) (hmoves : Moves careful w added removed w') :
    w'.Accounted ∧ w.released <+: w'.released := by
  induction hmoves with
  | refl => exact ⟨h, List.prefix_refl _⟩
  | tail _ hmove ih =>
      obtain ⟨hbefore, hreleased⟩ := ih
      exact ⟨hbefore.of_move hmove,
        hreleased.trans (hmove.audit hbefore.tagged).released⟩

end Holdings

end FiberStacks
