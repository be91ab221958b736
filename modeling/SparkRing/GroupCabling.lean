import SparkRing.GroupFabric

/-!
# NCCL policies and cables

A group's policy depends only on which of its members share a cable. The cables a group
routes over are cables of the layout.
-/

namespace SparkRing.GroupFabric

open Except (ok.inj ok.injEq)

variable {layout : Layout} {fabric : Fabric} {members : List ℤ} {parent : Option (List ℤ)} {scope : RouteScope}

/-- Cables join positions both ways. -/
theorem Cable.joins_symm (cable : Cable) (a b : ℤ) : cable.joins a b = cable.joins b a := by
  simp only [Cable.joins, decide_eq_decide]
  constructor
  · rintro (⟨ha, hb⟩ | ⟨ha, hb⟩)
    · exact .inr ⟨hb, ha⟩
    · exact .inl ⟨hb, ha⟩
  rintro (⟨ha, hb⟩ | ⟨ha, hb⟩)
  · exact .inr ⟨hb, ha⟩
  · exact .inl ⟨hb, ha⟩

/-- Some cable of a layout joins two positions. -/
def Layout.adjacent (layout : Layout) (a b : ℤ) : Bool := layout.cables.any fun cable => cable.joins a b

/-- Positions share cables both ways. -/
theorem Layout.adjacent_symm (layout : Layout) (a b : ℤ) : layout.adjacent a b = layout.adjacent b a := by
  simp only [Layout.adjacent, Cable.joins_symm _ a b]

def positionOf (members : List ℤ) (rank : ℕ) : ℤ := members.getD rank 0

/-- The policy of members of which some share cables. -/
def classify (adjacent : ℤ → ℤ → Bool) (members : List ℤ) : NcclPolicy :=
  if members.length < 2 then .all
  else if members.Pairwise fun a b => adjacent a b then .all
  else if (GroupTopology.consecutive members.length).filter (fun pair =>
    !adjacent (positionOf members pair.1) (positionOf members pair.2)) = [] then .ring
  else .none

/-- A placed group's policy is that of its fabric's cables. -/
theorem GroupTopology.ncclPolicy_eq (topology : GroupTopology) :
    topology.ncclPolicy = classify topology.fabric.adjacent topology.members := by
  unfold GroupTopology.ncclPolicy GroupTopology.nccl classify GroupTopology.uncabledPairs
  by_cases hlength : topology.members.length < 2
  · simp [hlength]
  by_cases hall : topology.members.Pairwise fun a b => topology.fabric.adjacent a b
  · simp [hlength, hall]
  · simp only [if_neg hlength, if_neg hall]
    split_ifs <;> first | rfl | contradiction

/-- The policy of a group of any shape is that of the layout's cables. -/
theorem ncclPolicyOf_eq {policy : NcclPolicy} {reason : String} (h : ncclPolicyOf layout members = .ok (policy, reason)) :
    policy = classify layout.adjacent members := by
  unfold ncclPolicyOf at h
  cases hcheck : checkPositions layout members with
  | error => simp [hcheck, bind, Except.bind] at h
  | ok =>
    simp only [hcheck, bind, Except.bind] at h
    unfold classify positionOf
    have hadjacent : ∀ kind a b, Fabric.adjacent ⟨kind, layout.positions, layout.cables⟩ a b = layout.adjacent a b := fun _ _ _ => rfl
    simp only [hadjacent] at h
    by_cases hlength : members.length < 2
    · simp only [if_pos hlength, ok.injEq, Prod.mk.injEq] at h ⊢
      exact h.1.symm
    by_cases hall : members.Pairwise fun a b => layout.adjacent a b
    · simp only [if_neg hlength, if_pos hall, ok.injEq, Prod.mk.injEq] at h ⊢
      exact h.1.symm
    simp only [if_neg hlength, if_neg hall] at h ⊢
    split_ifs at h with hmissing
    · rw [if_pos (show _ = [] from hmissing)]
      exact (Prod.mk.inj (ok.inj h)).1.symm
    · rw [if_neg (show _ ≠ [] from hmissing)]
      exact (Prod.mk.inj (ok.inj h)).1.symm

/-- Under `all` every two members share a cable. -/
theorem classify_all {adjacent : ℤ → ℤ → Bool} (h : classify adjacent members = .all) :
    members.Pairwise fun a b => adjacent a b = true := by
  unfold classify at h
  split_ifs at h with hlength hall
  · match members, hlength with
    | [], _ => exact List.Pairwise.nil
    | [a], _ => exact List.pairwise_singleton _ a
  · exact hall

/-- Under `ring` consecutive members share cables. -/
theorem classify_ring {adjacent : ℤ → ℤ → Bool} (h : classify adjacent members = .ring) {pair : ℕ × ℕ}
    (hpair : pair ∈ GroupTopology.consecutive members.length) :
    adjacent (positionOf members pair.1) (positionOf members pair.2) = true := by
  unfold classify at h
  split_ifs at h with _ _ hmissing
  have hcabled := (List.filter_eq_nil_iff.mp hmissing) pair hpair
  simpa using hcabled

/-- A group of two is under `ring` only if its members share no cable. -/
theorem classify_ring_length {adjacent : ℤ → ℤ → Bool} (h : classify adjacent members = .ring) : 2 < members.length := by
  by_contra hle
  have hring := h
  unfold classify at h
  split_ifs at h with hlength hall hmissing
  obtain ⟨a, b, rfl⟩ := List.length_eq_two.mp (by omega : members.length = 2)
  have hadjacent := classify_ring hring (show (0, 1) ∈ GroupTopology.consecutive 2 by decide)
  exact hall (List.pairwise_pair.mpr hadjacent)

/-- The cables of an arc are the layout's. -/
theorem Layout.owned_subset (layout : Layout) (arc : List ℤ) : layout.owned arc ⊆ layout.cables := by
  intro cable hcable
  obtain ⟨_, _, hmem⟩ := List.mem_flatMap.mp hcable
  exact List.mem_of_mem_filter hmem

/-- A group's fabric has cables of the layout. -/
theorem groupFabric_subset (h : groupFabric layout members = .ok fabric) : fabric.cables ⊆ layout.cables := by
  have harc : ∀ starts, layout.ofArc members starts = .ok fabric → fabric.cables ⊆ layout.cables := by
    intro starts harc
    unfold Layout.ofArc at harc
    split at harc
    · obtain rfl := ok.inj harc
      exact layout.owned_subset _
    · cases harc
  unfold groupFabric at h
  cases hcheck : checkPositions layout members with
  | error => simp [hcheck, bind, Except.bind] at h
  | ok =>
    simp only [hcheck, bind, Except.bind] at h
    split at h
    · obtain rfl := ok.inj h
      exact List.nil_subset _
    cases layout with
    | pair =>
      obtain rfl := ok.inj h
      exact List.Subset.refl _
    | ring size hsize =>
      dsimp only at h
      split at h
      · obtain rfl := ok.inj h
        exact List.Subset.refl _
      · exact harc _ h
    | path => exact harc _ h

/-- What a group routes over has cables of the layout. -/
theorem scopedFabric_subset (h : scopedFabric layout members parent scope = .ok fabric) : fabric.cables ⊆ layout.cables := by
  unfold scopedFabric at h
  cases hcheck : checkPositions layout members with
  | error => simp [hcheck, bind, Except.bind] at h
  | ok =>
    have hscope : ∀ own result, (scope = .group → result = .ok own) → (scope = .fabric → result = groupFabric layout layout.positions) →
        result = .ok fabric → own.cables ⊆ layout.cables → fabric.cables ⊆ layout.cables := by
      intro own result hgroup hfabric hown hsubset
      cases scope with
      | group => rwa [← ok.inj ((hgroup rfl).symm.trans hown)]
      | fabric => exact groupFabric_subset ((hfabric rfl).symm.trans hown)
    simp only [hcheck, bind, Except.bind] at h
    cases parent with
    | none =>
      cases hgroup : groupFabric layout members with
      | error => simp [hgroup] at h
      | ok own =>
        rw [hgroup] at h
        exact hscope own _ (by rintro rfl; rfl) (by rintro rfl; rfl) h (groupFabric_subset hgroup)
    | some parent =>
      dsimp only at h
      by_cases hinside : members ⊆ parent
      · rw [if_pos hinside] at h
        cases hgroup : groupFabric layout parent with
        | error => simp [hgroup] at h
        | ok own =>
          rw [hgroup] at h
          exact hscope own _ (by rintro rfl; rfl) (by rintro rfl; rfl) h (groupFabric_subset hgroup)
      · simp [if_neg hinside] at h

/-- What a placed group is made of. -/
theorem describeGroup_spec {laneCount maxRelays : ℕ} {topology : GroupTopology}
    (h : describeGroup layout members parent laneCount maxRelays scope = .ok topology) :
    topology.layout = layout ∧ topology.members = members ∧ topology.laneCount = laneCount ∧
      scopedFabric layout members parent scope = .ok topology.fabric := by
  unfold describeGroup at h
  cases hfabric : scopedFabric layout members parent scope with
  | error => simp [hfabric, bind, Except.bind] at h
  | ok =>
    simp only [hfabric, bind, Except.bind] at h
    split at h
    · cases h
    split_ifs at h
    obtain rfl := ok.inj h
    exact ⟨rfl, rfl, rfl, rfl⟩

end SparkRing.GroupFabric
