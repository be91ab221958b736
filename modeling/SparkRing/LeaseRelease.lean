import SparkRing.BlockLease

/-!
# The locked blocks keep the registry consistent

Between locked blocks the owner map lists exactly the blocks of the active leases,
and the sets of requests list exactly the active leases. A lease that is active
can then be released without an error, and what is released leaves the rest alone.
-/

namespace SparkRing.BlockLease

open OrderedDict

variable {φ : Type} {capacity : LeaseCapacity} {r r' : Registry φ} {lease : Lease φ} {id : ℕ} {blocks : List ℤ} {owner : Dict ℤ ℕ}

/-- What one active lease looks like. -/
structure Lease.Sound (lease : Lease φ) : Prop where
  /-- No block is listed twice. -/
  blocks : lease.blockIds.Nodup
  fence : lease.state = .armed ↔ lease.fence.isSome

/-- The registry between two locked blocks. -/
structure Consistent (capacity : LeaseCapacity) (r : Registry φ) : Prop where
  /-- Leases are listed under their numbers, which were given out. -/
  leaseId : ∀ id lease, r.leases.get? id = some lease → lease.leaseId = id ∧ id < r.nextId
  sound : ∀ id lease, r.leases.get? id = some lease → lease.Sound
  /-- The owner map lists exactly the blocks of the active leases. -/
  owner : ∀ block id, r.blockOwner.get? block = some id ↔ ∃ lease, r.leases.get? id = some lease ∧ block ∈ lease.blockIds
  /-- The set of a request lists exactly its active leases. -/
  requests : ∀ requestId id, id ∈ r.leasesOf requestId ↔ ∃ lease, r.leases.get? id = some lease ∧ lease.requestId = requestId
  /-- No set is empty. -/
  nonempty : ∀ requestId ids, r.byRequest.get? requestId = some ids → ids.Nonempty
  activeLeases : r.leases.size ≤ capacity.maxActiveLeases
  leasedBlocks : r.blockOwner.size ≤ capacity.maxLeasedBlocks

/-- Active leases share no block. -/
theorem Consistent.disjoint (h : Consistent capacity r) {i j : ℕ} {x y : Lease φ} {block : ℤ} (hi : r.leases.get? i = some x)
    (hj : r.leases.get? j = some y) (hx : block ∈ x.blockIds) (hy : block ∈ y.blockIds) : i = j := by
  have howner := (h.owner block i).mpr ⟨x, hi, hx⟩
  rw [(h.owner block j).mpr ⟨y, hj, hy⟩] at howner
  exact (Option.some.inj howner).symm

/-- A registry without leases. -/
theorem consistent_init : Consistent capacity ({} : Registry φ) where
  leaseId := fun id lease h => by cases h
  sound := fun id lease h => by cases h
  owner := fun block id => by simp
  requests := fun requestId id => by simp [Registry.leasesOf]
  nonempty := fun requestId ids h => by cases h
  activeLeases := Nat.zero_le _
  leasedBlocks := Nat.zero_le _

/-- The blocks that one lease owns lose their owner, and no other block does. -/
theorem releaseBlocks_ok (hn : blocks.Nodup) (howner : ∀ block ∈ blocks, owner.get? block = some id) :
    ∃ owner', releaseBlocks id owner blocks = .ok owner' ∧ owner'.size ≤ owner.size ∧
      ∀ block, owner'.get? block = if block ∈ blocks then none else owner.get? block := by
  induction blocks generalizing owner with
  | nil => exact ⟨owner, rfl, le_rfl, fun block => by simp⟩
  | cons block blocks ih =>
    rw [List.nodup_cons] at hn
    have hblock := howner block (List.mem_cons_self ..)
    have hrest : ∀ other ∈ blocks, (owner.erase block).get? other = some id := by
      intro other hmem
      have hne : other ≠ block := by
        rintro rfl
        exact hn.1 hmem
      rw [Dict.get?_erase_of_ne hne]
      exact howner other (List.mem_cons_of_mem _ hmem)
    obtain ⟨owner', hok, hsize, hget⟩ := ih hn.2 hrest
    refine ⟨owner', ?_, ?_, fun other => ?_⟩
    · simp only [releaseBlocks, hblock, ne_eq, not_true_eq_false, if_false, hok]
    · have := Dict.size_erase hblock
      omega
    rw [hget other, Dict.get?_erase]
    by_cases heq : other = block
    · simp [heq]
    · simp [heq]

/-- What releases leave. -/
structure Releases (capacity : LeaseCapacity) (r : Registry φ) (gone : ℕ → Prop) (r' : Registry φ) : Prop where
  /-- The registry is consistent again. -/
  consistent : Consistent capacity r'
  /-- No number was given out. -/
  nextId : r'.nextId = r.nextId
  /-- Exactly the released leases are gone. -/
  leases : ∀ id lease, r'.leases.get? id = some lease ↔ ¬gone id ∧ r.leases.get? id = some lease

theorem Releases.refl (h : Consistent capacity r) : Releases capacity r (fun _ => False) r :=
  ⟨h, rfl, fun id lease => by simp⟩

theorem Releases.trans {gone gone' : ℕ → Prop} {r'' : Registry φ} (h : Releases capacity r gone r')
    (h' : Releases capacity r' gone' r'') : Releases capacity r (fun id => gone id ∨ gone' id) r'' where
  consistent := h'.consistent
  nextId := h'.nextId.trans h.nextId
  leases := fun id lease => by
    rw [h'.leases, h.leases, not_or]
    tauto

/-- The same leases released, said otherwise. -/
theorem Releases.congr {gone gone' : ℕ → Prop} (h : Releases capacity r gone r')
    (hsame : ∀ id lease, r.leases.get? id = some lease → (gone id ↔ gone' id)) : Releases capacity r gone' r' := { h with
  leases := fun id lease => by
    rw [h.leases]
    exact and_congr_left fun hget => not_congr (hsame id lease hget) }

section

variable (h : Consistent capacity r)

include h

/-- The set of a request is listed where it is not empty. -/
theorem Consistent.byRequest_get? (hget : r.leases.get? id = some lease) :
    ∃ ids, r.byRequest.get? lease.requestId = some ids ∧ id ∈ ids := by
  have hmem := (h.requests lease.requestId id).mpr ⟨lease, hget, rfl⟩
  unfold Registry.leasesOf at hmem
  cases hids : r.byRequest.get? lease.requestId with
  | none => simp [hids] at hmem
  | some ids => exact ⟨ids, rfl, by simpa [hids] using hmem⟩

/-- An active lease is released without an error, and only it leaves. -/
theorem Consistent.releaseLocked (hget : r.leases.get? id = some lease) :
    ∃ r', r.releaseLocked lease = .ok r' ∧ Releases capacity r (· = id) r' := by
  obtain ⟨rfl, -⟩ := h.leaseId id lease hget
  obtain ⟨ids, hids, hmem⟩ := h.byRequest_get? hget
  obtain ⟨owner, hok, hsize, howner⟩ := releaseBlocks_ok (h.sound _ lease hget).blocks fun block hblock =>
    (h.owner block lease.leaseId).mpr ⟨lease, hget, hblock⟩
  have herase : ∀ j x, (r.leases.erase lease.leaseId).get? j = some x ↔ ¬j = lease.leaseId ∧ r.leases.get? j = some x :=
    fun j x => Dict.get?_erase_eq_some
  have hold : ∀ requestId, requestId = lease.requestId → r.leasesOf requestId = ids := by
    rintro requestId rfl
    simp only [Registry.leasesOf, hids, Option.getD_some]
  let byRequest := if ids.erase lease.leaseId = ∅ then r.byRequest.erase lease.requestId
    else r.byRequest.set lease.requestId (ids.erase lease.leaseId)
  have hbyRequest : ∀ requestId, byRequest.get? requestId =
      if requestId = lease.requestId then if ids.erase lease.leaseId = ∅ then none else some (ids.erase lease.leaseId)
      else r.byRequest.get? requestId := by
    intro requestId
    by_cases hempty : ids.erase lease.leaseId = ∅
    · simp only [byRequest, hempty, if_true, Dict.get?_erase]
    · simp only [byRequest, hempty, if_false, Dict.get?_set]
  refine ⟨{ r with leases := r.leases.erase lease.leaseId, byRequest := byRequest, blockOwner := owner }, ?_, ?_, rfl, herase⟩
  · simp only [Registry.releaseLocked, hget, hids, hmem, not_true_eq_false, if_false, hok, byRequest]
  constructor
  case leaseId => exact fun j x hx => h.leaseId j x ((herase j x).mp hx).2
  case sound => exact fun j x hx => h.sound j x ((herase j x).mp hx).2
  case owner =>
    intro block j
    rw [howner]
    simp only [herase]
    split_ifs with hblock
    · constructor
      · intro hnone
        cases hnone
      · rintro ⟨x, ⟨hne, hx⟩, hxblock⟩
        exact absurd (h.disjoint hx hget hxblock hblock) hne
    rw [h.owner]
    constructor
    · rintro ⟨x, hx, hxblock⟩
      refine ⟨x, ⟨?_, hx⟩, hxblock⟩
      rintro rfl
      rw [hget] at hx
      exact hblock (Option.some.inj hx ▸ hxblock)
    · rintro ⟨x, ⟨-, hx⟩, hxblock⟩
      exact ⟨x, hx, hxblock⟩
  case requests =>
    intro requestId j
    have hlists : j ∈ (byRequest.get? requestId).getD ∅ ↔ j ∈ r.leasesOf requestId ∧ (requestId = lease.requestId → j ≠ lease.leaseId) := by
      rw [hbyRequest]
      by_cases hreq : requestId = lease.requestId
      · rw [if_pos hreq, hold requestId hreq]
        by_cases hempty : ids.erase lease.leaseId = ∅
        · have hnone : ¬(j ∈ ids ∧ j ≠ lease.leaseId) := by
            rintro ⟨hj, hne⟩
            have := Finset.mem_erase.mpr ⟨hne, hj⟩
            rw [hempty] at this
            exact absurd this (Finset.notMem_empty j)
          simp only [hempty, if_true, Option.getD_none, Finset.notMem_empty, hreq, true_imp_iff, hnone]
        · simp only [hempty, if_false, Option.getD_some, Finset.mem_erase, hreq, true_imp_iff]
          exact and_comm
      · simp only [hreq, if_false, false_imp_iff, and_true, Registry.leasesOf]
    refine hlists.trans ?_
    rw [h.requests]
    simp only [herase]
    constructor
    · rintro ⟨⟨x, hx, rfl⟩, hne⟩
      refine ⟨x, ⟨?_, hx⟩, rfl⟩
      rintro rfl
      rw [hget] at hx
      cases hx
      exact hne rfl rfl
    · rintro ⟨x, ⟨hne, hx⟩, hreq⟩
      exact ⟨⟨x, hx, hreq⟩, fun _ => hne⟩
  case nonempty =>
    intro requestId found hfound
    rw [hbyRequest] at hfound
    split at hfound
    · split at hfound
      case isTrue => cases hfound
      case isFalse hempty =>
        rw [Option.some.injEq] at hfound
        exact hfound ▸ Finset.nonempty_iff_ne_empty.mpr hempty
    · exact h.nonempty requestId found hfound
  case activeLeases =>
    have := Dict.size_erase hget
    have := h.activeLeases
    dsimp only
    omega
  case leasedBlocks => exact hsize.trans h.leasedBlocks

/-- Distinct active leases are released one after another without an error. -/
theorem Consistent.releaseEach {leases : List (Lease φ)} (hn : (leases.map Lease.leaseId).Nodup)
    (hget : ∀ lease ∈ leases, r.leases.get? lease.leaseId = some lease) :
    ∃ r', r.releaseEach leases = .ok r' ∧ Releases capacity r (· ∈ leases.map Lease.leaseId) r' := by
  induction leases generalizing r with
  | nil => exact ⟨r, rfl, (Releases.refl h).congr fun id lease _ => by simp⟩
  | cons lease leases ih =>
    rw [List.map_cons, List.nodup_cons] at hn
    obtain ⟨r₁, hok, hrel⟩ := h.releaseLocked (hget lease (List.mem_cons_self ..))
    have hrest : ∀ x ∈ leases, r₁.leases.get? x.leaseId = some x := by
      intro x hx
      refine (hrel.leases x.leaseId x).mpr ⟨fun heq => ?_, hget x (List.mem_cons_of_mem _ hx)⟩
      exact hn.1 (heq ▸ List.mem_map_of_mem hx)
    obtain ⟨r₂, hok₂, hrel₂⟩ := ih hrel.consistent hn.2 hrest
    refine ⟨r₂, ?_, (hrel.trans hrel₂).congr fun id x _ => by rw [List.map_cons, List.mem_cons]⟩
    simp only [Registry.releaseEach, hok, hok₂]

/-- Of any leases, those still active are released without an error. -/
theorem Consistent.releaseActive (released : ℕ) (ids : List ℕ) :
    ∃ r' released', r.releaseActive released ids = .ok (r', released') ∧ Releases capacity r (· ∈ ids) r' := by
  induction ids generalizing r released with
  | nil => exact ⟨r, released, rfl, (Releases.refl h).congr fun id lease _ => by simp⟩
  | cons id ids ih =>
    cases hget : r.leases.get? id with
    | none =>
      obtain ⟨r', released', hok, hrel⟩ := ih h released
      refine ⟨r', released', by simp only [Registry.releaseActive, hget, hok], hrel.congr fun j x hx => ?_⟩
      rw [List.mem_cons, or_iff_right]
      rintro rfl
      rw [hget] at hx
      cases hx
    | some lease =>
      obtain ⟨r₁, hok₁, hrel₁⟩ := h.releaseLocked hget
      obtain ⟨r', released', hok, hrel⟩ := ih hrel₁.consistent (released + 1)
      refine ⟨r', released', by simp only [Registry.releaseActive, hget, hok₁, hok], (hrel₁.trans hrel).congr fun j x _ => ?_⟩
      rw [List.mem_cons]

end

/-- Every block of a new lease is owned by it, and no other owner changes. -/
theorem get?_ownBlocks {block : ℤ} : (ownBlocks id owner blocks).get? block = if block ∈ blocks then some id else owner.get? block := by
  induction blocks generalizing owner with
  | nil => simp [ownBlocks]
  | cons first blocks ih =>
    refine ih.trans ?_
    rw [Dict.get?_set]
    by_cases hfirst : block = first
    · simp [hfirst]
    · simp [hfirst]

theorem size_ownBlocks (hn : blocks.Nodup) (hfree : ∀ block ∈ blocks, block ∉ owner.keys) :
    (ownBlocks id owner blocks).size = owner.size + blocks.length := by
  induction blocks generalizing owner with
  | nil => rfl
  | cons first blocks ih =>
    rw [List.nodup_cons] at hn
    have hnone := Dict.get?_eq_none_iff.mpr (hfree first (List.mem_cons_self ..))
    have hrest : ∀ block ∈ blocks, block ∉ (owner.set first id).keys := by
      intro block hmem hkey
      obtain ⟨a, ha⟩ := Dict.mem_keys_iff.mp hkey
      have hne : block ≠ first := by
        rintro rfl
        exact hn.1 hmem
      rw [Dict.get?_set_of_ne hne] at ha
      exact hfree block (List.mem_cons_of_mem _ hmem) (Dict.mem_keys_iff.mpr ⟨a, ha⟩)
    refine (ih hn.2 hrest).trans ?_
    rw [Dict.size_set_of_none hnone, List.length_cons]
    omega

/-- A new lease enters the registry. -/
structure Reserves (capacity : LeaseCapacity) (r : Registry φ) (lease : Lease φ) (r' : Registry φ) : Prop where
  /-- The registry is consistent again. -/
  consistent : Consistent capacity r'
  /-- One number was given out. -/
  nextId : r'.nextId = r.nextId + 1
  reserved : lease.state = .reserved
  /-- It is the only new one. -/
  leases : ∀ id x, r'.leases.get? id = some x ↔ id = r.nextId ∧ x = lease ∨ r.leases.get? id = some x

theorem nodup_of_card_toFinset (h : blocks.toFinset.card = blocks.length) : blocks.Nodup := by
  exact List.dedup_eq_self.mp ((List.dedup_sublist blocks).eq_of_length h)

/-- A reservation leaves the registry alone or adds one lease. -/
theorem Consistent.tryReserve (h : Consistent capacity r) (requestId : String) (blocks : List ℤ) :
    (r.tryReserve capacity requestId blocks).1 = r ∨ ∃ lease, Reserves capacity r lease (r.tryReserve capacity requestId blocks).1 := by
  unfold Registry.tryReserve
  split_ifs with hrequest hblocks hunique hnegative hactive hleased hoverlap
  case neg =>
    right
    have hnodup := nodup_of_card_toFinset (not_not.mp hunique)
    have hfree : ∀ block ∈ blocks, block ∉ r.blockOwner.keys := by
      intro block hmem hkey
      exact hoverlap (List.any_eq_true.mpr ⟨block, hmem, decide_eq_true hkey⟩)
    have hnew : r.leases.get? r.nextId = none := by
      refine Option.eq_none_iff_forall_ne_some.mpr fun x hx => ?_
      exact Nat.lt_irrefl _ (h.leaseId _ x hx).2
    generalize hlease : ({ leaseId := r.nextId, requestId := requestId, blockIds := blocks } : Lease φ) = lease
    have hid : lease.leaseId = r.nextId := hlease ▸ rfl
    have hreq : lease.requestId = requestId := hlease ▸ rfl
    have hblockIds : lease.blockIds = blocks := hlease ▸ rfl
    have hsound : lease.Sound := ⟨hblockIds ▸ hnodup, by simp [← hlease]⟩
    have hleases : ∀ id x, (r.leases.set r.nextId lease).get? id = some x ↔ id = r.nextId ∧ x = lease ∨ r.leases.get? id = some x := by
      intro id x
      rw [Dict.get?_set]
      by_cases hnext : id = r.nextId
      · subst hnext
        rw [if_pos rfl, hnew]
        simp [eq_comm]
      · simp [hnext]
    have howner : ∀ block, (ownBlocks r.nextId r.blockOwner blocks).get? block =
        if block ∈ blocks then some r.nextId else r.blockOwner.get? block := fun _ => get?_ownBlocks
    refine ⟨lease, ?_, rfl, hlease ▸ rfl, hleases⟩
    constructor
    case leaseId =>
      intro id x hx
      dsimp only at hx ⊢
      rcases (hleases id x).mp hx with ⟨rfl, rfl⟩ | hx
      · exact ⟨hid, Nat.lt_succ_self _⟩
      · obtain ⟨hlisted, hlt⟩ := h.leaseId id x hx
        exact ⟨hlisted, by omega⟩
    case sound =>
      intro id x hx
      rcases (hleases id x).mp hx with ⟨rfl, rfl⟩ | hx
      · exact hsound
      · exact h.sound id x hx
    case owner =>
      intro block id
      rw [howner]
      simp only [hleases]
      split_ifs with hmem
      · rw [Option.some.injEq]
        constructor
        · rintro rfl
          exact ⟨lease, .inl ⟨rfl, rfl⟩, hblockIds ▸ hmem⟩
        rintro ⟨x, ⟨rfl, -⟩ | hx, hxblock⟩
        · rfl
        · exact absurd (Dict.mem_keys_iff.mpr ⟨id, (h.owner block id).mpr ⟨x, hx, hxblock⟩⟩) (hfree block hmem)
      rw [h.owner]
      constructor
      · rintro ⟨x, hx, hxblock⟩
        exact ⟨x, .inr hx, hxblock⟩
      rintro ⟨x, ⟨rfl, rfl⟩ | hx, hxblock⟩
      · exact absurd (hblockIds ▸ hxblock) hmem
      · exact ⟨x, hx, hxblock⟩
    case requests =>
      intro other id
      have hlists : id ∈ ((r.byRequest.set requestId (insert r.nextId (r.leasesOf requestId))).get? other).getD ∅ ↔
          other = requestId ∧ id = r.nextId ∨ id ∈ r.leasesOf other := by
        rw [Dict.get?_set]
        by_cases hother : other = requestId
        · simp [hother]
        · simp [hother, Registry.leasesOf]
      refine hlists.trans ?_
      rw [h.requests]
      simp only [hleases]
      constructor
      · rintro (⟨rfl, rfl⟩ | ⟨x, hx, hother⟩)
        · exact ⟨lease, .inl ⟨rfl, rfl⟩, hreq⟩
        · exact ⟨x, .inr hx, hother⟩
      rintro ⟨x, ⟨rfl, rfl⟩ | hx, hother⟩
      · exact .inl ⟨hother.symm.trans hreq, rfl⟩
      · exact .inr ⟨x, hx, hother⟩
    case nonempty =>
      intro other ids hids
      rw [Dict.get?_set] at hids
      split_ifs at hids with hother
      · rw [Option.some.injEq] at hids
        exact hids ▸ Finset.insert_nonempty _ _
      · exact h.nonempty other ids hids
    case activeLeases =>
      rw [Dict.size_set_of_none hnew]
      omega
    case leasedBlocks =>
      rw [size_ownBlocks hnodup hfree]
      omega
  all_goals exact .inl rfl

/-- An active lease with a fence exactly where it is armed leaves the rest of the registry as it is. -/
theorem Consistent.mark {state : LeaseState} {fence : Option φ} (h : Consistent capacity r) (hget : r.leases.get? id = some lease)
    (hfence : state = .armed ↔ fence.isSome) : Consistent capacity (r.mark lease state fence) := by
  obtain ⟨rfl, hlt⟩ := h.leaseId id lease hget
  -- leases change neither their request nor their blocks
  have hleases : ∀ j x, (r.mark lease state fence).leases.get? j = some x ↔
      j = lease.leaseId ∧ x = { lease with state := state, fence := fence } ∨ j ≠ lease.leaseId ∧ r.leases.get? j = some x := by
    intro j x
    rw [Registry.mark, Dict.get?_set]
    by_cases hj : j = lease.leaseId
    · simp [hj, eq_comm]
    · simp [hj]
  have hsame : ∀ (P : String → List ℤ → Prop) j, (∃ x, (r.mark lease state fence).leases.get? j = some x ∧ P x.requestId x.blockIds) ↔
      ∃ x, r.leases.get? j = some x ∧ P x.requestId x.blockIds := by
    intro P j
    simp only [hleases]
    by_cases hj : j = lease.leaseId
    · subst hj
      simp [hget]
    · simp [hj]
  constructor
  case leaseId =>
    intro j x hx
    rcases (hleases j x).mp hx with ⟨rfl, rfl⟩ | ⟨-, hx⟩
    · exact ⟨rfl, hlt⟩
    · exact h.leaseId j x hx
  case sound =>
    intro j x hx
    rcases (hleases j x).mp hx with ⟨rfl, rfl⟩ | ⟨-, hx⟩
    · exact ⟨(h.sound _ lease hget).blocks, hfence⟩
    · exact h.sound j x hx
  case owner => exact fun block j => (h.owner block j).trans (hsame (fun _ blocks => block ∈ blocks) j).symm
  case requests => exact fun requestId j => (h.requests requestId j).trans (hsame (fun request _ => request = requestId) j).symm
  case nonempty => exact h.nonempty
  case activeLeases => exact (Dict.size_set_of_some hget).trans_le h.activeLeases
  case leasedBlocks => exact h.leasedBlocks

end SparkRing.BlockLease
