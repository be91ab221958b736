import SparkRing.LeaseRelease

/-!
# Leased blocks are not released under a running read

What one step can do to the leases is said once. What a thread read under the lock
stays true of the leases that are still active, so the release at the end of a poll
or an abort meets only leases whose own fence answered, whichever operations of
other threads ran in between. A submitter that is interrupted leaves its lease
between reserved and armed, and an abort with `wait` then returns beside it.
-/

namespace SparkRing.BlockLease

open OrderedDict

variable {φ : Type} {capacity : LeaseCapacity} {quiet : Prop} {r r' : Registry φ} {answered answered' : List (ℕ × φ)}
  {s : State φ} {t id : ℕ} {lease x y : Lease φ} {state : LeaseState} {fence : Option φ} {what : Returned}

/-- What a step can do to the leases. In a quiet run no submission is interrupted. -/
structure Evolves (quiet : Prop) (answered : List (ℕ × φ)) (r r' : Registry φ) : Prop where
  /-- Numbers are not given out again. -/
  nextId : r.nextId ≤ r'.nextId
  /-- A lease of a known number was active before, and changes only from reserved. -/
  kept : ∀ id x, r'.leases.get? id = some x → id < r.nextId →
    ∃ y, r.leases.get? id = some y ∧ x.requestId = y.requestId ∧ (y.state ≠ .reserved → x = y)
  fresh : ∀ id x, r'.leases.get? id = some x → r.nextId ≤ id → x.state = .reserved
  /-- A lease leaves before its submission or after its fence answered. -/
  left : ∀ id y, r.leases.get? id = some y → r'.leases.get? id = none →
    y.state = .reserved ∨ ∃ event, y.fence = some event ∧ (id, event) ∈ answered
  /-- In a quiet run no lease stays in its submission. -/
  settled : quiet → ∀ id x, r'.leases.get? id = some x → x.state = .submitting → r.leases.get? id = some x

theorem Releases.evolves {gone : ℕ → Prop} (h : Releases capacity r gone r')
    (hgone : ∀ id y, r.leases.get? id = some y → gone id → y.state = .reserved ∨ ∃ event, y.fence = some event ∧ (id, event) ∈ answered) :
    Evolves quiet answered r r' where
  nextId := h.nextId.ge
  kept := fun id x hx _ => ⟨x, ((h.leases id x).mp hx).2, rfl, fun _ => rfl⟩
  fresh := fun id x hx hge => absurd (h.consistent.leaseId id x hx).2 (by
    rw [h.nextId]
    omega)
  left := fun id y hy hnone => by
    refine hgone id y hy ?_
    by_contra hstays
    rw [(h.leases id y).mpr ⟨hstays, hy⟩] at hnone
    cases hnone
  settled := fun _ id x hx _ => ((h.leases id x).mp hx).2

theorem Reserves.evolves (h : Reserves capacity r lease r') : Evolves quiet answered r r' where
  nextId := by
    rw [h.nextId]
    omega
  kept := fun id x hx hlt => by
    rcases (h.leases id x).mp hx with ⟨rfl, -⟩ | hold
    · exact absurd hlt (Nat.lt_irrefl _)
    · exact ⟨x, hold, rfl, fun _ => rfl⟩
  fresh := fun id x hx hge => by
    rcases (h.leases id x).mp hx with ⟨-, rfl⟩ | hold
    · exact h.reserved
    obtain ⟨y, hy⟩ : ∃ y, r'.leases.get? r.nextId = some y := ⟨lease, (h.leases _ _).mpr (.inl ⟨rfl, rfl⟩)⟩
    have hlt := (h.consistent.leaseId id x hx).2
    rw [h.nextId] at hlt
    obtain rfl : id = r.nextId := by omega
    have hnew := (h.leases r.nextId lease).mpr (.inl ⟨rfl, rfl⟩)
    rw [hx] at hnew
    exact (Option.some.inj hnew) ▸ h.reserved
  left := fun id y hy hnone => by
    rw [(h.leases id y).mpr (.inr hy)] at hnone
    cases hnone
  settled := fun _ id x hx hstate => by
    rcases (h.leases id x).mp hx with ⟨-, rfl⟩ | hold
    · rw [h.reserved] at hstate
      cases hstate
    · exact hold

/-- A lookup after a lease changed its state. -/
theorem get?_mark {j : ℕ} : (r.mark lease state fence).leases.get? j =
    if j = lease.leaseId then some { lease with state := state, fence := fence } else r.leases.get? j := Dict.get?_set

/-- A reserved lease enters its submission. -/
theorem evolves_mark (h : Consistent capacity r) (hget : r.leases.get? id = some lease)
    (hreserved : lease.state = .reserved) (hquiet : quiet → state ≠ .submitting) : Evolves quiet answered r (r.mark lease state fence) := by
  obtain ⟨rfl, hlt⟩ := h.leaseId id lease hget
  constructor
  case nextId => exact le_rfl
  case kept =>
    intro j x hx hj
    rw [get?_mark] at hx
    split_ifs at hx with heq
    · cases hx
      exact ⟨lease, heq ▸ hget, rfl, fun hne => absurd hreserved hne⟩
    · exact ⟨x, hx, rfl, fun _ => rfl⟩
  case fresh =>
    intro j x hx hge
    rw [get?_mark] at hx
    by_cases heq : j = lease.leaseId
    · omega
    · rw [if_neg heq] at hx
      exact absurd (h.leaseId j x hx).2 (Nat.not_lt.mpr hge)
  case left =>
    intro j y hy hnone
    rw [get?_mark] at hnone
    split at hnone
    · cases hnone
    · rw [hy] at hnone
      cases hnone
  case settled =>
    intro hq j x hx hstate
    rw [get?_mark] at hx
    split_ifs at hx with heq
    · cases hx
      exact absurd hstate (hquiet hq)
    · exact hx

/-- A lease that was read armed. -/
structure Snapshot (r : Registry φ) (lease : Lease φ) : Prop where
  armed : lease.state = .armed
  fence : lease.fence.isSome
  /-- Its number was given out. -/
  known : lease.leaseId < r.nextId
  /-- It is active as it was read, or it left. -/
  same : ∀ x, r.leases.get? lease.leaseId = some x → x = lease

/-- A lease whose own fence answered, or that left. -/
def Drained (r : Registry φ) (answered : List (ℕ × φ)) (id : ℕ) : Prop :=
  id < r.nextId ∧ ∀ x, r.leases.get? id = some x →
    x.state = .armed ∧ ∃ event, x.fence = some event ∧ (id, event) ∈ answered

/-- The leases a request had: each is among the armed ones, or in its submission, or left. -/
def Aborts (r : Registry φ) (start : List ℕ) (armed : List (Lease φ)) : Prop :=
  ∀ id ∈ start, id < r.nextId ∧ ∀ x, r.leases.get? id = some x →
    x.state = .armed ∧ id ∈ armed.map Lease.leaseId ∨ x.state = .submitting

/-- What a call in progress may rely on. -/
def Thread.Sound (r : Registry φ) (answered : List (ℕ × φ)) : Thread φ → Prop
  | .idle => True
  | .polling todo completed call =>
    (∀ x ∈ todo, Snapshot r x) ∧ (∀ id ∈ completed, Drained r answered id) ∧
      match call with
      | .poll => True
      | .takeFinished _ since => since ≤ r.nextId
  | .taking _ since => since ≤ r.nextId
  | .querying todo done _ => (∀ x ∈ todo, Snapshot r x) ∧ ∀ x ∈ done, Drained r answered x.leaseId
  | .synchronizing todo armed _ start _ =>
    (∀ x ∈ todo, Snapshot r x) ∧ (∀ x ∈ armed, x ∈ todo ∨ Drained r answered x.leaseId) ∧ Aborts r start armed
  | .abortingAll _ _ => True

/-- What a return promised. -/
def Returned.Sound (r : Registry φ) : Returned → Prop
  | .took since ready => since ≤ r.nextId ∧ ∀ id x, r.leases.get? id = some x → id < since → x.requestId ∉ ready
  | .aborted start _ => ∀ id ∈ start, id < r.nextId ∧ ∀ x, r.leases.get? id = some x → x.state = .submitting
  | _ => True

/-- A submission: its lease is active with the published fence, or it left after that fence
answered. -/
def Submitted (r : Registry φ) (answered : List (ℕ × φ)) (made : ℕ × Option φ) : Prop :=
  made.1 < r.nextId ∧ (∀ x, r.leases.get? made.1 = some x → x.state ≠ .reserved ∧ x.fence = made.2) ∧
    (r.leases.get? made.1 = none → ∃ event, made.2 = some event ∧ (made.1, event) ∈ answered)

/-- A fact of the leases that are past their reservation stays true of those still active. -/
theorem Evolves.stable {P : Lease φ → Prop} (h : Evolves quiet answered r r') (hlt : id < r.nextId)
    (hP : ∀ x, r.leases.get? id = some x → P x) (hpast : ∀ x, P x → x.state ≠ .reserved) :
    id < r'.nextId ∧ ∀ x, r'.leases.get? id = some x → P x := by
  refine ⟨hlt.trans_le h.nextId, fun x hx => ?_⟩
  obtain ⟨y, hy, -, hsame⟩ := h.kept id x hx hlt
  rw [hsame (hpast y (hP y hy))]
  exact hP y hy

theorem not_reserved_of_armed (h : x.state = .armed) : x.state ≠ .reserved := by
  rw [h]
  exact nofun

section

variable (h : Evolves quiet answered r r')

include h

theorem Evolves.snapshot (hx : Snapshot r x) : Snapshot r' x := by
  obtain ⟨hknown, hsame⟩ := h.stable hx.known hx.same fun _ heq => heq ▸ not_reserved_of_armed hx.armed
  exact ⟨hx.armed, hx.fence, hknown, hsame⟩

theorem Evolves.drained (hid : Drained r answered id) : Drained r' answered id :=
  h.stable hid.1 hid.2 fun _ hP => not_reserved_of_armed hP.1

theorem Evolves.aborts {start : List ℕ} {armed : List (Lease φ)} (ha : Aborts r start armed) : Aborts r' start armed := by
  intro id hid
  refine h.stable (ha id hid).1 (ha id hid).2 fun x hP => ?_
  rcases hP with hP | hP
  · exact not_reserved_of_armed hP.1
  · rw [hP]
    exact nofun

/-- What a call relies on survives every step of another thread. -/
theorem Evolves.thread {thread : Thread φ} (ht : thread.Sound r answered) : thread.Sound r' answered := by
  cases thread with
  | idle | abortingAll => trivial
  | taking => exact Nat.le_trans ht h.nextId
  | polling todo completed call =>
    refine ⟨fun x hx => h.snapshot (ht.1 x hx), fun id hid => h.drained (ht.2.1 id hid), ?_⟩
    cases call with
    | poll => trivial
    | takeFinished => exact Nat.le_trans ht.2.2 h.nextId
  | querying =>
    exact ⟨fun x hx => h.snapshot (ht.1 x hx), fun x hx => h.drained (ht.2 x hx)⟩
  | synchronizing =>
    exact ⟨fun x hx => h.snapshot (ht.1 x hx), fun x hx => (ht.2.1 x hx).imp id h.drained, h.aborts ht.2.2⟩

/-- What a return promised stays so. -/
theorem Evolves.returned (hw : what.Sound r) : what.Sound r' := by
  cases what with
  | polled | deferred | abortedAll => trivial
  | took =>
    refine ⟨hw.1.trans h.nextId, fun id x hx hlt => ?_⟩
    obtain ⟨y, hy, hreq, -⟩ := h.kept id x hx (hlt.trans_le hw.1)
    rw [hreq]
    exact hw.2 id y hy hlt
  | aborted =>
    intro id hid
    refine h.stable (hw id hid).1 (hw id hid).2 fun x hP => ?_
    rw [hP]
    exact nofun

/-- A lease whose submission was made leaves only after its fence answered. -/
theorem Evolves.submitted {made : ℕ × Option φ} (hm : Submitted r answered made) : Submitted r' answered made := by
  obtain ⟨hlt, hactive, hgone⟩ := hm
  have hstable := h.stable hlt hactive fun x hP => hP.1
  refine ⟨hstable.1, hstable.2, fun hnone => ?_⟩
  cases hget : r.leases.get? made.1 with
  | none => exact hgone hget
  | some y =>
    obtain ⟨hpast, hfence⟩ := hactive y hget
    rcases h.left made.1 y hget hnone with hreserved | ⟨event, hevent, hmem⟩
    · exact absurd hreserved hpast
    · exact ⟨event, hfence.symm.trans hevent, hmem⟩

end

/-- More answers serve as well. -/
theorem Drained.mono (h : Drained r answered id) (hsub : answered ⊆ answered') : Drained r answered' id := by
  refine ⟨h.1, fun x hx => ?_⟩
  obtain ⟨harmed, event, hfence, hmem⟩ := h.2 x hx
  exact ⟨harmed, event, hfence, hsub hmem⟩

theorem Thread.Sound.mono {thread : Thread φ} (h : thread.Sound r answered) (hsub : answered ⊆ answered') : thread.Sound r answered' := by
  cases thread with
  | idle | abortingAll => trivial
  | taking => exact h
  | polling => exact ⟨h.1, fun id hid => (h.2.1 id hid).mono hsub, h.2.2⟩
  | querying => exact ⟨h.1, fun x hx => (h.2 x hx).mono hsub⟩
  | synchronizing => exact ⟨h.1, fun x hx => (h.2.1 x hx).imp id fun hd => hd.mono hsub, h.2.2⟩

/-- What holds between two steps. In a quiet run no lease is left in its submission. -/
structure Inv (capacity : LeaseCapacity) (quiet : Prop) (s : State φ) : Prop where
  consistent : Consistent capacity s.registry
  /-- Every call may rely on what it read. -/
  threads : ∀ t, (s.threads t).Sound s.registry s.answered
  /-- Every submission is accounted for. -/
  submitted : ∀ made ∈ s.submitted, Submitted s.registry s.answered made
  /-- Every return kept its promise. -/
  returned : ∀ what ∈ s.returned, what.Sound s.registry
  /-- No error inside the registry happened. -/
  faults : s.faults = []
  /-- In a quiet run no lease is in its submission. -/
  settled : quiet → ∀ id x, s.registry.leases.get? id = some x → x.state ≠ .submitting

theorem inv_init : Inv capacity quiet ({} : State φ) where
  consistent := consistent_init
  threads := fun _ => trivial
  submitted := fun _ h => by cases h
  returned := fun _ h => by cases h
  faults := rfl
  settled := fun _ id x h => by cases h

section

variable (h : Inv capacity quiet s)

include h

theorem Inv.goto {thread : Thread φ} (ht : thread.Sound s.registry s.answered) : Inv capacity quiet (s.goto t thread) := { h with
  threads := fun i => by
    by_cases hi : i = t
    · simp only [State.goto, hi, Function.update_self, ht]
    · simp only [State.goto, Function.update_of_ne hi, h.threads i] }

theorem Inv.commit (hc : Consistent capacity r) (he : Evolves quiet s.answered s.registry r) : Inv capacity quiet (s.commit r) := { h with
  consistent := hc
  threads := fun i => he.thread (h.threads i)
  submitted := fun made hm => he.submitted (h.submitted made hm)
  returned := fun what hw => he.returned (h.returned what hw)
  settled := fun hq id x hx hstate => h.settled hq id x (he.settled hq id x hx hstate) hstate }

theorem Inv.answer {event : φ} : Inv capacity quiet (s.answer id event) := { h with
  threads := fun i => (h.threads i).mono (List.subset_cons_self _ _)
  submitted := fun made hm => by
    obtain ⟨hlt, hactive, hgone⟩ := h.submitted made hm
    refine ⟨hlt, hactive, fun hnone => ?_⟩
    obtain ⟨event, hevent, hmem⟩ := hgone hnone
    exact ⟨event, hevent, List.mem_cons_of_mem _ hmem⟩ }

theorem Inv.return (hw : what.Sound s.registry) : Inv capacity quiet (s.return what) := { h with
  returned := fun other ho => by
    rcases List.mem_cons.mp ho with rfl | ho
    · exact hw
    · exact h.returned other ho }

theorem Inv.submission {made : Option (ℕ × Option φ)}
    (hm : ∀ one, made = some one → Submitted s.registry s.answered one) : Inv capacity quiet (s.submission made) := { h with
  submitted := fun one hone => by
    rcases List.mem_append.mp hone with hnew | hold
    · exact hm one (Option.mem_toList.mp hnew)
    · exact h.submitted one hold }

end

end SparkRing.BlockLease
