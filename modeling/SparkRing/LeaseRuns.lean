import SparkRing.LeaseSafety

/-!
# Runs of the lease registry

Every step of every thread keeps the invariant, so in every run the leases are
disjoint and accounted for, and no release happens before its own fence answered.
What an abort with `wait` promises holds in the runs without an interrupted
submission, and a run with one shows it lost.
-/

namespace SparkRing.BlockLease

open OrderedDict TransitionSystem
open List (mem_cons_self mem_filter mem_map)
open Option (some.inj some.injEq)

variable {φ : Type} {capacity : LeaseCapacity} {quiet : Prop} {r r' : Registry φ} {s s' : State φ} {t : ℕ}
  {lease x : Lease φ} {order : List ℕ}

/-- A submission keeps the invariant. -/
theorem Inv.submit {leaseId : ℕ} {submitter : Submitter φ} (h : Inv capacity quiet s) (hquiet : quiet → submitter ≠ .interrupts) :
    Inv capacity quiet ((s.commit (s.registry.submit leaseId submitter).1).submission (s.registry.submission leaseId submitter)) := by
  have hnothing : Inv capacity quiet ((s.commit s.registry).submission none) := h.submission fun one hone => by cases hone
  cases hget : s.registry.leases.get? leaseId with
  | none =>
    have hmade : s.registry.submission leaseId submitter = none := by simp only [Registry.submission, hget]
    cases submitter <;> simpa only [hmade, Registry.submit, hget] using hnothing
  | some lease =>
    by_cases hreserved : lease.state = .reserved
    · obtain ⟨rfl, hlt⟩ := h.consistent.leaseId leaseId lease hget
      -- the lease is marked, and its submission is the new entry
      have hmark : ∀ (state : LeaseState) (fence : Option φ), (state = .armed ↔ fence.isSome) → state ≠ .reserved →
          (quiet → state ≠ .submitting) →
          Inv capacity quiet ((s.commit (s.registry.mark lease state fence)).submission (some (lease.leaseId, fence))) := by
        intro state fence hfence hpast hq
        refine (h.commit (h.consistent.mark hget hfence) (evolves_mark h.consistent hget hreserved hq)).submission ?_
        rintro one hone
        cases hone
        refine ⟨hlt, fun x hx => ?_, fun hnone => ?_⟩
        · simp only [State.commit, get?_mark, if_true, some.injEq] at hx
          exact ⟨hx ▸ hpast, hx ▸ rfl⟩
        · simp only [State.commit, get?_mark, if_true] at hnone
          cases hnone
      cases submitter with
      | uncallable => simpa only [Registry.submission, Registry.submit, hget, hreserved, ne_eq, not_true_eq_false, if_false] using hnothing
      | fence event =>
        simpa only [Registry.submission, Registry.submit, hget, hreserved, ne_eq, not_true_eq_false, if_false] using
          hmark .armed (some event) (by simp) nofun fun _ => nofun
      | other | raises =>
        simpa only [Registry.submission, Registry.submit, hget, hreserved, ne_eq, not_true_eq_false, if_false] using
          hmark .submissionUnknown none (by simp) nofun fun _ => nofun
      | interrupts =>
        simpa only [Registry.submission, Registry.submit, hget, hreserved, ne_eq, not_true_eq_false, if_false] using
          hmark .submitting none (by simp) nofun fun hq => absurd rfl (hquiet hq)
    · have hmade : s.registry.submission leaseId submitter = none := by
        simp only [Registry.submission, hget, ne_eq, hreserved, not_false_eq_true, if_true]
      cases submitter <;> simpa only [hmade, Registry.submit, hget, ne_eq, hreserved, not_false_eq_true, if_true] using hnothing

/-- A cancellation meets no error and keeps the invariant. -/
theorem Inv.cancelBeforeSubmit (h : Inv capacity quiet s) (leaseId : ℕ) :
    ∃ r result, s.registry.cancelBeforeSubmit leaseId = .ok (r, result) ∧ Inv capacity quiet (s.commit r) := by
  cases hget : s.registry.leases.get? leaseId with
  | none =>
    refine ⟨s.registry, .error (.leaseStateError "lease is no longer active"), ?_, h⟩
    simp only [Registry.cancelBeforeSubmit, hget]
  | some lease =>
    by_cases hreserved : lease.state = .reserved
    · obtain ⟨r, hok, hrel⟩ := h.consistent.releaseLocked hget
      refine ⟨r, .ok (), ?_, h.commit hrel.consistent (hrel.evolves fun id y hy hid => .inl ?_)⟩
      · simp only [Registry.cancelBeforeSubmit, hget, hreserved, ne_eq, not_true_eq_false, if_false, hok]
      subst hid
      rw [hget] at hy
      exact some.inj hy ▸ hreserved
    · refine ⟨s.registry, .error (.leaseStateError "a submitted lease must be drained, never cancelled"), ?_, h⟩
      simp only [Registry.cancelBeforeSubmit, hget, ne_eq, hreserved, not_false_eq_true, if_true]

/-- Leases whose fences answered are released without an error. -/
theorem Inv.releaseActive {ids : List ℕ} (h : Inv capacity quiet s) (hdrained : ∀ id ∈ ids, Drained s.registry s.answered id)
    (released : ℕ) : ∃ r released', s.registry.releaseActive released ids = .ok (r, released') ∧
      Releases capacity s.registry (· ∈ ids) r ∧ Inv capacity quiet (s.commit r) := by
  obtain ⟨r, released', hok, hrel⟩ := h.consistent.releaseActive released ids
  exact ⟨r, released', hok, hrel, h.commit hrel.consistent (hrel.evolves fun id y hy hid => .inr ((hdrained id hid).2 y hy).2)⟩

/-- What a poll reads is armed. -/
theorem Consistent.armed (h : Consistent capacity r) (hx : x ∈ r.armed) : Snapshot r x := by
  obtain ⟨hmem, hstate⟩ := mem_filter.mp hx
  obtain ⟨id, hget⟩ := Dict.mem_values_iff.mp hmem
  obtain ⟨rfl, hlt⟩ := h.leaseId id x hget
  have harmed := of_decide_eq_true hstate
  refine ⟨harmed, (h.sound _ x hget).fence.mp harmed, hlt, fun y hy => ?_⟩
  rw [hget] at hy
  exact (some.inj hy).symm

/-- The leases of a request are read without an error. -/
theorem Consistent.abortLeases (h : Consistent capacity r) (hactive : ∀ id ∈ order, ∃ x, r.leases.get? id = some x) :
    ∃ leases, r.abortLeases order = .ok leases ∧ leases.map Lease.leaseId = order ∧ ∀ x ∈ leases, r.leases.get? x.leaseId = some x := by
  induction order with
  | nil => exact ⟨[], rfl, rfl, fun x hx => by cases hx⟩
  | cons id order ih =>
    obtain ⟨lease, hget⟩ := hactive id (mem_cons_self ..)
    obtain ⟨rfl, -⟩ := h.leaseId id lease hget
    obtain ⟨leases, hok, hids, hleases⟩ := ih fun j hj => hactive j (List.mem_cons_of_mem _ hj)
    refine ⟨lease :: leases, by simp only [Registry.abortLeases, hget, hok], by rw [List.map_cons, hids], ?_⟩
    intro x hx
    rcases List.mem_cons.mp hx with rfl | hx
    · exact hget
    · exact hleases x hx

/-- The locked start of an abort keeps the invariant, where the abort may go on from what
it read. -/
theorem Inv.abort {requestId : String} {next : List (Lease φ) → ℕ → Thread φ} (h : Inv capacity quiet s)
    (hstep : s.abort t requestId order next = some s')
    (hnext : ∀ r armed released, (∀ x ∈ armed, Snapshot r x) → Aborts r order armed → (next armed released).Sound r s.answered) :
    Inv capacity quiet s' := by
  unfold State.abort at hstep
  obtain ⟨horder, hstep⟩ := Option.ite_none_right_eq_some.mp hstep
  have hactive : ∀ id ∈ order, ∃ x, s.registry.leases.get? id = some x := by
    intro id hid
    rw [← List.mem_toFinset, horder.2, h.consistent.requests] at hid
    exact hid.imp fun _ hx => hx.1
  obtain ⟨leases, hread, hids, hleases⟩ := h.consistent.abortLeases hactive
  have hsub : (inState .reserved leases).map Lease.leaseId |>.Nodup := by
    refine List.Nodup.sublist (List.filter_sublist.map Lease.leaseId) ?_
    rw [hids]
    exact horder.1
  obtain ⟨r, hrelease, hrel⟩ := h.consistent.releaseEach hsub fun x hx => hleases x (List.mem_of_mem_filter hx)
  rw [hread] at hstep
  dsimp only at hstep
  rw [hrelease] at hstep
  dsimp only at hstep
  have hcommit : Inv capacity quiet (s.commit r) := by
    refine h.commit hrel.consistent (hrel.evolves fun id y hy hid => .inl ?_)
    obtain ⟨x, hx, rfl⟩ := mem_map.mp hid
    rw [hleases x (List.mem_of_mem_filter hx)] at hy
    exact some.inj hy ▸ of_decide_eq_true (mem_filter.mp hx).2
  split at hstep
  case isFalse =>
    cases hstep
    exact hcommit.goto trivial
  case isTrue hunknown =>
    cases hstep
    refine hcommit.goto (hnext r _ _ (fun x hx => ?_) fun id hid => ?_)
    · have hget := hleases x (List.mem_of_mem_filter hx)
      have harmed := of_decide_eq_true (mem_filter.mp hx).2
      refine ⟨harmed, (h.consistent.sound _ x hget).fence.mp harmed, hrel.nextId ▸ (h.consistent.leaseId _ x hget).2, fun y hy => ?_⟩
      rw [((hrel.leases _ y).mp hy).2] at hget
      exact some.inj hget
    obtain ⟨x, hx, rfl⟩ := mem_map.mp (hids ▸ hid)
    have hget := hleases x hx
    refine ⟨hrel.nextId ▸ (h.consistent.leaseId _ x hget).2, fun y hy => ?_⟩
    obtain ⟨hstays, hy⟩ := (hrel.leases _ y).mp hy
    rw [hget] at hy
    cases hy
    -- the lease is neither reserved nor unknown
    cases hstate : x.state with
    | reserved => exact absurd (List.mem_map_of_mem (mem_filter.mpr ⟨hx, decide_eq_true hstate⟩)) hstays
    | submitting => exact .inr rfl
    | armed => exact .inl ⟨rfl, List.mem_map_of_mem (mem_filter.mpr ⟨hx, decide_eq_true hstate⟩)⟩
    | submissionUnknown =>
      have hmem : x ∈ inState .submissionUnknown leases := mem_filter.mpr ⟨hx, decide_eq_true hstate⟩
      rw [hunknown] at hmem
      cases hmem

theorem Snapshot.drained {answered : List (ℕ × φ)} {event : φ} (h : Snapshot r x) (hevent : x.fence = some event)
    (hmem : (x.leaseId, event) ∈ answered) : Drained r answered x.leaseId := by
  refine ⟨h.known, fun y hy => ?_⟩
  rw [h.same y hy]
  exact ⟨h.armed, event, hevent, hmem⟩

/-- The next lease to ask has a fence. -/
theorem asked {lease : Lease φ} {todo : List (Lease φ)} (h : ∀ x ∈ lease :: todo, Snapshot r x) :
    Snapshot r lease ∧ (∀ x ∈ todo, Snapshot r x) ∧ ∃ event, lease.fence = some event := by
  obtain ⟨hlease, hrest⟩ := List.forall_mem_cons.mp h
  exact ⟨hlease, hrest, Option.isSome_iff_exists.mp hlease.fence⟩

/-- A fence is asked: no assertion fails, and the call may go on. -/
theorem Inv.ask {answer : Answer} (h : Inv capacity quiet s) (hstep : step capacity s (t, .ask answer) = some s') :
    Inv capacity quiet s' := by
  have hthread := h.threads t
  cases hat : s.threads t with
  | idle | taking | abortingAll => simp [step, hat] at hstep
  | polling todo completed call =>
    rw [hat] at hthread
    cases todo with
    | nil => simp [step, hat] at hstep
    | cons lease todo =>
      obtain ⟨htodo, hcompleted, hcall⟩ := hthread
      obtain ⟨hlease, hrest, event, hevent⟩ := asked htodo
      cases answer with
      | raises =>
        simp only [step, hat, hevent, some.injEq] at hstep
        exact hstep ▸ h.goto trivial
      | pending =>
        simp only [step, hat, hevent, some.injEq] at hstep
        exact hstep ▸ h.goto ⟨hrest, hcompleted, hcall⟩
      | done =>
        simp only [step, hat, hevent, some.injEq] at hstep
        have hanswered : Inv capacity quiet (s.answer lease.leaseId event) := h.answer
        refine hstep ▸ hanswered.goto ⟨hrest, fun id hid => ?_, hcall⟩
        rcases List.mem_append.mp hid with hold | hnew
        · exact (hcompleted id hold).mono (List.subset_cons_self _ _)
        · rw [List.mem_singleton.mp hnew]
          exact hlease.drained hevent (mem_cons_self ..)
  | querying todo done released =>
    rw [hat] at hthread
    cases todo with
    | nil => simp [step, hat] at hstep
    | cons lease todo =>
      obtain ⟨htodo, hdone⟩ := hthread
      obtain ⟨hlease, hrest, event, hevent⟩ := asked htodo
      cases answer with
      | raises =>
        simp only [step, hat, hevent, some.injEq] at hstep
        exact hstep ▸ h.goto trivial
      | pending =>
        simp only [step, hat, hevent, some.injEq] at hstep
        exact hstep ▸ h.goto ⟨hrest, hdone⟩
      | done =>
        simp only [step, hat, hevent, some.injEq] at hstep
        have hanswered : Inv capacity quiet (s.answer lease.leaseId event) := h.answer
        refine hstep ▸ hanswered.goto ⟨hrest, fun x hx => ?_⟩
        rcases List.mem_append.mp hx with hold | hnew
        · exact (hdone x hold).mono (List.subset_cons_self _ _)
        · rw [List.mem_singleton.mp hnew]
          exact hlease.drained hevent (mem_cons_self ..)
  | synchronizing todo armed released start call =>
    rw [hat] at hthread
    cases todo with
    | nil => simp [step, hat] at hstep
    | cons lease todo =>
      obtain ⟨htodo, harmed, hstart⟩ := hthread
      obtain ⟨hlease, hrest, event, hevent⟩ := asked htodo
      cases answer with
      | raises =>
        simp only [step, hat, hevent, some.injEq] at hstep
        exact hstep ▸ h.goto trivial
      | pending => simp [step, hat, hevent] at hstep
      | done =>
        simp only [step, hat, hevent, some.injEq] at hstep
        have hanswered : Inv capacity quiet (s.answer lease.leaseId event) := h.answer
        refine hstep ▸ hanswered.goto ⟨hrest, fun x hx => ?_, hstart⟩
        rcases harmed x hx with hwaiting | hdrained
        · rcases List.mem_cons.mp hwaiting with rfl | hwaiting
          · exact .inr (hlease.drained hevent (mem_cons_self ..))
          · exact .inl hwaiting
        · exact .inr (hdrained.mono (List.subset_cons_self _ _))

/-- What is active after the leases of a finished abort were released is in its submission. -/
theorem Aborts.released {start : List ℕ} {armed : List (Lease φ)} (h : Aborts r start armed)
    (hrel : Releases capacity r (· ∈ armed.map Lease.leaseId) r') {released : ℕ} : (Returned.aborted start released).Sound r' := by
  intro id hid
  obtain ⟨hlt, hactive⟩ := h id hid
  refine ⟨hrel.nextId ▸ hlt, fun x hx => ?_⟩
  obtain ⟨hstays, hx⟩ := (hrel.leases id x).mp hx
  rcases hactive x hx with ⟨-, hmem⟩ | hstate
  · exact absurd hmem hstays
  · exact hstate

/-- The end of a call keeps the invariant, and what it returns is sound. -/
theorem Inv.finish (h : Inv capacity quiet s) (hstep : step capacity s (t, .finish) = some s') : Inv capacity quiet s' := by
  have hthread := h.threads t
  cases hat : s.threads t with
  | idle => simp [step, hat] at hstep
  | taking =>
    rw [hat] at hthread
    simp only [step, hat, some.injEq] at hstep
    have hidle : Inv capacity quiet (s.goto t .idle) := h.goto trivial
    refine hstep ▸ hidle.return ⟨hthread, fun id x hx _ hready => ?_⟩
    obtain ⟨ids, hids, -⟩ := h.consistent.byRequest_get? hx
    exact (Finset.mem_sdiff.mp hready).2 (List.mem_toFinset.mpr (Dict.mem_keys_iff.mpr ⟨ids, hids⟩))
  | abortingAll rest total =>
    cases rest with
    | cons => simp [step, hat] at hstep
    | nil =>
      simp only [step, hat, some.injEq] at hstep
      have hidle : Inv capacity quiet (s.goto t .idle) := h.goto trivial
      exact hstep ▸ hidle.return trivial
  | polling todo completed call =>
    rw [hat] at hthread
    cases todo with
    | cons => simp [step, hat] at hstep
    | nil =>
      obtain ⟨r, released, hok, hrel, hcommit⟩ := h.releaseActive hthread.2.1 0
      cases call with
      | poll =>
        simp only [step, hat, hok, some.injEq] at hstep
        have hidle : Inv capacity quiet ((s.commit r).goto t .idle) := hcommit.goto trivial
        exact hstep ▸ hidle.return trivial
      | takeFinished =>
        simp only [step, hat, hok, some.injEq] at hstep
        exact hstep ▸ hcommit.goto (hthread.2.2.trans hrel.nextId.ge)
  | querying todo done released =>
    rw [hat] at hthread
    cases todo with
    | cons => simp [step, hat] at hstep
    | nil =>
      have hdrained : ∀ id ∈ done.map Lease.leaseId, Drained s.registry s.answered id := by
        intro id hid
        obtain ⟨x, hx, rfl⟩ := mem_map.mp hid
        exact hthread.2 x hx
      obtain ⟨r, released', hok, hrel, hcommit⟩ := h.releaseActive hdrained released
      simp only [step, hat, hok, some.injEq] at hstep
      have hidle : Inv capacity quiet ((s.commit r).goto t .idle) := hcommit.goto trivial
      exact hstep ▸ hidle.return trivial
  | synchronizing todo armed released start call =>
    rw [hat] at hthread
    cases todo with
    | cons => simp [step, hat] at hstep
    | nil =>
      obtain ⟨-, harmed, hstart⟩ := hthread
      have hdrained : ∀ id ∈ armed.map Lease.leaseId, Drained s.registry s.answered id := by
        intro id hid
        obtain ⟨x, hx, rfl⟩ := mem_map.mp hid
        exact (harmed x hx).resolve_left List.not_mem_nil
      obtain ⟨r, released', hok, hrel, hcommit⟩ := h.releaseActive hdrained released
      simp only [step, hat, hok, some.injEq] at hstep
      have hresumed : (call.resume released' : Thread φ).Sound r s.answered := by
        cases call <;> trivial
      have hgoto : Inv capacity quiet ((s.commit r).goto t (call.resume released')) := hcommit.goto hresumed
      exact hstep ▸ hgoto.return (hstart.released hrel)

/-- Not a submission whose callback raises something else than an `Exception`. -/
def Act.uninterrupted : Act φ → Bool
  | .submit _ .interrupts => false
  | _ => true

/-- The step interrupts no submission. -/
def Uninterrupted (_ : State φ) (act : ℕ × Act φ) : Prop := act.2.uninterrupted = true

/-- Every step of every thread keeps the invariant. -/
theorem Inv.step {act : ℕ × Act φ} (h : Inv capacity quiet s) (hquiet : quiet → Uninterrupted s act)
    (hstep : step capacity s act = some s') : Inv capacity quiet s' := by
  obtain ⟨t, act⟩ := act
  cases act with
  | tryReserve requestId blocks =>
    simp only [BlockLease.step] at hstep
    split at hstep
    · cases hstep
      rcases h.consistent.tryReserve requestId blocks with hsame | ⟨lease, hnew⟩
      · rw [hsame]
        exact h
      · exact h.commit hnew.consistent hnew.evolves
    · cases hstep
  | submit =>
    simp only [BlockLease.step] at hstep
    split at hstep
    · cases hstep
      refine h.submit fun hq heq => ?_
      rw [heq] at hquiet
      cases hquiet hq
    · cases hstep
  | cancelBeforeSubmit leaseId =>
    obtain ⟨r, result, hok, hcommit⟩ := h.cancelBeforeSubmit leaseId
    simp only [BlockLease.step, hok] at hstep
    split at hstep
    · cases hstep
      exact hcommit
    · cases hstep
  | poll =>
    simp only [BlockLease.step] at hstep
    split at hstep
    · cases hstep
      exact h.goto ⟨fun x hx => h.consistent.armed hx, fun id hid => (by cases hid), trivial⟩
    · cases hstep
  | takeFinished =>
    simp only [BlockLease.step] at hstep
    split at hstep
    · cases hstep
      exact h.goto ⟨fun x hx => h.consistent.armed hx, fun id hid => (by cases hid), le_rfl⟩
    · cases hstep
  | abortRequest requestId wait order =>
    simp only [BlockLease.step] at hstep
    split at hstep
    · refine h.abort hstep fun r armed released harmed hstart => ?_
      cases wait with
      | true => exact ⟨harmed, fun x hx => .inl hx, hstart⟩
      | false => exact ⟨harmed, fun x hx => (by cases hx)⟩
    · cases hstep
  | abortAll =>
    simp only [BlockLease.step] at hstep
    split at hstep
    · cases hstep
      exact h.goto trivial
    · cases hstep
  | abortNext =>
    simp only [BlockLease.step] at hstep
    split at hstep
    · exact h.abort hstep fun r armed released harmed hstart => ⟨harmed, fun x hx => .inl hx, hstart⟩
    · cases hstep
  | ask => exact h.ask hstep
  | finish => exact h.finish hstep

/-- Every run keeps the invariant, a quiet one for its whole length. -/
theorem Inv.reachable {good : State φ → ℕ × Act φ → Prop} (hgood : quiet → ∀ s act, good s act → Uninterrupted s act)
    (h : Reachable (BlockLease.step capacity) good {} s) : Inv capacity quiet s :=
  h.invariant (Inv capacity quiet) inv_init fun _ _ _ _ hs hact hstep => hs.step (fun hq => hgood hq _ _ hact) hstep

/-- Leases are accounted for. -/
structure Accounted (capacity : LeaseCapacity) (s : State φ) : Prop where
  /-- Two leases share no block. -/
  disjoint : ∀ i j x y, s.registry.leases.get? i = some x → s.registry.leases.get? j = some y → i ≠ j →
    x.blockIds.Disjoint y.blockIds
  /-- The owner map lists exactly the blocks of the leases. -/
  owner : ∀ block id, s.registry.blockOwner.get? block = some id ↔
    ∃ lease, s.registry.leases.get? id = some lease ∧ block ∈ lease.blockIds
  /-- The sets of requests are exactly the non-empty sets of active leases. -/
  requests : ∀ requestId ids, s.registry.byRequest.get? requestId = some ids ↔
    ids.Nonempty ∧ ∀ id, id ∈ ids ↔ ∃ lease, s.registry.leases.get? id = some lease ∧ lease.requestId = requestId
  activeLeases : s.registry.leases.size ≤ capacity.maxActiveLeases
  leasedBlocks : s.registry.blockOwner.size ≤ capacity.maxLeasedBlocks
  /-- No assertion failed and nothing was released twice. -/
  faults : s.faults = []
  /-- A lease whose submitter was called left only after its own fence answered. -/
  left : ∀ made ∈ s.submitted, s.registry.leases.get? made.1 = none →
    ∃ event, made.2 = some event ∧ (made.1, event) ∈ s.answered
  /-- No request that was taken has a lease reserved before the call. -/
  took : ∀ since ready, .took since ready ∈ s.returned → ∀ id lease, s.registry.leases.get? id = some lease → id < since →
    lease.requestId ∉ ready

/-- Leases are accounted for, and none survives an abort with `wait`. -/
structure Safe (capacity : LeaseCapacity) (s : State φ) : Prop extends Accounted capacity s where
  /-- No lease the request had when the abort started is active after it returned. -/
  aborted : ∀ start released, .aborted start released ∈ s.returned → ∀ id ∈ start, s.registry.leases.get? id = none

theorem Consistent.byRequest (h : Consistent capacity r) (requestId : String) (ids : Finset ℕ) : r.byRequest.get? requestId = some ids ↔
      ids.Nonempty ∧ ∀ id, id ∈ ids ↔ ∃ lease, r.leases.get? id = some lease ∧ lease.requestId = requestId := by
  have hlisted : ∀ ids, r.byRequest.get? requestId = some ids → ∀ id, id ∈ ids ↔ id ∈ r.leasesOf requestId := by
    intro ids hids id
    rw [Registry.leasesOf, hids, Option.getD_some]
  constructor
  · intro hids
    exact ⟨h.nonempty requestId ids hids, fun id => (hlisted ids hids id).trans (h.requests requestId id)⟩
  rintro ⟨⟨id, hid⟩, hexact⟩
  obtain ⟨lease, hget, rfl⟩ := (hexact id).mp hid
  obtain ⟨ids', hids', -⟩ := h.byRequest_get? hget
  have hsame : ids' = ids := by
    ext j
    rw [hlisted ids' hids', h.requests, hexact]
  rw [hids', hsame]

theorem Inv.accounted (h : Inv capacity quiet s) : Accounted capacity s := { h.consistent with
  disjoint := fun _ _ _ _ hi hj hne _ hx hy => hne (h.consistent.disjoint hi hj hx hy)
  requests := h.consistent.byRequest
  faults := h.faults
  left := fun made hm => (h.submitted made hm).2.2
  took := fun _ _ hw => (h.returned _ hw).2 }

/-- In every run leases are accounted for, and in every run in which no submission is
interrupted none survives an abort with `wait`. -/
theorem leases_are_safe (capacity : LeaseCapacity) (s : State φ) :
    (Reachable (step capacity) Unrestricted {} s → Accounted capacity s) ∧
      (Reachable (step capacity) Uninterrupted {} s → Safe capacity s) := by
  constructor
  · intro h
    have hinv : Inv capacity False s := Inv.reachable (fun hq => hq.elim) h
    exact hinv.accounted
  intro h
  have hinv : Inv capacity True s := Inv.reachable (fun _ _ _ hact => hact) h
  refine ⟨hinv.accounted, fun start released hw id hid => ?_⟩
  refine Option.eq_none_iff_forall_ne_some.mpr fun x hx => ?_
  exact hinv.settled trivial id x hx ((hinv.returned _ hw id hid).2 x hx)

theorem uninterrupted_of_check (s : State φ) (act : ℕ × Act φ) (h : act.2.uninterrupted = true) : Uninterrupted s act := h

/-- Room for two leases. -/
def twoLeases : LeaseCapacity := ⟨2, 8, by decide, by decide⟩

/-- A poll and an abort race to release one lease. -/
theorem leases_are_safe_raced : ∃ s : State ℕ, Safe twoLeases s ∧ s.returned = [.polled 0, .aborted [1] 1] := by
  obtain ⟨s, hs, hreturned⟩ := Reachable.exists_of_checked_runs
    (fun _ act => act.2.uninterrupted) uninterrupted_of_check (step twoLeases) {}
    [(0, .tryReserve "a" [4, 5]), (0, .submit 1 (.fence 7)), (1, .poll), (2, .abortRequest "a" true [1]),
      (1, .ask .done), (2, .ask .done), (2, .finish), (1, .finish)]
    (fun s => decide (s.returned = [.polled 0, .aborted [1] 1])) (by decide +kernel)
  exact ⟨s, (leases_are_safe twoLeases s).2 hs, of_decide_eq_true hreturned⟩

/-- A submitter is interrupted, and an abort with `wait` returns beside its lease. -/
theorem abort_returns_beside_lease :
    ¬∀ (capacity : LeaseCapacity) (s : State ℕ), Reachable (step capacity) Unrestricted {} s → Safe capacity s := by
  intro h
  obtain ⟨s, hs, hbeside⟩ := Reachable.exists_of_runs (step twoLeases) ({} : State ℕ)
    [(0, .tryReserve "a" [4, 5]), (0, .submit 1 .interrupts), (1, .abortRequest "a" true [1]), (1, .finish)]
    (fun s => decide (s.returned = [.aborted [1] 0]) && decide (s.registry.leases.keys = [1])) (by decide +kernel)
  rw [Bool.and_eq_true, decide_eq_true_eq, decide_eq_true_eq] at hbeside
  have hgone := (h twoLeases s hs).aborted [1] 0 (by
    rw [hbeside.1]
    exact List.mem_cons_self ..) 1 (List.mem_cons_self ..)
  rw [Dict.get?_eq_none_iff, hbeside.2] at hgone
  exact hgone (List.mem_cons_self ..)

end SparkRing.BlockLease
