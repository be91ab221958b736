import SparkRing.SnapshotRequests

/-!
# The bound on outstanding views

Every queued task and the one at the writer hold a credit. The writer returns the credit of
its task just before it resolves the completion, so between the two steps one completion is
outstanding without a credit: a submission that takes the last credit in between exceeds
the bound by one.
-/

namespace SparkRing.Snapshot

open TransitionSystem

variable {s t : State} {n j : ℕ} {a : Act}

/-- Completions that a submission returned and that are not resolved. -/
def State.unresolved (s : State) : List ℕ :=
  s.returned.filter fun completion => decide (completion ∉ s.resolved.map Prod.fst)

/-- A submission on its way may enqueue its task, unless it would take the last credit while the
writer resolves a completion whose credit it has returned. -/
def LeavesCredit (s : State) (a : Act) : Prop :=
  ∀ j, a = .enqueue j false → s.closing = .open → s.writer.resolves = true → s.capacity ≠ 1

/-- What a step does to the credits. -/
inductive Credit (s : State) (a : Act) (t : State) : Prop
  /-- Nothing. -/
  | keeps : t.capacity = s.capacity → t.queue.length = s.queue.length → t.writer.credits = s.writer.credits →
      t.writer.resolves = s.writer.resolves → Credit s a t
  /-- A task is queued with a credit. -/
  | accepts {j : ℕ} : a = .enqueue j false → s.closing = .open → s.capacity = t.capacity + 1 →
      t.queue.length = s.queue.length + 1 → t.writer = s.writer → Credit s a t
  /-- The writer takes a task with its credit. -/
  | takes : t.capacity = s.capacity → s.queue.length = t.queue.length + 1 → s.writer = .idle →
      t.writer.credits = 1 → t.writer.resolves = false → Credit s a t
  /-- The writer returns the credit of its task. -/
  | releases : t.capacity = s.capacity + 1 → t.queue = s.queue → s.writer.credits = 1 → t.writer.credits = 0 →
      t.writer.resolves = true → s.writer.resolves = false → Credit s a t
  /-- The writer resolves the completion of its task. -/
  | resolves : t.capacity = s.capacity → t.queue = s.queue → s.writer.credits = 0 → s.writer.resolves = true →
      t.writer = .idle → Credit s a t

/-- A step of neither the queue nor the writer. -/
theorem credit_of_same (hcapacity : t.capacity = s.capacity) (hqueue : t.queue = s.queue) (hwriter : t.writer = s.writer) : Credit s a t :=
  .keeps hcapacity (congrArg List.length hqueue) (congrArg Writer.credits hwriter) (congrArg Writer.resolves hwriter)

theorem credit_enqueue {raises : Bool} (h : s.enqueue j raises = some t) : Credit s (.enqueue j raises) t := by
  obtain ⟨y, -, h⟩ := Option.bind_eq_some_iff.mp h
  split at h
  case h_2 => cases h
  split_ifs at h with hrefused
  · cases h
    exact credit_of_same rfl rfl rfl
  cases h
  simp only [not_or, not_not, Bool.not_eq_true] at hrefused
  obtain ⟨hopen, hsome, rfl⟩ := hrefused
  refine .accepts rfl hopen ?_ (List.length_append ..) rfl
  exact (Nat.succ_pred_eq_of_ne_zero hsome).symm

/-- A submission with a credit to take enqueues its task. -/
theorem enqueue_accepts (h : s.enqueue j false = some t) (hopen : s.closing = .open) (hlast : s.capacity = 1) :
    t.capacity = 0 ∧ t.writer = s.writer := by
  obtain ⟨y, -, h⟩ := Option.bind_eq_some_iff.mp h
  split at h
  case h_2 => cases h
  rw [if_neg (by simp [hopen, hlast])] at h
  cases h
  exact ⟨by rw [hlast], rfl⟩

/-- Every step keeps the credits, passes one on or returns one. -/
theorem credit_step (h : step s a = some t) : Credit s a t := by
  cases moves_of_step h with
  | begins haside hwriter | keeps haside hwriter => exact credit_of_same haside.capacity haside.queue hwriter
  | enqueue h => exact credit_enqueue h
  | takes hwriter hqueue => exact .takes rfl (by rw [hqueue, List.length_cons]) hwriter rfl rfl
  | works hturn =>
    cases hturn with
    | goes haside hnext hputs hwriter => exact .keeps haside.capacity (congrArg List.length haside.queue) hwriter.2.1 hwriter.2.2
    | releases hw ht =>
      subst ht
      exact .releases rfl rfl (by rw [hw]; rfl) rfl rfl (by rw [hw]; rfl)
    | resolves hw ht =>
      subst ht
      exact .resolves rfl rfl (by rw [hw]; rfl) (by rw [hw]; rfl) rfl

/-- Credits left and credits held are as many as at the start. -/
def Credited (n : ℕ) (s : State) : Prop := s.capacity + s.queue.length + s.writer.credits = n

/-- No credit is lost and none is made. -/
theorem Credited.step (hc : Credited n s) (h : step s a = some t) : Credited n t := by
  unfold Credited at hc ⊢
  cases credit_step h with
  | keeps => omega
  | accepts _ _ hcapacity hqueue hwriter =>
    rw [hwriter]
    omega
  | takes hcapacity hqueue hidle hcredits _ =>
    rw [hidle] at hc
    simp only [Writer.credits] at hc
    omega
  | releases hcapacity hqueue hheld hcredits _ _ =>
    rw [hqueue]
    omega
  | resolves hcapacity hqueue hcredits _ hidle =>
    rw [hqueue, hidle]
    simp only [Writer.credits]
    omega

theorem credited {good : State → Act → Prop} (h : Reachable step good (State.init n) s) : Credited n s :=
  h.invariant (Credited n) rfl fun _ _ _ _ hc _ ha => hc.step ha

/-- The task of a writer holds a credit until it resolves. -/
theorem length_outstanding : s.outstanding.length = s.queue.length + s.writer.credits + if s.writer.resolves = true then 1 else 0 := by
  rw [State.outstanding, List.length_append]
  cases s.writer <;> simp [Writer.task?, Writer.credits, Writer.resolves] <;> omega

/-- The unresolved completions are those of the outstanding tasks. -/
theorem unresolved_eq (hc : Completions s) : s.unresolved = s.outstanding.map Task.completion := by
  have hnodup := hc.nodup
  rw [hc.returned_eq] at hnodup
  have hapart := (List.nodup_append.mp hnodup).2.2
  rw [State.unresolved, hc.returned_eq, List.filter_append]
  have hnone : (s.resolved.map Prod.fst).filter (fun completion => decide (completion ∉ s.resolved.map Prod.fst)) = [] :=
    List.filter_eq_nil_iff.mpr fun completion hmem => by
      rw [decide_eq_true_iff, not_not]
      exact hmem
  have hall : (s.outstanding.map Task.completion).filter (fun completion => decide (completion ∉ s.resolved.map Prod.fst)) =
      s.outstanding.map Task.completion :=
    List.filter_eq_self.mpr fun completion hmem => decide_eq_true fun hres => hapart _ hres _ hmem rfl
  rw [hnone, hall, List.nil_append]

/-- Every credit is held by an unresolved completion, and one without a credit is being resolved. -/
theorem length_unresolved (hc : Completions s) (hcredits : Credited n s) :
    s.unresolved.length + s.capacity = n + if s.writer.resolves = true then 1 else 0 := by
  unfold Credited at hcredits
  rw [unresolved_eq hc, List.length_map, length_outstanding]
  omega

/-- A completion whose credit was returned leaves a credit, as long as none takes the last one. -/
theorem credit_left (hleft : s.writer.resolves = true → 0 < s.capacity) (ha : LeavesCredit s a)
    (h : step s a = some t) : t.writer.resolves = true → 0 < t.capacity := by
  intro hresolves
  cases credit_step h with
  | keeps hcapacity _ _ hsame =>
    rw [hcapacity]
    exact hleft (hsame ▸ hresolves)
  | @accepts j henqueue hopen hcapacity _ hwriter =>
    rw [hwriter] at hresolves
    have hlast := ha j henqueue hopen hresolves
    omega
  | takes _ _ _ _ hno =>
    rw [hno] at hresolves
    cases hresolves
  | releases => omega
  | resolves _ _ _ _ hidle =>
    rw [hidle] at hresolves
    cases hresolves

/-- While every submission leaves a credit for the completion being resolved, at most as many
completions as there are credits are returned and not resolved; a submission that takes that credit
exceeds the bound by one. Whatever was raised, all credits are back once every completion is resolved. -/
theorem unresolved_within_bound (h : Reachable step LeavesCredit (State.init n) s) :
    s.unresolved.length ≤ n ∧ (s.unresolved = [] → s.capacity = n) ∧
      ∀ a t, step s a = some t → (t.unresolved.length ≤ n ↔ LeavesCredit s a) := by
  have hreach : Reachable step Unrestricted (State.init n) s := h.mono fun _ _ _ => trivial
  have hi := Inv.of_reachable hreach
  have hcredits := credited h
  have hlength := length_unresolved hi.completions hcredits
  have hleft := h.invariant (fun s => s.writer.resolves = true → 0 < s.capacity) nofun
    fun _ _ _ _ hl hg ha => credit_left hl hg ha
  refine ⟨?_, fun hnone => ?_, fun a t ht => ?_⟩
  · split_ifs at hlength with hresolves
    · have hpos := hleft hresolves
      omega
    · omega
  · have hnot : s.writer.resolves = false := by
      have hout := unresolved_eq hi.completions
      rw [hnone, eq_comm, List.map_eq_nil_iff] at hout
      have htask := (List.append_eq_nil_iff.mp hout).1
      cases hw : s.writer <;> first | rfl | (rw [hw] at htask; cases htask)
    rw [hnone, List.length_nil, hnot] at hlength
    simpa using hlength
  have hafter := length_unresolved (hi.step ht).completions (hcredits.step ht)
  constructor
  · intro hbound j henqueue hopen hresolves hlast
    subst henqueue
    obtain ⟨hnone, hwriter⟩ := enqueue_accepts ht hopen hlast
    rw [hwriter, if_pos hresolves] at hafter
    omega
  intro hgood
  have hpos := credit_left hleft hgood ht
  split_ifs at hafter with hresolves
  · have hpos := hpos hresolves
    omega
  · omega

/-- The two halves of a context. -/
def halves (index : ℕ) : SnapshotBatch := ⟨"r", "d", index, 256 * index, 256 * index + 256, 256⟩

/-- The first half of the context. -/
def firstHalf : TokenRange := ⟨0, 256, by omega⟩

/-- The only credit is taken, the first half is appended, and the credit is returned. -/
def returnsCredit : List Act :=
  [.begin "r" "d" 512, .submit 0 (halves 0) ⟨0, 0⟩ (some 256), .enqueue 0 false, .take, .work .returns,
    .work (.chunk firstHalf), .work .returns, .work .returns, .work .returns, .work .returns, .work .returns,
    .work .returns]

/-- The second half is submitted. -/
def submitsNext : List Act := [.submit 0 (halves 1) ⟨1, 256⟩ (some 256), .enqueue 0 false]

/-- The check of the steps of a list. -/
def leavesCredit (s : State) : Act → Bool
  | .enqueue _ false => !(decide (s.closing = .open) && s.writer.resolves && decide (s.capacity = 1))
  | _ => true

theorem leavesCredit_sound (s : State) (a : Act) (h : leavesCredit s a = true) : LeavesCredit s a := by
  rintro j rfl hopen hresolves hlast
  simp [leavesCredit, hopen, hresolves, hlast] at h

/-- With one credit, the second half is submitted once the first one is resolved. -/
theorem second_half_within_bound : ∃ s, Reachable step LeavesCredit (State.init 1) s ∧ s.returned = [0, 1] ∧
    s.unresolved.length ≤ 1 ∧ (s.unresolved = [] → s.capacity = 1) ∧
      ∀ a t, step s a = some t → (t.unresolved.length ≤ 1 ↔ LeavesCredit s a) := by
  obtain ⟨s, hs, hp⟩ := Reachable.exists_of_checked_runs leavesCredit leavesCredit_sound step (State.init 1)
    (returnsCredit ++ .work .returns :: submitsNext) (fun s : State => decide (s.returned = [0, 1])) (by decide +kernel)
  exact ⟨s, hs, of_decide_eq_true hp, unresolved_within_bound hs⟩

/-- With one credit, the second half is submitted before the first one is resolved: two completions are
returned and not resolved. -/
theorem second_half_exceeds_bound : ∃ s, Reachable step Unrestricted (State.init 1) s ∧
    decide (s.unresolved = [0, 1]) = true :=
  Reachable.exists_of_runs step (State.init 1) (returnsCredit ++ submitsNext)
    (fun s : State => decide (s.unresolved = [0, 1])) (by decide +kernel)

end SparkRing.Snapshot
