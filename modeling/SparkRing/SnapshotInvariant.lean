import SparkRing.SnapshotCoverage

/-!
# The books of completions

Completions are resolved in the order their submissions returned them, and a task that
is outstanding is the one of a returned completion. A completion that a submission has
registered and not yet returned is its own alone.
-/

namespace SparkRing.Snapshot

open Function
open Option (bind_eq_some_iff map_eq_some_iff some.injEq)
open List (mem_append mem_singleton)

variable {s t : State} {j k c : ℕ} {x x' y : Journal} {outcome : Outcome} {a : Act} {w : Writer}

/-- The task at the writer and the queued ones. -/
def State.outstanding (s : State) : List Task := s.writer.task?.toList ++ s.queue

/-- Every journal lives its life and appends its tokens. -/
structure Journals (s : State) : Prop where
  below : ∀ i y, s.journals i = some y → i < s.count
  tasks : ∀ task ∈ s.outstanding, task.journal < s.count
  life : ∀ i y, s.journals i = some y → Lifecycle (s.writer.on i) (s.line i) y
  /-- The tokens of a journal. -/
  coverage : ∀ i y, s.journals i = some y → Coverage (s.writer.on i) (s.line i) y

/-- Completions and the submissions that returned or raised. -/
structure Completions (s : State) : Prop where
  /-- Returned completions are resolved in order; the rest is outstanding. -/
  returned_eq : s.returned = s.resolved.map Prod.fst ++ s.outstanding.map Task.completion
  /-- No completion is returned twice. -/
  nodup : s.returned.Nodup
  old : ∀ c ∈ s.returned, c < s.nextCompletion
  raised : ∀ c ∈ s.raised, c < s.nextCompletion ∧ c ∉ s.returned
  /-- A submission on its way has a completion of its own. -/
  held : ∀ i y, s.journals i = some y → ∀ c ∈ y.held, c < s.nextCompletion ∧ c ∉ s.returned ∧ c ∉ s.raised
  /-- No two of them have the same. -/
  held_unique : ∀ i y i' y', s.journals i = some y → s.journals i' = some y' → ∀ c ∈ y.held, c ∈ y'.held → i = i'

/-- A completion a journal counts is old. -/
theorem pending_old (hj : Journals s) (hc : Completions s) (hy : s.journals j = some y) : ∀ c ∈ y.pending, c < s.nextCompletion := by
  intro c hmem
  rw [(hj.life j y hy).pending_eq, mem_append] at hmem
  obtain hmem | hheld := hmem
  · obtain ⟨task, htask, rfl⟩ := List.mem_map.mp hmem
    refine hc.old _ ?_
    rw [hc.returned_eq]
    refine List.mem_append_right _ (List.mem_map_of_mem ?_)
    obtain hlive | hline := mem_append.mp htask
    · refine List.mem_append_left _ ?_
      rw [Writer.on] at hlive
      split_ifs at hlive with hany
      · revert hlive
        cases s.writer <;> simp [Writer.live, Writer.task?]
      · cases hlive
    · exact List.mem_append_right _ (List.mem_filter.mp hline).1
  · exact (hc.held j y hy c hheld).1

theorem mem_held : c ∈ y.held ↔ ∃ b v, y.hold = some (.submitting c b v) := by
  unfold Journal.held
  split
  next c' b v hh =>
    rw [hh]
    constructor
    · intro hc
      exact ⟨b, v, by rw [mem_singleton.mp hc]⟩
    rintro ⟨b', v', heq⟩
    cases heq
    exact mem_singleton.mpr rfl
  next hno =>
    refine ⟨fun hc => (by cases hc), ?_⟩
    rintro ⟨b, v, hh⟩
    exact absurd hh (hno c b v)

theorem held_of_none (h : y.hold = none) : y.held = [] := by rw [Journal.held, h]

theorem held_abortLocked (h : y.hold = none) : y.abortLocked.held = [] := by
  unfold Journal.abortLocked Journal.finalizeAbort
  split
  · exact held_of_none h
  · rfl

theorem held_completionDone (h : y.hold = none) : (y.completionDone c).held = [] := by
  unfold Journal.completionDone Journal.finalizeAbort
  dsimp only
  split
  · split
    · exact held_of_none h
    · rfl
  · exact held_of_none h

/-- A step that puts a journal that holds no new completion. -/
theorem held_of_put (hy : s.journals k = some y) (hjournals : t.journals = update s.journals k (some x))
    (hx : x.held = [] ∨ x.held = y.held) (ht : t.journals j = some x') (hc : c ∈ x'.held) : ∃ z, s.journals j = some z ∧ c ∈ z.held := by
  rw [hjournals] at ht
  by_cases hj : j = k
  · subst hj
    rw [update_self, some.injEq] at ht
    subst ht
    obtain hnil | hsame := hx
    · rw [hnil] at hc
      cases hc
    · exact ⟨y, hy, hsame ▸ hc⟩
  · rw [update_of_ne hj] at ht
    exact ⟨x', ht, hc⟩

/-- The writer thread holds no completion of a submission. -/
theorem held_work (h : s.work outcome = some t) (ht : t.journals j = some x') (hc : c ∈ x'.held) :
    ∃ z, s.journals j = some z ∧ c ∈ z.held := by
  unfold State.work at h
  split at h
  · cases h
  · obtain ⟨y, -, rfl⟩ := map_eq_some_iff.mp h
    refine ⟨x', ?_, hc⟩
    split_ifs at ht <;> exact ht
  · split at h
    all_goals
      cases h
      exact ⟨x', ht, hc⟩
  · obtain ⟨y, hy, rfl⟩ := map_eq_some_iff.mp h
    split_ifs at ht
    · exact ⟨x', ht, hc⟩
    · exact ⟨x', ht, hc⟩
    · exact held_of_put (x := y.record _) (unlocked_eq_some.mp hy).1 rfl (.inr rfl) ht hc
  · obtain ⟨y, hy, h⟩ := bind_eq_some_iff.mp h
    split at h
    · cases h
    · cases h
      exact held_of_put (x := y.record _) hy rfl (.inr rfl) ht hc
    · cases h
      exact held_of_put (x := y.record _) hy rfl (.inr rfl) ht hc
  · obtain ⟨y, hy, hhold, rfl⟩ := exists_of_map h
    refine held_of_put hy rfl (.inl ?_) ht hc
    split_ifs
    · exact held_of_none hhold
    · exact held_of_none hhold
  · obtain ⟨y, hy, hhold, rfl⟩ := exists_of_map h
    refine held_of_put hy rfl (.inl ?_) ht hc
    split_ifs
    · exact held_abortLocked hhold
    · exact held_of_none hhold
  · obtain ⟨y, hy, hhold, rfl⟩ := exists_of_map h
    exact held_of_put hy rfl (.inl (held_completionDone hhold)) ht hc
  · obtain ⟨y, hy, rfl⟩ := map_eq_some_iff.mp h
    exact held_of_put hy finishAbort_journals (.inl rfl) ht hc
  · cases h
    exact ⟨x', ht, hc⟩
  · cases h
    exact ⟨x', ht, hc⟩

/-- Only a submission that registers its completion is on its way anew. -/
theorem held_step (h : step s a = some t) (ht : t.journals j = some x') (hc : c ∈ x'.held) : (∃ z, s.journals j = some z ∧ c ∈ z.held) ∨
      (∃ batch view rows, a = .submit j batch view rows) ∧ c = s.nextCompletion ∧ t.nextCompletion = s.nextCompletion + 1 := by
  cases a with
  | begin =>
    simp only [step, State.beginContext] at h
    split_ifs at h
    cases h
    by_cases hj : j = s.count
    · subst hj
      rw [put_journals_self, some.injEq] at ht
      rw [← ht] at hc
      cases hc
    · exact .inl ⟨x', (put_journals_ne hj).symm.trans ht, hc⟩
  | submit k batch view rows =>
    obtain ⟨y, hy, hhold, h⟩ := exists_of_bind h
    split_ifs at h
    · cases h
      by_cases hj : j = k
      · subst hj
        rw [put_journals_self, some.injEq] at ht
        rw [← ht] at hc
        exact .inr ⟨⟨batch, view, rows, rfl⟩, mem_singleton.mp hc, rfl⟩
      · exact .inl ⟨x', (put_journals_ne hj).symm.trans ht, hc⟩
    · cases h
      exact .inl (held_of_put hy rfl (.inl (held_abortLocked hhold)) ht hc)
  | enqueue k raises =>
    obtain ⟨y, hy, h⟩ := bind_eq_some_iff.mp h
    split at h
    case h_2 => cases h
    split_ifs at h
    · cases h
      exact .inl (held_of_put hy rfl (.inl (held_abortLocked rfl)) ht hc)
    · cases h
      exact .inl (held_of_put hy rfl (.inl rfl) ht hc)
  | commit =>
    obtain ⟨y, hy, hhold, h⟩ := exists_of_bind h
    split_ifs at h
    cases h
    exact .inl (held_of_put hy rfl (.inl rfl) ht hc)
  | commitEnds =>
    obtain ⟨y, hy, h⟩ := bind_eq_some_iff.mp h
    split_ifs at h
    · cases h
      exact .inl (held_of_put hy rfl (.inl rfl) ht hc)
    · cases h
      exact .inl (held_of_put hy rfl (.inl rfl) ht hc)
  | retire =>
    obtain ⟨y, -, h⟩ := bind_eq_some_iff.mp h
    split_ifs at h
    cases h
    rw [retire_journals] at ht
    exact .inl ⟨x', ht, hc⟩
  | abort =>
    obtain ⟨y, hy, hhold, h⟩ := exists_of_bind h
    split_ifs at h
    cases h
    exact .inl (held_of_put hy rfl (.inl (held_abortLocked hhold)) ht hc)
  | abortEnds =>
    obtain ⟨y, hy, h⟩ := bind_eq_some_iff.mp h
    split_ifs at h
    cases h
    exact .inl (held_of_put hy finishAbort_journals (.inl rfl) ht hc)
  | shutdown =>
    simp only [step] at h
    split_ifs at h
    · cases h
      exact .inl ⟨x', ht, hc⟩
    · cases h
      exact .inl ⟨x', ht, hc⟩
  | shutdownGoesOn =>
    simp only [step, State.shutdownGoesOn] at h
    split at h
    · cases h
    · cases h
    · cases h
      exact .inl ⟨x', ht, hc⟩
    · obtain ⟨y, hy, hhold, h⟩ := exists_of_bind h
      split at h
      · cases h
        exact .inl (held_of_put hy rfl (.inl (held_abortLocked hhold)) ht hc)
      cases h
      exact .inl ⟨x', ht, hc⟩
    · obtain ⟨y, -, h⟩ := bind_eq_some_iff.mp h
      split_ifs at h
      cases h
      exact .inl ⟨x', ht, hc⟩
    · split_ifs at h
      cases h
      exact .inl ⟨x', ht, hc⟩
  | take =>
    simp only [step, State.take] at h
    split at h
    case h_2 => cases h
    cases h
    exact .inl ⟨x', ht, hc⟩
  | work => exact .inl (held_work h ht hc)

/-- What a step does to the tasks that are outstanding and to the completions. -/
inductive Ledger (s t : State) : Prop
  /-- Nothing, except that numbers of completions may be used up. -/
  | keeps : t.outstanding = s.outstanding → t.returned = s.returned → t.raised = s.raised → t.resolved = s.resolved →
      s.nextCompletion ≤ t.nextCompletion → s.count ≤ t.count → Ledger s t
  | returns {y : Journal} {task : Task} : t.closing = .open → s.journals task.journal = some y → task.completion ∈ y.held →
      (∀ x', t.journals task.journal = some x' → x'.held = []) → t.outstanding = s.outstanding ++ [task] →
      t.returned = s.returned ++ [task.completion] → t.raised = s.raised → t.resolved = s.resolved →
      t.nextCompletion = s.nextCompletion → t.count = s.count → Ledger s t
  | raises {j c : ℕ} {y : Journal} : s.journals j = some y → c ∈ y.held →
      (∀ x', t.journals j = some x' → x'.held = []) → t.outstanding = s.outstanding → t.returned = s.returned →
      t.raised = c :: s.raised → t.resolved = s.resolved → t.nextCompletion = s.nextCompletion →
      t.count = s.count → Ledger s t
  /-- The completion of the writer's task is resolved. -/
  | resolves {task : Task} {ok : Bool} : s.outstanding = task :: t.outstanding → t.returned = s.returned →
      t.raised = s.raised → t.resolved = s.resolved ++ [(task.completion, ok)] →
      t.nextCompletion = s.nextCompletion → t.count = s.count → Ledger s t

theorem Ledger.count_le (h : Ledger s t) : s.count ≤ t.count := by
  cases h with
  | keeps _ _ _ _ _ hcount => exact hcount
  | returns _ _ _ _ _ _ _ _ _ hcount | raises _ _ _ _ _ _ _ _ hcount | resolves _ _ _ _ _ hcount => exact hcount.ge

theorem Ledger.next_le (h : Ledger s t) : s.nextCompletion ≤ t.nextCompletion := by
  cases h with
  | keeps _ _ _ _ hnext _ => exact hnext
  | returns _ _ _ _ _ _ _ _ hnext _ | raises _ _ _ _ _ _ _ hnext _ | resolves _ _ _ _ hnext _ => exact hnext.ge

/-- Retiring a journal changes the journals of requests only. -/
theorem retire_eq (s : State) (j : ℕ) (r : String) : ∃ transactions, s.retire j r = { s with transactions := transactions } := by
  unfold State.retire
  split
  · exact ⟨_, rfl⟩
  · exact ⟨s.transactions, rfl⟩

/-- The end of the store's abort changes the journal and the journals of requests only. -/
theorem finishAbort_eq (s : State) (j : ℕ) (x : Journal) :
    ∃ transactions, s.finishAbort j x = { s.put j x.aborted with transactions := transactions } :=
  retire_eq ..

/-- The writer has returned the credit of its task and has still to resolve the completion. -/
def Writer.resolves : Writer → Bool
  | .resolving .. => true
  | _ => false

/-- Credits the writer's task holds. -/
def Writer.credits : Writer → ℕ
  | .idle | .resolving .. => 0
  | _ => 1

/-- What a step other than the first of a journal puts. -/
def Puts (s t : State) : Prop :=
  t.count = s.count ∧ (t.journals = s.journals ∨ ∃ k x, t.journals = Function.update s.journals k (some x))

/-- The queue, the credits and the books of completions stay. -/
structure Aside (s t : State) : Prop where
  queue : t.queue = s.queue
  /-- The credits. -/
  capacity : t.capacity = s.capacity
  /-- Completions that were returned. -/
  returned : t.returned = s.returned
  /-- Completions of submissions that raised. -/
  raised : t.raised = s.raised
  /-- Completions that were resolved. -/
  resolved : t.resolved = s.resolved

/-- A turn of the writer. -/
inductive Turn (s t : State) : Prop
  /-- It goes on with its task. -/
  | goes (aside : Aside s t) (next : t.nextCompletion = s.nextCompletion) (puts : Puts s t)
    (writer : t.writer.task? = s.writer.task? ∧ t.writer.credits = s.writer.credits ∧ t.writer.resolves = s.writer.resolves)
  /-- It returns the credit of its task. -/
  | releases {task : Task} {ok : Bool} (hw : s.writer = .releasing task ok)
    (ht : t = { s with writer := .resolving task ok, capacity := s.capacity + 1 })
  | resolves {task : Task} {ok : Bool} (hw : s.writer = .resolving task ok)
    (ht : t = { s with writer := .idle, resolved := s.resolved ++ [(task.completion, ok)] })

/-- A turn that puts no journal. -/
theorem turn_keeps (h : w.task? = s.writer.task? ∧ w.credits = s.writer.credits ∧ w.resolves = s.writer.resolves) :
    Turn s { s with writer := w } := .goes ⟨rfl, rfl, rfl, rfl, rfl⟩ rfl ⟨rfl, .inl rfl⟩ h

theorem turn_puts
    (h : w.task? = s.writer.task? ∧ w.credits = s.writer.credits ∧ w.resolves = s.writer.resolves) :
    Turn s { s.put k x with writer := w } := .goes ⟨rfl, rfl, rfl, rfl, rfl⟩ rfl ⟨rfl, .inr ⟨_, _, rfl⟩⟩ h

theorem turn_work (h : s.work outcome = some t) : Turn s t := by
  unfold State.work at h
  split at h
  next => cases h
  next task hw =>
    obtain ⟨y, -, rfl⟩ := map_eq_some_iff.mp h
    split_ifs <;> exact turn_keeps (by rw [hw]; exact ⟨rfl, rfl, rfl⟩)
  next task expected hw =>
    split at h
    · cases h
      exact turn_keeps (by rw [hw]; exact ⟨rfl, rfl, rfl⟩)
    · cases h
      refine turn_keeps ?_
      split_ifs <;> (rw [hw]; exact ⟨rfl, rfl, rfl⟩)
    · cases h
      exact turn_keeps (by rw [hw]; exact ⟨rfl, rfl, rfl⟩)
  next task expected chunk hw =>
    obtain ⟨y, -, rfl⟩ := map_eq_some_iff.mp h
    split_ifs
    · exact turn_keeps (by rw [hw]; exact ⟨rfl, rfl, rfl⟩)
    · exact turn_keeps (by rw [hw]; exact ⟨rfl, rfl, rfl⟩)
    · exact turn_puts (by rw [hw]; exact ⟨rfl, rfl, rfl⟩)
  next task chunk hw =>
    obtain ⟨y, -, h⟩ := bind_eq_some_iff.mp h
    split at h
    · cases h
    · cases h
      exact turn_puts (by rw [hw]; exact ⟨rfl, rfl, rfl⟩)
    · cases h
      exact turn_puts (by rw [hw]; exact ⟨rfl, rfl, rfl⟩)
  next task expected hw =>
    obtain ⟨y, -, rfl⟩ := map_eq_some_iff.mp h
    exact turn_puts (by rw [hw]; exact ⟨rfl, rfl, rfl⟩)
  next task hw =>
    obtain ⟨y, -, rfl⟩ := map_eq_some_iff.mp h
    exact turn_puts (by rw [hw]; exact ⟨rfl, rfl, rfl⟩)
  next task ok hw =>
    obtain ⟨y, -, rfl⟩ := map_eq_some_iff.mp h
    refine turn_puts ?_
    split_ifs <;> (rw [hw]; exact ⟨rfl, rfl, rfl⟩)
  next task ok hw =>
    obtain ⟨y, -, rfl⟩ := map_eq_some_iff.mp h
    obtain ⟨transactions, heq⟩ := finishAbort_eq s task.journal y
    rw [heq]
    exact .goes ⟨rfl, rfl, rfl, rfl, rfl⟩ rfl ⟨rfl, .inr ⟨_, _, rfl⟩⟩ (by rw [hw]; exact ⟨rfl, rfl, rfl⟩)
  next task ok hw =>
    cases h
    exact .releases hw rfl
  next task ok hw =>
    cases h
    exact .resolves hw rfl

/-- What a step does. -/
inductive Moves (s : State) : Act → State → Prop
  /-- A journal opens. -/
  | begins {a : Act} {t : State} (aside : Aside s t) (writer : t.writer = s.writer) (next : t.nextCompletion = s.nextCompletion)
    (count : t.count = s.count + 1) (puts : ∃ x, t.journals = Function.update s.journals s.count (some x)) : Moves s a t
  /-- Neither the queue nor the writer changes. -/
  | keeps {a : Act} {t : State} (aside : Aside s t) (writer : t.writer = s.writer) (next : s.nextCompletion ≤ t.nextCompletion)
    (puts : Puts s t) : Moves s a t
  /-- A submission queues its task or raises. -/
  | enqueue {k : ℕ} {raises : Bool} {t : State} (h : s.enqueue k raises = some t) (puts : Puts s t) : Moves s (.enqueue k raises) t
  | takes {task : Task} {rest : List Task} (hwriter : s.writer = .idle) (hqueue : s.queue = task :: rest) :
    Moves s .take { s with writer := .starting task, queue := rest }
  /-- The writer goes on. -/
  | works {outcome : Outcome} {t : State} (turn : Turn s t) : Moves s (.work outcome) t

/-- A section that puts a journal. -/
theorem moves_put : Moves s a (s.put k x) :=
  .keeps ⟨rfl, rfl, rfl, rfl, rfl⟩ rfl le_rfl ⟨rfl, .inr ⟨_, _, rfl⟩⟩

/-- A section that changes the shutdown alone. -/
theorem moves_closing (closing : Closing) : Moves s a { s with closing := closing } :=
  .keeps ⟨rfl, rfl, rfl, rfl, rfl⟩ rfl le_rfl ⟨rfl, .inl rfl⟩

theorem moves_shutdownGoesOn (h : s.shutdownGoesOn = some t) : Moves s a t := by
  unfold State.shutdownGoesOn at h
  split at h
  · cases h
  · cases h
  · cases h
    exact moves_closing _
  · obtain ⟨y, -, h⟩ := bind_eq_some_iff.mp h
    split_ifs at h with hopen
    · cases h
      exact .keeps ⟨rfl, rfl, rfl, rfl, rfl⟩ rfl le_rfl ⟨rfl, .inr ⟨_, _, rfl⟩⟩
    cases h
    exact moves_closing _
  · obtain ⟨y, -, h⟩ := bind_eq_some_iff.mp h
    split_ifs at h
    cases h
    exact moves_closing _
  split_ifs at h
  cases h
  exact moves_closing _

theorem moves_of_step (h : step s a = some t) : Moves s a t := by
  cases a with
  | begin =>
    simp only [step, State.beginContext] at h
    split_ifs at h
    cases h
    exact .begins ⟨rfl, rfl, rfl, rfl, rfl⟩ rfl rfl rfl ⟨_, rfl⟩
  | submit =>
    obtain ⟨y, -, h⟩ := bind_eq_some_iff.mp h
    split_ifs at h
    · cases h
      exact .keeps ⟨rfl, rfl, rfl, rfl, rfl⟩ rfl (Nat.le_succ _) ⟨rfl, .inr ⟨_, _, rfl⟩⟩
    · cases h
      exact moves_put
  | enqueue k raises =>
    refine .enqueue h ?_
    obtain ⟨y, -, h⟩ := bind_eq_some_iff.mp h
    split at h
    case h_2 => cases h
    split_ifs at h
    · cases h
      exact ⟨rfl, .inr ⟨_, _, rfl⟩⟩
    · cases h
      exact ⟨rfl, .inr ⟨_, _, rfl⟩⟩
  | commit | abort =>
    obtain ⟨y, -, h⟩ := bind_eq_some_iff.mp h
    split_ifs at h
    cases h
    exact moves_put
  | commitEnds =>
    obtain ⟨y, -, h⟩ := bind_eq_some_iff.mp h
    rw [Option.ite_none_right_eq_some] at h
    cases h.2
    exact moves_put
  | retire k =>
    obtain ⟨y, -, h⟩ := bind_eq_some_iff.mp h
    split_ifs at h
    obtain ⟨transactions, heq⟩ := retire_eq s k y.requestId
    rw [heq] at h
    cases h
    exact .keeps ⟨rfl, rfl, rfl, rfl, rfl⟩ rfl le_rfl ⟨rfl, .inl rfl⟩
  | abortEnds k =>
    obtain ⟨y, -, h⟩ := bind_eq_some_iff.mp h
    split_ifs at h
    obtain ⟨transactions, heq⟩ := finishAbort_eq s k y
    rw [heq] at h
    cases h
    exact .keeps ⟨rfl, rfl, rfl, rfl, rfl⟩ rfl le_rfl ⟨rfl, .inr ⟨_, _, rfl⟩⟩
  | shutdown =>
    simp only [step] at h
    split_ifs at h
    · cases h
      exact moves_closing _
    · cases h
      exact .keeps ⟨rfl, rfl, rfl, rfl, rfl⟩ rfl le_rfl ⟨rfl, .inl rfl⟩
  | shutdownGoesOn => exact moves_shutdownGoesOn h
  | take =>
    simp only [step, State.take] at h
    split at h
    case h_2 => cases h
    next task rest hwriter hqueue =>
      cases h
      exact .takes hwriter hqueue
  | work => exact .works (turn_work h)

theorem ledger_enqueue {raises : Bool} (h : s.enqueue k raises = some t) : Ledger s t := by
  obtain ⟨y, hy, h⟩ := bind_eq_some_iff.mp h
  split at h
  case h_2 => cases h
  next c batch view hhold =>
    have hmem : c ∈ y.held := mem_held.mpr ⟨batch, view, hhold⟩
    split_ifs at h with hrefused
    · cases h
      refine .raises hy hmem (fun x' hx' => ?_) rfl rfl rfl rfl rfl rfl
      rw [put_journals_self, some.injEq] at hx'
      rw [← hx']
      exact held_abortLocked rfl
    cases h
    have hopen : s.closing = .open := not_not.mp (not_or.mp hrefused).1
    have hgone : ∀ x', (s.put k { y with hold := none }).journals k = some x' → x'.held = [] := by
      intro x' hx'
      rw [put_journals_self, some.injEq] at hx'
      rw [← hx']
      rfl
    have hout : s.writer.task?.toList ++ (s.queue ++ [⟨k, c, batch.logicalStart, batch.logicalEnd, view.view⟩]) =
        s.outstanding ++ [⟨k, c, batch.logicalStart, batch.logicalEnd, view.view⟩] := (List.append_assoc ..).symm
    exact .returns hopen hy hmem hgone hout rfl rfl rfl rfl rfl

/-- A section that keeps the tasks keeps the books. -/
theorem ledger_of_aside (h : Aside s t) (htask : t.writer.task? = s.writer.task?) (hnext : s.nextCompletion ≤ t.nextCompletion)
    (hcount : s.count ≤ t.count) : Ledger s t :=
  .keeps (by rw [State.outstanding, State.outstanding, htask, h.queue]) h.returned h.raised h.resolved hnext hcount

/-- Every step keeps the books. -/
theorem ledger_step (h : step s a = some t) : Ledger s t := by
  cases moves_of_step h with
  | begins haside hwriter hnext hcount =>
    exact ledger_of_aside haside (congrArg Writer.task? hwriter) hnext.ge (hcount ▸ Nat.le_succ _)
  | keeps haside hwriter hnext hputs => exact ledger_of_aside haside (congrArg Writer.task? hwriter) hnext hputs.1.ge
  | enqueue h => exact ledger_enqueue h
  | takes hwriter hqueue =>
    refine .keeps ?_ rfl rfl rfl le_rfl le_rfl
    rw [State.outstanding, State.outstanding, hwriter, hqueue]
    rfl
  | works hturn =>
    cases hturn with
    | goes haside hnext hputs hwriter => exact ledger_of_aside haside hwriter.1 hnext.ge hputs.1.ge
    | releases hw ht =>
      subst ht
      exact .keeps (by rw [State.outstanding, State.outstanding, hw]; rfl) rfl rfl rfl le_rfl le_rfl
    | resolves hw ht =>
      subst ht
      exact .resolves (by rw [State.outstanding, hw]; rfl) rfl rfl rfl rfl rfl

/-- Completions stay in order and apart from one another. -/
theorem Completions.step (hc : Completions s) (h : step s a = some t) : Completions t := by
  have hbooks := ledger_step h
  have hnext := hbooks.next_le
  -- what is held after the step and which of the books it is in
  have hheld : ∀ i y, t.journals i = some y → ∀ c ∈ y.held, c < t.nextCompletion ∧ c ∉ s.returned ∧ c ∉ s.raised := by
    intro i y hy c hmem
    obtain ⟨z, hz, hold⟩ | ⟨-, rfl, hnew⟩ := held_step h hy hmem
    · obtain ⟨hlt, hret, hraised⟩ := hc.held i z hz c hold
      exact ⟨hlt.trans_le hnext, hret, hraised⟩
    · exact ⟨by omega, fun hmem => lt_irrefl _ (hc.old _ hmem), fun hmem => lt_irrefl _ (hc.raised _ hmem).1⟩
  -- the completion that leaves a submission is held by no other
  have hapart : ∀ j z c, s.journals j = some z → c ∈ z.held → (∀ x', t.journals j = some x' → x'.held = []) →
      ∀ i y, t.journals i = some y → c ∉ y.held := by
    intro j z c hz hcz hnone i y hy hmem
    obtain ⟨z', hz', hold⟩ | ⟨-, rfl, -⟩ := held_step h hy hmem
    · obtain rfl := hc.held_unique i z' j z hz' hz c hold hcz
      rw [hnone y hy] at hmem
      cases hmem
    · exact lt_irrefl _ (hc.held j z hz _ hcz).1
  have hunique : ∀ i y i' y', t.journals i = some y → t.journals i' = some y' → ∀ c ∈ y.held, c ∈ y'.held → i = i' := by
    intro i y i' y' hy hy' c hmem hmem'
    obtain ⟨z, hz, hold⟩ | ⟨⟨b, v, r, rfl⟩, rfl, -⟩ := held_step h hy hmem
    · obtain ⟨z', hz', hold'⟩ | ⟨-, rfl, -⟩ := held_step h hy' hmem'
      · exact hc.held_unique i z i' z' hz hz' c hold hold'
      · exact absurd (hc.held i z hz _ hold).1 (lt_irrefl _)
    obtain ⟨z', hz', hold'⟩ | ⟨⟨b', v', r', heq⟩, -, -⟩ := held_step h hy' hmem'
    · exact absurd (hc.held i' z' hz' _ hold').1 (lt_irrefl _)
    · cases heq
      rfl
  cases hbooks with
  | keeps hout hret hraised hres _ _ =>
    constructor
    case returned_eq => rw [hret, hres, hout, hc.returned_eq]
    case nodup => exact hret ▸ hc.nodup
    case old => exact fun c hmem => (hc.old c (hret ▸ hmem)).trans_le hnext
    case raised =>
      intro c hmem
      rw [hraised] at hmem
      exact ⟨(hc.raised c hmem).1.trans_le hnext, hret ▸ (hc.raised c hmem).2⟩
    case held => rw [hret, hraised]; exact hheld
    case held_unique => exact hunique
  | @returns y task _ hy hmem hnone hout hret hraised hres _ _ =>
    obtain ⟨hlt, hnew, hnot⟩ := hc.held _ _ hy _ hmem
    constructor
    case returned_eq => rw [hret, hres, hout, hc.returned_eq, List.map_append, List.append_assoc]; rfl
    case nodup =>
      rw [hret]
      exact List.nodup_append.mpr ⟨hc.nodup, List.nodup_singleton _, by simpa using fun a ha => ne_of_mem_of_not_mem ha hnew⟩
    case old =>
      intro c hc'
      rw [hret, mem_append, mem_singleton] at hc'
      obtain hold | rfl := hc'
      · exact (hc.old c hold).trans_le hnext
      · exact hlt.trans_le hnext
    case raised =>
      intro c hc'
      rw [hraised] at hc'
      refine ⟨(hc.raised c hc').1.trans_le hnext, ?_⟩
      rw [hret, mem_append, mem_singleton, not_or]
      exact ⟨(hc.raised c hc').2, ne_of_mem_of_not_mem hc' hnot⟩
    case held =>
      intro i z hz c hcz
      obtain ⟨hlt', hret', hraised'⟩ := hheld i z hz c hcz
      rw [hret, hraised, mem_append, mem_singleton, not_or]
      refine ⟨hlt', ⟨hret', ?_⟩, hraised'⟩
      rintro rfl
      exact hapart _ _ _ hy hmem hnone i z hz hcz
    case held_unique => exact hunique
  | @raises j c y hy hmem hnone hout hret hraised hres _ _ =>
    obtain ⟨hlt, hnew, hnot⟩ := hc.held _ _ hy _ hmem
    constructor
    case returned_eq => rw [hret, hres, hout, hc.returned_eq]
    case nodup => exact hret ▸ hc.nodup
    case old => exact fun c hmem => (hc.old c (hret ▸ hmem)).trans_le hnext
    case raised =>
      intro c' hc'
      rw [hraised, List.mem_cons] at hc'
      rw [hret]
      obtain rfl | hold := hc'
      · exact ⟨hlt.trans_le hnext, hnew⟩
      · exact ⟨(hc.raised c' hold).1.trans_le hnext, (hc.raised c' hold).2⟩
    case held =>
      intro i z hz c' hcz
      obtain ⟨hlt', hret', hraised'⟩ := hheld i z hz c' hcz
      rw [hret, hraised, List.mem_cons, not_or]
      refine ⟨hlt', hret', ?_, hraised'⟩
      rintro rfl
      exact hapart _ _ _ hy hmem hnone i z hz hcz
    case held_unique => exact hunique
  | @resolves task ok hout hret hraised hres _ _ =>
    constructor
    case returned_eq => rw [hret, hres, hc.returned_eq, hout]; simp
    case nodup => exact hret ▸ hc.nodup
    case old => exact fun c hmem => (hc.old c (hret ▸ hmem)).trans_le hnext
    case raised =>
      intro c hmem
      rw [hraised] at hmem
      exact ⟨(hc.raised c hmem).1.trans_le hnext, hret ▸ (hc.raised c hmem).2⟩
    case held => rw [hret, hraised]; exact hheld
    case held_unique => exact hunique

theorem outstanding_step (h : Ledger s t) (hj : ∀ task ∈ s.outstanding, task.journal < s.count)
    (hbelow : ∀ i y, s.journals i = some y → i < s.count) : ∀ task ∈ t.outstanding, task.journal < s.count := by
  intro task htask
  cases h with
  | keeps hout => exact hj task (hout ▸ htask)
  | returns _ hy _ _ hout =>
    rw [hout, mem_append, mem_singleton] at htask
    obtain hold | rfl := htask
    · exact hj task hold
    · exact hbelow _ _ hy
  | raises _ _ _ hout => exact hj task (hout ▸ htask)
  | resolves hout => exact hj task (hout ▸ List.mem_cons_of_mem _ htask)

/-- The writer works on no journal that is not there. -/
theorem Journals.on_count (hj : Journals s) (hw : t.writer = s.writer) : t.writer.on s.count = .idle := by
  rw [hw, Writer.on, if_neg]
  intro hany
  obtain ⟨task, htask, hi⟩ := (Option.any_eq_true _ _).mp hany
  exact absurd (of_decide_eq_true hi) (hj.tasks task (List.mem_append_left _ (Option.mem_toList.mpr htask))).ne

/-- No queued task is of a journal that is not there. -/
theorem Journals.line_count (hj : Journals s) (hq : t.queue = s.queue) : t.line s.count = [] := by
  rw [State.line, hq]
  exact List.filter_eq_nil_iff.mpr fun task htask hi =>
    absurd (of_decide_eq_true hi) (hj.tasks task (List.mem_append_right _ htask)).ne

/-- Journals keep living their lives. -/
theorem Journals.step (hj : Journals s) (hc : Completions s) (h : step s a = some t) : Journals t := by
  have hfresh : ∀ i y, s.journals i = some y → s.nextCompletion ∉ y.pending :=
    fun i y hy hmem => lt_irrefl _ (pending_old hj hc hy _ hmem)
  have hcount := (ledger_step h).count_le
  have hlocal := fun i y (hy : t.journals i = some y) => local_step h hy hj.below hfresh
  constructor
  case below =>
    intro i y hy
    obtain ⟨x, hx, -⟩ | ⟨-, rfl, -, -, -, hnew⟩ := hlocal i y hy
    · exact (hj.below i x hx).trans_le hcount
    · omega
  case tasks =>
    exact fun task htask => (outstanding_step (ledger_step h) hj.tasks hj.below task htask).trans_le hcount
  case life =>
    intro i y hy
    obtain ⟨x, hx, ⟨rfl, hw, hl⟩ | hmove⟩ | ⟨-, rfl, ⟨r, d, n, rfl⟩, hw, hq, -⟩ := hlocal i y hy
    · rw [hw, hl]
      exact hj.life i y hx
    · exact hmove.lifecycle (hj.life i x hx)
    · rw [hj.on_count hw, hj.line_count hq]
      exact Lifecycle.begin r d n
  case coverage =>
    intro i y hy
    obtain ⟨x, hx, ⟨rfl, hw, hl⟩ | hmove⟩ | ⟨-, rfl, ⟨r, d, n, rfl⟩, hw, hq, -⟩ := hlocal i y hy
    · rw [hw, hl]
      exact hj.coverage i y hx
    · exact hmove.coverage (hj.coverage i x hx) (hj.life i x hx)
    · rw [hj.on_count hw, hj.line_count hq]
      exact Coverage.begin r d n

end SparkRing.Snapshot
