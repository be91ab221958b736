import SparkRing.SnapshotJournal

/-!
# What one journal sees of the system

A journal sees the writer thread while it works on one of its tasks, the tasks of its
own that are queued, and itself. Every section of a thread leaves that view as it is or
is one of the moves below.
-/

namespace SparkRing.Snapshot

open Function
open Option (bind_eq_some_iff map_eq_some_iff some.injEq)

namespace Journal

variable (x : Journal) (b : Bool) (c : ℕ) {r : String} {w' : Writer}

theorem finalizeAbort_fields : (x.finalizeAbort b).state = x.state ∧ (x.finalizeAbort b).requestId = x.requestId ∧
    (x.finalizeAbort b).spanTokens = x.spanTokens ∧ (x.finalizeAbort b).pending = x.pending := by
  unfold finalizeAbort
  split <;> exact ⟨rfl, rfl, rfl, rfl⟩

@[simp] theorem abortLocked_state : x.abortLocked.state = .aborted := (finalizeAbort_fields _ _).1

@[simp] theorem abortLocked_requestId : x.abortLocked.requestId = x.requestId := (finalizeAbort_fields _ _).2.1

theorem completionDone_fields : (x.completionDone c).state = x.state ∧ (x.completionDone c).requestId = x.requestId ∧
    (x.completionDone c).spanTokens = x.spanTokens ∧ (x.completionDone c).pending = x.pending.erase c := by
  unfold completionDone
  dsimp only
  split
  · exact finalizeAbort_fields _ _
  · exact ⟨rfl, rfl, rfl, rfl⟩

end Journal

/-- The writer as a journal sees it. -/
def Writer.on (w : Writer) (j : ℕ) : Writer := if w.task?.any fun t => decide (t.journal = j) then w else .idle

def State.line (s : State) (j : ℕ) : List Task := s.queue.filter fun t => decide (t.journal = j)

/-- The task whose completion the journal still counts. -/
def Writer.live : Writer → Option Task
  | .starting task | .reading task _ | .checking task _ _ | .appending task _ | .noting task _ | .failing task
  | .ending task _ => some task
  | .idle | .finalizing .. | .releasing .. | .resolving .. => none

/-- The journal after the store's abort returned. -/
def Journal.aborted (x : Journal) : Journal :=
  { x with abortFinalized := true, hold := none, store := .abortEnded :: x.store }

/-- One step of a journal's view. -/
inductive Move : Writer → List Task → Journal → Writer → List Task → Journal → Prop
  | registers {w line} {x : Journal} {completion batch view rows} : x.hold = none → x.state = .open →
      x.validSubmission batch view rows = true → completion ∉ x.pending →
      Move w line x w line { x with
        pending := x.pending ++ [completion]
        nextBatchIndex := x.nextBatchIndex + 1
        nextSubmitted := batch.logicalEnd
        hold := some (.submitting completion batch view) }
  | aborts {w line} {x : Journal} : x.hold = none → x.state = .open → Move w line x w line x.abortLocked
  /-- A registered task is queued. -/
  | enqueues {w line} {x : Journal} {completion batch view} {task : Task} :
      x.hold = some (.submitting completion batch view) → task.completion = completion →
      task.start = batch.logicalStart → task.stop = batch.logicalEnd →
      Move w line x w (line ++ [task]) { x with hold := none }
  /-- A registered task is not queued. -/
  | drops {w line} {x : Journal} {completion batch view} : x.hold = some (.submitting completion batch view) →
      Move w line x w line
        ({ x with pending := x.pending.erase completion, hold := none } : Journal).abortLocked
  /-- The store's commit starts. -/
  | commits {w line} {x : Journal} : x.hold = none → x.state = .open → x.covered = true →
      Move w line x w line { x with hold := some .committing, store := .commitBegins :: x.store }
  /-- The store's commit ends well. -/
  | committed {w line} {x : Journal} : x.hold = some .committing →
      Move w line x w line { x with state := .committed, hold := none, store := .committed :: x.store }
  | commitRaises {w line} {x : Journal} : x.hold = some .committing →
      Move w line x w line { x with hold := none, store := .commitRaised :: x.store }
  /-- The store's abort ends in a caller's thread. -/
  | abortEnds {w line} {x : Journal} : x.hold = some (.aborting false) → Move w line x w line x.aborted
  | takes {task line} {x : Journal} : Move .idle (task :: line) x (.starting task) line x
  /-- The writer starts to read. -/
  | starts {task line} {x : Journal} : x.state ≠ .aborted →
      Move (.starting task) line x (.reading task task.start) line x
  /-- The writer finds the journal aborted. -/
  | quits {w task line} {x : Journal} : w.live = some task → x.state = .aborted →
      Move w line x (.ending task true) line x
  | yields {task expected chunk line} {x : Journal} :
      Move (.reading task expected) line x (.checking task expected chunk) line x
  /-- The translator is exhausted where the batch ends. -/
  | exhausts {task line} {x : Journal} : Move (.reading task task.stop) line x (.ending task true) line x
  /-- The translation or an append fails. -/
  | fails {w task line} {x : Journal} : w.live = some task → (∀ ok, w ≠ .ending task ok) →
      Move w line x (.failing task) line x
  | appends {task chunk line} {x : Journal} : x.hold = none → x.state ≠ .aborted → chunk.stop ≤ task.stop →
      Move (.checking task chunk.start chunk) line x (.appending task chunk) line (x.record (.appendBegins chunk))
  /-- An append ends well. -/
  | appended {task chunk line} {x : Journal} :
      Move (.appending task chunk) line x (.noting task chunk.stop) line (x.record (.appended chunk))
  | appendRaises {task chunk line} {x : Journal} :
      Move (.appending task chunk) line x (.failing task) line (x.record (.appendRaised chunk))
  /-- The appended tokens are noted. -/
  | notes {task expected line} {x : Journal} : x.state = .open →
      Move (.noting task expected) line x (.reading task expected) line { x with appendedTokens := expected }
  | notesNot {task expected line} {x : Journal} : x.state ≠ .open →
      Move (.noting task expected) line x (.reading task expected) line x
  | failsOpen {task line} {x : Journal} : x.hold = none → x.state = .open →
      Move (.failing task) line x (.ending task false) line x.abortLocked
  | failsNot {task line} {x : Journal} : x.state ≠ .open → Move (.failing task) line x (.ending task false) line x
  | leaves {task ok line} {x : Journal} : x.hold = none → (x.completionDone task.completion).hold = none →
      Move (.ending task ok) line x (.releasing task ok) line (x.completionDone task.completion)
  /-- The last completion leaves an aborted journal. -/
  | finalizes {task ok line} {x : Journal} : x.hold = none → (x.completionDone task.completion).hold ≠ none →
      Move (.ending task ok) line x (.finalizing task ok) line (x.completionDone task.completion)
  /-- The store's abort ends in the writer thread. -/
  | finalized {task ok ok' line} {x : Journal} : Move (.finalizing task ok) line x (.releasing task ok') line x.aborted
  /-- The writer returns its capacity. -/
  | releases {task ok line} {x : Journal} : Move (.releasing task ok) line x (.resolving task ok) line x
  /-- The completion is resolved. -/
  | resolves {task ok line} {x : Journal} : Move (.resolving task ok) line x .idle line x

/-- What a step does to the view of a journal. -/
def Local (s t : State) (j : ℕ) (x' : Journal) : Prop :=
  (∃ x, s.journals j = some x ∧ (x' = x ∧ t.writer.on j = s.writer.on j ∧ t.line j = s.line j ∨
      Move (s.writer.on j) (s.line j) x (t.writer.on j) (t.line j) x')) ∨
    s.journals j = none ∧ j = s.count ∧ (∃ r d n, x' = .begin r d n) ∧ t.writer = s.writer ∧ t.queue = s.queue ∧
      t.count = s.count + 1

variable {s t : State} {j k : ℕ} {x x' : Journal} {w : Writer} {task : Task}

@[simp] theorem put_writer : (s.put j x).writer = s.writer := rfl

@[simp] theorem put_queue : (s.put j x).queue = s.queue := rfl

@[simp] theorem put_journals_self : (s.put j x).journals j = some x := update_self ..

theorem put_journals_ne (h : k ≠ j) : (s.put j x).journals k = s.journals k := update_of_ne h ..

theorem unlocked_eq_some : s.unlocked j = some x ↔ s.journals j = some x ∧ x.hold = none := by
  simp [State.unlocked, Option.filter_eq_some_iff]

/-- A step behind the lock finds the journal unlocked. -/
theorem exists_of_bind {f : Journal → Option State} (h : (s.unlocked j).bind f = some t) :
    ∃ y, s.journals j = some y ∧ y.hold = none ∧ f y = some t := by
  simpa only [unlocked_eq_some, and_assoc] using bind_eq_some_iff.mp h

theorem exists_of_map {f : Journal → State} (h : (s.unlocked j).map f = some t) : ∃ y, s.journals j = some y ∧ y.hold = none ∧ f y = t := by
  simpa only [unlocked_eq_some, and_assoc] using map_eq_some_iff.mp h

theorem Writer.on_task (h : w.task? = some task) : w.on task.journal = w := by simp [Writer.on, h]

theorem Writer.on_ne (h : w.task? = some task) (hj : task.journal ≠ j) : w.on j = .idle := by simp [Writer.on, h, hj]

@[simp] theorem Writer.on_idle : Writer.idle.on j = .idle := by simp [Writer.on]

variable {y : Journal}

/-- A step that puts one journal is local when it is a move of it. -/
theorem local_of_put (hy : s.journals k = some y) (ht : t.journals j = some x')
    (hjournals : t.journals = update s.journals k (some x)) (hwriter : ∀ i, i ≠ k → t.writer.on i = s.writer.on i)
    (hline : ∀ i, i ≠ k → t.line i = s.line i)
    (hmove : Move (s.writer.on k) (s.line k) y (t.writer.on k) (t.line k) x) : Local s t j x' := by
  by_cases hj : j = k
  · subst hj
    rw [hjournals, update_self, some.injEq] at ht
    subst ht
    exact .inl ⟨y, hy, .inr hmove⟩
  · rw [hjournals, update_of_ne hj] at ht
    exact .inl ⟨x', ht, .inl ⟨rfl, hwriter j hj, hline j hj⟩⟩

/-- A step of callers that puts one journal. -/
theorem local_of_call (hy : s.journals k = some y) (ht : t.journals j = some x')
    (hjournals : t.journals = update s.journals k (some x)) (hwriter : t.writer = s.writer)
    (hqueue : t.queue = s.queue) (hmove : Move (s.writer.on k) (s.line k) y (s.writer.on k) (s.line k) x) : Local s t j x' := by
  have hline : ∀ i, t.line i = s.line i := fun i => by rw [State.line, State.line, hqueue]
  refine local_of_put hy ht hjournals (fun i _ => by rw [hwriter]) (fun i _ => hline i) ?_
  rw [hwriter, hline]
  exact hmove

/-- A step that touches no journal, nor the writer and its queue. -/
theorem local_of_same (ht : t.journals j = some x') (hjournals : t.journals = s.journals) (hwriter : t.writer = s.writer)
    (hqueue : t.queue = s.queue) : Local s t j x' :=
  .inl ⟨x', hjournals ▸ ht, .inl ⟨rfl, by rw [hwriter], by rw [State.line, State.line, hqueue]⟩⟩

/-- A step of the writer that puts the journal of its task. -/
theorem local_of_work (hs : s.writer = w) (hw : w.task? = some task) (hw' : w'.task? = some task)
    (hy : s.journals task.journal = some y) (ht : t.journals j = some x')
    (hjournals : t.journals = update s.journals task.journal (some x)) (hwriter : t.writer = w')
    (hqueue : t.queue = s.queue) (hmove : Move w (s.line task.journal) y w' (s.line task.journal) x) : Local s t j x' := by
  have hline : ∀ i, t.line i = s.line i := fun i => by rw [State.line, State.line, hqueue]
  refine local_of_put hy ht hjournals (fun i hi => ?_) (fun i _ => hline i) ?_
  · rw [hwriter, hs, Writer.on_ne hw' hi.symm, Writer.on_ne hw hi.symm]
  · rw [hwriter, hs, hline, Writer.on_task hw', Writer.on_task hw]
    exact hmove

/-- A step of the writer that leaves the journals. -/
theorem local_of_turn (hs : s.writer = w) (hw : w.task? = some task) (hw' : w'.task? = some task ∨ w' = .idle)
    (ht : t.journals j = some x') (hjournals : t.journals = s.journals) (hwriter : t.writer = w') (hqueue : t.queue = s.queue)
    (hmove : ∀ y, s.journals task.journal = some y → Move w (s.line task.journal) y w' (s.line task.journal) y) : Local s t j x' := by
  have hline : ∀ i, t.line i = s.line i := fun i => by rw [State.line, State.line, hqueue]
  rw [hjournals] at ht
  by_cases hj : j = task.journal
  · subst hj
    refine .inl ⟨x', ht, .inr ?_⟩
    have hon : w'.on task.journal = w' := by
      obtain h | h := hw'
      · exact Writer.on_task h
      · rw [h, Writer.on_idle]
    rw [hwriter, hs, hline, hon, Writer.on_task hw]
    exact hmove x' ht
  refine .inl ⟨x', ht, .inl ⟨rfl, ?_, hline j⟩⟩
  rw [hwriter, hs, Writer.on_ne hw (Ne.symm hj)]
  obtain h | h := hw'
  · exact Writer.on_ne h (Ne.symm hj)
  · rw [h, Writer.on_idle]

theorem retire_journals : (s.retire j r).journals = s.journals := by unfold State.retire; split <;> rfl

theorem retire_writer : (s.retire j r).writer = s.writer := by unfold State.retire; split <;> rfl

theorem retire_queue : (s.retire j r).queue = s.queue := by unfold State.retire; split <;> rfl

theorem finishAbort_journals : (s.finishAbort j x).journals = update s.journals j (some x.aborted) :=
  retire_journals

theorem finishAbort_writer : (s.finishAbort j x).writer = s.writer := retire_writer

theorem finishAbort_queue : (s.finishAbort j x).queue = s.queue := retire_queue

theorem line_append {rest : List Task} (hqueue : t.queue = s.queue ++ rest) :
    t.line j = s.line j ++ rest.filter fun task => decide (task.journal = j) := by
  rw [State.line, hqueue, List.filter_append]
  rfl

theorem local_beginContext {d : String} {n : ℕ} (h : s.beginContext r d n = some t) (ht : t.journals j = some x')
    (hnew : ∀ i y, s.journals i = some y → i < s.count) : Local s t j x' := by
  unfold State.beginContext at h
  split_ifs at h
  cases h
  by_cases hj : j = s.count
  · subst hj
    rw [put_journals_self, some.injEq] at ht
    have hnone : s.journals s.count = none := by
      cases hs : s.journals s.count with
      | none => rfl
      | some => exact absurd (hnew _ _ hs) (lt_irrefl _)
    exact .inr ⟨hnone, rfl, ⟨r, d, n, ht.symm⟩, rfl, rfl, rfl⟩
  · exact .inl ⟨x', (put_journals_ne hj).symm.trans ht, .inl ⟨rfl, rfl, rfl⟩⟩

theorem local_submitReady {batch : SnapshotBatch} {view : SnapshotView} {rows : Option ℕ}
    (h : s.submitReady k batch view rows = some t) (ht : t.journals j = some x')
    (hfresh : ∀ i y, s.journals i = some y → s.nextCompletion ∉ y.pending) : Local s t j x' := by
  obtain ⟨y, hy, hhold, h⟩ := exists_of_bind h
  split_ifs at h with hopen hvalid
  · cases h
    exact local_of_call hy ht rfl rfl rfl (.registers hhold (not_not.mp hopen) hvalid (hfresh _ _ hy))
  · cases h
    exact local_of_call hy ht rfl rfl rfl (.aborts hhold (not_not.mp hopen))

theorem local_enqueue {raises : Bool} (h : s.enqueue k raises = some t) (ht : t.journals j = some x') : Local s t j x' := by
  obtain ⟨y, hy, h⟩ := bind_eq_some_iff.mp h
  split at h
  case h_2 => cases h
  next completion batch view hhold =>
    split_ifs at h with hrefused
    · cases h
      exact local_of_call hy ht rfl rfl rfl (.drops hhold)
    have hqueue : t.queue = s.queue ++ [⟨k, completion, batch.logicalStart, batch.logicalEnd, view.view⟩] := by
      cases h
      rfl
    have hwriter : t.writer = s.writer := by
      cases h
      rfl
    have hjournals : t.journals = update s.journals k (some { y with hold := none }) := by
      cases h
      rfl
    refine local_of_put hy ht hjournals (fun _ _ => by rw [hwriter]) (fun i hi => ?_) ?_
    · rw [line_append hqueue]
      simp [hi.symm]
    rw [line_append hqueue, hwriter]
    have hself : [(⟨k, completion, batch.logicalStart, batch.logicalEnd, view.view⟩ : Task)].filter
        (fun task => decide (task.journal = k)) = [⟨k, completion, batch.logicalStart, batch.logicalEnd, view.view⟩] := by
      simp
    rw [hself]
    exact .enqueues hhold rfl rfl rfl

theorem local_commitManifest (h : s.commitManifest k = some t) (ht : t.journals j = some x') : Local s t j x' := by
  obtain ⟨y, hy, hhold, h⟩ := exists_of_bind h
  split_ifs at h with hready
  cases h
  exact local_of_call hy ht rfl rfl rfl (.commits hhold hready.1 hready.2)

theorem local_commitEnds {ok : Bool} (h : s.commitEnds k ok = some t) (ht : t.journals j = some x') : Local s t j x' := by
  obtain ⟨y, hy, h⟩ := bind_eq_some_iff.mp h
  split_ifs at h with hhold hok
  · cases h
    exact local_of_call hy ht rfl rfl rfl (.committed hhold)
  · cases h
    exact local_of_call hy ht rfl rfl rfl (.commitRaises hhold)

theorem local_abort (h : s.abort k = some t) (ht : t.journals j = some x') : Local s t j x' := by
  obtain ⟨y, hy, hhold, h⟩ := exists_of_bind h
  split_ifs at h with hopen
  cases h
  exact local_of_call hy ht rfl rfl rfl (.aborts hhold hopen)

theorem local_abortEnds (h : s.abortEnds k = some t) (ht : t.journals j = some x') : Local s t j x' := by
  obtain ⟨y, hy, h⟩ := bind_eq_some_iff.mp h
  split_ifs at h with hhold
  cases h
  exact local_of_call hy ht finishAbort_journals finishAbort_writer finishAbort_queue (.abortEnds hhold)

theorem local_shutdownGoesOn (h : s.shutdownGoesOn = some t) (ht : t.journals j = some x') : Local s t j x' := by
  unfold State.shutdownGoesOn at h
  split at h
  · cases h
  · cases h
  · cases h
    exact local_of_same ht rfl rfl rfl
  · obtain ⟨y, hy, hhold, h⟩ := exists_of_bind h
    split_ifs at h with hopen
    · cases h
      exact local_of_call hy ht rfl rfl rfl (.aborts hhold hopen)
    · cases h
      exact local_of_same ht rfl rfl rfl
  · obtain ⟨y, -, h⟩ := bind_eq_some_iff.mp h
    split_ifs at h
    cases h
    exact local_of_same ht rfl rfl rfl
  split_ifs at h
  cases h
  exact local_of_same ht rfl rfl rfl

theorem local_take (h : s.take = some t) (ht : t.journals j = some x') : Local s t j x' := by
  unfold State.take at h
  split at h
  case h_2 => cases h
  next task rest hwriter hqueue =>
    cases h
    refine .inl ⟨x', ht, ?_⟩
    by_cases hj : task.journal = j
    · subst hj
      have hline : s.line task.journal = task :: rest.filter fun t => decide (t.journal = task.journal) := by
        rw [State.line, hqueue, List.filter_cons_of_pos (by simp)]
      rw [hwriter, hline, Writer.on_idle, Writer.on_task rfl]
      exact .inr .takes
    have hline : s.line j = rest.filter fun t => decide (t.journal = j) := by
      rw [State.line, hqueue, List.filter_cons_of_neg (by simpa using hj)]
    refine .inl ⟨rfl, ?_, hline.symm⟩
    rw [hwriter, Writer.on_idle, Writer.on_ne rfl hj]

theorem local_work {outcome : Outcome} (h : s.work outcome = some t) (ht : t.journals j = some x') : Local s t j x' := by
  unfold State.work at h
  cases hw : s.writer with
  | idle =>
    rw [hw] at h
    cases h
  | starting =>
    rw [hw] at h
    obtain ⟨y, hy, hhold, rfl⟩ := exists_of_map h
    by_cases haborted : y.state = .aborted
    · simp only [if_pos haborted] at ht ⊢
      refine local_of_turn hw rfl (.inl rfl) ht rfl rfl rfl fun z hz => ?_
      rw [hy, some.injEq] at hz
      rw [← hz]
      exact .quits rfl haborted
    simp only [if_neg haborted] at ht ⊢
    refine local_of_turn hw rfl (.inl rfl) ht rfl rfl rfl fun z hz => ?_
    rw [hy, some.injEq] at hz
    rw [← hz]
    exact .starts haborted
  | reading task expected =>
    rw [hw] at h
    cases outcome with
    | chunk =>
      cases h
      exact local_of_turn hw rfl (.inl rfl) ht rfl rfl rfl fun _ _ => .yields
    | returns =>
      cases h
      by_cases hend : expected = task.stop
      · simp only [if_pos hend] at ht ⊢
        exact local_of_turn hw rfl (.inl rfl) ht rfl rfl rfl fun _ _ => hend ▸ .exhausts
      · simp only [if_neg hend] at ht ⊢
        exact local_of_turn hw rfl (.inl rfl) ht rfl rfl rfl fun _ _ => .fails rfl nofun
    | raises =>
      cases h
      exact local_of_turn hw rfl (.inl rfl) ht rfl rfl rfl fun _ _ => .fails rfl nofun
  | checking task expected chunk =>
    rw [hw] at h
    obtain ⟨y, hy, hhold, rfl⟩ := exists_of_map h
    by_cases haborted : y.state = .aborted
    · simp only [if_pos haborted] at ht ⊢
      refine local_of_turn hw rfl (.inl rfl) ht rfl rfl rfl fun z hz => ?_
      rw [hy, some.injEq] at hz
      rw [← hz]
      exact .quits rfl haborted
    by_cases hbad : chunk.start ≠ expected ∨ task.stop < chunk.stop
    · simp only [if_neg haborted, if_pos hbad] at ht ⊢
      exact local_of_turn hw rfl (.inl rfl) ht rfl rfl rfl fun _ _ => .fails rfl nofun
    simp only [if_neg haborted, if_neg hbad] at ht ⊢
    refine local_of_work hw rfl rfl hy ht rfl rfl rfl ?_
    obtain ⟨rfl, hstop⟩ : chunk.start = expected ∧ chunk.stop ≤ task.stop := by
      rw [not_or, not_not, not_lt] at hbad
      exact hbad
    exact .appends hhold haborted hstop
  | appending task chunk =>
    rw [hw] at h
    obtain ⟨y, hy, h⟩ := bind_eq_some_iff.mp h
    cases outcome with
    | chunk => cases h
    | returns =>
      cases h
      exact local_of_work hw rfl rfl hy ht rfl rfl rfl (.appended)
    | raises =>
      cases h
      exact local_of_work hw rfl rfl hy ht rfl rfl rfl (.appendRaises)
  | noting =>
    rw [hw] at h
    obtain ⟨y, hy, hhold, rfl⟩ := exists_of_map h
    refine local_of_work hw rfl rfl hy ht rfl rfl rfl ?_
    split_ifs with hopen
    · exact .notes hopen
    · exact .notesNot hopen
  | failing =>
    rw [hw] at h
    obtain ⟨y, hy, hhold, rfl⟩ := exists_of_map h
    refine local_of_work hw rfl rfl hy ht rfl rfl rfl ?_
    split_ifs with hopen
    · exact .failsOpen hhold hopen
    · exact .failsNot hopen
  | ending task ok =>
    rw [hw] at h
    obtain ⟨y, hy, hhold, rfl⟩ := exists_of_map h
    by_cases hfree : (y.completionDone task.completion).hold = none
    · simp only [if_pos hfree] at ht ⊢
      exact local_of_work hw rfl rfl hy ht rfl rfl rfl (.leaves hhold hfree)
    · simp only [if_neg hfree] at ht ⊢
      exact local_of_work hw rfl rfl hy ht rfl rfl rfl (.finalizes hhold hfree)
  | finalizing =>
    rw [hw] at h
    obtain ⟨y, hy, rfl⟩ := map_eq_some_iff.mp h
    exact local_of_work hw rfl rfl hy ht finishAbort_journals rfl finishAbort_queue (.finalized)
  | releasing =>
    rw [hw] at h
    cases h
    exact local_of_turn hw rfl (.inl rfl) ht rfl rfl rfl fun _ _ => .releases
  | resolving =>
    rw [hw] at h
    cases h
    exact local_of_turn hw rfl (.inr rfl) ht rfl rfl rfl fun _ _ => .resolves

/-- Every step leaves the view of a journal or is a move of it. -/
theorem local_step {a : Act} (h : step s a = some t) (ht : t.journals j = some x') (hnew : ∀ i y, s.journals i = some y → i < s.count)
    (hfresh : ∀ i y, s.journals i = some y → s.nextCompletion ∉ y.pending) : Local s t j x' := by
  cases a with
  | begin => exact local_beginContext h ht hnew
  | submit => exact local_submitReady h ht hfresh
  | enqueue => exact local_enqueue h ht
  | commit => exact local_commitManifest h ht
  | commitEnds => exact local_commitEnds h ht
  | retire =>
    obtain ⟨y, -, h⟩ := bind_eq_some_iff.mp h
    split_ifs at h
    cases h
    exact local_of_same ht retire_journals retire_writer retire_queue
  | abort => exact local_abort h ht
  | abortEnds => exact local_abortEnds h ht
  | shutdown =>
    simp only [step] at h
    split_ifs at h
    · cases h
      exact local_of_same ht rfl rfl rfl
    · cases h
      exact local_of_same ht rfl rfl rfl
  | shutdownGoesOn => exact local_shutdownGoesOn h ht
  | take => exact local_take h ht
  | work => exact local_work h ht

end SparkRing.Snapshot
