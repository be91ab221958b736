import SparkRing.SnapshotMoves

/-!
# The life of one journal

The completions a journal counts are those of the task at the writer, of its queued
tasks and of the submission that holds its lock. The store's abort is called once, after
the last of them left an aborted journal, and never for a committed one.
-/

namespace SparkRing.Snapshot

variable {w w' : Writer} {line line' : List Task} {x x' : Journal} {task : Task} {batch : SnapshotBatch} {view : SnapshotView} {c : ℕ}
  {ok : Bool}

/-- The completion of a submission that holds the lock. -/
def Journal.held (x : Journal) : List ℕ :=
  match x.hold with
  | some (.submitting completion _ _) => [completion]
  | _ => []

/-- The lock is held for the store's abort. -/
def Journal.aborts (x : Journal) : Bool :=
  match x.hold with
  | some (.aborting _) => true
  | _ => false

/-- The writer runs the store's abort. -/
def Writer.finalizes : Writer → Bool
  | .finalizing _ _ => true
  | _ => false

/-- The life of a journal as far as the lock, the completions and the store's abort go. -/
structure Lifecycle (w : Writer) (line : List Task) (x : Journal) : Prop where
  /-- The completions counted are those of submitted tasks that have not ended. -/
  pending_eq : x.pending = (w.live.toList ++ line).map Task.completion ++ x.held
  /-- No completion is counted twice. -/
  pending_nodup : x.pending.Nodup
  /-- A submission holds the lock of an open journal. -/
  submitting : ∀ c b v, x.hold = some (.submitting c b v) → x.state = .open
  committing : x.hold = some .committing → x.state = .open ∧ x.covered = true
  /-- The store's abort runs for an aborted journal without completions, for the first time. -/
  aborting : x.aborts = true → x.state = .aborted ∧ x.pending = [] ∧ x.abortFinalized = false
  /-- The store's abort was called for an aborted journal without completions. -/
  finalized : x.abortFinalized = true → x.state = .aborted ∧ x.pending = []
  /-- An aborted journal without completions has called it or is calling it. -/
  ends : x.state = .aborted → x.pending = [] → x.abortFinalized = true ∨ x.aborts = true
  /-- The writer runs the store's abort exactly when the journal's lock is held for that. -/
  writer : x.hold = some (.aborting true) ↔ w.finalizes = true
  begun : x.store.count .abortBegins = if x.abortFinalized || x.aborts then 1 else 0
  ended : x.store.count .abortEnded = if x.abortFinalized then 1 else 0
  /-- A committed journal is done. -/
  committed : x.state = .committed → x.pending = [] ∧ x.hold = none

theorem abortLocked_waiting (h : x.pending ≠ []) : x.abortLocked = { x with state := .aborted } := by
  rw [Journal.abortLocked, Journal.finalizeAbort, if_pos (.inl h)]

theorem abortLocked_last (h : x.pending = []) (hf : x.abortFinalized = false) :
    x.abortLocked = { x with state := .aborted, hold := some (.aborting false), store := .abortBegins :: x.store } := by
  rw [Journal.abortLocked, Journal.finalizeAbort, if_neg (by simp [h, hf])]

theorem completionDone_last (hs : x.state = .aborted) (h : x.pending.erase c = []) (hf : x.abortFinalized = false) :
    x.completionDone c =
      { x with pending := [], hold := some (.aborting true), store := .abortBegins :: x.store } := by
  simp [Journal.completionDone, hs, Journal.finalizeAbort, h, hf]

theorem completionDone_more (h : x.state ≠ .aborted ∨ x.pending.erase c ≠ [] ∨ x.abortFinalized = true) :
    x.completionDone c = { x with pending := x.pending.erase c } := by
  unfold Journal.completionDone
  by_cases hs : x.state = .aborted
  · have hmore := h.resolve_left (not_not.mpr hs)
    simp only [hs, if_true]
    rw [Journal.finalizeAbort, if_pos hmore]
  · simp [hs]

namespace Lifecycle

/-- An open journal has not called the store's abort. -/
theorem not_finalized (h : Lifecycle w line x) (hopen : x.state ≠ .aborted) : x.abortFinalized = false :=
  Bool.eq_false_iff.mpr fun hf => hopen (h.finalized hf).1

/-- A move that leaves the journal's life as it is. -/
theorem turn (h : Lifecycle w line x) (hlive : w'.live.toList ++ line' = w.live.toList ++ line)
    (hfin : w'.finalizes = w.finalizes) (hpending : x'.pending = x.pending) (hstate : x'.state = x.state)
    (hhold : x'.hold = x.hold) (hf : x'.abortFinalized = x.abortFinalized) (hcovered : x'.covered = x.covered ∨ x.hold ≠ some .committing)
    (hbegun : x'.store.count .abortBegins = x.store.count .abortBegins)
    (hended : x'.store.count .abortEnded = x.store.count .abortEnded) : Lifecycle w' line' x' := by
  have hheld : x'.held = x.held := by rw [Journal.held, Journal.held, hhold]
  have haborts : x'.aborts = x.aborts := by rw [Journal.aborts, Journal.aborts, hhold]
  constructor
  case pending_eq => rw [hpending, hlive, hheld, h.pending_eq]
  case pending_nodup => exact hpending ▸ h.pending_nodup
  case submitting => rw [hhold, hstate]; exact h.submitting
  case committing =>
    rw [hhold, hstate]
    intro hc
    exact ⟨(h.committing hc).1, hcovered.elim (fun heq => heq.trans (h.committing hc).2) fun hno => absurd hc hno⟩
  case aborting => rw [haborts, hstate, hpending, hf]; exact h.aborting
  case finalized => rw [hf, hstate, hpending]; exact h.finalized
  case ends => rw [hf, hstate, hpending, haborts]; exact h.ends
  case writer => rw [hhold, hfin]; exact h.writer
  case begun => rw [hbegun, hf, haborts]; exact h.begun
  case ended => rw [hended, hf]; exact h.ended
  case committed => rw [hstate, hpending, hhold]; exact h.committed

/-- The store's abort of an open journal was not called, unless it is being called. -/
theorem quiet (h : Lifecycle w line x) (hopen : x.state = .open) (haborts : x.aborts = false) :
    x.abortFinalized = false ∧ w.finalizes = false ∧ x.store.count .abortBegins = 0 ∧ x.store.count .abortEnded = 0 := by
  have hf := h.not_finalized (by simp [hopen])
  refine ⟨hf, Bool.eq_false_iff.mpr fun hw => ?_, by simpa [hf, haborts] using h.begun, by simpa [hf] using h.ended⟩
  rw [Journal.aborts, h.writer.mpr hw] at haborts
  cases haborts

/-- A journal that is not aborted, and for which the store's abort was not called. -/
theorem of_quiet (hstate : x.state ≠ .aborted) (hf : x.abortFinalized = false) (haborts : x.aborts = false)
    (hw : w.finalizes = false) (hbegun : x.store.count .abortBegins = 0) (hended : x.store.count .abortEnded = 0)
    (hpending : x.pending = (w.live.toList ++ line).map Task.completion ++ x.held) (hnodup : x.pending.Nodup)
    (hsubmitting : ∀ c b v, x.hold = some (.submitting c b v) → x.state = .open)
    (hcommitting : x.hold = some .committing → x.state = .open ∧ x.covered = true)
    (hcommitted : x.state = .committed → x.pending = [] ∧ x.hold = none) : Lifecycle w line x where
  pending_eq := hpending
  pending_nodup := hnodup
  submitting := hsubmitting
  committing := hcommitting
  aborting hno := by simp [haborts] at hno
  finalized hno := by simp [hf] at hno
  ends hno := absurd hno hstate
  writer := by
    rw [hw]
    exact iff_of_false (fun hhold => by simp [Journal.aborts, hhold] at haborts) Bool.false_ne_true
  begun := by simp [hbegun, hf, haborts]
  ended := by simp [hended, hf]
  committed := hcommitted

section

variable (h : Lifecycle w line x)

include h

/-- Aborting an open journal calls the store's abort when no completion is pending. -/
theorem abortLocked (hhold : x.hold = none) (hopen : x.state = .open) : Lifecycle w line x.abortLocked := by
  obtain ⟨hf, hwriter, hbegun, hended⟩ := h.quiet hopen (by rw [Journal.aborts, hhold])
  have hheld : x.held = [] := by rw [Journal.held, hhold]
  have hpending := h.pending_eq
  rw [hheld, List.append_nil] at hpending
  by_cases hp : x.pending = []
  · rw [abortLocked_last hp hf]
    constructor
    case pending_eq => simpa [Journal.held] using hpending
    case pending_nodup => exact h.pending_nodup
    case submitting => nofun
    case committing => nofun
    case aborting => exact fun _ => ⟨rfl, hp, hf⟩
    case finalized => exact fun hno => by simp [hf] at hno
    case ends => exact fun _ _ => .inr rfl
    case writer => simp [hwriter]
    case begun => simp [hf, hbegun, Journal.aborts]
    case ended => simp [hf, hended]
    case committed => nofun
  · rw [abortLocked_waiting hp]
    constructor
    case pending_eq => simpa [Journal.held, hhold] using hpending
    case pending_nodup => exact h.pending_nodup
    case submitting => exact fun c b v hno => by simp [hhold] at hno
    case committing => exact fun hno => by simp [hhold] at hno
    case aborting => exact fun hno => by simp [Journal.aborts, hhold] at hno
    case finalized => exact fun hno => by simp [hf] at hno
    case ends => exact fun _ hno => absurd hno hp
    case writer => simp [hwriter, hhold]
    case begun => simp [hf, hbegun, Journal.aborts, hhold]
    case ended => simp [hf, hended]
    case committed => nofun

/-- A submission registers a new completion. -/
theorem registers (hhold : x.hold = none) (hopen : x.state = .open) (hc : c ∉ x.pending) (hx' : x'.pending = x.pending ++ [c])
    (hstate : x'.state = .open) (hh : x'.hold = some (.submitting c batch view)) (hf' : x'.abortFinalized = x.abortFinalized)
    (hstore : x'.store = x.store) : Lifecycle w line x' := by
  obtain ⟨hf, hwriter, hbegun, hended⟩ := h.quiet hopen (by rw [Journal.aborts, hhold])
  have hheld : x.held = [] := by rw [Journal.held, hhold]
  have hpending := h.pending_eq
  rw [hheld, List.append_nil] at hpending
  refine of_quiet (by rw [hstate]; nofun) (hf'.trans hf) (by rw [Journal.aborts, hh]) hwriter (hstore ▸ hbegun) (hstore ▸ hended) ?_ ?_
    (fun _ _ _ _ => hstate) (by rw [hh]; nofun) (by rw [hstate]; nofun)
  · rw [hx', ← hpending, Journal.held, hh]
  · rw [hx']
    exact List.nodup_append.mpr ⟨h.pending_nodup, List.nodup_singleton c, by simpa using fun a ha => ne_of_mem_of_not_mem ha hc⟩

/-- A submission lets go of the lock: its task is queued. -/
theorem enqueues
    (hh : x.hold = some (.submitting c batch view)) (htask : task.completion = c) :
    Lifecycle w (line ++ [task]) { x with hold := none } := by
  have hopen := h.submitting _ _ _ hh
  obtain ⟨hf, hwriter, hbegun, hended⟩ := h.quiet hopen (by rw [Journal.aborts, hh])
  have hheld : x.held = [c] := by rw [Journal.held, hh]
  have hpending := h.pending_eq
  rw [hheld] at hpending
  exact of_quiet (by simp [hopen]) hf rfl hwriter hbegun hended (by simpa [Journal.held, htask] using hpending) h.pending_nodup
    nofun nofun (fun hno => by simp [hopen] at hno)

/-- A submission lets go of the lock: its completion is dropped. -/
theorem drops
    (hh : x.hold = some (.submitting c batch view)) :
    Lifecycle w line { x with pending := x.pending.erase c, hold := none } := by
  have hopen := h.submitting _ _ _ hh
  obtain ⟨hf, hwriter, hbegun, hended⟩ := h.quiet hopen (by rw [Journal.aborts, hh])
  have hheld : x.held = [c] := by rw [Journal.held, hh]
  have hpending : x.pending.erase c = (w.live.toList ++ line).map Task.completion := by
    have hnodup := h.pending_nodup
    rw [h.pending_eq, hheld] at hnodup ⊢
    have hnot : c ∉ (w.live.toList ++ line).map Task.completion := fun hin =>
      (List.nodup_append.mp hnodup).2.2 c hin c (List.mem_singleton.mpr rfl) rfl
    rw [List.erase_append_right _ hnot, List.erase_cons_head, List.append_nil]
  exact of_quiet (by simp [hopen]) hf rfl hwriter hbegun hended (by simp [hpending, Journal.held]) (h.pending_nodup.erase c)
    nofun nofun (fun hno => by simp [hopen] at hno)

/-- The store's abort ended. -/
theorem aborted (ha : x.aborts = true) (hlive : w'.live = w.live) (hfin : w'.finalizes = false) : Lifecycle w' line x.aborted := by
  obtain ⟨hs, hp, hf⟩ := h.aborting ha
  have hheld : x.held = [] := by
    rw [Journal.aborts] at ha
    rw [Journal.held]
    split at ha
    next hhold => rw [hhold]
    next => cases ha
  have hpending := h.pending_eq
  rw [hheld] at hpending
  constructor
  case pending_eq => simpa [Journal.aborted, Journal.held, hlive] using hpending
  case pending_nodup => exact h.pending_nodup
  case submitting => nofun
  case committing => nofun
  case aborting => nofun
  case finalized => exact fun _ => ⟨hs, hp⟩
  case ends => exact fun _ _ => .inl rfl
  case writer => simp [Journal.aborted, hfin]
  case begun => simpa [Journal.aborted, hf, ha] using h.begun
  case ended => simpa [Journal.aborted, hf] using h.ended
  case committed => exact fun hno => by simp [Journal.aborted, hs] at hno

/-- The completion of the writer's task is counted first. -/
theorem pending_cons (hw : w.live = some task) :
    ∃ rest, x.pending = task.completion :: rest ∧ rest = line.map Task.completion ++ x.held := by
  have hpending := h.pending_eq
  rw [hw] at hpending
  exact ⟨_, hpending, rfl⟩

end

/-- A completion leaves, and the store's abort does not start. -/
theorem leaves (h : Lifecycle (.ending task ok) line x) (hhold : x.hold = none) (hfree : (x.completionDone task.completion).hold = none) :
    Lifecycle (.releasing task ok) line (x.completionDone task.completion) := by
  obtain ⟨rest, hp, hrest⟩ := h.pending_cons rfl
  have hheld : x.held = [] := by rw [Journal.held, hhold]
  have hf : x.abortFinalized = false := Bool.eq_false_iff.mpr fun hf => by simp [(h.finalized hf).2] at hp
  have herase : x.pending.erase task.completion = rest := by rw [hp, List.erase_cons_head]
  have hbegun := h.begun
  have hmore : x.state ≠ .aborted ∨ x.pending.erase task.completion ≠ [] ∨ x.abortFinalized = true := by
    by_contra hno
    rw [not_or, not_or, not_not, not_not, Bool.not_eq_true] at hno
    rw [completionDone_last hno.1 hno.2.1 hno.2.2] at hfree
    cases hfree
  rw [completionDone_more hmore, herase]
  rw [herase] at hmore
  constructor
  case pending_eq => simpa [Journal.held, hhold, hheld, Writer.live] using hrest
  case pending_nodup => exact (List.nodup_cons.mp (hp ▸ h.pending_nodup)).2
  case submitting => exact fun _ _ _ hno => by simp [hhold] at hno
  case committing => exact fun hno => by simp [hhold] at hno
  case aborting => exact fun hno => by simp [Journal.aborts, hhold] at hno
  case finalized => exact fun hno => by simp [hf] at hno
  case ends => exact fun hs hnone => (hmore.elim (fun hno => absurd hs hno) fun h => h.elim (fun hno => absurd hnone hno) .inl)
  case writer => simp [hhold, Writer.finalizes]
  case begun => simpa [hf, Journal.aborts, hhold] using hbegun
  case ended => exact h.ended
  case committed => exact fun hs => by simp [(h.committed hs).1] at hp

/-- The last completion of an aborted journal leaves, and the store's abort starts. -/
theorem finalizes (h : Lifecycle (.ending task ok) line x) (hhold : x.hold = none)
    (hbusy : (x.completionDone task.completion).hold ≠ none) : Lifecycle (.finalizing task ok) line (x.completionDone task.completion) := by
  obtain ⟨rest, hp, hrest⟩ := h.pending_cons rfl
  have haborts : x.aborts = false := by rw [Journal.aborts, hhold]
  have hheld : x.held = [] := by rw [Journal.held, hhold]
  have herase : x.pending.erase task.completion = rest := by rw [hp, List.erase_cons_head]
  have hbegun := h.begun
  have hlast : x.state = .aborted ∧ x.pending.erase task.completion = [] ∧ x.abortFinalized = false := by
    by_contra hno
    have hmore : x.state ≠ .aborted ∨ x.pending.erase task.completion ≠ [] ∨ x.abortFinalized = true := by
      by_contra hall
      rw [not_or, not_or, not_not, not_not, Bool.not_eq_true] at hall
      exact hno hall
    rw [completionDone_more hmore] at hbusy
    exact hbusy hhold
  obtain ⟨hs, hempty, hf⟩ := hlast
  rw [hf, haborts] at hbegun
  rw [completionDone_last hs hempty hf]
  rw [herase] at hempty
  rw [hempty, hheld, List.append_nil] at hrest
  constructor
  case pending_eq => simpa [Journal.held, Writer.live] using hrest
  case pending_nodup => exact List.nodup_nil
  case submitting => nofun
  case committing => nofun
  case aborting => exact fun _ => ⟨hs, rfl, hf⟩
  case finalized => exact fun hno => by simp [hf] at hno
  case ends => exact fun _ _ => .inr rfl
  case writer => simp [Writer.finalizes]
  case begun => simpa [hf, Journal.aborts] using hbegun
  case ended => simpa using h.ended
  case committed => exact fun hno => by simp [hs] at hno

/-- A new journal. -/
theorem begin (requestId contextDigest : String) (spanTokens : ℕ) : Lifecycle .idle [] (.begin requestId contextDigest spanTokens) where
  pending_eq := rfl
  pending_nodup := List.nodup_nil
  submitting := nofun
  committing := nofun
  aborting := nofun
  finalized := nofun
  ends := nofun
  writer := ⟨nofun, nofun⟩
  begun := rfl
  ended := rfl
  committed := nofun

/-- The lock of a covered journal is taken for the store's commit. -/
theorem commits (h : Lifecycle w line x) (hhold : x.hold = none) (hopen : x.state = .open) (hcovered : x.covered = true) :
    Lifecycle w line { x with hold := some .committing, store := .commitBegins :: x.store } := by
  obtain ⟨hf, hwriter, hbegun, hended⟩ := h.quiet hopen (by rw [Journal.aborts, hhold])
  have hheld : x.held = [] := by rw [Journal.held, hhold]
  have hpending := h.pending_eq
  rw [hheld] at hpending
  exact of_quiet (by simp [hopen]) hf rfl hwriter (by simpa using hbegun) (by simpa using hended) (by simpa [Journal.held] using hpending)
    h.pending_nodup nofun (fun _ => ⟨hopen, hcovered⟩) (fun hno => by simp [hopen] at hno)

/-- The lock is released after the store's commit. -/
theorem commitEnds (h : Lifecycle w line x) (hhold : x.hold = some .committing) {state : JournalState} {event : StoreEvent}
    (hstate : state ≠ .aborted) (he : event ≠ .abortBegins) (he' : event ≠ .abortEnded) :
    Lifecycle w line { x with state := state, hold := none, store := event :: x.store } := by
  obtain ⟨hopen, hcovered⟩ := h.committing hhold
  obtain ⟨hf, hwriter, hbegun, hended⟩ := h.quiet hopen (by rw [Journal.aborts, hhold])
  have hempty : x.pending = [] := (of_decide_eq_true hcovered).1
  have hheld : x.held = [] := by rw [Journal.held, hhold]
  have hpending := h.pending_eq
  rw [hheld] at hpending
  exact of_quiet hstate hf rfl hwriter (by simpa [he] using hbegun) (by simpa [he'] using hended) (by simpa [Journal.held] using hpending)
    h.pending_nodup nofun nofun fun _ => ⟨hempty, rfl⟩

end Lifecycle

/-- Every move continues the life of the journal. -/
theorem Move.lifecycle (hm : Move w line x w' line' x') (h : Lifecycle w line x) : Lifecycle w' line' x' := by
  cases hm with
  | registers hhold hopen _ hc => exact h.registers hhold hopen hc rfl hopen rfl rfl rfl
  | aborts hhold hopen => exact h.abortLocked hhold hopen
  | enqueues hhold hc _ _ => exact h.enqueues hhold hc
  | drops hhold => exact (h.drops hhold).abortLocked rfl (h.submitting _ _ _ hhold)
  | commits hhold hopen hcovered => exact h.commits hhold hopen hcovered
  | committed hhold => exact h.commitEnds hhold nofun nofun nofun
  | commitRaises hhold =>
    have hopen := (h.committing hhold).1
    rw [show x.state = .open from hopen] at *
    exact h.commitEnds hhold nofun nofun nofun
  | abortEnds hhold =>
    have hwriter : w.finalizes = false := Bool.eq_false_iff.mpr fun hw => by simpa [hhold] using h.writer.mpr hw
    exact h.aborted (by rw [Journal.aborts, hhold]) rfl hwriter
  | takes | starts | yields | exhausts | notesNot | failsNot | releases | resolves =>
    exact h.turn rfl rfl rfl rfl rfl rfl (.inl rfl) rfl rfl
  | quits hlive _ | fails hlive _ =>
    refine h.turn (by rw [hlive]; rfl) ?_ rfl rfl rfl rfl (.inl rfl) rfl rfl
    cases w <;> first | rfl | cases hlive
  | appends | appended | appendRaises =>
    exact h.turn rfl rfl rfl rfl rfl rfl (.inl rfl) (by simp [Journal.record]) (by simp [Journal.record])
  | notes =>
    refine h.turn rfl rfl rfl rfl rfl rfl (.inr fun hno => ?_) rfl rfl
    obtain ⟨rest, hp, -⟩ := h.pending_cons rfl
    have hempty := (of_decide_eq_true (h.committing hno).2).1
    rw [hempty] at hp
    cases hp
  | failsOpen hhold hopen =>
    exact Lifecycle.abortLocked (h.turn rfl rfl rfl rfl rfl rfl (.inl rfl) rfl rfl) hhold hopen
  | leaves hhold hfree => exact h.leaves hhold hfree
  | finalizes hhold hbusy => exact h.finalizes hhold hbusy
  | finalized => exact h.aborted (by rw [Journal.aborts, h.writer.mpr rfl]) rfl rfl

end SparkRing.Snapshot
