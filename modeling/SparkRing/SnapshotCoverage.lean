import SparkRing.SnapshotLifecycle

/-!
# What a journal has appended

While a journal is open the chunks appended to its store transaction are consecutive
from 0 to where the writer stands, and the batches it has not translated go on from the
end of the writer's batch to the tokens submitted. A covered journal without completions
has therefore appended its whole span.
-/

namespace SparkRing.Snapshot

/-- Ranges that follow one another from `a` to `b`. -/
def Consecutive : ℕ → List (ℕ × ℕ) → ℕ → Prop
  | a, [], b => a = b
  | a, range :: ranges, b => range.1 = a ∧ range.1 < range.2 ∧ Consecutive range.2 ranges b

theorem Consecutive.append {a b c : ℕ} {first second : List (ℕ × ℕ)} (h : Consecutive a first b)
    (h' : Consecutive b second c) : Consecutive a (first ++ second) c := by
  induction first generalizing a with
  | nil =>
    cases h
    exact h'
  | cons range first ih => exact ⟨h.1, h.2.1, ih h.2.2⟩

/-- The chunks whose append ended well, in order. -/
def appendedRanges : List StoreEvent → List (ℕ × ℕ)
  | [] => []
  | .appended chunk :: older => appendedRanges older ++ [(chunk.start, chunk.stop)]
  | _ :: older => appendedRanges older

/-- The appended chunks are exactly consecutive ranges from 0. -/
def Covers (store : List StoreEvent) (tokens : ℕ) : Prop := Consecutive 0 (appendedRanges store) tokens

theorem Covers.appended {chunk : TokenRange} (h : Covers store chunk.start) : Covers (.appended chunk :: store) chunk.stop :=
  Consecutive.append h ⟨rfl, chunk.ordered, rfl⟩

/-- Every commit that reached the store found the span covered and no abort before it. -/
def CommitsCovered (span : ℕ) (store : List StoreEvent) : Prop :=
  ∀ newer older, store = newer ++ .commitBegins :: older → Covers older span ∧ .abortBegins ∉ older

theorem CommitsCovered.cons {span : ℕ} (h : CommitsCovered span store)
    (he : event = .commitBegins → Covers store span ∧ .abortBegins ∉ store) : CommitsCovered span (event :: store) := by
  intro newer older hsplit
  cases newer with
  | nil =>
    obtain ⟨rfl, rfl⟩ := List.cons_eq_cons.mp hsplit
    exact he rfl
  | cons first newer =>
    obtain ⟨-, rfl⟩ := List.cons_eq_cons.mp hsplit
    exact h newer older rfl

variable {w w' : Writer} {line line' : List Task} {x x' : Journal} {front : ℕ} {store : List StoreEvent} {event : StoreEvent}

def Task.range (task : Task) : ℕ × ℕ := (task.start, task.stop)

/-- Batches that were submitted and are not at the writer. -/
def Journal.ahead (x : Journal) (line : List Task) : List (ℕ × ℕ) :=
  line.map Task.range ++
    match x.hold with
    | some (.submitting _ batch _) => [(batch.logicalStart, batch.logicalEnd)]
    | _ => []

/-- What is appended while the writer works on the batch that ends at `front`. -/
def Stands (x : Journal) (front : ℕ) : Writer → Prop
  | .idle | .finalizing _ _ | .releasing _ _ | .resolving _ _ | .ending _ true =>
    Covers x.store front ∧ x.appendedTokens = front
  | .starting task => Covers x.store task.start ∧ x.appendedTokens = task.start ∧ task.stop = front
  | .reading task expected | .checking task expected _ =>
    Covers x.store expected ∧ x.appendedTokens = expected ∧ task.stop = front
  | .appending task chunk => Covers x.store chunk.start ∧ task.stop = front
  | .noting task expected => Covers x.store expected ∧ task.stop = front
  | .failing _ => True
  | .ending _ false => False

/-- The tokens of a journal and its store transaction. -/
structure Coverage (w : Writer) (line : List Task) (x : Journal) : Prop where
  /-- An open journal has appended what lies behind the writer. -/
  progress : x.state = .open → ∃ front, Consecutive front (x.ahead line) x.nextSubmitted ∧ Stands x front w
  /-- A committed journal has appended its span. -/
  committed : x.state = .committed → Covers x.store x.spanTokens
  commits : CommitsCovered x.spanTokens x.store

/-- A covered open journal has appended its span. -/
theorem Coverage.covers (h : Coverage w line x) (hl : Lifecycle w line x) (hopen : x.state = .open)
    (hcovered : x.covered = true) : Covers x.store x.spanTokens := by
  obtain ⟨hempty, hsubmitted, -⟩ := of_decide_eq_true hcovered
  obtain ⟨front, hahead, hstands⟩ := h.progress hopen
  have hnone := hl.pending_eq
  rw [hempty] at hnone
  obtain ⟨htasks, hheld⟩ := List.append_eq_nil_iff.mp hnone.symm
  obtain ⟨hlive, hline⟩ := List.append_eq_nil_iff.mp (List.map_eq_nil_iff.mp htasks)
  have haheadnil : x.ahead line = [] := by
    unfold Journal.held at hheld
    unfold Journal.ahead
    rw [hline]
    generalize x.hold = hold at hheld ⊢
    rcases hold with _ | hold
    · rfl
    cases hold with
    | submitting => cases hheld
    | committing | aborting => rfl
  rw [haheadnil] at hahead
  have hfront : front = x.spanTokens := hahead.trans hsubmitted
  cases w <;> first | exact hfront ▸ hstands.1 | cases hlive

/-- An open journal has had no abort. -/
theorem Lifecycle.no_abort (h : Lifecycle w line x) (hopen : x.state ≠ .aborted) : .abortBegins ∉ x.store := by
  have hbegun := h.begun
  have haborts : x.aborts = false := Bool.eq_false_iff.mpr fun ha => hopen (h.aborting ha).1
  rw [h.not_finalized hopen, haborts] at hbegun
  exact List.count_eq_zero.mp hbegun

theorem coverage_abortLocked (h : CommitsCovered x.spanTokens x.store) : Coverage w line x.abortLocked := by
  refine ⟨fun hno => by simp at hno, fun hno => by simp at hno, ?_⟩
  unfold Journal.abortLocked Journal.finalizeAbort
  split
  · exact h
  · exact h.cons nofun

/-- A turn of the writer that only changes where it stands. -/
theorem Coverage.turn (h : Coverage w line x)
    (hstands : x.state = .open → ∀ front, Consecutive front (x.ahead line) x.nextSubmitted → Stands x front w →
      ∃ front', Consecutive front' (x.ahead line') x.nextSubmitted ∧ Stands x front' w') : Coverage w' line' x :=
  ⟨fun hopen => (h.progress hopen).elim fun front ⟨hahead, hs⟩ => hstands hopen front hahead hs, h.committed, h.commits⟩

/-- The same, with the batches ahead as they were. -/
theorem Coverage.step (h : Coverage w line x) (hstands : x.state = .open → ∀ front, Stands x front w → Stands x front w') :
    Coverage w' line x :=
  h.turn fun hopen front hahead hs => ⟨front, hahead, hstands hopen front hs⟩

/-- An event of the store that appends nothing and commits nothing. -/
theorem Coverage.record (h : Coverage w line x) (hranges : appendedRanges (event :: x.store) = appendedRanges x.store)
    (he : event ≠ .commitBegins) (hstands : x.state = .open → ∀ front, Stands x front w → Stands (x.record event) front w') :
    Coverage w' line (x.record event) where
  progress hopen := (h.progress hopen).elim fun front ⟨hahead, hs⟩ => ⟨front, hahead, hstands hopen front hs⟩
  committed hc := by
    have := h.committed hc
    rwa [Covers, ← hranges] at this
  commits := h.commits.cons fun hno => absurd hno he

/-- A completion that leaves an open journal leaves its tokens. -/
theorem Coverage.leaves {task : Task} {ok : Bool} (h : Coverage (.ending task ok) line x)
    (hw' : ∀ y front, Stands y front (.ending task true) → Stands y front w') : Coverage w' line (x.completionDone task.completion) := by
  by_cases hs : x.state = .aborted
  · have hstate : (x.completionDone task.completion).state = .aborted := (x.completionDone_fields _).1.trans hs
    refine ⟨fun hno => by simp [hstate] at hno, fun hno => by simp [hstate] at hno, ?_⟩
    simp only [Journal.completionDone, hs, if_true, Journal.finalizeAbort]
    split
    · exact h.commits
    · exact h.commits.cons fun he => by cases he
  rw [completionDone_more (.inl hs)]
  refine ⟨fun hopen => ?_, h.committed, h.commits⟩
  obtain ⟨front, hahead, hstands⟩ := h.progress hopen
  cases ok with
  | false => exact hstands.elim
  | true => exact ⟨front, hahead, hw' _ front hstands⟩

/-- Every move keeps the tokens of a journal right. -/
theorem Move.coverage (hm : Move w line x w' line' x') (h : Coverage w line x) (hl : Lifecycle w line x) : Coverage w' line' x' := by
  cases hm with
  | @registers w line x c batch view rows hhold hopen hvalid hc =>
    refine ⟨fun _ => ?_, fun hno => by simp [hopen] at hno, h.commits⟩
    obtain ⟨front, hahead, hstands⟩ := h.progress hopen
    have hbatch := of_decide_eq_true (Bool.and_eq_true_iff.mp hvalid).1
    have hold : x.ahead line = line.map Task.range := by rw [Journal.ahead, hhold, List.append_nil]
    rw [hold] at hahead
    refine ⟨front, hahead.append ⟨hbatch.2.2.2.2.1, hbatch.2.2.2.2.2.1, rfl⟩, ?_⟩
    cases w <;> exact hstands
  | aborts | drops | failsOpen => exact coverage_abortLocked h.commits
  | @enqueues w line x c batch view task hhold hc hstart hstop =>
    have hahead : x.ahead line = ({ x with hold := none } : Journal).ahead (line ++ [task]) := by
      rw [Journal.ahead, Journal.ahead, hhold, List.map_append, List.append_nil]
      simp [Task.range, hstart, hstop]
    refine ⟨fun hopen => ?_, h.committed, h.commits⟩
    obtain ⟨front, hfront, hstands⟩ := h.progress hopen
    rw [hahead] at hfront
    refine ⟨front, hfront, ?_⟩
    cases w <;> exact hstands
  | @commits w line x hhold hopen hcovered =>
    refine ⟨fun _ => ?_, fun hno => by simp [hopen] at hno, h.commits.cons fun _ => ⟨h.covers hl hopen hcovered, hl.no_abort (by simp [hopen])⟩⟩
    obtain ⟨front, hahead, hstands⟩ := h.progress hopen
    refine ⟨front, ?_, ?_⟩
    · rw [Journal.ahead, hhold] at hahead
      exact hahead
    · cases w <;> exact hstands
  | @committed w line x hhold =>
    obtain ⟨hopen, hcovered⟩ := hl.committing hhold
    exact ⟨fun he => (by cases he), fun _ => h.covers hl hopen hcovered, h.commits.cons fun he => by cases he⟩
  | @commitRaises w line x hhold =>
    obtain ⟨hopen, hcovered⟩ := hl.committing hhold
    refine ⟨fun _ => ?_, fun hno => by simp [hopen] at hno, h.commits.cons fun he => by cases he⟩
    obtain ⟨front, hahead, hstands⟩ := h.progress hopen
    refine ⟨front, ?_, ?_⟩
    · rw [Journal.ahead, hhold] at hahead
      exact hahead
    · cases w <;> exact hstands
  | @abortEnds w line x hhold =>
    have hs : x.state = .aborted := (hl.aborting (by rw [Journal.aborts, hhold])).1
    exact ⟨fun hno => by simp [Journal.aborted, hs] at hno, fun hno => by simp [Journal.aborted, hs] at hno, h.commits.cons fun he => by cases he⟩
  | takes =>
    refine h.turn fun _ front hahead hs => ?_
    obtain ⟨rfl, -, hrest⟩ := hahead
    exact ⟨_, hrest, hs.1, hs.2, rfl⟩
  | starts => exact h.step fun _ front hs => hs
  | quits _ haborted => exact h.step fun hno => by simp [haborted] at hno
  | yields | releases | resolves => exact h.step fun _ _ hs => hs
  | exhausts => exact h.step fun _ front hs => hs.2.2 ▸ ⟨hs.1, hs.2.1⟩
  | fails => exact h.step fun _ _ _ => trivial
  | appends => exact h.record rfl (fun he => by cases he) fun _ _ hs => ⟨hs.1, hs.2.2⟩
  | @appended =>
    refine ⟨fun hopen => ?_, fun hc => ?_, h.commits.cons fun he => by cases he⟩
    · obtain ⟨front, hahead, hs⟩ := h.progress hopen
      exact ⟨front, hahead, hs.1.appended, hs.2⟩
    obtain ⟨rest, hp, -⟩ := hl.pending_cons rfl
    rw [(hl.committed hc).1] at hp
    cases hp
  | appendRaises => exact h.record rfl (fun he => by cases he) fun _ _ _ => trivial
  | @notes task expected line x hopen =>
    refine ⟨fun _ => ?_, fun hno => by simp [hopen] at hno, h.commits⟩
    obtain ⟨front, hahead, hs⟩ := h.progress hopen
    exact ⟨front, hahead, hs.1, rfl, hs.2⟩
  | notesNot hno | failsNot hno => exact h.step fun hopen => absurd hopen hno
  | leaves | finalizes => exact h.leaves fun _ _ hs => hs
  | @finalized task ok ok' line x =>
    have hs : x.state = .aborted := (hl.aborting (by rw [Journal.aborts, hl.writer.mpr rfl])).1
    exact ⟨fun hno => by simp [Journal.aborted, hs] at hno, fun hno => by simp [Journal.aborted, hs] at hno, h.commits.cons fun he => by cases he⟩

/-- A new journal has appended nothing. -/
theorem Coverage.begin (requestId contextDigest : String) (spanTokens : ℕ) :
    Coverage .idle [] (.begin requestId contextDigest spanTokens) where
  progress _ := ⟨0, rfl, rfl, rfl⟩
  committed := nofun
  commits newer older h := by simp [Journal.begin] at h

/-- A journal that is not open stays as it is. -/
theorem Move.state_of_closed (hm : Move w line x w' line' x') (hl : Lifecycle w line x) (h : x.state ≠ .open) : x'.state = x.state := by
  cases hm with
  | registers _ hopen _ _ | aborts _ hopen | failsOpen _ hopen => exact absurd hopen h
  | drops hhold => exact absurd (hl.submitting _ _ _ hhold) h
  | committed hhold => exact absurd (hl.committing hhold).1 h
  | leaves | finalizes => exact (x.completionDone_fields _).1
  | _ => rfl

/-- A journal keeps its request. -/
theorem Move.requestId_eq (hm : Move w line x w' line' x') : x'.requestId = x.requestId := by
  cases hm with
  | aborts | failsOpen => exact x.abortLocked_requestId
  | drops => exact Journal.abortLocked_requestId _
  | leaves | finalizes => exact (x.completionDone_fields _).2.1
  | _ => rfl

/-- The journal has not ended, or its store's abort runs in the thread of a caller. -/
def Journal.unsettled (x : Journal) : Prop := x.state = .open ∨ x.hold = some (.aborting false)

/-- Only a journal that has not ended may be open or be aborted by a caller after a move. -/
theorem Move.unsettled (hm : Move w line x w' line' x') (hl : Lifecycle w line x) (h : x'.unsettled) : x.unsettled := by
  by_cases hopen : x.state = .open
  · exact .inl hopen
  obtain hstate | hhold' := h
  · exact .inl ((hm.state_of_closed hl hopen).symm.trans hstate)
  cases hm with
  | registers _ hno _ _ | aborts _ hno | failsOpen _ hno => exact absurd hno hopen
  | drops hhold => exact absurd (hl.submitting _ _ _ hhold) hopen
  | @leaves task ok line x hhold hfree =>
    rw [hfree] at hhold'
    cases hhold'
  | @finalizes task ok line x hhold hbusy =>
    have hlast : x.completionDone task.completion ≠ { x with pending := x.pending.erase task.completion } :=
      fun hno => hbusy (by rw [hno]; exact hhold)
    rw [Journal.completionDone] at hhold' hlast
    split at hhold'
    · unfold Journal.finalizeAbort at hhold'
      split at hhold'
      · rw [hhold] at hhold'
        cases hhold'
      · cases hhold'
    · rw [hhold] at hhold'
      cases hhold'
  | enqueues | commits | committed | commitRaises | abortEnds | finalized => cases hhold'
  | _ => exact .inr hhold'

end SparkRing.Snapshot
