import Mathlib.Algebra.Order.Floor.Div
import SparkRing.RangeTiling
import SparkRing.SnapshotPlanner

/-!
# The parts of a new range

Mapping splits a new range into full batches and a last one, so it needs exactly as many
batches as were counted before. Each part becomes a batch with the next index.
-/

namespace SparkRing.Planner

open OrderedDict RangeTiling

variable {limits : Limits} {mapper : ℕ → ℕ → Mapping} {batchTokens stop turns cursor unit : ℕ}
  {parts : List (ℕ × ℕ × List Block)} {session : Session}

/-- One turn of the mapping loop, when it succeeds. -/
theorem mapParts_succ (hlt : cursor < stop) (h : mapParts batchTokens mapper stop (turns + 1) cursor = .parts parts) :
    ∃ (blocks : List Block) (rest : List (ℕ × ℕ × List Block)), blocks ≠ [] ∧ blocks.Nodup ∧ (∀ block ∈ blocks, block.valid = true) ∧
        mapParts batchTokens mapper stop turns (min (cursor + batchTokens) stop) = .parts rest ∧
        parts = (cursor, min (cursor + batchTokens) stop, blocks) :: rest := by
  simp only [mapParts, if_pos hlt] at h
  cases hm : mapper cursor (min (cursor + batchTokens) stop) with
  | interrupts | fails => simp [hm] at h
  | blocks blocks =>
    simp only [hm] at h
    by_cases hbad : blocks = [] ∨ ¬blocks.Nodup ∨ (blocks.any fun block => !block.valid) = true
    · rw [if_pos hbad] at h
      cases h
    rw [if_neg hbad] at h
    simp only [not_or, not_not, List.any_eq_true, Bool.not_eq_true', not_exists, not_and, Bool.not_eq_false] at hbad
    cases hrest : mapParts batchTokens mapper stop turns (min (cursor + batchTokens) stop) with
    | interrupted | failed => simp [hrest] at h
    | parts rest =>
      simp only [hrest, Mapped.parts.injEq] at h
      exact ⟨blocks, rest, hbad.1, hbad.2.1, hbad.2.2, rfl, h.symm⟩

theorem mapParts_stop (hle : stop ≤ cursor) (h : mapParts batchTokens mapper stop turns cursor = .parts parts) : parts = [] := by
  cases turns with
  | zero => exact (Mapped.parts.inj h).symm
  | succ =>
    rw [mapParts, if_neg (by omega)] at h
    exact (Mapped.parts.inj h).symm

/-- What holds of every mapped part. -/
structure PartOk (batchTokens unit : ℕ) (part : ℕ × ℕ × List Block) : Prop where
  /-- It is at most a full batch. -/
  size : part.2.1 ≤ part.1 + batchTokens
  /-- It starts at a chunk. -/
  start_dvd : unit ∣ part.1
  /-- It stops at a chunk. -/
  stop_dvd : unit ∣ part.2.1
  /-- It has blocks. -/
  nonempty : part.2.2 ≠ []
  /-- It has each block once. -/
  nodup : part.2.2.Nodup
  /-- Its blocks are non-negative integers. -/
  valid : ∀ block ∈ part.2.2, block.valid = true

/-- Mapping tiles the new range with parts that are all as they should be. -/
theorem mapParts_tiles (hpos : 0 < batchTokens) (hunit : unit ∣ batchTokens) (hstop : unit ∣ stop) (hcursor : unit ∣ cursor)
    (hle : cursor ≤ stop) (hturns : stop - cursor ≤ turns)
    (h : mapParts batchTokens mapper stop turns cursor = .parts parts) :
    Tiles (fun part => part.1) (fun part => part.2.1) cursor parts stop ∧ ∀ part ∈ parts, PartOk batchTokens unit part := by
  induction turns generalizing cursor parts with
  | zero =>
    cases h
    exact ⟨by rw [tiles_nil]; omega, nofun⟩
  | succ turns ih =>
    by_cases hlt : cursor < stop
    · obtain ⟨blocks, rest, hne, hnd, hvalid, hrest, rfl⟩ := mapParts_succ hlt h
      have hnext : unit ∣ min (cursor + batchTokens) stop := by
        rcases min_choice (cursor + batchTokens) stop with hm | hm
        · rw [hm]
          exact Nat.dvd_add hcursor hunit
        · rw [hm]
          exact hstop
      obtain ⟨htiles, hok⟩ := ih hnext (by omega) (by omega) hrest
      refine ⟨⟨rfl, by simp only; omega, htiles⟩, ?_⟩
      intro part hpart
      rcases List.mem_cons.mp hpart with rfl | hpart
      · exact ⟨by simp only; omega, hcursor, hnext, hne, hnd, hvalid⟩
      · exact hok part hpart
    · rw [mapParts_stop (by omega) h]
      exact ⟨by rw [tiles_nil]; omega, nofun⟩

/-- The loop makes as many parts as were counted before it. -/
theorem length_mapParts (hpos : 0 < batchTokens) (hturns : stop - cursor ≤ turns)
    (h : mapParts batchTokens mapper stop turns cursor = .parts parts) :
    parts.length = (stop - cursor + batchTokens - 1) / batchTokens := by
  induction turns generalizing cursor parts with
  | zero =>
    cases h
    rw [List.length_nil, Nat.div_eq_of_lt (by omega)]
  | succ turns ih =>
    by_cases hlt : cursor < stop
    · obtain ⟨blocks, rest, -, -, -, hrest, rfl⟩ := mapParts_succ hlt h
      rw [List.length_cons, ih (by omega) hrest]
      by_cases hfull : cursor + batchTokens ≤ stop
      · rw [min_eq_left hfull, ← Nat.add_div_right _ hpos]
        congr 1
        omega
      · rw [min_eq_right (by omega), Nat.sub_self, Nat.zero_add, Nat.div_eq_of_lt (by omega)]
        exact (Nat.div_eq_of_lt_le (by omega) (by omega)).symm
    · rw [mapParts_stop (by omega) h, List.length_nil, Nat.div_eq_of_lt (by omega)]

/-- Emitting changes nothing but the pending batches and the next index. -/
theorem emit_session (parts : List (ℕ × ℕ × List Block)) (session : Session) :
    ∃ pending, (emit limits session parts).1 =
      { session with pending := pending, nextBatchIndex := session.nextBatchIndex + (emit limits session parts).2.length } := by
  induction parts generalizing session with
  | nil => exact ⟨session.pending, rfl⟩
  | cons part parts ih =>
    obtain ⟨pending, hrest⟩ := ih (session.push (session.batch limits part))
    refine ⟨pending, ?_⟩
    have hindex : (session.push (session.batch limits part)).nextBatchIndex = session.nextBatchIndex + 1 := rfl
    simp only [emit, hrest, hindex, List.length_cons, Nat.add_assoc, Nat.add_comm 1]
    rfl

theorem length_emit (parts : List (ℕ × ℕ × List Block)) (session : Session) : (emit limits session parts).2.length = parts.length := by
  induction parts generalizing session with
  | nil => rfl
  | cons part parts ih => simp only [emit, List.length_cons, ih]

/-- The batches take consecutive indexes. -/
theorem indexes_emit (parts : List (ℕ × ℕ × List Block)) (session : Session) :
    (emit limits session parts).2.map SnapshotBatch.batchIndex = List.range' session.nextBatchIndex parts.length := by
  induction parts generalizing session with
  | nil => rfl
  | cons part parts ih =>
    simp only [emit, List.map_cons, ih, List.length_cons, List.range'_succ]
    rfl

/-- The batches lie where the parts lie. -/
theorem tiles_emit (session : Session) {lo hi : ℕ} (h : Tiles (fun part => part.1) (fun part => part.2.1) lo parts hi) :
    Tiles SnapshotBatch.logicalStart SnapshotBatch.logicalEnd lo (emit limits session parts).2 hi := by
  induction parts generalizing session lo with
  | nil => exact h
  | cons part parts ih => exact ⟨h.1, h.2.1, ih _ h.2.2⟩

/-- Every batch is of the session and carries one of the parts. -/
theorem mem_emit {batch : SnapshotBatch} (h : batch ∈ (emit limits session parts).2) :
    batch.requestId = session.requestId ∧ batch.contextDigest = session.contextDigest ∧
      batch.chunkTokens = limits.chunkTokens ∧ (batch.logicalStart, batch.logicalEnd, batch.blockIds) ∈ parts := by
  induction parts generalizing session with
  | nil => cases h
  | cons part parts ih =>
    rcases List.mem_cons.mp h with rfl | h
    · exact ⟨rfl, rfl, rfl, List.mem_cons_self⟩
    · obtain ⟨hrequest, hdigest, hchunk, hmem⟩ := ih h
      exact ⟨hrequest, hdigest, hchunk, List.mem_cons_of_mem _ hmem⟩

/-- New batches stand after the pending ones. -/
theorem pending_emit (parts : List (ℕ × ℕ × List Block)) (session : Session)
    (hfresh : ∀ key ∈ session.pending.keys, key < session.nextBatchIndex) :
    (emit limits session parts).1.pending.items =
      session.pending.items ++ (emit limits session parts).2.map fun batch => (batch.batchIndex, batch) := by
  induction parts generalizing session with
  | nil => exact (List.append_nil _).symm
  | cons part parts ih =>
    have hnew : session.nextBatchIndex ∉ session.pending.keys := fun hmem => absurd (hfresh _ hmem) (by omega)
    have hbatch : (session.batch limits part).batchIndex = session.nextBatchIndex := rfl
    simp only [emit]
    rw [ih, Session.push, hbatch, Dict.items_set_of_not_mem hnew, List.append_assoc]
    · rfl
    intro key hkey
    simp only [Session.push, hbatch, Dict.keys, Dict.items_set_of_not_mem hnew, List.map_append, List.mem_append, List.map_cons, List.map_nil,
      List.mem_singleton] at hkey
    rcases hkey with hkey | rfl
    · exact Nat.lt_succ_of_lt (hfresh key hkey)
    · exact Nat.lt_succ_self _

end SparkRing.Planner
