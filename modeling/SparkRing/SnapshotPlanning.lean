import SparkRing.SnapshotParts

/-!
# What the planner keeps of every session

A live session of the planner and what its callers have seen of it agree: the batches tile
the tokens planned so far, the pending batches are the ones not reported as gathered, and
ready was answered when the last of them was. Each call keeps this of every session.
-/

namespace SparkRing.Planner

open OrderedDict RangeTiling

/-- What holds of every batch of a session. -/
structure BatchOk (limits : Limits) (life : Life) (batch : SnapshotBatch) : Prop where
  request : batch.requestId = life.request
  digest : batch.contextDigest = life.digest
  /-- Its chunks are the planner's. -/
  chunk : batch.chunkTokens = limits.chunkTokens
  start_dvd : limits.chunkTokens ∣ batch.logicalStart
  /-- It stops at a chunk. -/
  end_dvd : limits.chunkTokens ∣ batch.logicalEnd
  /-- It has at most as many chunks as a batch may. -/
  count_le : batch.chunkCount ≤ limits.chunksPerBatch
  nonempty : batch.blockIds ≠ []
  /-- It has each block once. -/
  nodup : batch.blockIds.Nodup
  /-- Its blocks are non-negative integers. -/
  valid : ∀ block ∈ batch.blockIds, block.valid = true

/-- The batches of a session plan exactly its tokens before `next`. -/
structure Life.Planned (limits : Limits) (life : Life) (next : ℕ) : Prop where
  /-- They are laid end to end from the first token. -/
  tiles : Tiles SnapshotBatch.logicalStart SnapshotBatch.logicalEnd 0 life.emitted next
  /-- Each is as it should be. -/
  batches : ∀ batch ∈ life.emitted, BatchOk limits life batch
  /-- They are numbered in order. -/
  indexes : life.emitted.map SnapshotBatch.batchIndex = List.range life.emitted.length
  /-- Whole chunks are planned. -/
  next_dvd : limits.chunkTokens ∣ next
  /-- No more than the span is planned. -/
  next_le : next ≤ life.span

def Life.Gathered (life : Life) : Prop :=
  (∀ token < life.span, ∃ batch ∈ life.emitted, batch.logicalStart ≤ token ∧ token < batch.logicalEnd) ∧
    life.outstanding = []

/-- Ready is answered once, when everything is gathered, and never before. -/
def Life.ReadyOnce (life : Life) : Prop := life.readies ≤ 1 ∧ (life.readies = 1 ↔ life.Gathered)

variable {limits : Limits} {life : Life} {session : Session} {next : ℕ}

/-- The whole span is in batches when as many tokens are planned. -/
theorem Life.Planned.gathered_iff (hp : life.Planned limits next) : life.Gathered ↔ next = life.span ∧ life.outstanding = [] := by
  refine and_congr_left fun _ => ⟨fun hall => ?_, fun heq token ht => ?_⟩
  · have hle := hp.next_le
    rcases Nat.eq_zero_or_pos life.span with hzero | hpos
    · omega
    · have hlast := hp.tiles.mem_iff.mp (hall (life.span - 1) (by omega))
      omega
  · exact hp.tiles.mem_iff.mpr ⟨Nat.zero_le _, heq ▸ ht⟩

/-- A live session and what its callers have seen of it. -/
structure Tracks (limits : Limits) (session : Session) (life : Life) : Prop where
  /-- They are of one request. -/
  request : session.requestId = life.request
  /-- They are of one context. -/
  digest : session.contextDigest = life.digest
  /-- They have one span. -/
  span : session.spanTokens = life.span
  /-- There is something to plan. -/
  span_pos : 0 < life.span
  span_dvd : limits.chunkTokens ∣ life.span
  planned : life.Planned limits session.nextToken
  index : session.nextBatchIndex = life.emitted.length
  /-- The batches pending are those not gathered. -/
  pending : session.pending.items = life.outstanding.map fun batch => (batch.batchIndex, batch)
  /-- Only batches that were answered are gathered. -/
  completed_lt : ∀ index ∈ life.completed, index < life.emitted.length
  active : session.state = .active ↔ ¬life.Gathered
  ready : session.state = .readyToCommit ↔ life.Gathered
  /-- Ready was answered when everything was gathered. -/
  readies : life.ReadyOnce

section

variable (ht : Tracks limits session life)

include ht

theorem Tracks.values : session.pending.values = life.outstanding := by
  simp [Dict.values, ht.pending, Function.comp_def]

theorem Tracks.keys : session.pending.keys = life.outstanding.map SnapshotBatch.batchIndex := by
  simp [Dict.keys, ht.pending, Function.comp_def]

theorem Tracks.size : session.pending.size = life.outstanding.length := by
  rw [Dict.size, ht.pending, List.length_map]

theorem Tracks.index_lt {batch : SnapshotBatch} (hb : batch ∈ life.emitted) : batch.batchIndex < life.emitted.length := by
  have hmem : batch.batchIndex ∈ life.emitted.map SnapshotBatch.batchIndex := List.mem_map_of_mem hb
  rwa [ht.planned.indexes, List.mem_range] at hmem

end

theorem Tracks.begin {requestId contextDigest : String} {span : ℕ} (hpos : 0 < span) (hdvd : limits.chunkTokens ∣ span) :
    Tracks limits { requestId := requestId, contextDigest := contextDigest, spanTokens := span }
      { request := requestId, digest := contextDigest, span := span } := by
  have hplanned : Life.Planned limits { request := requestId, digest := contextDigest, span := span } 0 :=
    ⟨rfl, nofun, rfl, Nat.dvd_zero _, Nat.zero_le _⟩
  have hnot : ¬Life.Gathered { request := requestId, digest := contextDigest, span := span } := fun hg =>
    absurd (hplanned.gathered_iff.mp hg).1 (by simp only; omega)
  exact
    { request := rfl
      digest := rfl
      span := rfl
      span_pos := hpos
      span_dvd := hdvd
      planned := hplanned
      index := rfl
      pending := rfl
      completed_lt := nofun
      active := ⟨fun _ => hnot, fun _ => rfl⟩
      ready := ⟨nofun, fun hg => absurd hg hnot⟩
      readies := ⟨Nat.zero_le _, nofun, fun hg => absurd hg hnot⟩ }

/-- New batches are outstanding behind the ones before. -/
theorem Tracks.outstanding_append (ht : Tracks limits session life) {batches : List SnapshotBatch} {count : ℕ}
    (hindexes : batches.map SnapshotBatch.batchIndex = List.range' life.emitted.length count) :
    (life.extend batches).outstanding = life.outstanding ++ batches := by
  simp only [Life.outstanding, Life.extend, List.filter_append]
  congr 1
  refine List.filter_eq_self.mpr fun batch hb => decide_eq_true fun hmem => ?_
  have hindex : batch.batchIndex ∈ List.range' life.emitted.length count := hindexes ▸ List.mem_map_of_mem hb
  have hlt := ht.completed_lt _ hmem
  rw [List.mem_range'_1] at hindex
  omega

/-- A session after new tokens are planned. -/
theorem Tracks.plan (ht : Tracks limits session life) {stop : ℕ} {parts : List (ℕ × ℕ × List Block)}
    (hlt : session.nextToken < stop) (hstop : limits.chunkTokens ∣ stop) (hle : stop ≤ life.span)
    (htiles : Tiles (fun part => part.1) (fun part => part.2.1) session.nextToken parts stop)
    (hok : ∀ part ∈ parts, PartOk limits.batchTokens limits.chunkTokens part) :
    Tracks limits { (emit limits session parts).1 with nextToken := stop }
      (life.extend (emit limits session parts).2) := by
  have hindexes : (emit limits session parts).2.map SnapshotBatch.batchIndex =
      List.range' life.emitted.length parts.length := ht.index ▸ indexes_emit parts session
  have hout := ht.outstanding_append hindexes
  have hnot : ¬life.Gathered := fun hg => by
    have heq := (ht.planned.gathered_iff.mp hg).1
    omega
  have hsome : (emit limits session parts).2 ≠ [] := fun hnil => by
    have hempty : parts.length = 0 := by rw [← length_emit, hnil, List.length_nil]
    rw [List.eq_nil_of_length_eq_zero hempty] at htiles
    exact absurd htiles (by rw [tiles_nil]; omega)
  have hnot' : ¬(life.extend (emit limits session parts).2).Gathered := fun hg =>
    absurd (hout.symm.trans hg.2) (by simp [hsome])
  have hplanned : (life.extend (emit limits session parts).2).Planned limits stop :=
    { tiles := ht.planned.tiles.append (tiles_emit session htiles)
      batches := fun batch hb => by
        rcases List.mem_append.mp hb with hb | hb
        · exact { ht.planned.batches batch hb with }
        obtain ⟨hrequest, hdigest, hchunk, hpart⟩ := mem_emit hb
        have hpart := hok _ hpart
        exact
          { hpart with
            request := hrequest.trans ht.request
            digest := hdigest.trans ht.digest
            chunk := hchunk
            end_dvd := hpart.stop_dvd
            count_le := by
              rw [SnapshotBatch.chunkCount, hchunk]
              have hsize := hpart.size
              exact Nat.div_le_of_le_mul (by simp only [Limits.batchTokens] at hsize; omega)
            valid := hpart.valid }
      indexes := by
        have hjoin := @List.range'_append_1 0 life.emitted.length parts.length
        rw [Nat.zero_add] at hjoin
        rw [Life.extend, List.map_append, ht.planned.indexes, hindexes, List.length_append, length_emit,
          List.range_eq_range', List.range_eq_range', hjoin]
      next_dvd := hstop
      next_le := hle }
  obtain ⟨pending, hemit⟩ := @emit_session limits parts session
  have hpending : (emit limits session parts).1.pending.items =
      session.pending.items ++ (emit limits session parts).2.map fun batch => (batch.batchIndex, batch) := by
    refine pending_emit parts session fun key hkey => ?_
    rw [ht.keys] at hkey
    obtain ⟨batch, hb, rfl⟩ := List.mem_map.mp hkey
    rw [ht.index]
    exact ht.index_lt (List.mem_filter.mp hb).1
  exact
    { ht with
      request := by rw [hemit]; exact ht.request
      digest := by rw [hemit]; exact ht.digest
      span := by rw [hemit]; exact ht.span
      planned := hplanned
      index := by rw [hemit, Life.extend, List.length_append, ← ht.index]
      pending := by rw [hpending, ht.pending, hout, List.map_append]
      completed_lt := fun index hmem => by
        rw [Life.extend, List.length_append]
        exact Nat.lt_add_right _ (ht.completed_lt index hmem)
      active := by
        rw [hemit]
        exact ⟨fun _ => hnot', fun _ => ht.active.mpr hnot⟩
      ready := by
        rw [hemit]
        exact ⟨fun hr => absurd (ht.ready.mp hr) hnot, fun hg => absurd hg hnot'⟩
      readies := ⟨ht.readies.1, fun h1 => absurd (ht.readies.2.mp h1) hnot, fun hg => absurd hg hnot'⟩ }

/-- A batch gathered is no longer outstanding. -/
theorem Life.outstanding_gather (life : Life) (index : ℕ) (ready : Bool) :
    (life.gather index ready).outstanding = life.outstanding.filter fun batch => decide (batch.batchIndex ≠ index) := by
  rw [outstanding, outstanding, List.filter_filter]
  congr 1
  funext batch
  simp only [gather, List.mem_append, List.mem_singleton, not_or, Bool.decide_and]
  exact Bool.and_comm _ _

/-- A session after a pending batch is gathered. -/
theorem Tracks.gather (ht : Tracks limits session life) {index : ℕ} (hmem : index ∈ session.pending.keys) {ready : Bool}
    (hready : ready = true ↔ session.nextToken = session.spanTokens ∧ (session.pending.erase index).size = 0) :
    Tracks limits (session.drop index ready) (life.gather index ready) ∧ (ready = true ↔ (life.gather index ready).Gathered) := by
  have hnot : ¬life.Gathered := fun hg => by
    rw [ht.keys, hg.2] at hmem
    cases hmem
  have hzero : life.readies = 0 := by
    have hle := ht.readies.1
    have hne : life.readies ≠ 1 := fun h1 => hnot (ht.readies.2.mp h1)
    omega
  have hpending : (session.pending.erase index).items =
      (life.gather index ready).outstanding.map fun batch => (batch.batchIndex, batch) := by
    simp only [life.outstanding_gather, Dict.erase, Dict.filter, ht.pending, List.filter_map]
    rfl
  have hplanned : (life.gather index ready).Planned limits session.nextToken :=
    ⟨ht.planned.tiles, fun batch hb => { ht.planned.batches batch hb with }, ht.planned.indexes, ht.planned.next_dvd,
      ht.planned.next_le⟩
  have hgathered : ready = true ↔ (life.gather index ready).Gathered := by
    refine hready.trans ?_
    rw [hplanned.gathered_iff, ht.span, Dict.size, hpending, List.length_map, List.length_eq_zero_iff]
    rfl
  have hlt : ∀ j ∈ (life.gather index ready).completed, j < life.emitted.length := fun j hj => by
    rcases List.mem_append.mp hj with hj | hj
    · exact ht.completed_lt j hj
    rw [ht.keys] at hmem
    obtain ⟨batch, hb, heq⟩ := List.mem_map.mp hmem
    rw [List.mem_singleton.mp hj, ← heq]
    exact ht.index_lt (List.mem_filter.mp hb).1
  have hstate : ((session.drop index ready).state = .active ↔ ¬ready = true) ∧
      ((session.drop index ready).state = .readyToCommit ↔ ready = true) ∧
        (life.gather index ready).readies = if ready then 1 else 0 := by
    cases ready with
    | true => exact ⟨⟨fun hs => (by cases hs), fun hne => absurd rfl hne⟩, ⟨fun _ => rfl, fun _ => rfl⟩, by rw [Life.gather, hzero]; rfl⟩
    | false =>
      exact ⟨⟨fun _ hr => (by cases hr), fun _ => ht.active.mpr hnot⟩, ⟨fun hr => absurd (ht.ready.mp hr) hnot, fun hr => (by cases hr)⟩,
        by rw [Life.gather, hzero]; rfl⟩
  refine ⟨?_, hgathered⟩
  exact
    { ht with
      planned := hplanned
      pending := hpending
      completed_lt := hlt
      active := hstate.1.trans (not_congr hgathered)
      ready := hstate.2.1.trans hgathered
      readies := by
        rw [Life.ReadyOnce, hstate.2.2, ← hgathered]
        cases ready <;> decide }

end SparkRing.Planner
