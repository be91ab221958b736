import Mathlib.Algebra.BigOperators.Group.Finset.Basic
import SparkRing.SnapshotRequests

/-!
# Every completion is resolved

The sections that only continue what threads have begun are a submission on its way,
the store's calls that run and the writer thread. Each of them uses up weight, and one of
them is enabled until no completion is outstanding and no lock is held.
-/

namespace SparkRing.Snapshot

open TransitionSystem Function
open Option (bind_eq_some_iff bind_some isSome_some map_eq_some_iff)

variable {s t : State} {i k : ℕ} {x y : Journal} {a : Act}

/-- A section that continues what a thread has begun. -/
def Act.continues : Act → Bool
  | .enqueue .. | .commitEnds .. | .abortEnds _ | .take | .work _ => true
  | _ => false

/-- No task is outstanding and no lock is held. -/
def State.Quiet (s : State) : Prop := s.outstanding = [] ∧ ∀ i y, s.journals i = some y → y.hold = none

/-- Sections a queued task may still take. -/
def Task.weight (task : Task) : ℕ := 5 * (task.stop - task.start) + 11

/-- Sections the writer may still take for its task. -/
def Writer.weight : Writer → ℕ
  | .idle => 0
  | .starting task => 5 * (task.stop - task.start) + 10
  | .reading task expected => 5 * (task.stop - expected) + 9
  | .checking task expected _ => 5 * (task.stop - expected) + 8
  | .appending task chunk => 5 * (task.stop - chunk.stop) + 11
  | .noting task expected => 5 * (task.stop - expected) + 10
  | .failing _ => 7
  | .ending .. => 5
  | .finalizing .. => 3
  | .releasing .. => 2
  | .resolving .. => 1

/-- Sections the holder of a journal's lock may still take, the writer apart. -/
def Journal.weight (x : Journal) : ℕ :=
  match x.hold with
  | some (.submitting _ batch _) => 5 * (batch.logicalEnd - batch.logicalStart) + 12
  | some .committing | some (.aborting false) => 1
  | some (.aborting true) | none => 0

/-- Sections the holders of locks may still take. -/
def State.holds (s : State) : ℕ := ∑ i ∈ Finset.range s.count, (s.journals i).elim 0 Journal.weight

/-- Sections that may still continue. -/
def State.weight (s : State) : ℕ := s.holds + (s.queue.map Task.weight).sum + s.writer.weight

theorem weight_of_none (h : x.hold = none) : x.weight = 0 := by rw [Journal.weight, h]

theorem weight_abortLocked (h : x.hold = none) : x.abortLocked.weight ≤ 1 := by
  unfold Journal.abortLocked Journal.finalizeAbort
  split
  · exact (weight_of_none h).trans_le (Nat.zero_le 1)
  · exact le_rfl

theorem weight_completionDone {c : ℕ} (h : x.hold = none) : (x.completionDone c).weight = 0 := by
  unfold Journal.completionDone Journal.finalizeAbort
  dsimp only
  split
  · split
    · exact weight_of_none h
    · rfl
  · exact weight_of_none h

/-- Putting a journal changes the weight by that of the journal. -/
theorem holds_put (hk : k < s.count) (hy : s.journals k = some y)
    (hjournals : t.journals = update s.journals k (some x)) (hcount : t.count = s.count) : t.holds + y.weight = s.holds + x.weight := by
  have hmem : k ∈ Finset.range s.count := Finset.mem_range.mpr hk
  have hrest : ∑ i ∈ (Finset.range s.count).erase k, (t.journals i).elim 0 Journal.weight =
      ∑ i ∈ (Finset.range s.count).erase k, (s.journals i).elim 0 Journal.weight := by
    refine Finset.sum_congr rfl fun i hi => ?_
    rw [hjournals, update_of_ne (Finset.ne_of_mem_erase hi)]
  rw [State.holds, State.holds, hcount, ← Finset.add_sum_erase _ _ hmem, ← Finset.add_sum_erase _ _ hmem, hrest, hy,
    hjournals, update_self]
  simp only [Option.elim_some]
  omega

/-- A step puts at most one journal, and a new one only behind the others. -/
theorem puts_step (h : step s a = some t) : Puts s t ∨ t.count = s.count + 1 ∧ ∃ x, t.journals = update s.journals s.count (some x) := by
  cases moves_of_step h with
  | begins haside hwriter hnext hcount hputs => exact .inr ⟨hcount, hputs⟩
  | keeps haside hwriter hnext hputs | enqueue h hputs => exact .inl hputs
  | takes => exact .inl ⟨rfl, .inl rfl⟩
  | works hturn =>
    cases hturn with
    | goes haside hnext hputs => exact .inl hputs
    | releases hw ht | resolves hw ht =>
      subst ht
      exact .inl ⟨rfl, .inl rfl⟩

/-- Every journal below the count is there. -/
def Known (s : State) : Prop := ∀ i < s.count, ∃ y, s.journals i = some y

theorem Known.step (hk : Known s) (h : step s a = some t) : Known t := by
  intro i hi
  obtain ⟨hcount, hsame | ⟨k, x, hput⟩⟩ | ⟨hcount, x, hput⟩ := puts_step h
  · rw [hsame]
    exact hk i (hcount ▸ hi)
  · rw [hput]
    by_cases hik : i = k
    · exact ⟨x, by rw [hik, update_self]⟩
    · rw [update_of_ne hik]
      exact hk i (hcount ▸ hi)
  rw [hput]
  by_cases hik : i = s.count
  · exact ⟨x, by rw [hik, update_self]⟩
  · rw [update_of_ne hik]
    exact hk i (by omega)

/-- A section that puts the journal of weight `y` for one of weight `x`. -/
theorem weight_put (hj : Journals s) (hy : s.journals k = some y)
    (hjournals : t.journals = update s.journals k (some x)) (hcount : t.count = s.count)
    (hless : x.weight + (t.queue.map Task.weight).sum + t.writer.weight <
      y.weight + (s.queue.map Task.weight).sum + s.writer.weight) : t.weight < s.weight := by
  have hholds := holds_put (hj.below k y hy) hy hjournals hcount
  rw [State.weight, State.weight]
  omega

/-- A turn of the writer that puts no journal. -/
theorem weight_turn (hjournals : t.journals = s.journals) (hcount : t.count = s.count) (hqueue : t.queue = s.queue)
    (hless : t.writer.weight < s.writer.weight) : t.weight < s.weight := by
  rw [State.weight, State.weight, State.holds, State.holds, hjournals, hcount, hqueue]
  omega

theorem weight_enqueue {raises : Bool} (hj : Journals s) (h : s.enqueue k raises = some t) : t.weight < s.weight := by
  obtain ⟨y, hy, h⟩ := bind_eq_some_iff.mp h
  split at h
  case h_2 => cases h
  next c batch view hhold =>
    have hweight : y.weight = 5 * (batch.logicalEnd - batch.logicalStart) + 12 := by rw [Journal.weight, hhold]
    split_ifs at h
    · cases h
      refine weight_put hj hy rfl rfl ?_
      have hless := weight_abortLocked (x := { y with pending := y.pending.erase c, hold := none }) rfl
      simp only [put_queue, put_writer]
      omega
    cases h
    refine weight_put hj hy rfl rfl ?_
    have hfree : ({ y with hold := none } : Journal).weight = 0 := weight_of_none rfl
    simp only [put_writer, List.map_append, List.sum_append, List.map_cons, List.map_nil, List.sum_cons, List.sum_nil,
      Task.weight]
    omega

theorem weight_take (h : s.take = some t) : t.weight < s.weight := by
  unfold State.take at h
  split at h
  case h_2 => cases h
  next task rest hwriter hqueue =>
    cases h
    have hholds : ({ s with writer := .starting task, queue := rest } : State).holds = s.holds := rfl
    rw [State.weight, State.weight, hholds, hwriter, hqueue]
    simp only [List.map_cons, List.sum_cons, Task.weight, Writer.weight]
    omega

theorem weight_work {outcome : Outcome} (hj : Journals s) (h : s.work outcome = some t) : t.weight < s.weight := by
  unfold State.work at h
  split at h
  next => cases h
  next task hw =>
    obtain ⟨y, -, rfl⟩ := map_eq_some_iff.mp h
    split_ifs
    · exact weight_turn rfl rfl rfl (by rw [hw]; simp only [Writer.weight]; omega)
    · exact weight_turn rfl rfl rfl (by rw [hw]; simp only [Writer.weight]; omega)
  next task expected hw =>
    split at h
    · cases h
      exact weight_turn rfl rfl rfl (by rw [hw]; simp only [Writer.weight]; omega)
    · cases h
      refine weight_turn rfl rfl rfl ?_
      rw [hw]
      split_ifs <;> (simp only [Writer.weight]; omega)
    · cases h
      exact weight_turn rfl rfl rfl (by rw [hw]; simp only [Writer.weight]; omega)
  next task expected chunk hw =>
    obtain ⟨y, hy, rfl⟩ := map_eq_some_iff.mp h
    split_ifs with haborted hbad
    · exact weight_turn rfl rfl rfl (by rw [hw]; simp only [Writer.weight]; omega)
    · exact weight_turn rfl rfl rfl (by rw [hw]; simp only [Writer.weight]; omega)
    refine weight_put hj (unlocked_eq_some.mp hy).1 rfl rfl ?_
    have hsame : (y.record (.appendBegins chunk)).weight = y.weight := rfl
    have hchunk := chunk.ordered
    rw [hw, hsame]
    simp only [put_queue, Writer.weight]
    omega
  next task chunk hw =>
    obtain ⟨y, hy, h⟩ := bind_eq_some_iff.mp h
    split at h
    · cases h
    · cases h
      refine weight_put hj hy rfl rfl ?_
      have hsame : (y.record (.appended chunk)).weight = y.weight := rfl
      rw [hw, hsame]
      simp only [put_queue, Writer.weight]
      omega
    cases h
    refine weight_put hj hy rfl rfl ?_
    have hsame : (y.record (.appendRaised chunk)).weight = y.weight := rfl
    rw [hw, hsame]
    simp only [put_queue, Writer.weight]
    omega
  next task expected hw =>
    obtain ⟨y, hy, hhold, rfl⟩ := exists_of_map h
    refine weight_put hj hy rfl rfl ?_
    have hsame : (if y.state = .open then { y with appendedTokens := expected } else y).weight = y.weight := by
      split_ifs <;> rfl
    rw [hw, hsame]
    simp only [put_queue, Writer.weight]
    omega
  next task hw =>
    obtain ⟨y, hy, hhold, rfl⟩ := exists_of_map h
    refine weight_put hj hy rfl rfl ?_
    have hless : (if y.state = .open then y.abortLocked else y).weight ≤ 1 := by
      split_ifs
      · exact weight_abortLocked hhold
      · exact (weight_of_none hhold).trans_le (Nat.zero_le 1)
    rw [hw]
    simp only [put_queue, Writer.weight]
    omega
  next task ok hw =>
    obtain ⟨y, hy, hhold, rfl⟩ := exists_of_map h
    refine weight_put hj hy rfl rfl ?_
    have hnone := weight_completionDone (x := y) (c := task.completion) hhold
    rw [hw]
    dsimp only
    split_ifs <;> (simp only [put_queue, Writer.weight]; omega)
  next task ok hw =>
    obtain ⟨y, hy, rfl⟩ := map_eq_some_iff.mp h
    obtain ⟨transactions, heq⟩ := finishAbort_eq s task.journal y
    rw [heq]
    refine weight_put hj hy rfl rfl ?_
    have hnone : y.aborted.weight = 0 := weight_of_none rfl
    rw [hw]
    simp only [put_queue, Writer.weight]
    omega
  next =>
    cases h
    exact weight_turn rfl rfl rfl (by simp_all [Writer.weight])
  next =>
    cases h
    exact weight_turn rfl rfl rfl (by simp_all [Writer.weight])

/-- Continuing uses up weight. -/
theorem weight_step (hj : Journals s) (ha : a.continues = true) (h : step s a = some t) : t.weight < s.weight := by
  cases a with
  | enqueue => exact weight_enqueue hj h
  | commitEnds k ok =>
    obtain ⟨y, hy, h⟩ := bind_eq_some_iff.mp h
    split at h
    case isTrue hhold =>
      rw [Option.some.injEq] at h
      subst h
      refine weight_put hj hy rfl rfl ?_
      have hweight : y.weight = 1 := by rw [Journal.weight, hhold]
      have hnone : (if ok = true then { y with state := .committed, hold := none, store := .committed :: y.store }
          else { y with hold := none, store := .commitRaised :: y.store } : Journal).weight = 0 := by
        split_ifs <;> rfl
      simp only [put_queue, put_writer]
      omega
    case isFalse => cases h
  | abortEnds k =>
    obtain ⟨y, hy, h⟩ := bind_eq_some_iff.mp h
    split_ifs at h with hhold
    obtain ⟨transactions, heq⟩ := finishAbort_eq s k y
    rw [heq] at h
    cases h
    refine weight_put hj hy rfl rfl ?_
    have hweight : y.weight = 1 := by rw [Journal.weight, hhold]
    have hnone : y.aborted.weight = 0 := weight_of_none rfl
    simp only [put_queue, put_writer]
    omega
  | take => exact weight_take h
  | work => exact weight_work hj h
  | begin | submit | commit | retire | abort | shutdown | shutdownGoesOn => cases ha

/-- The writer goes on with a task whose journal's lock is free. -/
theorem work_enabled {task : Task} (hw : s.writer.task? = some task) (hx : s.journals task.journal = some x)
    (hhold : x.hold = none) : ∃ t, s.work .returns = some t := by
  have hfree := unlocked_eq_some.mpr ⟨hx, hhold⟩
  unfold State.work
  cases h : s.writer <;> rw [h] at hw <;> cases hw <;> simp [hfree, hx]

/-- Until the system is quiet some section continues. -/
theorem continues_enabled (h : Inv s) (hk : Known s) (hq : ¬s.Quiet) : ∃ a, a.continues = true ∧ (step s a).isSome = true := by
  by_cases hheld : ∃ i y, s.journals i = some y ∧ y.hold ≠ none
  · obtain ⟨i, y, hy, hne⟩ := hheld
    obtain ⟨hold, hh⟩ := Option.ne_none_iff_exists'.mp hne
    cases hold with
    | submitting =>
      refine ⟨.enqueue i true, rfl, ?_⟩
      simp only [step, State.enqueue, hy, bind_some, hh, or_true, if_true, isSome_some]
    | committing =>
      refine ⟨.commitEnds i true, rfl, ?_⟩
      simp only [step, State.commitEnds, hy, bind_some, if_pos hh, isSome_some]
    | aborting byWriter =>
      cases byWriter with
      | false =>
        refine ⟨.abortEnds i, rfl, ?_⟩
        simp only [step, State.abortEnds, hy, bind_some, if_pos hh, isSome_some]
      | true =>
        -- the writer runs the store's abort of its task's journal
        have hfin := (h.journals.life i y hy).writer.mp hh
        have hon : s.writer.finalizes = true := by
          rw [Writer.on] at hfin
          split at hfin
          · exact hfin
          · cases hfin
        cases hw : s.writer <;> rw [hw] at hon <;> cases hon
        rename_i task ok
        have htask : task.journal < s.count := h.journals.tasks task (List.mem_append_left _ (by rw [hw]; simp [Writer.task?]))
        obtain ⟨z, hz⟩ := hk _ htask
        exact ⟨.work .returns, rfl, by simp only [step, State.work, hw, hz, Option.map_some, isSome_some]⟩
  · have hfree : ∀ i y, s.journals i = some y → y.hold = none :=
      fun i y hy => not_not.mp fun hne => hheld ⟨i, y, hy, hne⟩
    have hout : s.outstanding ≠ [] := fun hnone => hq ⟨hnone, hfree⟩
    cases htask : s.writer.task? with
    | some task =>
      obtain ⟨z, hz⟩ := hk _ (h.journals.tasks task (List.mem_append_left _ (by rw [htask]; simp)))
      obtain ⟨t, ht⟩ := work_enabled htask hz (hfree _ z hz)
      exact ⟨.work .returns, rfl, Option.isSome_iff_exists.mpr ⟨t, ht⟩⟩
    | none =>
      have hidle : s.writer = .idle := by
        cases hw : s.writer <;> rw [hw] at htask <;> first | rfl | cases htask
      rw [State.outstanding, htask] at hout
      obtain ⟨task, rest, hqueue⟩ := List.exists_cons_of_ne_nil hout
      exact ⟨.take, rfl, by simp only [step, State.take, hidle, (show s.queue = task :: rest from hqueue), isSome_some]⟩

end SparkRing.Snapshot
