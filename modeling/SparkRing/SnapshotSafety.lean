import SparkRing.SnapshotProgress

/-!
# Journals end once

A commit that reaches the store finds the journal's chunks consecutive over its span.
Aborts of the store transaction come once, after the last append, and not at all for a
committed journal. Completions are resolved once, and the shutdown that closed the
writer returns only with every journal ended.
-/

namespace SparkRing.Snapshot

open TransitionSystem Function

variable {w w' : Writer} {line line' : List Task} {s t : State} {n j k : ℕ} {x x' y : Journal} {a : Act}

/-- No thread can be surprised in a state. -/
structure Sound (s : State) : Prop where
  /-- Every commit that reached the store found the span covered and no abort before it. -/
  covered : ∀ j x, s.journals j = some x → CommitsCovered x.spanTokens x.store
  /-- A commit that reaches the store now finds an open journal, the span covered, and every task of the journal ended. -/
  commits : ∀ j t, step s (.commit j) = some t → ∃ x, s.journals j = some x ∧ x.state = .open ∧
    Covers x.store x.spanTokens ∧ x.pending = [] ∧ ∀ task ∈ s.writer.live.toList ++ s.queue, task.journal ≠ j
  /-- A journal that is not open stays so, and no commit of it reaches the store. -/
  stays : ∀ a t j x, step s a = some t → s.journals j = some x → x.state ≠ .open →
    ∃ y, t.journals j = some y ∧ y.state = x.state ∧ y.store.count .commitBegins = x.store.count .commitBegins
  committed : ∀ j x, s.journals j = some x → x.state = .committed → .abortBegins ∉ x.store
  /-- No store transaction is aborted twice. -/
  aborted : ∀ j x, s.journals j = some x → x.store.count .abortBegins ≤ 1 ∧ x.store.count .abortEnded ≤ 1
  /-- No abort of a store transaction has started while one of its appends runs. -/
  appending : ∀ task chunk, s.writer = .appending task chunk →
    ∀ x, s.journals task.journal = some x → .abortBegins ∉ x.store
  /-- No completion is resolved twice. -/
  resolved : (s.resolved.map Prod.fst).Nodup
  returned : ∀ c, c ∈ s.returned ↔ c ∈ s.resolved.map Prod.fst ∨ c ∈ s.outstanding.map Task.completion
  outstanding : ∀ task ∈ s.outstanding, task.completion ∉ s.resolved.map Prod.fst
  /-- A submission that raised left no task. -/
  raised : ∀ task ∈ s.outstanding, task.completion ∉ s.raised
  /-- The shutdown that closed the writer left no task and no journal open. -/
  closed : s.closing = .returned → s.outstanding = [] ∧ s.writer.readsView = false ∧
    ∀ j x, s.journals j = some x → x.state = .committed ∨
      x.state = .aborted ∧ x.store.count .abortBegins = 1 ∧ x.store.count .abortEnded = 1

/-- Everything a thread has begun has ended. -/
structure Settled (s : State) : Prop where
  /-- No task is outstanding and no lock is held. -/
  quiet : s.Quiet
  /-- Every completion that a submission returned is resolved. -/
  resolved : ∀ c ∈ s.returned, (s.resolved.map Prod.fst).count c = 1
  /-- The store transaction of every aborted journal was aborted once. -/
  aborted : ∀ j x, s.journals j = some x → x.state = .aborted →
    x.store.count .abortBegins = 1 ∧ x.store.count .abortEnded = 1

/-- Only an open journal's commit reaches the store. -/
theorem Move.commits_eq (hm : Move w line x w' line' x') (hl : Lifecycle w line x) (h : x.state ≠ .open) :
    x'.store.count .commitBegins = x.store.count .commitBegins := by
  have hfinalize (y : Journal) (b : Bool) : (y.finalizeAbort b).store.count .commitBegins = y.store.count .commitBegins := by
    unfold Journal.finalizeAbort
    split
    · rfl
    · simp
  have hdone (c : ℕ) : (x.completionDone c).store.count .commitBegins = x.store.count .commitBegins := by
    unfold Journal.completionDone
    dsimp only
    split
    · exact hfinalize _ _
    · rfl
  cases hm with
  | aborts _ hopen => exact absurd hopen h
  | drops hhold => exact absurd (hl.submitting _ _ _ hhold) h
  | commits _ hopen _ | failsOpen _ hopen => exact absurd hopen h
  | leaves | finalizes => exact hdone _
  | committed | commitRaises => simp
  | abortEnds | finalized => simp [Journal.aborted]
  | appends | appended | appendRaises => simp [Journal.record]
  | _ => rfl

theorem journal_stays (h : step s a = some t) (hx : s.journals j = some x) : ∃ y, t.journals j = some y := by
  have hput (k : ℕ) (z : Journal) : ∃ y, update s.journals k (some z) j = some y := by
    by_cases hj : j = k
    · exact ⟨z, by rw [hj, update_self]⟩
    · exact ⟨x, by rw [update_of_ne hj, hx]⟩
  obtain ⟨-, hsame | ⟨k, z, hz⟩⟩ | ⟨-, z, hz⟩ := puts_step h
  · exact ⟨x, hsame ▸ hx⟩
  · exact hz ▸ hput k z
  · exact hz ▸ hput s.count z

theorem ended_stays (hi : Inv s) (h : step s a = some t) (hx : s.journals j = some x) (hs : x.state ≠ .open) :
    ∃ y, t.journals j = some y ∧ y.state = x.state ∧ y.store.count .commitBegins = x.store.count .commitBegins := by
  obtain ⟨y, hy⟩ := journal_stays h hx
  have hfresh : ∀ i y, s.journals i = some y → s.nextCompletion ∉ y.pending :=
    fun i y hy hmem => lt_irrefl _ (pending_old hi.journals hi.completions hy _ hmem)
  refine ⟨y, hy, ?_⟩
  obtain ⟨z, hz, hmove⟩ | ⟨hnone, -⟩ := local_step h hy hi.journals.below hfresh
  · rw [hx, Option.some.injEq] at hz
    subst hz
    obtain ⟨rfl, -⟩ | hmove := hmove
    · exact ⟨rfl, rfl⟩
    · have hlife := hi.journals.life j x hx
      exact ⟨hmove.state_of_closed hlife hs, hmove.commits_eq hlife hs⟩
  · rw [hnone] at hx
    cases hx

/-- An aborted journal without tasks of its own whose lock is not held for an abort was aborted once. -/
theorem Lifecycle.aborted_once (h : Lifecycle w line x) (hs : x.state = .aborted) (hp : x.pending = []) (ha : x.aborts = false) :
    x.store.count .abortBegins = 1 ∧ x.store.count .abortEnded = 1 := by
  have hf : x.abortFinalized = true := (h.ends hs hp).resolve_right fun hno => by simp [ha] at hno
  exact ⟨by rw [h.begun, hf]; rfl, by rw [h.ended, hf]; rfl⟩

/-- A journal without outstanding tasks counts the completion of a submission on its way only. -/
theorem pending_of_drained (hj : Journals s) (hx : s.journals j = some x) (hout : s.outstanding = []) : x.pending = x.held := by
  obtain ⟨htask, hqueue⟩ := List.append_eq_nil_iff.mp hout
  have hidle : s.writer = .idle := by
    cases hw : s.writer <;> rw [hw] at htask <;> first | rfl | cases htask
  have hpending := (hj.life j x hx).pending_eq
  rwa [hidle, Writer.on_idle, State.line, hqueue] at hpending

/-- The store transaction of an aborted journal without outstanding tasks was aborted once. -/
theorem Inv.aborted_once (hi : Inv s) (hx : s.journals j = some x) (hs : x.state = .aborted) (hout : s.outstanding = [])
    (ha : x.hold ≠ some (.aborting false)) : x.store.count .abortBegins = 1 ∧ x.store.count .abortEnded = 1 := by
  have hlife := hi.journals.life j x hx
  have hheld : x.held = [] := by
    rw [Journal.held]
    split
    next c b v hh => exact absurd (hlife.submitting c b v hh) (by simp [hs])
    next => rfl
  obtain ⟨htask, -⟩ := List.append_eq_nil_iff.mp hout
  refine hlife.aborted_once hs ((pending_of_drained hi.journals hx hout).trans hheld) (Bool.eq_false_iff.mpr fun hno => ?_)
  unfold Journal.aborts at hno
  split at hno
  next b hh =>
    cases b with
    | false => exact ha hh
    | true =>
      have hfin := hlife.writer.mp hh
      have hidle : s.writer = .idle := by
        cases hw : s.writer <;> rw [hw] at htask <;> first | rfl | cases htask
      rw [hidle, Writer.on_idle] at hfin
      cases hfin
  next => cases hno

/-- What holds in every state of a run is sound. -/
theorem Inv.sound (hi : Inv s) : Sound s where
  covered j x hx := (hi.journals.coverage j x hx).commits
  commits j t h := by
    obtain ⟨x, hx, -, h⟩ := exists_of_bind h
    split_ifs at h with hready
    have hlife := hi.journals.life j x hx
    have hempty : x.pending = [] := (of_decide_eq_true hready.2).1
    refine ⟨x, hx, hready.1, (hi.journals.coverage j x hx).covers hlife hready.1 hready.2, hempty, ?_⟩
    intro task htask hj
    have hnone := hlife.pending_eq
    rw [hempty] at hnone
    obtain ⟨htasks, -⟩ := List.append_eq_nil_iff.mp hnone.symm
    obtain ⟨hlive, hline⟩ := List.append_eq_nil_iff.mp (List.map_eq_nil_iff.mp htasks)
    obtain hw | hq := List.mem_append.mp htask
    · have hon : s.writer.task? = some task := by
        rw [Option.mem_toList] at hw
        revert hw
        cases s.writer <;> simp [Writer.live, Writer.task?]
      rw [← hj, Writer.on_task hon] at hlive
      rw [hlive] at hw
      cases hw
    have hmem : task ∈ s.line j := List.mem_filter.mpr ⟨hq, decide_eq_true hj⟩
    rw [hline] at hmem
    cases hmem
  stays a t j x h hx hs := ended_stays hi h hx hs
  committed j x hx hs := (hi.journals.life j x hx).no_abort (by simp [hs])
  aborted j x hx := by
    have hlife := hi.journals.life j x hx
    rw [hlife.begun, hlife.ended]
    constructor
    · split_ifs <;> omega
    · split_ifs <;> omega
  appending task chunk hw x hx := by
    have hlife := hi.journals.life _ x hx
    rw [Writer.on_task (by rw [hw]; rfl), hw] at hlife
    obtain ⟨rest, hp, -⟩ := hlife.pending_cons rfl
    have hf : x.abortFinalized = false := Bool.eq_false_iff.mpr fun hno => by simp [(hlife.finalized hno).2] at hp
    have ha : x.aborts = false := Bool.eq_false_iff.mpr fun hno => by simp [(hlife.aborting hno).2.1] at hp
    have hbegun := hlife.begun
    rw [hf, ha] at hbegun
    exact List.count_eq_zero.mp hbegun
  resolved := by
    have hnodup := hi.completions.nodup
    rw [hi.completions.returned_eq] at hnodup
    exact (List.nodup_append.mp hnodup).1
  returned c := by rw [hi.completions.returned_eq, List.mem_append]
  outstanding task htask hmem := by
    have hnodup := hi.completions.nodup
    rw [hi.completions.returned_eq] at hnodup
    exact (List.nodup_append.mp hnodup).2.2 _ hmem _ (List.mem_map_of_mem htask) rfl
  raised task htask hmem := by
    refine (hi.completions.raised _ hmem).2 ?_
    rw [hi.completions.returned_eq]
    exact List.mem_append_right _ (List.mem_map_of_mem htask)
  closed hreturned := by
    have hout := hi.drained hreturned
    obtain ⟨htask, -⟩ := List.append_eq_nil_iff.mp hout
    refine ⟨hout, ?_, fun j x hx => ?_⟩
    · cases hw : s.writer <;> rw [hw] at htask <;> first | rfl | cases htask
    have hsettled : ¬x.unsettled := by
      intro hun
      have hleft := hi.owned.left (by rw [hreturned]; intro h; cases h) j x hx hun
      rw [hreturned] at hleft
      cases hleft
    obtain ⟨hs, ha⟩ := not_or.mp hsettled
    cases hstate : x.state with
    | «open» => exact absurd hstate hs
    | committed => exact .inl rfl
    | aborted => exact .inr ⟨rfl, hi.aborted_once hx hstate hout ha⟩

theorem Inv.settled (hi : Inv s) (hq : s.Quiet) : Settled s where
  quiet := hq
  resolved c hc := by
    have heq := hi.completions.returned_eq
    rw [hq.1, List.map_nil, List.append_nil] at heq
    exact heq ▸ List.count_eq_one_of_mem hi.completions.nodup hc
  aborted j x hx hs := hi.aborted_once hx hs hq.1 (by rw [hq.2 j x hx]; nofun)

/-- Every run is sound, and whatever continues first, everything that was begun ends. -/
theorem committed_covered_ended_once (h : Reachable step Unrestricted (State.init n) s) :
    Sound s ∧ Inevitable step (fun a => a.continues = true) Settled s := by
  have hi := Inv.of_reachable h
  have hk : Known s := h.invariant Known nofun fun _ _ _ _ hk _ ha => hk.step ha
  refine ⟨hi.sound, Inevitable.of_measure Nat.lt_wfRel.wf State.weight (I := fun s => Inv s ∧ Known s) ?_ ?_ ⟨hi, hk⟩⟩
  · intro s a t hs ha ht
    exact ⟨⟨hs.1.step ht, hs.2.step ht⟩, weight_step hs.1.journals ha ht⟩
  intro s hs hno
  obtain ⟨a, ha, hsome⟩ := continues_enabled hs.1 hs.2 fun hq => hno (hs.1.settled hq)
  obtain ⟨t, ht⟩ := Option.isSome_iff_exists.mp hsome
  exact ⟨a, t, ha, ht⟩

def oneChunk : SnapshotBatch := ⟨"r", "d", 0, 0, 256, 256⟩

theorem firstChunk_pos : 0 < 256 := by decide

/-- The chunk of the batch. -/
def firstChunk : TokenRange := ⟨0, 256, firstChunk_pos⟩

/-- A request whose only batch is appended. -/
def appendsOne : List Act :=
  [.begin "r" "d" 256, .submit 0 oneChunk ⟨0, 0⟩ (some 256), .enqueue 0 false, .take, .work .returns,
    .work (.chunk firstChunk), .work .returns, .work .returns, .work .returns, .work .returns, .work .returns]

/-- A run that commits one journal, and aborts another with a batch at the writer before it shuts down. -/
theorem committed_and_aborted_ended_once :
    ∃ s, Reachable step Unrestricted (State.init 2) s ∧
      ((s.journals 0).any fun x => decide (x.state = .committed)) = true ∧
      ((s.journals 1).any fun x => decide (x.state = .aborted)) = true ∧ s.closing = .returned ∧
      Sound s ∧ Inevitable step (fun a => a.continues = true) Settled s := by
  obtain ⟨s, hs, hp⟩ := Reachable.exists_of_runs step (State.init 2)
    (appendsOne ++ [.commit 0, .commitEnds 0 true, .retire 0, .work .returns, .work .returns,
      .begin "r" "d" 256, .submit 1 oneChunk ⟨1, 0⟩ (some 256), .enqueue 1 false, .take, .work .returns,
      .shutdown, .shutdownGoesOn, .shutdownGoesOn, .work (.chunk firstChunk), .work .returns,
      .work .returns, .work .returns, .work .returns, .work .returns, .shutdownGoesOn])
    (fun s : State => ((s.journals 0).any fun x : Journal => decide (x.state = .committed)) &&
      ((s.journals 1).any fun x : Journal => decide (x.state = .aborted)) && decide (s.closing = .returned))
    (by decide +kernel)
  rw [Bool.and_eq_true, Bool.and_eq_true, decide_eq_true_eq] at hp
  exact ⟨s, hs, hp.1.1, hp.1.2, hp.2, committed_covered_ended_once hs⟩

/-- A commit reaches the store while a completion is not resolved, and a second shutdown returns while a view is read. -/
theorem commit_before_completion_resolved :
    (∃ s, Reachable step Unrestricted (State.init 2) s ∧
      ((step s (.commit 0)).isSome && decide (s.count = 1 ∧ s.returned = [0] ∧ s.resolved = [])) = true) ∧
    ∃ s, Reachable step Unrestricted (State.init 2) s ∧
      (decide (s.shutdownsBeside = 1) && s.writer.readsView) = true := by
  constructor
  · exact Reachable.exists_of_runs step (State.init 2) appendsOne
      (fun s => (step s (.commit 0)).isSome && decide (s.count = 1 ∧ s.returned = [0] ∧ s.resolved = []))
      (by decide +kernel)
  exact Reachable.exists_of_runs step (State.init 2)
    [.begin "r" "d" 256, .submit 0 oneChunk ⟨0, 0⟩ (some 256), .enqueue 0 false, .take, .shutdown, .shutdown]
    (fun s => decide (s.shutdownsBeside = 1) && s.writer.readsView) (by decide +kernel)

end SparkRing.Snapshot
