import SparkRing.RecoveryCounts

/-!
# Recovery stays within its guards

In every run that keeps manual operations apart from what a timer run relies on, recovery
calls the lifecycle only while it may, and its attempts keep their limits. Three runs show
a hold that is taken after it was read, failures that a serving model forgives, and a
manual down that a timer run overlooks.
-/

namespace SparkRing.Recovery

open TransitionSystem

variable {D : Deployment} {s s' : State} {log earlier between : List Event} {clock t b ended : ℚ} {number other : ℕ}

/-- What recovery keeps to. -/
structure WithinGuards (D : Deployment) (s : State) : Prop where
  /-- A lifecycle call: recovery is on and has not stopped, since the run took its locks there
  was a moment without a hold or the hold was not read, the deployment is active, and its
  saved state is a completed up or what recovery's own last attempt left. -/
  acts : ∀ s', step D s .applies = some s' →
    (s.record D).enabled = true ∧ (s.record D).stopped = false ∧ s.lapsed = true ∧ s.active = true ∧
      (s.saved.completedUp = true ∨ s.own = some s.saved)
  /-- A manual down is not undone. -/
  stays : s.own = none → s.saved.completedUp = false → step D s .applies = none
  /-- Few attempts fail one after another. -/
  fewFailures : ∀ earlier, earlier <:+ s.log → failedInRow earlier ≤ FAILURE_LIMIT
  /-- An attempt waits for the backoff of the failures counted so far. -/
  backsOff : ∀ number t earlier ended, (.began number t :: earlier) <:+ s.log → lastFailure earlier = some ended →
    ended + backoff (failedInRow earlier) ≤ t
  /-- Two attempts with nothing but failures between them are this far apart. -/
  apart : ∀ number t between other b earlier, (.began number t :: (between ++ .began other b :: earlier)) <:+ s.log →
    (∀ event ∈ between, ∃ n e, event = .failed n e) →
      b + backoff (failedInRow (between ++ .began other b :: earlier)) ≤ t
  /-- An attempt counts once. -/
  once : (s.log.filterMap Event.ended).Nodup
  /-- It counts before the next one begins, unless a manual operation forgot it. -/
  counted : ∀ number t earlier, (.began number t :: earlier) <:+ s.log → unfinished earlier = none
  /-- An attempt starts while few restarts are recent. -/
  rare : ∀ number t earlier, (.began number t :: earlier) <:+ s.log → (restartsSince earlier).countP (recent t) < RESTART_LIMIT

theorem Kept.tail {event : Event} (h : Kept (event :: log) clock) : Kept log clock where
  fits := fun one earlier hsuffix => h.fits one earlier (hsuffix.trans (List.suffix_cons event log))
  timely := by
    cases hevent : event.time with
    | none =>
      have htimely := h.timely
      rw [List.filterMap_cons_none hevent] at htimely
      exact htimely
    | some =>
      have htimely := h.timely
      rw [List.filterMap_cons_some hevent, List.pairwise_cons] at htimely
      exact htimely.2
  past := by
    intro moment hmem
    obtain ⟨one, hone, htime⟩ := List.mem_filterMap.mp hmem
    exact h.past moment (List.mem_filterMap.mpr ⟨one, List.mem_cons_of_mem _ hone, htime⟩)

theorem Kept.failedInRow_le (h : Kept log clock) : failedInRow log ≤ FAILURE_LIMIT := by
  induction log with
  | nil => exact Nat.zero_le _
  | cons event log ih =>
    cases event with
    | began number t => exact ih h.tail
    | failed => exact (h.fits _ _ (List.suffix_refl _)).2.2
    | succeeded | served | forgot | started | turned => exact Nat.zero_le _

theorem Kept.nodup_ended (h : Kept log clock) : (log.filterMap Event.ended).Nodup := by
  induction log with
  | nil => exact List.nodup_nil
  | cons event log ih =>
    cases hevent : event.ended with
    | none =>
      rw [List.filterMap_cons_none hevent]
      exact ih h.tail
    | some number =>
      rw [List.filterMap_cons_some hevent, List.nodup_cons]
      refine ⟨?_, ih h.tail⟩
      have hfits := h.fits event log (List.suffix_refl _)
      cases event with
      | failed =>
        cases hevent
        exact hfits.2.1
      | succeeded =>
        cases hevent
        exact hfits.2
      | began | served | forgot | started | turned => cases hevent

theorem Kept.suffix (h : Kept log clock) (hsuffix : earlier <:+ log) : Kept earlier clock := by
  obtain ⟨later, rfl⟩ := hsuffix
  induction later with
  | nil => exact h
  | cons event later ih => exact ih h.tail

/-- The failure between two attempts came after the first of them began. -/
theorem Kept.apart (h : Kept log clock) (hsuffix : (.began number t :: (between ++ .began other b :: earlier)) <:+ log)
    (hfailed : ∀ event ∈ between, ∃ n e, event = .failed n e) : b + backoff (failedInRow (between ++ .began other b :: earlier)) ≤ t := by
  obtain ⟨-, hunfinished, hwaits, -⟩ := h.fits _ _ hsuffix
  cases between with
  | nil => cases hunfinished
  | cons event between =>
    obtain ⟨n, e, rfl⟩ := hfailed event List.mem_cons_self
    have htimely := (h.suffix hsuffix).tail.timely
    have hmem : b ∈ (between ++ .began other b :: earlier).filterMap Event.time :=
      List.mem_filterMap.mpr ⟨_, List.mem_append_right _ List.mem_cons_self, rfl⟩
    have hle : b ≤ e := List.rel_of_pairwise_cons htimely hmem
    have hbacks : e + backoff (failedInRow ((.failed n e :: between) ++ .began other b :: earlier)) ≤ t := hwaits e rfl
    linarith

/-- A run has its counts and what it relies on in order. -/
theorem sound_of_reachable (h : Reachable (step D) Apart {} s) : Sound D s ∧ Counts (s.tally D) s.run := by
  refine h.invariant (fun s => Sound D s ∧ Counts (s.tally D) s.run) ⟨sound_init, counts_init⟩ ?_
  intro s act s' _ hinv happart hstep
  exact ⟨hinv.1.step happart hstep, hinv.2.step hinv.1.there hstep⟩

theorem acts_of_sound (h : Sound D s) (hstep : step D s .applies = some s') :
    (s.record D).enabled = true ∧ (s.record D).stopped = false ∧ s.lapsed = true ∧ s.active = true ∧
      (s.saved.completedUp = true ∨ s.own = some s.saved) := by
  simp only [step] at hstep
  split at hstep
  next record entry operation rest hrun =>
    have hphase : Phase.Guarded (s.view D) (.applying record entry (operation :: rest)) := h.guards.phase _ hrun
    obtain ⟨howns, hon, hactive, -⟩ := hphase
    exact ⟨hon.enabled, hon.going, hon.lapsed, hactive, howns⟩
  · cases hstep

/-- Where no manual operation forgets an attempt that a timer run relies on outside its
locks, recovery stays within its guards in every run. -/
theorem recovery_within_guards (D : Deployment) (s : State) (h : Reachable (step D) Apart {} s) : WithinGuards D s := by
  obtain ⟨hsound, hcounts⟩ := sound_of_reachable h
  have hkept : Kept s.log s.clock := hcounts.kept
  constructor
  case acts => exact fun s' hstep => acts_of_sound hsound hstep
  case stays =>
    intro hown hdown
    cases hstep : step D s .applies with
    | none => rfl
    | some =>
      obtain ⟨-, -, -, -, hup | hsame⟩ := acts_of_sound hsound hstep
      · rw [hdown] at hup
        cases hup
      · rw [hown] at hsame
        cases hsame
  case fewFailures => exact fun earlier hsuffix => (hkept.suffix hsuffix).failedInRow_le
  case backsOff => exact fun number t earlier ended hsuffix hended => (hkept.fits _ _ hsuffix).2.2.1 ended hended
  case apart => exact fun number t between other b earlier hsuffix hfailed => hkept.apart hsuffix hfailed
  case once => exact hkept.nodup_ended
  case counted => exact fun number t earlier hsuffix => (hkept.fits _ _ hsuffix).2.1
  case rare => exact fun number t earlier hsuffix => (hkept.fits _ _ hsuffix).2.2.2

def pair : Deployment := ⟨"main", true, 2⟩

/-- An operator starts it. -/
def install : List Act :=
  [.admits, .forgets, .changes ⟨some 1, some .up, some true⟩, .places true, .startsUp none, .leaves]

/-- A run that comes to this finding at this time. -/
def observing (state : Condition) (t : ℚ) : List Act :=
  [.starts, .asks, .looks, .judges t, .allows, .observes { state := state } t]

/-- The run takes its locks and looks again. -/
def locking (state : Condition) : List Act := [.locks, .readsHold false, .rereads, .compares, .observesAgain { state := state } false]

/-- Two runs find the model stopped, and the second one starts it again. -/
theorem recovery_within_guards_restarted : ∃ s : State, WithinGuards pair s ∧
    s.log = [.succeeded 0 900, .began 0 80, .started, .forgot] := by
  obtain ⟨s, hs, hlog⟩ := Reachable.exists_of_checked_runs (fun s act => decide (Apart s act)) (fun _ _ => of_decide_eq_true)
    (step pair) {}
    (install ++ observing .stopped 10 ++ observing .stopped 70 ++ locking .stopped ++
      [.begins 80, .applies, .writes ⟨some 2, some .up, some true⟩, .returns false, .finishes, .records 900])
    (fun s => decide (s.log = [.succeeded 0 900, .began 0 80, .started, .forgot])) (by decide +kernel)
  exact ⟨s, recovery_within_guards pair s hs, of_decide_eq_true hlog⟩

/-- The attempts that failed with no success and no manual operation between them. -/
def failuresSince : List Event → ℕ
  | .began .. :: log => failuresSince log
  | .failed .. :: log => failuresSince log + 1
  | .served :: log => failuresSince log
  | _ => 0

/-- Two runs find the model stopped, and the attempt is cut off once the model started:
the next run counts it as failed and finds the model serving. -/
def cutOff (t : ℚ) : List Act :=
  observing .stopped t ++ observing .stopped (t + 60) ++ locking .stopped ++
    [.begins (t + 70), .applies, .writes ⟨some 2, some .up, some true⟩, .crashes] ++ observing .serving (t + 600)

/-- An attempt that stops the model and does not get to start it. -/
def halfDone : List Act :=
  observing .partly 10 ++ observing .partly 70 ++ locking .partly ++
    [.begins 80, .applies, .writes ⟨some 2, some .down, some true⟩, .returns false, .applies, .returns true, .finishes, .records 90]

/-- An operator stops the model that recovery left stopped, while a timer run observes it. -/
def overlooked : List Act :=
  install ++ halfDone ++ observing .stopped 300 ++ [.starts, .asks, .looks, .judges 360, .allows] ++
    [.admits, .forgets, .changes ⟨some 2, some .down, some true⟩, .leaves] ++ [.observes { state := .stopped } 360] ++ locking .stopped ++
      [.begins 370]

/-- A hold is taken after a run found none, and the run acts. Five attempts fail one after
another, and a serving model is found between them. And a manual down that leaves the
state that recovery's last attempt left is undone. -/
theorem guards_overtaken :
    (∃ s : State, Reachable (step pair) Unrestricted {} s ∧ s.held = true ∧ (step pair s .applies).isSome = true) ∧
    (∃ s : State, Reachable (step pair) Unrestricted {} s ∧ FAILURE_LIMIT < failuresSince s.log) ∧
    ∃ s : State, Reachable (step pair) Unrestricted {} s ∧ s.own = none ∧ s.saved = ⟨some 2, some .down, some true⟩ ∧
      (step pair s .applies).isSome = true := by
  refine ⟨?_, ?_, ?_⟩
  · obtain ⟨s, hs, hheld⟩ := Reachable.exists_of_runs (step pair) {}
      (install ++ observing .stopped 10 ++ observing .stopped 70 ++
        [.locks, .readsHold false, .holds true, .rereads, .compares, .observesAgain { state := .stopped } false, .begins 80])
      (fun s => s.held && (step pair s .applies).isSome) (by decide +kernel)
    rw [Bool.and_eq_true] at hheld
    exact ⟨s, hs, hheld⟩
  · obtain ⟨s, hs, hfailures⟩ := Reachable.exists_of_runs (step pair) {}
      (install ++ cutOff 1000 ++ cutOff 2000 ++ cutOff 3000 ++ cutOff 4000 ++ cutOff 5000)
      (fun s => decide (FAILURE_LIMIT < failuresSince s.log)) (by decide +kernel)
    exact ⟨s, hs, of_decide_eq_true hfailures⟩
  obtain ⟨s, hs, hdown⟩ := Reachable.exists_of_runs (step pair) {} overlooked
    (fun s => decide (s.own = none) && decide (s.saved = ⟨some 2, some .down, some true⟩) && (step pair s .applies).isSome)
    (by decide +kernel)
  rw [Bool.and_eq_true, Bool.and_eq_true, decide_eq_true_eq, decide_eq_true_eq] at hdown
  exact ⟨s, hs, hdown.1.1, hdown.1.2, hdown.2⟩

end SparkRing.Recovery
