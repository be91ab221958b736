import Mathlib.Tactic.Linarith
import SparkRing.OrderedDict

/-!
# Records of automatic recovery

Each deployment directory has a record: whether recovery is on for it, its failed
attempts, its restarts and the attempt that runs. Writers merge their fields into the
record that is stored when they write. A saved state lets recovery act where it is a
completed up, or exactly what recovery's own attempt left.
-/

namespace SparkRing.Recovery

open OrderedDict

/-- A lifecycle operation of a deployment. -/
inductive Operation
  /-- The deployment's assets are prepared. -/
  | prepare
  /-- The model is started. -/
  | up
  /-- The model is stopped. -/
  | down
  deriving DecidableEq

/-- What `state.json` says of a deployment's last operation, nothing before its first one. -/
structure Saved where
  /-- The number of the operation. -/
  generation : Option ℤ := none
  operation : Option Operation := none
  complete : Option Bool := none
  deriving DecidableEq

/-- The last operation is a completed up. -/
def Saved.completedUp (state : Saved) : Bool := state.operation = some .up && state.complete = some true

/-- What an observation of a deployment found. -/
inductive Condition
  /-- A Spark does not answer. -/
  | unreachable
  /-- The model state on a Spark is unknown. -/
  | unknown
  /-- Marker processes run without an active mesh unit. -/
  | meshCleanup
  /-- The model runs on no Spark. -/
  | stopped
  /-- The model runs on some Sparks only. -/
  | partly
  /-- A Spark restarted since the model started. -/
  | rebooted
  /-- The containers run, but the API fails. -/
  | apiFailing
  | meshFailed
  | serving
  deriving DecidableEq

/-- What recovery may do about a finding. -/
inductive Remedy
  /-- Start the model. -/
  | up
  /-- Stop it, then start it. -/
  | restart
  deriving DecidableEq

/-- States whose action recovery may perform. -/
def Condition.action : Condition → Option Remedy
  | .stopped => some .up
  | .partly => some .restart
  | .rebooted => some .restart
  | .apiFailing => some .restart
  | _ => none

/-- An assessed observation. -/
structure Finding where
  /-- The state that was found. -/
  state : Condition
  /-- What it says. -/
  summary : String := ""
  /-- The API answered that its engine stopped. -/
  apiDead : Bool := false

/-- Runs that found the model not serving. -/
structure Pending where
  /-- How many they are. -/
  count : ℕ
  /-- The time of the first one. -/
  since : ℚ
  /-- What the last one found. -/
  state : Condition

/-- How an attempt ended. -/
inductive AttemptResult
  /-- The model started. -/
  | succeeded
  /-- It did not. -/
  | failed
  /-- The run stopped before it recorded the end. -/
  | interrupted
  deriving DecidableEq

/-- An attempt to start the model again. -/
structure Entry where
  /-- Which attempt it is, for the log of a run. -/
  number : ℕ
  startedAt : ℚ
  /-- Whether it only starts the model, or stops it first. -/
  action : Remedy
  /-- What was found. -/
  reason : String
  /-- The generation of the deployment before it. -/
  generation : Option ℤ

/-- The last attempt that ended. -/
structure Last where
  /-- The attempt. -/
  entry : Entry
  /-- When it ended, none where that is not known. -/
  finishedAt : Option ℚ
  /-- How it ended. -/
  result : AttemptResult

/-- The record of a deployment. -/
structure Record where
  /-- Recovery is on. -/
  enabled : Bool := true
  /-- The attempts that failed one after another. -/
  failures : ℕ := 0
  /-- Recovery stopped until an operator acts. -/
  stopped : Bool := false
  stopReason : Option String := none
  /-- The times of its successful restarts, the oldest first. -/
  restarts : List ℚ := []
  /-- The time before which it makes no attempt, none where it may. -/
  nextAttemptAt : Option ℚ := none
  /-- The runs that confirm a finding. -/
  pending : Option Pending := none
  /-- The attempt that runs. -/
  attempt : Option Entry := none
  /-- The state that its own failed attempt left. -/
  left : Option Saved := none
  /-- Since when it waits for Sparks to answer. -/
  waiting : Option ℚ := none
  /-- The last attempt that ended. -/
  last : Option Last := none

/-- The records of all deployments, by directory. -/
abbrev Document := Dict String Record

/-- The record of a directory: recovery is on and nothing has failed for a deployment without one. -/
def recordOf (document : Document) (directory : String) : Record := (document.get? directory).getD {}

/-- Merge changes into the record of a directory, and drop the records of directories that
no longer exist. -/
def Document.update (document : Document) (there : String → Bool) (directory : String) (changes : Record → Record) : Document :=
  (document.set directory (changes (recordOf document directory))).filter fun item => there item.1

/-- Seconds before the next attempt after one, two and three consecutive failed attempts. -/
def BACKOFF : List ℚ := [120, 300, 900]

/-- Consecutive failed attempts after which recovery stops. -/
def FAILURE_LIMIT : ℕ := 4

/-- Successful restarts within a window after which recovery stops instead of restarting again. -/
def RESTART_LIMIT : ℕ := 3

/-- The seconds of this window. -/
def RESTART_WINDOW : ℚ := 6 * 3600

/-- Consecutive runs that must find the model not serving before one acts. -/
def CONFIRMATIONS : ℕ := 2

/-- Seconds the API may give no answer at all before that alone counts as not serving. -/
def API_SILENCE : ℚ := 300

/-- Whether the saved state lets recovery act: a completed up, or exactly what its own attempt left. -/
def mayAct (state : Saved) (record : Record) : Bool := state.completedUp || decide (record.left = some state)

/-- Seconds to wait after consecutive failed attempts. -/
def backoff (failures : ℕ) : ℚ := BACKOFF.getD (min (max failures 1) BACKOFF.length - 1) 0

/-- A restart lies within the window before a time. -/
def recent (now moment : ℚ) : Bool := now - moment < RESTART_WINDOW

/-- The successful restarts within the window before a time. -/
def recentRestarts (record : Record) (now : ℚ) : List ℚ := record.restarts.filter (recent now)

/-- Whether enough runs found the model not serving to act on a finding. -/
def confirmed (finding : Finding) (pending : Pending) (t : ℚ) : Bool :=
  if finding.state = .apiFailing ∧ finding.apiDead = false then API_SILENCE ≤ t - pending.since
  else CONFIRMATIONS ≤ pending.count

/-- Why recovery stops after failed attempts. -/
def failedText (failures : ℕ) : String := s!"{failures} failed attempts in a row"

/-- What a failed attempt changes. -/
def failedChanges (last : Last) (failures : ℕ) (ended : ℚ) (left : Option Saved) (record : Record) : Record :=
  { record with
    attempt := none
    failures := failures
    stopped := FAILURE_LIMIT ≤ failures
    stopReason := if FAILURE_LIMIT ≤ failures then some (failedText failures) else none
    nextAttemptAt := some (ended + backoff failures)
    left := left
    last := some last }

/-- A state that an attempt can have left: an up or a down within its generations. -/
def Entry.ours (prior : Entry) (state : Saved) : Bool :=
  (state.operation = some .up || state.operation = some .down) && prior.generation.getD 0 ≤ state.generation.getD 0 &&
    state.generation.getD 0 ≤ prior.generation.getD 0 + 2

/-- Record an attempt that stopped without recording its end: the changes, from the record
that was read. -/
def interruptedChanges (record : Record) (prior : Entry) (state : Saved) (t : ℚ) : Record → Record :=
  failedChanges ⟨prior, none, .interrupted⟩ (record.failures + 1) t (if prior.ours state then some state else none)

/-- What a successful attempt changes, from the record that was read. -/
def succeededChanges (record : Record) (last : Last) (finished : ℚ) (stored : Record) : Record :=
  { stored with
    attempt := none
    last := some last
    failures := 0
    nextAttemptAt := none
    left := none
    restarts := recentRestarts record finished ++ [finished] }

/-- What finding the model serving changes. -/
def servingChanges (record : Record) : Record :=
  { record with waiting := none, pending := none, failures := 0, nextAttemptAt := none, left := none }

/-- What a manual up or install records once it started the deployment. -/
def startedChanges (enabled : Option Bool) (record : Record) : Record :=
  { record with
    failures := 0
    stopped := false
    stopReason := none
    restarts := []
    nextAttemptAt := none
    pending := none
    attempt := none
    left := none
    waiting := none
    enabled := enabled.getD record.enabled }

/-- What a manual operation forgets before it changes the deployment. -/
def forgetChanges (record : Record) : Record := { record with attempt := none, left := none, pending := none }

/-- What `sparkring recover on` or `off` records. -/
def enabledChanges (enabled : Bool) (record : Record) : Record :=
  if enabled then
    { record with
      enabled := true
      failures := 0
      stopped := false
      stopReason := none
      restarts := []
      nextAttemptAt := none
      pending := none }
  else { record with enabled := false }

variable {document : Document} {there : String → Bool} {directory other : String} {changes : Record → Record} {record : Record}
  {state : Saved} {now later : ℚ}

theorem recordOf_update (h : there directory = true) :
    recordOf (document.update there directory changes) directory = changes (recordOf document directory) := by
  have hget : (document.update there directory changes).get? directory = some (changes (recordOf document directory)) :=
    Dict.get?_filter_eq_some.mpr ⟨Dict.get?_set_eq_some.mpr (.inl ⟨rfl, rfl⟩), h⟩
  rw [recordOf, hget, Option.getD_some]

/-- Writers of other records keep a record whose directory exists. -/
theorem recordOf_update_of_ne (h : there directory = true) (hne : directory ≠ other) :
    recordOf (document.update there other changes) directory = recordOf document directory := by
  have hget : (document.update there other changes).get? directory = document.get? directory := by
    refine Option.ext fun one => ?_
    rw [Document.update, Dict.get?_filter_eq_some, Dict.get?_set_of_ne hne]
    exact and_iff_left h
  rw [recordOf, recordOf, hget]

theorem mayAct_eq : mayAct state record = true ↔ state.completedUp = true ∨ record.left = some state := by
  rw [mayAct, Bool.or_eq_true, decide_eq_true_eq]

/-- More failures wait longer. -/
theorem backoff_mono {failures more : ℕ} (h : failures ≤ more) : backoff failures ≤ backoff more := by
  have hsorted : ∀ i j : ℕ, i ≤ j → j < 3 → BACKOFF.getD i 0 ≤ BACKOFF.getD j 0 := by
    intro i j hij hj
    rcases j with _ | _ | _ | j
    · rw [Nat.le_zero.mp hij]
    · rcases i with _ | _ | i
      · norm_num [BACKOFF]
      · exact le_rfl
      · omega
    · rcases i with _ | _ | _ | i
      · norm_num [BACKOFF]
      · norm_num [BACKOFF]
      · exact le_rfl
      · omega
    · omega
  refine hsorted _ _ ?_ ?_
  · exact Nat.sub_le_sub_right (min_le_min_right _ (max_le_max_right _ h)) 1
  · have hlength : min (max more 1) BACKOFF.length ≤ 3 := min_le_right _ _
    omega

/-- A restart that is recent later was recent before. -/
theorem recent_of_later {moment : ℚ} (h : now ≤ later) (hrecent : recent later moment = true) : recent now moment = true := by
  unfold recent at hrecent ⊢
  rw [decide_eq_true_eq] at hrecent ⊢
  linarith

/-- The recent restarts of a later time, from those kept before. -/
theorem filter_recent_filter (restarts : List ℚ) (h : now ≤ later) :
    (restarts.filter (recent now)).filter (recent later) = restarts.filter (recent later) := by
  rw [List.filter_filter]
  refine List.filter_congr fun moment _ => ?_
  cases hlater : recent later moment with
  | false => rfl
  | true => exact recent_of_later h hlater

end SparkRing.Recovery
