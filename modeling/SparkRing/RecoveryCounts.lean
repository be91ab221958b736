import SparkRing.RecoveryGuards

/-!
# What attempts are counted

The record counts at least the failures and the restarts that the log has had since it was
last reset, and so does the copy that a run works with: between a run's reading and its
writing only manual operations write, and they only reset. So attempts keep their limits,
whoever overtakes whom.
-/

namespace SparkRing.Recovery

/-- The attempts that failed one after another until now. -/
def failedInRow : List Event → ℕ
  | .began .. :: log => failedInRow log
  | .failed .. :: log => failedInRow log + 1
  | _ => 0

/-- When the last one of them failed. -/
def lastFailure : List Event → Option ℚ
  | .began .. :: log => lastFailure log
  | .failed _ t :: _ => some t
  | _ => none

/-- The successful restarts since a manual start, or since recovery was turned on. -/
def restartsSince : List Event → List ℚ
  | [] => []
  | .succeeded _ t :: log => t :: restartsSince log
  | .started :: _ => []
  | .turned true :: _ => []
  | _ :: log => restartsSince log

/-- The attempt that began, and that neither counted nor was forgotten. -/
def unfinished : List Event → Option ℕ
  | .began number _ :: _ => some number
  | .served :: log => unfinished log
  | .turned _ :: log => unfinished log
  | _ => none

/-- The number of an attempt that starts. -/
def Event.begun : Event → Option ℕ
  | .began number _ => some number
  | _ => none

/-- The number of an attempt that counts as failed or succeeded. -/
def Event.ended : Event → Option ℕ
  | .failed number _ => some number
  | .succeeded number _ => some number
  | _ => none

/-- The time of what happens to an attempt. -/
def Event.time : Event → Option ℚ
  | .began _ t => some t
  | .failed _ t => some t
  | .succeeded _ t => some t
  | _ => none

/-- A manual operation. -/
def Event.manual : Event → Bool
  | .forgot => true
  | .started => true
  | .turned _ => true
  | _ => false

/-- An event that may be logged. -/
def Event.Fits (log : List Event) : Event → Prop
  | .began number t => number ∉ log.filterMap Event.begun ∧ unfinished log = none ∧
      (∀ ended, lastFailure log = some ended → ended + backoff (failedInRow log) ≤ t) ∧
      (restartsSince log).countP (recent t) < RESTART_LIMIT
  | .failed number _ => number ∈ log.filterMap Event.begun ∧ number ∉ log.filterMap Event.ended ∧ failedInRow log < FAILURE_LIMIT
  | .succeeded number _ => number ∈ log.filterMap Event.begun ∧ number ∉ log.filterMap Event.ended
  | _ => True

/-- Every event of the log was one that might be logged, and time did not go back. -/
structure Kept (log : List Event) (clock : ℚ) : Prop where
  fits : ∀ event earlier, (event :: earlier) <:+ log → event.Fits earlier
  /-- Their times are in order. -/
  timely : (log.filterMap Event.time).Pairwise (· ≥ ·)
  /-- No event is to come. -/
  past : ∀ t ∈ log.filterMap Event.time, t ≤ clock

variable {log : List Event} {clock t now : ℚ} {event : Event} {record stored : Record} {D : Deployment} {s s' : State}
  {run : Option Phase} {phase : Phase} {state : Saved} {finding : Finding} {entry : Entry} {number : ℕ} {changes : Record → Record}
  {y : Tally}

theorem kept_nil : Kept [] 0 where
  fits := fun _ _ hsuffix => nomatch List.suffix_nil.mp hsuffix
  timely := List.Pairwise.nil
  past := fun _ hno => nomatch hno

theorem Kept.later (h : Kept log clock) (hle : clock ≤ t) : Kept log t :=
  ⟨h.fits, h.timely, fun moment hmem => (h.past moment hmem).trans hle⟩

theorem Kept.logs (h : Kept log clock) (hfits : event.Fits log) (htime : ∀ t, event.time = some t → t = clock) :
    Kept (event :: log) clock := by
  constructor
  case fits =>
    intro one earlier hsuffix
    rcases List.suffix_cons_iff.mp hsuffix with heq | hbefore
    · obtain ⟨rfl, rfl⟩ := heq
      exact hfits
    · exact h.fits one earlier hbefore
  case timely =>
    cases hevent : event.time with
    | none => rw [List.filterMap_cons_none hevent]; exact h.timely
    | some moment =>
      rw [List.filterMap_cons_some hevent, List.pairwise_cons]
      exact ⟨fun other hother => htime moment hevent ▸ h.past other hother, h.timely⟩
  case past =>
    cases hevent : event.time with
    | none => rw [List.filterMap_cons_none hevent]; exact h.past
    | some =>
      rw [List.filterMap_cons_some hevent]
      intro other hother
      rcases List.mem_cons.mp hother with rfl | hbefore
      · exact (htime other hevent).le
      · exact h.past other hbefore

section

variable (h : event.manual = true)

include h

/-- A manual operation forgets an attempt, starts the deployment or turns recovery on or off. -/
theorem manual_cases : event = .forgot ∨ event = .started ∨ ∃ enabled, event = .turned enabled := by
  cases event with
  | forgot => exact .inl rfl
  | started => exact .inr (.inl rfl)
  | turned enabled => exact .inr (.inr ⟨enabled, rfl⟩)
  | began | failed | succeeded | served => cases h

theorem begun_manual : (event :: log).filterMap Event.begun = log.filterMap Event.begun := by
  obtain rfl | rfl | ⟨enabled, rfl⟩ := manual_cases h
  · rfl
  · rfl
  · rfl

theorem ended_manual : (event :: log).filterMap Event.ended = log.filterMap Event.ended := by
  obtain rfl | rfl | ⟨enabled, rfl⟩ := manual_cases h
  · rfl
  · rfl
  · rfl

theorem lastFailure_manual : lastFailure (event :: log) = none := by
  obtain rfl | rfl | ⟨enabled, rfl⟩ := manual_cases h
  · rfl
  · rfl
  · rfl

theorem failedInRow_manual : failedInRow (event :: log) = 0 := by
  obtain rfl | rfl | ⟨enabled, rfl⟩ := manual_cases h
  · rfl
  · rfl
  · rfl

theorem restartsSince_manual : restartsSince (event :: log) = restartsSince log ∨ restartsSince (event :: log) = [] := by
  obtain rfl | rfl | ⟨enabled, rfl⟩ := manual_cases h
  · exact .inl rfl
  · exact .inr rfl
  cases enabled with
  | false => exact .inl rfl
  | true => exact .inr rfl

end

/-- A record counts the failures and restarts of the log. -/
structure Covers (record : Record) (log : List Event) (clock : ℚ) : Prop where
  failures : failedInRow log ≤ record.failures
  stops : FAILURE_LIMIT ≤ record.failures → record.stopped = true
  /-- It waits for the backoff. -/
  waits : ∀ ended, lastFailure log = some ended →
    ∃ moment, record.nextAttemptAt = some moment ∧ ended + backoff (failedInRow log) ≤ moment
  /-- Its restarts, whenever they are counted. -/
  restarts : ∀ now, clock ≤ now → (restartsSince log).countP (recent now) ≤ (recentRestarts record now).length

section

variable (h : Covers record log clock)

include h

theorem Covers.later (hle : clock ≤ t) : Covers record log t :=
  ⟨h.failures, h.stops, h.waits, fun now hnow => h.restarts now (hle.trans hnow)⟩

/-- Other fields of the record do not matter. -/
theorem Covers.congr (hfailures : stored.failures = record.failures)
    (hstopped : record.stopped = true → stored.stopped = true) (hnext : stored.nextAttemptAt = record.nextAttemptAt)
    (hrestarts : stored.restarts = record.restarts) : Covers stored log clock where
  failures := hfailures ▸ h.failures
  stops := fun hlimit => hstopped (h.stops (hfailures ▸ hlimit))
  waits := hnext ▸ h.waits
  restarts := by
    intro now hnow
    rw [recentRestarts, hrestarts]
    exact h.restarts now hnow

/-- The log only resets counts where a manual operation or a serving model is logged. -/
theorem Covers.resets (hrow : failedInRow (event :: log) = 0) (hlast : lastFailure (event :: log) = none)
    (hrestarts : restartsSince (event :: log) = restartsSince log ∨ restartsSince (event :: log) = []) :
    Covers record (event :: log) clock := { h with
  failures := hrow ▸ Nat.zero_le _
  waits := by
    intro ended hended
    rw [hlast] at hended
    cases hended
  restarts := by
    intro now hnow
    rcases hrestarts with hsame | hnil
    · exact hsame ▸ h.restarts now hnow
    · rw [hnil]
      exact Nat.zero_le _ }

theorem Covers.manually (hmanual : event.manual = true) : Covers record (event :: log) clock :=
  h.resets (failedInRow_manual hmanual) (lastFailure_manual hmanual) (restartsSince_manual hmanual)

theorem Covers.serves : Covers (servingChanges record) (.served :: log) clock := { h with
  failures := Nat.zero_le _
  stops := by
    intro hlimit
    cases hlimit
  waits := by
    intro ended hended
    cases hended }

theorem Covers.began : Covers record (.began number t :: log) clock :=
  ⟨h.failures, h.stops, h.waits, h.restarts⟩

/-- A failed attempt is counted on top of the record that was read. -/
theorem Covers.failed {last : Last} {left : Option Saved} (hstored : Covers stored log clock) :
    Covers (failedChanges last (record.failures + 1) t left stored) (.failed number t :: log) clock := { hstored with
  failures := Nat.succ_le_succ h.failures
  stops := fun hlimit => decide_eq_true hlimit
  waits := by
    intro ended hended
    cases hended
    have hmono : backoff (failedInRow log + 1) ≤ backoff (record.failures + 1) := backoff_mono (Nat.succ_le_succ h.failures)
    exact ⟨_, rfl, add_le_add_right hmono t⟩ }

/-- A successful attempt is counted on top of the restarts that were read. -/
theorem Covers.succeeded {last : Last} : Covers (succeededChanges record last clock stored) (.succeeded number clock :: log) clock where
  failures := Nat.zero_le _
  stops := by
    intro hlimit
    cases hlimit
  waits := by
    intro ended hended
    cases hended
  restarts := by
    intro now hnow
    have hbefore := h.restarts now hnow
    rw [recentRestarts] at hbefore
    simp only [restartsSince, recentRestarts, succeededChanges, List.countP_cons, List.filter_append, List.length_append]
    rw [filter_recent_filter _ hnow]
    have hlast : (if recent now clock = true then 1 else 0) = ([clock].filter (recent now)).length := by
      rw [List.filter_singleton]
      cases recent now clock with
      | true | false => rfl
    omega

/-- A run that did not stop counted fewer failures than the limit. -/
theorem Covers.below (hgoing : record.stopped = false) : failedInRow log < FAILURE_LIMIT := by
  refine lt_of_le_of_lt h.failures (not_le.mp fun hlimit => ?_)
  rw [h.stops hlimit] at hgoing
  cases hgoing

end

/-- What the counts speak of. -/
structure Tally where
  record : Record
  log : List Event
  clock : ℚ
  /-- The attempts so far. -/
  attempts : ℕ

/-- What the counts see of a state. -/
def State.tally (D : Deployment) (s : State) : Tally := ⟨s.record D, s.log, s.clock, s.attempts⟩

/-- An attempt that began and does not count yet. -/
def Tally.Open (y : Tally) (number : ℕ) : Prop :=
  number ∈ y.log.filterMap Event.begun ∧ number ∉ y.log.filterMap Event.ended

/-- The next attempt is due. -/
structure Tally.Due (y : Tally) : Prop where
  /-- The backoff has passed. -/
  waited : ∀ ended, lastFailure y.log = some ended → ended + backoff (failedInRow y.log) ≤ y.clock
  rare : (restartsSince y.log).countP (recent y.clock) < RESTART_LIMIT

/-- A copy of the record that is as good as the record. -/
structure Tally.Copied (y : Tally) (record : Record) : Prop where
  /-- It counts enough. -/
  covers : Covers record y.log y.clock
  /-- It did not stop. -/
  going : record.stopped = false

/-- What holds while the run is this far. -/
def Phase.Counted (y : Tally) : Phase → Prop
  | .read record => y.Copied record ∧ (record.attempt = none → y.record.attempt = none) ∧
      ∀ entry, record.attempt = some entry → y.Open entry.number
  | .free record => y.Copied record ∧ (record.attempt = none → y.record.attempt = none) ∧
      ∀ entry, record.attempt = some entry → y.Open entry.number
  | .looked record _ => y.Copied record ∧ (record.attempt = none → y.record.attempt = none) ∧
      ∀ entry, record.attempt = some entry → y.Open entry.number
  | .judged record _ => Covers record y.log y.clock ∧ y.record.attempt = none
  | .allowed record _ => Covers record y.log y.clock ∧ y.record.attempt = none
  | .found _ => y.Due ∧ y.record.attempt = none
  | .locked _ => y.Due ∧ y.record.attempt = none
  | .unheld _ => y.Due ∧ y.record.attempt = none
  | .reread record _ => (y.Due ∧ y.record.attempt = none) ∧ y.Copied record
  | .unchanged record _ => (y.Due ∧ y.record.attempt = none) ∧ y.Copied record
  | .chosen record _ _ => (y.Due ∧ y.record.attempt = none) ∧ y.Copied record
  | .applying record entry _ => y.Copied record ∧ y.Open entry.number
  | .inApply record entry _ => y.Copied record ∧ y.Open entry.number
  | .applied record entry _ => y.Copied record ∧ y.Open entry.number
  | .finishing record entry _ _ => y.Copied record ∧ y.Open entry.number

/-- Attempts are counted. -/
structure Counts (y : Tally) (run : Option Phase) : Prop where
  /-- The log is in order. -/
  kept : Kept y.log y.clock
  /-- The clock started at zero. -/
  positive : 0 ≤ y.clock
  /-- The record counts enough. -/
  stored : Covers y.record y.log y.clock
  numbers : ∀ number ∈ y.log.filterMap Event.begun, number < y.attempts
  unfinished : unfinished y.log = y.record.attempt.map Entry.number
  /-- It does not count yet. -/
  counted : ∀ entry, y.record.attempt = some entry → y.Open entry.number
  /-- What the run works with. -/
  phase : ∀ phase, run = some phase → phase.Counted y

theorem Counts.ends (h : Counts y run) : Counts y none := { h with
  phase := fun _ hno => nomatch hno }

theorem Counts.goes (h : Counts y run) (hphase : phase.Counted y) : Counts y (some phase) := { h with
  phase := by
    intro other hother
    cases hother
    exact hphase }

theorem counts_init : Counts (({} : State).tally D) none where
  kept := kept_nil
  positive := le_rfl
  stored := {
    failures := le_rfl
    stops := fun hno => nomatch hno
    waits := fun _ hno => nomatch hno
    restarts := fun _ _ => le_rfl }
  numbers := fun _ hno => nomatch hno
  unfinished := rfl
  counted := fun _ hno => nomatch hno
  phase := fun _ hno => nomatch hno

/-- Changes that count nothing. -/
structure Uncounted (changes : Record → Record) : Prop where
  failures : ∀ record, (changes record).failures = record.failures
  /-- Recovery stays stopped. -/
  stopped : ∀ record, record.stopped = true → (changes record).stopped = true
  nextAttemptAt : ∀ record, (changes record).nextAttemptAt = record.nextAttemptAt
  restarts : ∀ record, (changes record).restarts = record.restarts
  attempt : ∀ record, (changes record).attempt = record.attempt

theorem tally_updates (h : s.there D.directory = true) :
    (s.updates D changes).tally D = { s.tally D with record := changes (s.record D) } := by
  rw [State.tally, record_updates h]
  rfl

/-- Changes that count nothing are written while no run goes on. -/
theorem Counts.plain (h : Counts (s.tally D) run) (hthere : s.there D.directory = true)
    (hplain : Uncounted changes) : Counts ((s.updates D changes).tally D) none := by
  rw [tally_updates hthere]
  constructor
  case kept => exact h.kept
  case positive => exact h.positive
  case stored =>
    exact h.stored.congr (hplain.failures _) (hplain.stopped _) (hplain.nextAttemptAt _) (hplain.restarts _)
  case numbers => exact h.numbers
  case unfinished =>
    rw [hplain.attempt]
    exact h.unfinished
  case counted =>
    intro entry hentry
    rw [hplain.attempt] at hentry
    exact h.counted entry hentry
  case phase => exact fun _ hno => nomatch hno

/-- Changes that count nothing are the last thing a run writes. -/
theorem Counts.last (h : Counts (s.tally D) run) (hthere : s.there D.directory = true) (outcome : Outcome) (hplain : Uncounted changes) :
    Counts (((s.updates D changes).ends outcome).tally D) ((s.updates D changes).ends outcome).run :=
  h.plain hthere hplain

theorem Tally.Due.later (h : y.Due) (hle : y.clock ≤ t) : Tally.Due { y with clock := t } where
  waited := fun ended hended => (h.waited ended hended).trans hle
  rare := lt_of_le_of_lt (List.countP_mono_left fun _ _ hrecent => recent_of_later hle hrecent) h.rare

theorem Tally.Copied.later (h : y.Copied record) (hle : y.clock ≤ t) : Tally.Copied { y with clock := t } record :=
  ⟨h.covers.later hle, h.going⟩

theorem Phase.Counted.later (h : phase.Counted y) (hle : y.clock ≤ t) : phase.Counted { y with clock := t } := by
  cases phase with
  | read record | free record | looked record state | judged record state | allowed record state | found state
  | locked | unheld => exact ⟨h.1.later hle, h.2⟩
  | reread | unchanged | chosen => exact ⟨⟨h.1.1.later hle, h.1.2⟩, h.2.later hle⟩
  | applying record entry operations | inApply record entry rest | applied record entry raised
  | finishing => exact ⟨h.1.later hle, h.2⟩

/-- Time passes. -/
theorem Counts.later (h : Counts (s.tally D) run) (hle : s.clock ≤ t) : Counts (State.tally D { s with clock := t }) run := { h with
  kept := h.kept.later hle
  positive := h.positive.trans hle
  stored := h.stored.later hle
  phase := fun phase hphase => (h.phase phase hphase).later hle }

/-- The tally after a manual operation. -/
def Tally.manually (y : Tally) (stored : Record) (event : Event) : Tally := { y with record := stored, log := event :: y.log }

theorem Tally.Due.manually (h : y.Due) (hmanual : event.manual = true) : (y.manually stored event).Due where
  waited := by
    intro ended hended
    have hno : lastFailure (event :: y.log) = some ended := hended
    rw [lastFailure_manual hmanual] at hno
    cases hno
  rare := by
    change (restartsSince (event :: y.log)).countP _ < _
    rcases restartsSince_manual hmanual with hsame | hnil
    · rw [hsame]
      exact h.rare
    · rw [hnil]
      exact Nat.zero_lt_succ 2

theorem Tally.Copied.manually (h : y.Copied record) (hmanual : event.manual = true) : (y.manually stored event).Copied record :=
  ⟨h.covers.manually hmanual, h.going⟩

theorem Tally.Open.manually (h : y.Open number) (hmanual : event.manual = true) : (y.manually stored event).Open number := by
  unfold Tally.Open Tally.manually
  rw [begun_manual hmanual, ended_manual hmanual]
  exact h

theorem Phase.Counted.manually (h : phase.Counted y) (hmanual : event.manual = true)
    (hattempt : y.record.attempt = none → stored.attempt = none) : phase.Counted (y.manually stored event) := by
  cases phase with
  | read | free | looked =>
    exact ⟨h.1.manually hmanual, fun hnone => hattempt (h.2.1 hnone), fun entry hentry => (h.2.2 entry hentry).manually hmanual⟩
  | judged | allowed | found | locked | unheld => exact ⟨h.1.manually hmanual, hattempt h.2⟩
  | reread | unchanged | chosen =>
    exact ⟨⟨h.1.1.manually hmanual, hattempt h.1.2⟩, h.2.manually hmanual⟩
  | applying record entry operations | inApply record entry rest | applied record entry raised
  | finishing => exact ⟨h.1.manually hmanual, h.2.manually hmanual⟩

/-- A manual operation writes the record and is logged. -/
theorem Counts.manually (h : Counts y run) (hmanual : event.manual = true) (hstored : Covers stored (event :: y.log) y.clock)
    (hattempt : stored.attempt = y.record.attempt ∨ stored.attempt = none)
    (hunfinished : SparkRing.Recovery.unfinished (event :: y.log) = stored.attempt.map Entry.number) :
    Counts (y.manually stored event) run := { h with
  kept := by
    obtain rfl | rfl | ⟨enabled, rfl⟩ := manual_cases hmanual
    · exact h.kept.logs trivial fun _ hno => nomatch hno
    · exact h.kept.logs trivial fun _ hno => nomatch hno
    · exact h.kept.logs trivial fun _ hno => nomatch hno
  stored := hstored
  numbers := by
    intro number hnumber
    change number ∈ (event :: y.log).filterMap Event.begun at hnumber
    rw [begun_manual hmanual] at hnumber
    exact h.numbers number hnumber
  unfinished := hunfinished
  counted := by
    intro entry hentry
    change stored.attempt = some entry at hentry
    rcases hattempt with hsame | hnone
    · exact (h.counted entry (hsame ▸ hentry)).manually hmanual
    · rw [hnone] at hentry
      cases hentry
  phase := by
    intro phase hphase
    refine (h.phase phase hphase).manually hmanual fun hnone => ?_
    rcases hattempt with hsame | hno
    · exact hsame.trans hnone
    · exact hno }

section

variable (h : Counts (s.tally D) run) (hthere : s.there D.directory = true)

include h hthere

/-- A manual operation merges its changes into the record. -/
theorem Counts.operates (changes : Record → Record) (event : Event)
    (hmanual : event.manual = true) (hcovers : Covers (changes (s.record D)) (event :: s.log) s.clock)
    (hattempt : (changes (s.record D)).attempt = (s.record D).attempt ∨ (changes (s.record D)).attempt = none)
    (hunfinished : SparkRing.Recovery.unfinished (event :: s.log) = (changes (s.record D)).attempt.map Entry.number) :
    Counts (((s.updates D changes).logs event).tally D) run := by
  have hrecord : State.record D ((s.updates D changes).logs event) = changes (s.record D) := record_updates hthere
  rw [State.tally, hrecord]
  exact h.manually hmanual hcovers hattempt hunfinished

omit h hthere in
/-- A manual operation resets all counts. -/
theorem Covers.reset (hmanual : event.manual = true) (hrestarts : restartsSince (event :: log) = []) (hfailures : record.failures = 0) :
    Covers record (event :: log) clock where
  failures := by
    rw [failedInRow_manual hmanual]
    exact Nat.zero_le _
  stops := by
    rw [hfailures]
    exact fun hno => nomatch hno
  waits := by
    rw [lastFailure_manual hmanual]
    exact fun _ hno => nomatch hno
  restarts := by
    rw [hrestarts]
    exact fun _ _ => Nat.zero_le _

theorem Counts.forgets : Counts (((s.updates D forgetChanges).logs .forgot).tally D) run := by
  have hcovers : Covers (s.record D) (.forgot :: s.log) s.clock := h.stored.manually rfl
  exact h.operates hthere _ _ rfl (hcovers.congr rfl id rfl rfl) (.inr rfl) rfl

theorem Counts.startsUp {enabled : Option Bool} : Counts (((s.updates D (startedChanges enabled)).logs .started).tally D) run :=
  h.operates hthere _ _ rfl (.reset rfl rfl rfl) (.inr rfl) rfl

theorem Counts.turns {enabled : Bool} : Counts (((s.updates D (enabledChanges enabled)).logs (.turned enabled)).tally D) run := by
  cases enabled with
  | true => exact h.operates hthere _ _ rfl (.reset rfl rfl rfl) (.inl rfl) h.unfinished
  | false =>
    have hcovers : Covers (s.record D) (.turned false :: s.log) s.clock := h.stored.manually rfl
    exact h.operates hthere _ _ rfl (hcovers.congr rfl id rfl rfl) (.inl rfl) h.unfinished

omit h hthere in
theorem Counts.starts (h : Counts (s.tally D) s.run) : Counts ((s.starts D).tally D) (s.starts D).run := by
  unfold State.starts
  dsimp only
  split
  · exact h.ends
  split
  · exact h.ends
  next hgoing =>
    split
    · exact h.ends
    · exact h.goes ⟨⟨h.stored, Bool.eq_false_iff.mpr hgoing⟩, id, h.counted⟩

theorem Counts.fails (hcopied : (s.tally D).Copied record)
    (hopen : (s.tally D).Open number) (htime : t = s.clock) (last : Last) (left : Option Saved) :
    Counts (((s.updates D (failedChanges last (record.failures + 1) t left)).logs (.failed number t)).tally D) none := by
  subst htime
  have hrecord : State.record D ((s.updates D (failedChanges last (record.failures + 1) s.clock left)).logs (.failed number s.clock)) =
      failedChanges last (record.failures + 1) s.clock left (s.record D) := record_updates hthere
  rw [State.tally, hrecord]
  constructor
  case kept =>
    refine h.kept.logs ⟨hopen.1, hopen.2, hcopied.covers.below hcopied.going⟩ fun moment hmoment => ?_
    cases hmoment
    rfl
  case positive => exact h.positive
  case stored => exact hcopied.covers.failed h.stored
  case numbers => exact h.numbers
  case unfinished => rfl
  case counted => exact fun _ hno => nomatch hno
  case phase => exact fun _ hno => nomatch hno

end

section

variable {succeeded : Bool} {after : Saved} (h : Counts (s.tally D) s.run) (hthere : s.there D.directory = true)

include h hthere

theorem Counts.judges (hrun : s.run = some (.looked record state)) (htime : t = s.clock) :
    Counts ((s.judges D record state t).tally D) (s.judges D record state t).run := by
  have hphase : Phase.Counted (s.tally D) (.looked record state) := h.phase _ hrun
  obtain ⟨hcopied, hnone, hopen⟩ := hphase
  unfold State.judges
  split
  next hattempt => exact h.goes ⟨hcopied.covers, hnone hattempt⟩
  next prior hprior =>
    have hcounts := h.fails hthere hcopied (hopen prior hprior) htime ⟨prior, none, .interrupted⟩
      (if prior.ours state then some state else none)
    have hrecord : ((s.updates D (interruptedChanges record prior state t)).record D).attempt = none :=
      congrArg Record.attempt (record_updates hthere)
    dsimp only
    split
    · exact hcounts
    · exact hcounts.goes ⟨hcounts.stored, hrecord⟩

theorem Counts.allows (hrun : s.run = some (.judged record state)) :
    Counts ((s.allows D record state).tally D) (s.allows D record state).run := by
  have hphase : Phase.Counted (s.tally D) (.judged record state) := h.phase _ hrun
  unfold State.allows
  split
  · exact h.goes hphase
  split
  · exact h.last hthere _ ⟨fun _ => rfl, fun _ => id, fun _ => rfl, fun _ => rfl, fun _ => rfl⟩
  · exact h.ends

omit h hthere in
/-- A run whose record lets it make an attempt. -/
theorem Counts.due (h : Counts (s.tally D) run) (hcovers : Covers record s.log s.clock) (hwaited : record.backsOff s.clock = false)
    (hrare : ¬RESTART_LIMIT ≤ (recentRestarts record s.clock).length) : (s.tally D).Due where
  waited := by
    intro ended hended
    obtain ⟨moment, hmoment, hle⟩ := hcovers.waits ended hended
    rw [Record.backsOff, hmoment] at hwaited
    simp only [ne_eq, Bool.and_eq_false_iff, decide_eq_false_iff_not, not_not, not_lt] at hwaited
    rcases hwaited with hzero | hpassed
    · exact hle.trans (hzero ▸ h.positive)
    · exact hle.trans hpassed
  rare := lt_of_le_of_lt (hcovers.restarts s.clock le_rfl) (not_le.mp hrare)

theorem Counts.observes (hrun : s.run = some (.allowed record state)) (htime : t = s.clock) :
    Counts ((s.observes D record state finding t).tally D) (s.observes D record state finding t).run := by
  have hphase : Phase.Counted (s.tally D) (.allowed record state) := h.phase _ hrun
  obtain ⟨hcovers, hnone⟩ := hphase
  unfold State.observes
  split
  · exact h.last hthere _ ⟨fun _ => rfl, fun _ => id, fun _ => rfl, fun _ => rfl, fun _ => rfl⟩
  split
  · have hrecord : State.record D ((s.updates D servingChanges).logs .served) = servingChanges (s.record D) := record_updates hthere
    change Counts (State.tally D ((s.updates D servingChanges).logs .served)) none
    rw [State.tally, hrecord]
    exact { h with
      kept := h.kept.logs trivial fun _ hno => nomatch hno
      stored := h.stored.serves
      phase := fun _ hno => nomatch hno }
  split
  · exact h.last hthere _ ⟨fun _ => rfl, fun _ => id, fun _ => rfl, fun _ => rfl, fun _ => rfl⟩
  dsimp only
  split
  · exact h.last hthere _ ⟨fun _ => rfl, fun _ => id, fun _ => rfl, fun _ => rfl, fun _ => rfl⟩
  next hwaited =>
    split
    · exact h.last hthere _ ⟨fun _ => rfl, fun _ => id, fun _ => rfl, fun _ => rfl, fun _ => rfl⟩
    split
    · exact h.last hthere _ ⟨fun _ => rfl, fun _ _ => rfl, fun _ => rfl, fun _ => rfl, fun _ => rfl⟩
    next hrare =>
      subst htime
      have hdue := h.due hcovers (Bool.eq_false_iff.mpr hwaited) hrare
      refine Counts.goes (h.last hthere .confirming ⟨fun _ => rfl, fun _ => id, fun _ => rfl, fun _ => rfl, fun _ => rfl⟩) ⟨⟨hdue.waited, hdue.rare⟩, ?_⟩
      exact (congrArg Record.attempt (record_updates hthere)).trans hnone

omit h hthere in
theorem Counts.rereads (h : Counts (s.tally D) s.run) (hrun : s.run = some (.unheld state)) :
    Counts ((s.rereads D state).tally D) (s.rereads D state).run := by
  have hphase : Phase.Counted (s.tally D) (.unheld state) := h.phase _ hrun
  unfold State.rereads
  dsimp only
  split
  · exact h.ends
  split
  · exact h.ends
  next hgoing => exact h.goes ⟨hphase, h.stored, Bool.eq_false_iff.mpr hgoing⟩

theorem Counts.compares
    (hrun : s.run = some (.reread record state)) : Counts ((s.compares D record state).tally D) (s.compares D record state).run := by
  have hphase : Phase.Counted (s.tally D) (.reread record state) := h.phase _ hrun
  unfold State.compares
  split
  · exact h.last hthere _ ⟨fun _ => rfl, fun _ => id, fun _ => rfl, fun _ => rfl, fun _ => rfl⟩
  · exact h.goes hphase

theorem Counts.observesAgain {hairpin : Bool} (hrun : s.run = some (.unchanged record state)) :
    Counts ((s.observesAgain D record state finding hairpin).tally D) (s.observesAgain D record state finding hairpin).run := by
  have hphase : Phase.Counted (s.tally D) (.unchanged record state) := h.phase _ hrun
  unfold State.observesAgain
  split
  · exact h.last hthere _ ⟨fun _ => rfl, fun _ => id, fun _ => rfl, fun _ => rfl, fun _ => rfl⟩
  split
  · exact h.last hthere _ ⟨fun _ => rfl, fun _ => id, fun _ => rfl, fun _ => rfl, fun _ => rfl⟩
  · exact h.goes hphase

omit h hthere in
/-- Attempts that count began. -/
theorem Kept.began_of_ended (h : Kept log clock) (hended : number ∈ log.filterMap Event.ended) : number ∈ log.filterMap Event.begun := by
  obtain ⟨event, hevent, hnumber⟩ := List.mem_filterMap.mp hended
  obtain ⟨later, earlier, hsplit⟩ := List.append_of_mem hevent
  have hfits := h.fits event earlier ⟨later, hsplit.symm⟩
  have hbegun : number ∈ earlier.filterMap Event.begun := by
    cases event with
    | failed | succeeded =>
      cases hnumber
      exact hfits.1
    | began | served | forgot | started | turned => cases hnumber
  obtain ⟨one, hone, hone'⟩ := List.mem_filterMap.mp hbegun
  rw [hsplit]
  exact List.mem_filterMap.mpr ⟨one, List.mem_append_right _ (List.mem_cons_of_mem _ hone), hone'⟩

omit h hthere in
theorem Counts.opens (h : Counts (s.tally D) run) (hthere : s.there D.directory = true) (hcopied : (s.tally D).Copied record)
    (hdue : (s.tally D).Due) (hnone : (s.record D).attempt = none) (entry : Entry) (operations : List Operation)
    (hnumber : entry.number = s.attempts) :
    Counts (State.tally D ((({ s with attempts := s.attempts + 1 }.updates D fun stored =>
      { stored with attempt := some entry, pending := none }).logs (.began entry.number s.clock)).goes
        (.applying record entry operations))) (some (.applying record entry operations)) := by
  have hfresh : s.attempts ∉ s.log.filterMap Event.begun := fun hmem => (h.numbers _ hmem).ne rfl
  have hstart : ({ s with attempts := s.attempts + 1 } : State).there D.directory = true := hthere
  have hrecord : State.record D ((({ s with attempts := s.attempts + 1 }.updates D fun stored =>
      { stored with attempt := some entry, pending := none }).logs (.began entry.number s.clock)).goes
        (.applying record entry operations)) = { s.record D with attempt := some entry, pending := none } := record_updates hstart
  have hopen : ∀ y : Tally, y.log = .began entry.number s.clock :: s.log → y.Open entry.number := by
    intro y hlog
    unfold Tally.Open
    rw [hlog, hnumber]
    exact ⟨List.mem_cons_self, fun hended => hfresh (h.kept.began_of_ended hended)⟩
  rw [State.tally, hrecord]
  constructor
  case kept =>
    refine h.kept.logs ?_ fun moment hmoment => ?_
    · rw [hnumber]
      exact ⟨hfresh, h.unfinished.trans (congrArg (Option.map Entry.number) hnone), hdue.waited, hdue.rare⟩
    · cases hmoment
      rfl
  case positive => exact h.positive
  case stored => exact h.stored.began.congr rfl id rfl rfl
  case numbers =>
    intro number hmem
    rcases List.mem_cons.mp hmem with rfl | hbefore
    · exact hnumber ▸ Nat.lt_succ_self _
    · exact Nat.lt_succ_of_lt (h.numbers number hbefore)
  case unfinished => rfl
  case counted =>
    intro other hother
    cases hother
    exact hopen _ rfl
  case phase =>
    intro phase hphase
    cases hphase
    exact ⟨⟨hcopied.covers.began, hcopied.going⟩, hopen _ rfl⟩

theorem Counts.begins (hrun : s.run = some (.chosen record state finding)) (htime : t = s.clock) :
    Counts ((s.begins D record state finding t).tally D) (s.begins D record state finding t).run := by
  have hphase : Phase.Counted (s.tally D) (.chosen record state finding) := h.phase _ hrun
  obtain ⟨⟨hdue, hnone⟩, hcopied⟩ := hphase
  subst htime
  exact h.opens hthere hcopied hdue hnone _ _ rfl

omit h hthere in
theorem Counts.returns {rest : List Operation} {raises : Bool} (h : Counts (s.tally D) s.run)
    (hrun : s.run = some (.inApply record entry rest)) :
    Counts ((s.returns record entry rest raises).tally D) (s.returns record entry rest raises).run := by
  have hphase : Phase.Counted (s.tally D) (.inApply record entry rest) := h.phase _ hrun
  unfold State.returns
  split
  · exact h.goes hphase
  split
  · exact h.goes hphase
  · exact h.goes hphase

theorem Counts.records (hrun : s.run = some (.finishing record entry after succeeded)) (htime : t = s.clock) :
    Counts ((s.records D record entry after succeeded t).tally D) (s.records D record entry after succeeded t).run := by
  have hphase : Phase.Counted (s.tally D) (.finishing record entry after succeeded) := h.phase _ hrun
  obtain ⟨hcopied, hopen⟩ := hphase
  unfold State.records
  split
  · subst htime
    have hrecord : State.record D ((s.updates D (succeededChanges record ⟨entry, some s.clock, .succeeded⟩ s.clock)).logs
        (.succeeded entry.number s.clock)) = succeededChanges record ⟨entry, some s.clock, .succeeded⟩ s.clock (s.record D) :=
      record_updates hthere
    change Counts (State.tally D ((s.updates D _).logs _)) none
    rw [State.tally, hrecord]
    constructor
    case kept =>
      refine h.kept.logs hopen fun moment hmoment => ?_
      cases hmoment
      rfl
    case positive => exact h.positive
    case stored => exact hcopied.covers.succeeded
    case numbers => exact h.numbers
    case unfinished => rfl
    case counted => exact fun _ hno => nomatch hno
    case phase => exact fun _ hno => nomatch hno
  · exact h.fails hthere hcopied hopen htime _ _

theorem Counts.step {act : Act} (hstep : Recovery.step D s act = some s') : Counts (s'.tally D) s'.run := by
  cases moves_of_step hstep with
  | starts => exact h.starts
  | asksBusy | locksBusy | readsHeld | dies | crashes => exact h.ends
  | asks hrun | looks hrun | locks hrun hfree | readsHold hrun hlapsed | applies hrun | finishes hrun =>
    have hphase := h.phase _ hrun
    exact h.goes hphase
  | judges hrun hle => exact Counts.judges (h.later hle) hthere hrun rfl
  | allows hrun => exact h.allows hthere hrun
  | observes hrun hle => exact Counts.observes (h.later hle) hthere hrun rfl
  | rereads hrun => exact h.rereads hrun
  | compares hrun => exact h.compares hthere hrun
  | observesAgain hrun => exact h.observesAgain hthere hrun
  | begins hrun hle => exact Counts.begins (h.later hle) hthere hrun rfl
  | returns hrun => exact h.returns hrun
  | records hrun hle => exact Counts.records (h.later hle) hthere hrun rfl
  | forgets => exact h.forgets hthere
  | startsUp =>
    split
    · exact h.startsUp hthere
    · exact h
  | turns =>
    split
    · exact h.turns hthere
    · exact h
  | @other directory changes hne =>
    have hrecord : State.record D { s with document := s.document.update s.there directory changes } = s.record D :=
      recordOf_update_of_ne hthere hne.symm
    rw [State.tally, hrecord]
    exact h
  | writes | admits | changes | places | leaves | holds | directories => exact h

end

end SparkRing.Recovery
