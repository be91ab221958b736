import SparkRing.RecoveryRecords
import SparkRing.TransitionSystem

/-!
# Runs of automatic recovery

A timer run reads the record and the saved state without a lock, observes the deployment,
and once that is confirmed takes the deployment's locks, reads and observes again, and
calls the lifecycle operations. Manual operations hold the same locks, holds need none,
and Node A may crash between any two steps. What happens to attempts is logged.
-/

namespace SparkRing.Recovery

open OrderedDict

/-- The deployment that is recovered. -/
structure Deployment where
  directory : String
  /-- It is a Compose deployment. -/
  compose : Bool
  ranks : ℕ

/-- How far a timer run came. -/
inductive Phase
  | read (record : Record)
  /-- It found no other operation. -/
  | free (record : Record)
  | looked (record : Record) (state : Saved)
  /-- It counted an unfinished attempt. -/
  | judged (record : Record) (state : Saved)
  /-- It may act. -/
  | allowed (record : Record) (state : Saved)
  /-- It confirmed that the model does not serve. -/
  | found (state : Saved)
  /-- It took its locks. -/
  | locked (state : Saved)
  /-- It found no operator's hold. -/
  | unheld (state : Saved)
  /-- It read the record again. -/
  | reread (record : Record) (state : Saved)
  /-- It found the deployment unchanged. -/
  | unchanged (record : Record) (state : Saved)
  /-- It observed the deployment again. -/
  | chosen (record : Record) (state : Saved) (finding : Finding)
  /-- Its attempt is to call the lifecycle operations that are left. -/
  | applying (record : Record) (entry : Entry) (operations : List Operation)
  /-- A lifecycle call runs. -/
  | inApply (record : Record) (entry : Entry) (rest : List Operation)
  /-- The lifecycle calls ended. -/
  | applied (record : Record) (entry : Entry) (raised : Bool)
  /-- Its locks are released, and the end of the attempt is to be recorded. -/
  | finishing (record : Record) (entry : Entry) (after : Saved) (succeeded : Bool)

/-- The run holds its locks. -/
def Phase.inside : Phase → Bool
  | .locked .. | .unheld .. | .reread .. | .unchanged .. | .chosen .. | .applying .. | .inApply .. | .applied .. => true
  | _ => false

/-- How a run ended. -/
inductive Outcome
  | off | stopped | unsupported | busy | inactive | waiting | serving | report | backoff | confirming | held | changed | recovered
  | failed
  deriving DecidableEq

/-- What the log says of attempts and of what resets their counts. -/
inductive Event
  /-- An attempt started. -/
  | began (number : ℕ) (t : ℚ)
  /-- It counts as failed. -/
  | failed (number : ℕ) (t : ℚ)
  /-- The model started. -/
  | succeeded (number : ℕ) (t : ℚ)
  /-- A run found the model serving. -/
  | served
  /-- A manual operation forgot the attempt. -/
  | forgot
  /-- A manual up or install started the deployment. -/
  | started
  /-- Recovery was turned on or off. -/
  | turned (enabled : Bool)
  deriving DecidableEq

/-- The state of Node A for one deployment. -/
structure State where
  /-- The records. -/
  document : Document := Dict.empty
  /-- The deployment directories that exist. -/
  there : String → Bool := fun _ => true
  /-- The deployment's saved state. -/
  saved : Saved := {}
  /-- The deployment is active. -/
  active : Bool := false
  /-- An operator's hold stands. -/
  held : Bool := false
  clock : ℚ := 0
  run : Option Phase := none
  /-- The manual operation that holds the locks, and whether it forgot the attempt. -/
  manual : Option Bool := none
  /-- How the last run ended. -/
  outcome : Option Outcome := none
  /-- The state that recovery's last attempt left, unless a manual operation began since. -/
  own : Option Saved := none
  /-- Since the run took its locks it met a moment without a hold, or failed to read it. -/
  lapsed : Bool := false
  /-- The attempts so far. -/
  attempts : ℕ := 0
  /-- What happened to them, the latest first. -/
  log : List Event := []

variable (D : Deployment)

/-- The deployment's record. -/
def State.record (s : State) : Record := recordOf s.document D.directory

/-- Changes are merged into the deployment's record. -/
def State.updates (s : State) (changes : Record → Record) : State :=
  { s with document := s.document.update s.there D.directory changes }

/-- The run ends, and releases the locks that it holds. -/
def State.ends (s : State) (outcome : Outcome) : State := { s with run := none, outcome := some outcome }

def State.goes (s : State) (phase : Phase) : State := { s with run := some phase }

/-- An event is logged. -/
def State.logs (s : State) (event : Event) : State := { s with log := event :: s.log }

/-- A run reads the record. -/
def State.starts (s : State) : State :=
  let record := s.record D
  if record.enabled = false then s.ends .off
  else if record.stopped then s.ends .stopped
  else if D.compose = false then s.ends .unsupported
  else s.goes (.read record)

/-- A run counts the attempt that stopped without recording its end. -/
def State.judges (s : State) (record : Record) (state : Saved) (t : ℚ) : State :=
  match record.attempt with
  | none => s.goes (.judged record state)
  | some prior =>
    let s := (s.updates D (interruptedChanges record prior state t)).logs (.failed prior.number t)
    if (s.record D).stopped then s.ends .stopped else s.goes (.judged (s.record D) state)

/-- A run asks whether it may act. -/
def State.allows (s : State) (record : Record) (state : Saved) : State :=
  if mayAct state record then s.goes (.allowed record state)
  else if record.pending.isSome ∨ record.waiting.isSome then
    (s.updates D fun stored => { stored with pending := none, waiting := none }).ends .inactive
  else s.ends .inactive

/-- A time that a record has, or this one. -/
def orNow (since : Option ℚ) (t : ℚ) : ℚ :=
  match since with
  | some moment => if moment = 0 then t else moment
  | none => t

/-- The runs that found the model not serving, with this one. -/
def Record.confirms (record : Record) (finding : Finding) (t : ℚ) : Pending where
  count := ((record.pending.map Pending.count).getD 0) + 1
  since := orNow (record.pending.map Pending.since) t
  state := finding.state

/-- The next attempt waits for its backoff. -/
def Record.backsOff (record : Record) (t : ℚ) : Bool :=
  match record.nextAttemptAt with
  | some moment => moment ≠ 0 && t < moment
  | none => false

/-- Why recovery stops after restarts. -/
def restartedText (restarts : ℕ) : String :=
  s!"the model stopped again after {restarts} restarts within 6 hours; find the cause before restarting it"

/-- A run observed the deployment. -/
def State.observes (s : State) (record : Record) (state : Saved) (finding : Finding) (t : ℚ) : State :=
  if finding.state = .unreachable then
    (s.updates D fun stored => { stored with pending := none, waiting := some (orNow record.waiting t) }).ends .waiting
  else if finding.state = .serving then ((s.updates D servingChanges).logs .served).ends .serving
  else if finding.state.action = none then
    (s.updates D fun stored => { stored with waiting := none, pending := none }).ends .report
  else
    let pending := record.confirms finding t
    let seen := s.updates D fun stored => { stored with waiting := none, pending := some pending }
    if record.backsOff t then seen.ends .backoff
    else if confirmed finding pending t = false then seen.ends .confirming
    else if RESTART_LIMIT ≤ (recentRestarts record t).length then
      (s.updates D fun stored =>
        { stored with
          waiting := none
          pending := none
          stopped := true
          stopReason := some (restartedText (recentRestarts record t).length) }).ends .stopped
    else seen.goes (.found state)

/-- The run reads the record again. -/
def State.rereads (s : State) (state : Saved) : State :=
  let record := s.record D
  if record.enabled = false then s.ends .off
  else if record.stopped then s.ends .stopped
  else s.goes (.reread record state)

/-- The run compares the active deployment and its saved state with what it read. -/
def State.compares (s : State) (record : Record) (state : Saved) : State :=
  if s.active = false ∨ s.saved ≠ state then (s.updates D fun stored => { stored with pending := none }).ends .changed
  else s.goes (.unchanged record state)

/-- The run observed the deployment again. -/
def State.observesAgain (s : State) (record : Record) (state : Saved) (finding : Finding) (hairpin : Bool) : State :=
  if finding.state.action = none then (s.updates D fun stored => { stored with pending := none }).ends .changed
  else if D.ranks = 4 ∧ hairpin then (s.updates D fun stored => { stored with pending := none }).ends .report
  else s.goes (.chosen record state finding)

/-- An attempt only starts the model. -/
def startOnly (finding : Finding) (state : Saved) : Bool := finding.state.action = some .up && state.completedUp

/-- The run records its attempt. -/
def State.begins (s : State) (record : Record) (state : Saved) (finding : Finding) (t : ℚ) : State :=
  let start := startOnly finding state
  let entry : Entry := ⟨s.attempts, t, if start then .up else .restart, finding.summary, state.generation⟩
  (({ s with attempts := s.attempts + 1 }.updates D fun stored => { stored with attempt := some entry, pending := none }).logs
    (.began entry.number t)).goes (.applying record entry (if start then [.up] else [.down, .up]))

/-- A lifecycle call returned or raised. -/
def State.returns (s : State) (record : Record) (entry : Entry) (rest : List Operation) (raises : Bool) : State :=
  if raises then s.goes (.applied record entry true)
  else if rest = [] then s.goes (.applied record entry false)
  else s.goes (.applying record entry rest)

/-- The run records the end of its attempt. -/
def State.records (s : State) (record : Record) (entry : Entry) (after : Saved) (succeeded : Bool) (t : ℚ) : State :=
  if succeeded then
    ((s.updates D (succeededChanges record ⟨entry, some t, .succeeded⟩ t)).logs (.succeeded entry.number t)).ends .recovered
  else
    ((s.updates D (failedChanges ⟨entry, some t, .failed⟩ (record.failures + 1) t (some after))).logs
      (.failed entry.number t)).ends .failed

/-- What can happen next. -/
inductive Act
  | starts
  /-- The run looks for other operations. -/
  | asks
  /-- The run reads the saved state. -/
  | looks
  /-- The run counts an unfinished attempt. -/
  | judges (t : ℚ)
  /-- The run asks whether it may act. -/
  | allows
  /-- The run observed the deployment. -/
  | observes (finding : Finding) (t : ℚ)
  /-- The run takes its locks. -/
  | locks
  | readsHold (fails : Bool)
  /-- The run reads the record again. -/
  | rereads
  /-- The run compares what it read. -/
  | compares
  /-- The run observed the deployment again, and the hairpin setting. -/
  | observesAgain (finding : Finding) (hairpin : Bool)
  /-- The run records its attempt. -/
  | begins (t : ℚ)
  /-- The run calls a lifecycle operation. -/
  | applies
  /-- The lifecycle call changes the saved state. -/
  | writes (state : Saved)
  /-- The lifecycle call returns or raises. -/
  | returns (raises : Bool)
  /-- The run reads the saved state and releases its locks. -/
  | finishes
  /-- The run records the end of its attempt. -/
  | records (t : ℚ)
  /-- The run stops, whatever it does. -/
  | dies
  /-- A manual operation takes the locks. -/
  | admits
  /-- It forgets the attempt. -/
  | forgets
  | changes (state : Saved)
  /-- It makes the deployment active, or another one. -/
  | places (active : Bool)
  /-- It records that it started the deployment. -/
  | startsUp (enabled : Option Bool)
  /-- It turns recovery on or off. -/
  | turns (enabled : Bool)
  /-- It releases the locks. -/
  | leaves
  /-- An operator takes or releases a hold, or it ends. -/
  | holds (held : Bool)
  /-- The record of another deployment is changed. -/
  | other (directory : String) (changes : Record → Record)
  /-- Other deployment directories are made or removed. -/
  | directories (there : String → Bool)
  | crashes

/-- A step of a run at a time that is not before the last one. -/
def State.at (s : State) (t : ℚ) (next : State → State) : Option State :=
  if s.clock ≤ t then some (next { s with clock := t }) else none

/-- The lifecycle call of an attempt changes the saved state. -/
def State.writes (s : State) (state : Saved) : State := { s with saved := state, own := some state }

def step (s : State) : Act → Option State
  | .starts => match s.run with
    | none => some (s.starts D)
    | some _ => none
  | .asks => match s.run with
    | some (.read record) => some (if s.manual.isSome then s.ends .busy else s.goes (.free record))
    | _ => none
  | .looks => match s.run with
    | some (.free record) => some (s.goes (.looked record s.saved))
    | _ => none
  | .judges t => match s.run with
    | some (.looked record state) => s.at t fun s => s.judges D record state t
    | _ => none
  | .allows => match s.run with
    | some (.judged record state) => some (s.allows D record state)
    | _ => none
  | .observes finding t => match s.run with
    | some (.allowed record state) => s.at t fun s => s.observes D record state finding t
    | _ => none
  | .locks => match s.run with
    | some (.found state) => some (if s.manual.isSome then s.ends .busy else { s with lapsed := false }.goes (.locked state))
    | _ => none
  | .readsHold fails => match s.run with
    | some (.locked state) =>
      some (if s.held ∧ fails = false then s.ends .held else { s with lapsed := !s.held || fails }.goes (.unheld state))
    | _ => none
  | .rereads => match s.run with
    | some (.unheld state) => some (s.rereads D state)
    | _ => none
  | .compares => match s.run with
    | some (.reread record state) => some (s.compares D record state)
    | _ => none
  | .observesAgain finding hairpin => match s.run with
    | some (.unchanged record state) => some (s.observesAgain D record state finding hairpin)
    | _ => none
  | .begins t => match s.run with
    | some (.chosen record state finding) => s.at t fun s => s.begins D record state finding t
    | _ => none
  | .applies => match s.run with
    | some (.applying record entry (_ :: rest)) => some (s.goes (.inApply record entry rest))
    | _ => none
  | .writes state => match s.run with
    | some (.inApply ..) => some (s.writes state)
    | _ => none
  | .returns raises => match s.run with
    | some (.inApply record entry rest) => some (s.returns record entry rest raises)
    | _ => none
  | .finishes => match s.run with
    | some (.applied record entry raised) =>
      some (s.goes (.finishing record entry s.saved (!raised && s.saved.completedUp)))
    | _ => none
  | .records t => match s.run with
    | some (.finishing record entry after succeeded) => s.at t fun s => s.records D record entry after succeeded t
    | _ => none
  | .dies => some { s with run := none }
  | .admits =>
    if s.manual.isSome ∨ s.run.any Phase.inside then none else some { s with manual := some false }
  | .forgets => match s.manual with
    | some _ => some { (s.updates D forgetChanges).logs .forgot with manual := some true, own := none }
    | none => none
  | .changes state => match s.manual with
    | some true => some { s with saved := state }
    | _ => none
  | .places active => match s.manual with
    | some _ => some { s with active := active }
    | none => none
  | .startsUp enabled => match s.manual with
    | some true => some (if D.compose then (s.updates D (startedChanges enabled)).logs .started else s)
    | _ => none
  | .turns enabled => match s.manual with
    | some _ => some (if D.compose then (s.updates D (enabledChanges enabled)).logs (.turned enabled) else s)
    | none => none
  | .leaves => match s.manual with
    | some _ => some { s with manual := none }
    | none => none
  | .holds held => some { s with held := held }
  | .other directory changes =>
    if directory = D.directory then none else some { s with document := s.document.update s.there directory changes }
  | .directories there => if there D.directory then some { s with there := there } else none
  | .crashes => some { s with run := none, manual := none }

variable {D : Deployment} {s s' : State}

theorem at_eq_some {t : ℚ} {next : State → State} (h : s.at t next = some s') :
    s.clock ≤ t ∧ s' = next { s with clock := t } := by
  unfold State.at at h
  split at h
  next hle => exact ⟨hle, (Option.some.inj h).symm⟩
  next => cases h

set_option autoImplicit true in
/-- The steps, with what each one asks for. -/
inductive Moves (D : Deployment) (s : State) : Act → State → Prop
  | starts (hrun : s.run = none) : Moves D s .starts (s.starts D)
  | asksBusy (hrun : s.run = some (.read record)) (hbusy : s.manual.isSome) : Moves D s .asks (s.ends .busy)
  | asks (hrun : s.run = some (.read record)) : Moves D s .asks (s.goes (.free record))
  | looks (hrun : s.run = some (.free record)) : Moves D s .looks (s.goes (.looked record s.saved))
  | judges (hrun : s.run = some (.looked record state)) (hle : s.clock ≤ t) :
    Moves D s (.judges t) ({ s with clock := t }.judges D record state t)
  | allows (hrun : s.run = some (.judged record state)) : Moves D s .allows (s.allows D record state)
  | observes (hrun : s.run = some (.allowed record state)) (hle : s.clock ≤ t) :
    Moves D s (.observes finding t) ({ s with clock := t }.observes D record state finding t)
  | locksBusy (hrun : s.run = some (.found state)) (hbusy : s.manual.isSome) : Moves D s .locks (s.ends .busy)
  | locks (hrun : s.run = some (.found state)) (hfree : s.manual = none) :
    Moves D s .locks ({ s with lapsed := false }.goes (.locked state))
  | readsHeld (hrun : s.run = some (.locked state)) : Moves D s (.readsHold raised) (s.ends .held)
  | readsHold (hrun : s.run = some (.locked state)) (hlapsed : (!s.held || raised) = true) :
    Moves D s (.readsHold raised) ({ s with lapsed := !s.held || raised }.goes (.unheld state))
  | rereads (hrun : s.run = some (.unheld state)) : Moves D s .rereads (s.rereads D state)
  | compares (hrun : s.run = some (.reread record state)) : Moves D s .compares (s.compares D record state)
  | observesAgain {hairpin : Bool} (hrun : s.run = some (.unchanged record state)) :
    Moves D s (.observesAgain finding hairpin) (s.observesAgain D record state finding hairpin)
  | begins (hrun : s.run = some (.chosen record state finding)) (hle : s.clock ≤ t) :
    Moves D s (.begins t) ({ s with clock := t }.begins D record state finding t)
  | applies (hrun : s.run = some (.applying record entry (operation :: rest))) :
    Moves D s .applies (s.goes (.inApply record entry rest))
  | writes (hrun : s.run = some (.inApply record entry rest)) : Moves D s (.writes state) (s.writes state)
  | returns (hrun : s.run = some (.inApply record entry rest)) : Moves D s (.returns raised) (s.returns record entry rest raised)
  | finishes (hrun : s.run = some (.applied record entry raised)) :
    Moves D s .finishes (s.goes (.finishing record entry s.saved (!raised && s.saved.completedUp)))
  | records (hrun : s.run = some (.finishing record entry after succeeded)) (hle : s.clock ≤ t) :
    Moves D s (.records t) ({ s with clock := t }.records D record entry after succeeded t)
  | dies : Moves D s .dies { s with run := none }
  | admits (hfree : ¬(s.manual.isSome ∨ s.run.any Phase.inside)) : Moves D s .admits { s with manual := some false }
  | forgets (hmanual : s.manual = some forgot) :
    Moves D s .forgets { (s.updates D forgetChanges).logs .forgot with manual := some true, own := none }
  | changes (hmanual : s.manual = some true) : Moves D s (.changes state) { s with saved := state }
  | places {active : Bool} (hmanual : s.manual = some forgot) : Moves D s (.places active) { s with active := active }
  | startsUp {enabled : Option Bool} (hmanual : s.manual = some true) :
    Moves D s (.startsUp enabled) (if D.compose then (s.updates D (startedChanges enabled)).logs .started else s)
  | turns {enabled : Bool} (hmanual : s.manual = some forgot) :
    Moves D s (.turns enabled) (if D.compose then (s.updates D (enabledChanges enabled)).logs (.turned enabled) else s)
  | leaves (hmanual : s.manual = some forgot) : Moves D s .leaves { s with manual := none }
  | holds {held : Bool} : Moves D s (.holds held) { s with held := held }
  | other {directory : String} {changes : Record → Record} (hne : directory ≠ D.directory) :
    Moves D s (.other directory changes) { s with document := s.document.update s.there directory changes }
  | directories {there : String → Bool} (hthere : there D.directory = true) :
    Moves D s (.directories there) { s with there := there }
  | crashes : Moves D s .crashes { s with run := none, manual := none }

theorem moves_of_step {act : Act} (h : step D s act = some s') : Moves D s act s' := by
  cases act with
  | asks =>
    simp only [step] at h
    split at h
    next record hrun =>
      cases h
      split
      next hbusy => exact .asksBusy hrun hbusy
      next => exact .asks hrun
    next => cases h
  | locks =>
    simp only [step] at h
    split at h
    next state hrun =>
      cases h
      split
      next hbusy => exact .locksBusy hrun hbusy
      next hfree => exact .locks hrun (Option.not_isSome_iff_eq_none.mp hfree)
    next => cases h
  | readsHold fails =>
    simp only [step] at h
    split at h
    next state hrun =>
      cases h
      split
      next => exact .readsHeld hrun
      next hfree =>
        refine .readsHold hrun ?_
        cases hheld : s.held
        · rfl
        · simpa [hheld] using hfree
    next => cases h
  | judges t | observes finding t | begins t | records t =>
    simp only [step] at h
    split at h
    next hrun =>
      obtain ⟨hle, rfl⟩ := at_eq_some h
      constructor
      all_goals assumption
    next => cases h
  | dies | holds | crashes =>
    cases h
    constructor
  | starts | looks | allows | rereads | compares | observesAgain finding hairpin | applies | writes state | returns raises
  | finishes | admits | forgets | changes state | places active | startsUp enabled | turns enabled | leaves
  | other directory changes | directories there =>
    simp only [step] at h
    split at h
    all_goals cases h
    all_goals
      constructor
      assumption

end SparkRing.Recovery
