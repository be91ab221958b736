import SparkRing.RecoveryGuards

/-!
# Recovery that can act again

After a completed up, recovery is armed: the saved state lets it act, an attempt is to be
settled, or it has stopped and says why. A failed attempt leaves a state that lets it act
again, until a run finds the model serving and forgets that state.
-/

namespace SparkRing.Recovery

variable (D : Deployment) (a : Act)

/-- Recovery can act, has an attempt to settle, or has stopped with a reason. -/
def Armed (stored : Record) (saved : Saved) : Prop :=
  mayAct saved stored = true ∨ stored.attempt.isSome = true ∨ stored.stopped = true ∧ stored.stopReason.isSome = true

/-- The clock shows the time that a step reads, whatever it showed before. -/
def State.anyTime (s : State) : Act → State
  | .judges t | .observes _ t | .begins t | .records t => { s with clock := t }
  | _ => s

/-- A step with a clock that may be set. -/
def stepAnyTime (s : State) (a : Act) : Option State := step D (s.anyTime a) a

/-- What a lifecycle call saves: its own operation, under a generation later than the attempt's by at most
one for every call that was made. -/
def Entry.Saves (entry : Entry) (rest : List Operation) (state : Saved) : Prop :=
  state.operation = some (if rest = [] then .up else .down) ∧
    entry.generation.getD 0 ≤ state.generation.getD 0 ∧
      state.generation.getD 0 ≤ entry.generation.getD 0 + ((if entry.action = .up then 1 else 2) - rest.length : ℕ)

/-- There is no manual operation, and lifecycle calls save their own operations. -/
structure Automatic (s : State) (a : Act) : Prop where
  /-- No manual operation begins. -/
  alone : a ≠ .admits
  /-- A lifecycle call saves its own operation. -/
  saves : ∀ state, a = .writes state → ∀ record entry rest, s.run = some (.inApply record entry rest) → entry.Saves rest state

/-- No run finds the model serving while its saved state is not a completed up. -/
structure StaysArmed (s : State) (a : Act) : Prop extends Automatic s a where
  serves : ∀ finding t, a = .observes finding t → finding.state = .serving → s.saved.completedUp = true

/-- The last manual operation is a completed up that was recorded, and no run is under way. -/
structure StartedUp (s : State) : Prop where
  /-- The deployment exists. -/
  there : s.there D.directory = true
  /-- The operation has ended. -/
  manual : s.manual = none
  /-- No run is under way. -/
  run : s.run = none
  saved : s.saved.completedUp = true
  recorded : ∃ enabled record, s.record D = startedChanges enabled record

/-- What a run knows of the record and the saved state. -/
def Phase.Arms (stored : Record) (saved : Saved) : Phase → Prop
  | .read record | .free record => record = stored ∧ stored.stopped = false
  | .looked record state => record = stored ∧ stored.stopped = false ∧ state = saved
  | .judged record state => record = stored ∧ stored.stopped = false ∧ state = saved ∧ stored.attempt = none
  | .allowed _ state => stored.stopped = false ∧ state = saved ∧ stored.attempt = none
  | .found state | .locked state | .unheld state | .reread _ state | .unchanged _ state | .chosen _ state _ => state = saved
  | .applying _ entry _ | .inApply _ entry _ | .applied _ entry _ => stored.attempt = some entry
  | .finishing _ entry after succeeded =>
    stored.attempt = some entry ∧ after = saved ∧ (succeeded = true → saved.completedUp = true)

/-- What holds of the record and the saved state between two steps. -/
structure Arming (stored : Record) (saved : Saved) (run : Option Phase) : Prop where
  armed : Armed stored saved
  /-- The last operation starts or stops the model. -/
  operation : saved.operation = some .up ∨ saved.operation = some .down
  /-- An attempt to settle has left the saved state. -/
  ours : ∀ prior, stored.attempt = some prior → prior.ours saved = true
  /-- What the run knows. -/
  phase : ∀ phase, run = some phase → phase.Arms stored saved

/-- Recovery stays armed between two steps. -/
structure Arms (s : State) : Prop where
  /-- The deployment exists. -/
  there : s.there D.directory = true
  /-- No manual operation is under way. -/
  manual : s.manual = none
  arming : Arming (s.record D) s.saved s.run

variable {D} {s : State} {stored : Record} {saved state : Saved} {run : Option Phase} {phase : Phase} {record : Record}
  {entry : Entry} {finding : Finding} {changes : Record → Record} {rest : List Operation} {t : ℚ}

theorem ours_iff : entry.ours state = true ↔ (state.operation = some .up ∨ state.operation = some .down) ∧
    entry.generation.getD 0 ≤ state.generation.getD 0 ∧ state.generation.getD 0 ≤ entry.generation.getD 0 + 2 := by
  simp only [Entry.ours, Bool.and_eq_true, Bool.or_eq_true, decide_eq_true_eq, and_assoc]

/-- What a lifecycle call saves counts as the attempt's own. -/
theorem Entry.Saves.ours (h : entry.Saves rest state) : entry.ours state = true := by
  obtain ⟨hoperation, hlow, hhigh⟩ := h
  refine ours_iff.mpr ⟨?_, hlow, hhigh.trans ?_⟩
  · split_ifs at hoperation
    · exact .inl hoperation
    · exact .inr hoperation
  have hcalls : (if entry.action = .up then 1 else 2) - rest.length ≤ 2 := by
    split_ifs <;> omega
  omega

/-- A completed up starts the model. -/
theorem operation_of_completedUp (h : saved.completedUp = true) : saved.operation = some .up := by
  rw [Saved.completedUp, Bool.and_eq_true, decide_eq_true_eq] at h
  exact h.1

theorem Arming.ends (h : Arming stored saved run) : Arming stored saved none :=
  ⟨h.armed, h.operation, h.ours, fun _ hno => nomatch hno⟩

theorem Arming.goes (h : Arming stored saved run) (hphase : phase.Arms stored saved) : Arming stored saved (some phase) :=
  ⟨h.armed, h.operation, h.ours, fun _ hsame => Option.some.inj hsame ▸ hphase⟩

/-- A record without an attempt from which recovery may act. -/
theorem Arming.settles (h : Arming stored saved run) (hnone : record.attempt = none) (harmed : Armed record saved) :
    Arming record saved none :=
  ⟨harmed, h.operation, fun _ hsome => (nomatch hnone.symm.trans hsome), fun _ hno => nomatch hno⟩

/-- Changes of nothing that arms recovery. -/
structure Inert (changes : Record → Record) : Prop where
  /-- What an attempt left. -/
  left : ∀ record, (changes record).left = record.left
  attempt : ∀ record, (changes record).attempt = record.attempt
  /-- Whether recovery has stopped. -/
  stopped : ∀ record, (changes record).stopped = record.stopped
  /-- Why. -/
  reason : ∀ record, (changes record).stopReason = record.stopReason

theorem Armed.inert (h : Armed stored saved) (hi : Inert changes) : Armed (changes stored) saved := by
  simp only [Armed, mayAct_eq, hi.left, hi.attempt, hi.stopped, hi.reason] at h ⊢
  exact h

theorem Arming.inert (h : Arming stored saved run) (hi : Inert changes) : Arming (changes stored) saved none :=
  ⟨h.armed.inert hi, h.operation, fun prior hprior => h.ours prior (hi.attempt stored ▸ hprior), fun _ hno => nomatch hno⟩

/-- An attempt that failed leaves a state that lets recovery act, or recovery stops and says why. -/
theorem armed_failedChanges {last : Last} {failures : ℕ} {ended : ℚ} :
    Armed (failedChanges last failures ended (some saved) stored) saved :=
  .inl (mayAct_eq.mpr (.inr rfl))

section

variable (h : Arms D s)

include h

theorem Arms.starts : Arms D (s.starts D) := by
  unfold State.starts
  dsimp only
  split_ifs with henabled hstopped hcompose
  · exact ⟨h.there, h.manual, h.arming.ends⟩
  · exact ⟨h.there, h.manual, h.arming.ends⟩
  · exact ⟨h.there, h.manual, h.arming.ends⟩
  · exact ⟨h.there, h.manual, h.arming.goes ⟨rfl, Bool.eq_false_iff.mpr hstopped⟩⟩

theorem Arms.judges (hrun : s.run = some (.looked record state)) : Arms D (s.judges D record state t) := by
  obtain ⟨rfl, hgoing, rfl⟩ : record = s.record D ∧ (s.record D).stopped = false ∧ state = s.saved := h.arming.phase _ hrun
  unfold State.judges
  cases hattempt : (s.record D).attempt with
  | none => exact ⟨h.there, h.manual, h.arming.goes ⟨rfl, hgoing, rfl, hattempt⟩⟩
  | some prior =>
    have hours := h.arming.ours prior hattempt
    have hstored : (s.updates D (interruptedChanges (s.record D) prior s.saved t)).record D =
        failedChanges ⟨prior, none, .interrupted⟩ ((s.record D).failures + 1) t (some s.saved) (s.record D) := by
      rw [record_updates h.there, interruptedChanges, if_pos hours]
    have hnow : Arming ((s.updates D (interruptedChanges (s.record D) prior s.saved t)).record D) s.saved none := by
      rw [hstored]
      exact h.arming.settles rfl armed_failedChanges
    dsimp only
    split_ifs with hstopped
    · exact ⟨h.there, h.manual, hnow⟩
    · refine ⟨h.there, h.manual, hnow.goes ⟨rfl, Bool.eq_false_iff.mpr hstopped, rfl, ?_⟩⟩
      exact (congrArg Record.attempt hstored).trans rfl

theorem Arms.allows (hrun : s.run = some (.judged record state)) : Arms D (s.allows D record state) := by
  obtain ⟨rfl, hgoing, rfl, hattempt⟩ : record = s.record D ∧ (s.record D).stopped = false ∧ state = s.saved ∧
    (s.record D).attempt = none := h.arming.phase _ hrun
  unfold State.allows
  split_ifs with hmay
  · exact ⟨h.there, h.manual, h.arming.goes ⟨hgoing, rfl, hattempt⟩⟩
  · refine ⟨h.there, h.manual, ?_⟩
    change Arming ((s.updates D _).record D) s.saved none
    rw [record_updates h.there]
    have hinert : Inert fun stored : Record => { stored with pending := none, waiting := none } :=
      ⟨fun _ => rfl, fun _ => rfl, fun _ => rfl, fun _ => rfl⟩
    exact h.arming.inert hinert
  · exact ⟨h.there, h.manual, h.arming.ends⟩

/-- A run that writes nothing that arms recovery, and ends. -/
theorem Arms.last (outcome : Outcome) (hi : Inert changes) : Arms D ((s.updates D changes).ends outcome) := by
  refine ⟨h.there, h.manual, ?_⟩
  change Arming ((s.updates D changes).record D) s.saved none
  rw [record_updates h.there]
  exact h.arming.inert hi

theorem Arms.observes (hrun : s.run = some (.allowed record state))
    (hserves : finding.state = .serving → s.saved.completedUp = true) : Arms D (s.observes D record state finding t) := by
  obtain ⟨hgoing, rfl, hattempt⟩ : (s.record D).stopped = false ∧ state = s.saved ∧ (s.record D).attempt = none :=
    h.arming.phase _ hrun
  unfold State.observes
  dsimp only
  split_ifs with hunreachable hserving hnothing hbackoff hconfirmed hlimit
  · exact h.last _ ⟨fun _ => rfl, fun _ => rfl, fun _ => rfl, fun _ => rfl⟩
  · refine ⟨h.there, h.manual, ?_⟩
    change Arming ((s.updates D servingChanges).record D) s.saved none
    rw [record_updates h.there]
    exact h.arming.settles hattempt (.inl (mayAct_eq.mpr (.inl (hserves hserving))))
  · exact h.last _ ⟨fun _ => rfl, fun _ => rfl, fun _ => rfl, fun _ => rfl⟩
  · exact h.last _ ⟨fun _ => rfl, fun _ => rfl, fun _ => rfl, fun _ => rfl⟩
  · exact h.last _ ⟨fun _ => rfl, fun _ => rfl, fun _ => rfl, fun _ => rfl⟩
  · refine ⟨h.there, h.manual, ?_⟩
    change Arming ((s.updates D _).record D) s.saved none
    rw [record_updates h.there]
    exact h.arming.settles hattempt (.inr (.inr ⟨rfl, rfl⟩))
  have hlast : Arms D ((s.updates D fun stored =>
      { stored with waiting := none, pending := some (record.confirms finding t) }).ends .confirming) :=
    h.last _ ⟨fun _ => rfl, fun _ => rfl, fun _ => rfl, fun _ => rfl⟩
  exact ⟨h.there, h.manual, hlast.arming.goes rfl⟩

theorem Arms.rereads (hrun : s.run = some (.unheld state)) : Arms D (s.rereads D state) := by
  have hstate : state = s.saved := h.arming.phase _ hrun
  unfold State.rereads
  dsimp only
  split_ifs
  · exact ⟨h.there, h.manual, h.arming.ends⟩
  · exact ⟨h.there, h.manual, h.arming.ends⟩
  · exact ⟨h.there, h.manual, h.arming.goes hstate⟩

theorem Arms.compares (hrun : s.run = some (.reread record state)) : Arms D (s.compares D record state) := by
  have hstate : state = s.saved := h.arming.phase _ hrun
  unfold State.compares
  split_ifs
  · exact h.last _ ⟨fun _ => rfl, fun _ => rfl, fun _ => rfl, fun _ => rfl⟩
  · exact ⟨h.there, h.manual, h.arming.goes hstate⟩

theorem Arms.observesAgain {hairpin : Bool} (hrun : s.run = some (.unchanged record state)) :
    Arms D (s.observesAgain D record state finding hairpin) := by
  have hstate : state = s.saved := h.arming.phase _ hrun
  unfold State.observesAgain
  split_ifs
  · exact h.last _ ⟨fun _ => rfl, fun _ => rfl, fun _ => rfl, fun _ => rfl⟩
  · exact h.last _ ⟨fun _ => rfl, fun _ => rfl, fun _ => rfl, fun _ => rfl⟩
  · exact ⟨h.there, h.manual, h.arming.goes hstate⟩

theorem Arms.begins (hrun : s.run = some (.chosen record state finding)) : Arms D (s.begins D record state finding t) := by
  obtain rfl : state = s.saved := h.arming.phase _ hrun
  have hthere : ({ s with attempts := s.attempts + 1 } : State).there D.directory = true := h.there
  refine ⟨h.there, h.manual, ?_⟩
  change Arming (State.record D (State.updates D _ _)) s.saved _
  rw [record_updates hthere]
  refine ⟨.inr (.inl rfl), h.arming.operation, fun prior hprior => ?_, fun phase hphase => ?_⟩
  · cases hprior
    exact ours_iff.mpr ⟨h.arming.operation, le_rfl, by simp⟩
  · cases hphase
    rfl

theorem Arms.writes (hrun : s.run = some (.inApply record entry rest)) (hsaves : entry.Saves rest state) : Arms D (s.writes state) := by
  have hattempt : (s.record D).attempt = some entry := h.arming.phase _ hrun
  have hours := hsaves.ours
  refine ⟨h.there, h.manual, .inr (.inl (by rw [show (s.writes state).record D = s.record D from rfl, hattempt]; rfl)),
    (ours_iff.mp hours).1, fun prior hprior => ?_, fun phase hphase => ?_⟩
  · have hsame : (s.record D).attempt = some prior := hprior
    rw [hattempt, Option.some.injEq] at hsame
    exact hsame ▸ hours
  have hsame : s.run = some phase := hphase
  rw [hrun, Option.some.injEq] at hsame
  subst hsame
  exact hattempt

theorem Arms.records {succeeded : Bool} {after : Saved} (hrun : s.run = some (.finishing record entry after succeeded)) :
    Arms D (s.records D record entry after succeeded t) := by
  obtain ⟨hattempt, rfl, hup⟩ : (s.record D).attempt = some entry ∧ after = s.saved ∧
    (succeeded = true → s.saved.completedUp = true) := h.arming.phase _ hrun
  unfold State.records
  split_ifs with hsucceeded
  · refine ⟨h.there, h.manual, ?_⟩
    change Arming ((s.updates D _).record D) s.saved none
    rw [record_updates h.there]
    exact h.arming.settles rfl (.inl (mayAct_eq.mpr (.inl (hup hsucceeded))))
  refine ⟨h.there, h.manual, ?_⟩
  change Arming ((s.updates D _).record D) s.saved none
  rw [record_updates h.there]
  exact h.arming.settles rfl armed_failedChanges

/-- A clock that is set arms nothing. -/
theorem Arms.anyTime : Arms D (s.anyTime a) := by
  unfold State.anyTime
  split <;> exact ⟨h.there, h.manual, h.arming⟩

end

theorem run_anyTime : (s.anyTime a).run = s.run := by
  unfold State.anyTime
  split <;> rfl

theorem saved_anyTime : (s.anyTime a).saved = s.saved := by
  unfold State.anyTime
  split <;> rfl

end SparkRing.Recovery
