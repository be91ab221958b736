import SparkRing.RecoveryArmed
import SparkRing.RecoverySafety

/-!
# Recovery stays armed until it forgets what it left

After a completed up, every run, finding, outcome and crash keeps recovery armed, unless a
run finds the model serving while its saved state is not a completed up. One run does: the
state that recovery left is forgotten, and the model is not restarted when it stops again.
-/

namespace SparkRing.Recovery

open OrderedDict TransitionSystem

variable {D : Deployment} {s s' : State} {phase : Phase} {act : Act}

theorem StaysArmed.anyTime (h : StaysArmed s act) : StaysArmed (s.anyTime act) act := { h with
  saves := fun state hact record entry rest hrun => h.saves state hact record entry rest (by rwa [run_anyTime] at hrun)
  serves := fun finding t hact hserving => by rw [saved_anyTime]; exact h.serves finding t hact hserving }

/-- A run goes on and writes nothing. -/
theorem Arms.goes (h : Arms D s) (hphase : phase.Arms (s.record D) s.saved) : Arms D (s.goes phase) :=
  ⟨h.there, h.manual, h.arming.goes hphase⟩

/-- A run ends and writes nothing. -/
theorem Arms.ends (h : Arms D s) (outcome : Outcome) : Arms D (s.ends outcome) :=
  ⟨h.there, h.manual, h.arming.ends⟩

theorem Arms.step (h : Arms D s) (hstays : StaysArmed s act) (hstep : Recovery.step D s act = some s') : Arms D s' := by
  have halone : ∀ forgot, s.manual ≠ some forgot := by
    intro forgot hmanual
    rw [h.manual] at hmanual
    cases hmanual
  have hbusy : ¬s.manual.isSome := by
    rw [h.manual]
    exact Bool.false_ne_true
  cases moves_of_step hstep with
  | starts => exact h.starts
  | asksBusy hrun hsome => exact absurd hsome hbusy
  | asks hrun =>
    have hrecord := h.arming.phase _ hrun
    exact h.goes hrecord
  | looks hrun =>
    have hrecord := h.arming.phase _ hrun
    exact h.goes ⟨hrecord.1, hrecord.2, rfl⟩
  | @judges record state t hrun hle => exact (h.anyTime (.judges t)).judges hrun
  | allows hrun => exact h.allows hrun
  | @observes record state t finding hrun hle =>
    exact (h.anyTime (.observes finding t)).observes hrun (hstays.serves finding t rfl)
  | locksBusy hrun hsome => exact absurd hsome hbusy
  | locks hrun hfree =>
    have hstate := h.arming.phase _ hrun
    exact ⟨h.there, h.manual, h.arming.goes hstate⟩
  | readsHeld => exact h.ends .held
  | readsHold hrun hlapsed =>
    have hstate := h.arming.phase _ hrun
    exact ⟨h.there, h.manual, h.arming.goes hstate⟩
  | rereads hrun => exact h.rereads hrun
  | compares hrun => exact h.compares hrun
  | observesAgain hrun => exact h.observesAgain hrun
  | @begins record state finding t hrun hle => exact (h.anyTime (.begins t)).begins hrun
  | applies hrun =>
    have hattempt := h.arming.phase _ hrun
    exact h.goes hattempt
  | @writes record entry rest state hrun => exact h.writes hrun (hstays.saves state rfl record entry rest hrun)
  | returns hrun =>
    have hattempt := h.arming.phase _ hrun
    unfold State.returns
    split_ifs
    · exact h.goes hattempt
    · exact h.goes hattempt
    · exact h.goes hattempt
  | finishes hrun =>
    have hattempt := h.arming.phase _ hrun
    exact h.goes ⟨hattempt, rfl, fun hsucceeded => (Bool.and_eq_true _ _ ▸ hsucceeded : _ ∧ _).2⟩
  | @records record entry after succeeded t hrun hle => exact (h.anyTime (.records t)).records hrun
  | dies => exact ⟨h.there, h.manual, h.arming.ends⟩
  | admits => exact absurd rfl hstays.alone
  | forgets hmanual | changes hmanual | places hmanual | startsUp hmanual | turns hmanual | leaves hmanual =>
    exact absurd hmanual (halone _)
  | holds => exact ⟨h.there, h.manual, h.arming⟩
  | @other directory changes hne =>
    refine ⟨h.there, h.manual, ?_⟩
    change Arming (recordOf (s.document.update s.there directory changes) D.directory) s.saved s.run
    rw [recordOf_update_of_ne h.there hne.symm]
    exact h.arming
  | directories hthere => exact ⟨hthere, h.manual, h.arming⟩
  | crashes => exact ⟨h.there, rfl, h.arming.ends⟩

/-- After a completed up, recovery is armed. -/
theorem StartedUp.arms (h : StartedUp D s) : Arms D s := by
  obtain ⟨enabled, record, hrecord⟩ := h.recorded
  refine ⟨h.there, h.manual, ?_⟩
  rw [h.run]
  refine ⟨.inl (mayAct_eq.mpr (.inl h.saved)), .inl (operation_of_completedUp h.saved), ?_, fun _ hno => nomatch hno⟩
  intro prior hprior
  rw [hrecord] at hprior
  cases hprior

/-- Every state of such a run is armed. -/
theorem arms_of_reachable {s₀ : State} (hup : StartedUp D s₀) (h : Reachable (stepAnyTime D) StaysArmed s₀ s) : Arms D s := by
  refine h.invariant (Arms D) hup.arms ?_
  intro s act s' _ hinv hstays hstep
  exact (hinv.anyTime act).step hstays.anyTime hstep

/-- A run that finds the model serving forgets what recovery left. -/
theorem Arms.armed_serving (h : Arms D s) {finding : Finding} {t : ℚ} (hserving : finding.state = .serving)
    (hstep : Recovery.step D s (.observes finding t) = some s') :
    s'.saved = s.saved ∧ (Armed (s'.record D) s'.saved ↔ s.saved.completedUp = true) := by
  cases moves_of_step hstep with
  | @observes record state _ _ hrun hle =>
    obtain ⟨hgoing, -, hattempt⟩ : (s.record D).stopped = false ∧ state = s.saved ∧ (s.record D).attempt = none :=
      h.arming.phase _ hrun
    have hreached : finding.state ≠ .unreachable := by
      rw [hserving]
      exact nofun
    rw [State.observes, if_neg hreached, if_pos hserving]
    refine ⟨rfl, ?_⟩
    change Armed ((({ s with clock := t } : State).updates D servingChanges).record D) s.saved ↔ _
    rw [record_updates (show ({ s with clock := t } : State).there D.directory = true from h.there)]
    change mayAct s.saved (servingChanges (s.record D)) = true ∨ (s.record D).attempt.isSome = true ∨
      (s.record D).stopped = true ∧ _ ↔ _
    rw [mayAct_eq, hattempt, hgoing]
    simp [servingChanges]

/-- After a completed up, and while no run finds the model serving beside a saved state
that is not a completed up, recovery stays armed through all findings, outcomes, crashes
and clock values. A run that finds the model serving keeps it armed exactly there. -/
theorem armed_after_up (D : Deployment) (s₀ s : State) (hup : StartedUp D s₀) (h : Reachable (stepAnyTime D) StaysArmed s₀ s) :
    Armed (s.record D) s.saved ∧
      ∀ finding t u, finding.state = .serving → stepAnyTime D s (.observes finding t) = some u →
        (Armed (u.record D) u.saved ↔ s.saved.completedUp = true) := by
  have harms := arms_of_reachable hup h
  refine ⟨harms.arming.armed, fun finding t u hserving hstep => ?_⟩
  exact ((harms.anyTime (.observes finding t)).armed_serving hserving hstep).2

/-- A pair that an operator started. -/
def installed : State where
  document := Dict.empty.set "main" (startedChanges none {})
  saved := ⟨some 1, some .up, some true⟩
  active := true

theorem installed_startedUp : StartedUp pair installed where
  there := rfl
  manual := rfl
  run := rfl
  saved := rfl
  recorded := ⟨none, {}, rfl⟩

instance (entry : Entry) (rest : List Operation) (state : Saved) : Decidable (entry.Saves rest state) :=
  inferInstanceAs (Decidable (_ ∧ _ ∧ _))

/-- Check that a step is automatic. -/
def automatic (s : State) : Act → Bool
  | .admits => false
  | .writes state => match s.run with
    | some (.inApply _ entry rest) => decide (entry.Saves rest state)
    | _ => true
  | _ => true

theorem automatic_of_check {a : Act} (h : automatic s a = true) : Automatic s a where
  alone := by
    rintro rfl
    cases h
  saves := by
    rintro state rfl record entry rest hrun
    simp only [automatic, hrun, decide_eq_true_eq] at h
    exact h

/-- Check that a step keeps recovery armed. -/
def staysArmed (s : State) (a : Act) : Bool :=
  automatic s a && match a with
    | .observes finding _ => finding.state ≠ .serving || s.saved.completedUp
    | _ => true

theorem staysArmed_of_check {a : Act} (h : staysArmed s a = true) : StaysArmed s a := by
  unfold staysArmed at h
  rw [Bool.and_eq_true] at h
  refine ⟨automatic_of_check h.1, ?_⟩
  rintro finding t rfl hserving
  have hserves : (decide (finding.state ≠ .serving) || s.saved.completedUp) = true := h.2
  rw [hserving, Bool.or_eq_true, decide_eq_true_eq] at hserves
  exact hserves.resolve_left fun hne => hne rfl

/-- Two runs find the model stopped, and Node A crashes while the second one starts it again. -/
def crashed : List Act :=
  observing .stopped 10 ++ observing .stopped 70 ++ locking .stopped ++
    [.begins 80, .applies, .writes ⟨some 2, some .up, some false⟩, .crashes]

/-- The up that a crash cut off lets the next runs act. -/
theorem armed_after_crash : ∃ s : State, s.saved.completedUp = false ∧ s.run = none ∧ Armed (s.record pair) s.saved := by
  obtain ⟨s, hs, hcrashed⟩ := Reachable.exists_of_checked_runs staysArmed (fun _ _ => staysArmed_of_check) (stepAnyTime pair)
    installed (crashed ++ observing .stopped 700) (fun s : State => decide (s.saved.completedUp = false) && s.run.isNone)
    (by decide +kernel)
  rw [Bool.and_eq_true, decide_eq_true_eq, Option.isNone_iff_eq_none] at hcrashed
  exact ⟨s, hcrashed.1, hcrashed.2, (armed_after_up pair installed s installed_startedUp hs).1⟩

/-- After that crash a run finds the model serving, and forgets the up that was cut off: the
model stops again, and the next run ends without restarting it. -/
theorem disarmed_by_serving : ∃ s : State, StartedUp pair installed ∧ Reachable (stepAnyTime pair) Automatic installed s ∧
    s.run = none ∧ (s.record pair).enabled = true ∧ s.outcome = some .inactive ∧ ¬Armed (s.record pair) s.saved := by
  obtain ⟨s, hs, hserving⟩ := Reachable.exists_of_checked_runs automatic (fun _ _ => automatic_of_check) (stepAnyTime pair)
    installed (crashed ++ observing .serving 700 ++ [.starts, .asks, .looks, .judges 760, .allows])
    (fun s : State => s.run.isNone && (s.record pair).enabled && decide (s.outcome = some .inactive) &&
      !(mayAct s.saved (s.record pair) || (s.record pair).attempt.isSome || (s.record pair).stopped))
    (by decide +kernel)
  simp only [Bool.and_eq_true, Option.isNone_iff_eq_none, decide_eq_true_eq, Bool.not_eq_true', Bool.or_eq_false_iff] at hserving
  obtain ⟨⟨⟨hrun, henabled⟩, houtcome⟩, ⟨hmay, hattempt⟩, hstopped⟩ := hserving
  refine ⟨s, installed_startedUp, hs, hrun, henabled, houtcome, ?_⟩
  rw [Armed, hmay, hattempt, hstopped]
  simp

end SparkRing.Recovery
