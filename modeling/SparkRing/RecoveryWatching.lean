import SparkRing.RecoveryConfirmed

/-!
# What recovery acts on was confirmed

Every step keeps the record's count below the consecutive runs, so an attempt follows at
least two of them, and a silent API long enough after one of them, where the observation
under the locks is confirmed by the count of the first one. One run shows a silent API that
is acted on a moment after it was first seen.
-/

namespace SparkRing.Recovery

open TransitionSystem

variable {D : Deployment} {s s' : State} {g : Sightings} {phase : Phase} {record : Record} {state : Saved}
  {finding : Finding} {changes : Record → Record} {t : ℚ}

variable (D) in
/-- What holds between two steps. -/
structure Watches (s : State) (g : Sightings) : Prop where
  /-- The deployment exists. -/
  there : s.there D.directory = true
  watching : Watching (s.record D).pending g s.run

theorem Watches.goes (h : Watches D s g) (hphase : phase.Watched (s.record D).pending g) : Watches D (s.goes phase) g :=
  ⟨h.there, h.watching.goes hphase⟩

theorem Watches.ends (h : Watches D s g) (outcome : Outcome) : Watches D (s.ends outcome) g :=
  ⟨h.there, h.watching.ends⟩

/-- The record is changed, and counts nothing from then on. -/
theorem Watches.forgets (hthere : s.there D.directory = true) (outcome : Outcome) (hnone : ∀ record, (changes record).pending = none) :
    Watches D ((s.updates D changes).ends outcome) g := by
  refine ⟨hthere, ?_⟩
  change Watching ((s.updates D changes).record D).pending g none
  rw [record_updates hthere, hnone]
  exact .nothing

section

variable (h : Watches D s g)

include h

theorem Watches.starts : Watches D (s.starts D) g := by
  unfold State.starts
  dsimp only
  split_ifs
  · exact h.ends .off
  · exact h.ends .stopped
  · exact h.ends .unsupported
  · exact h.goes h.watching.copied

theorem Watches.judges (hrun : s.run = some (.looked record state)) : Watches D (s.judges D record state t) g := by
  have hcopied : Copied (s.record D).pending record.pending g.runs := h.watching.phase _ hrun
  unfold State.judges
  cases record.attempt with
  | none => exact h.goes hcopied
  | some prior =>
    have hpending : ((s.updates D (interruptedChanges record prior state t)).record D).pending = (s.record D).pending := by
      rw [record_updates h.there]
      rfl
    have hnow : Watches D ((s.updates D (interruptedChanges record prior state t)).logs (.failed prior.number t)) g := by
      refine ⟨h.there, ?_⟩
      change Watching ((s.updates D (interruptedChanges record prior state t)).record D).pending g s.run
      rw [hpending]
      exact h.watching
    dsimp only
    split_ifs
    · exact hnow.ends .stopped
    · exact hnow.goes hnow.watching.copied

/-- A run that may not act ends, and counts nothing if it counted before. -/
theorem Watches.allows (hrun : s.run = some (.judged record state)) :
    Watches D (s.allows D record state) (if (s.allows D record state).run.isNone then { g with runs := [] } else g) := by
  have hcopied : Copied (s.record D).pending record.pending g.runs := h.watching.phase _ hrun
  by_cases hmay : mayAct state record = true
  · have hgoes : s.allows D record state = s.goes (.allowed record state) := if_pos hmay
    rw [hgoes]
    exact h.goes hcopied
  by_cases hcounted : record.pending.isSome ∨ record.waiting.isSome
  · have hends : s.allows D record state =
        (s.updates D fun stored => { stored with pending := none, waiting := none }).ends .inactive := by
      rw [State.allows, if_neg hmay, if_pos hcounted]
    rw [hends]
    exact .forgets h.there .inactive fun _ => rfl
  have hends : s.allows D record state = s.ends .inactive := by
    rw [State.allows, if_neg hmay, if_neg hcounted]
  have hnone : (s.record D).pending = none := by
    have hcopy : record.pending = none := by
      cases hpending : record.pending with
      | none => rfl
      | some => exact absurd (.inl (by rw [hpending]; rfl)) hcounted
    exact hcopied.same.elim id fun hsame => hsame.trans hcopy
  rw [hends]
  refine ⟨h.there, ?_⟩
  change Watching (s.record D).pending _ none
  rw [hnone]
  exact .nothing

/-- A run counts itself where its finding is one to act on. -/
theorem Watches.observes {runs : List ℚ} (hrun : s.run = some (.allowed record state))
    (hruns : finding.state.action ≠ none → runs = t :: g.runs) :
    Watches D (s.observes D record state finding t) { g with runs := runs, seen := some (record.confirms finding t, t) } := by
  have hcopied : Copied (s.record D).pending record.pending g.runs := h.watching.phase _ hrun
  have hcounts : (record.confirms finding t).Counts (t :: g.runs) := .confirms hcopied.counts
  unfold State.observes
  dsimp only
  split_ifs with hunreachable hserving hnothing hbackoff hconfirmed hlimit
  · exact .forgets h.there .waiting fun _ => rfl
  · refine ⟨h.there, ?_⟩
    change Watching ((s.updates D servingChanges).record D).pending _ none
    rw [record_updates h.there]
    exact .nothing
  · exact .forgets h.there .report fun _ => rfl
  · refine ⟨h.there, ?_⟩
    change Watching ((s.updates D _).record D).pending _ none
    rw [record_updates h.there, hruns hnothing]
    exact ⟨fun pending hpending => Option.some.inj hpending ▸ hcounts, fun _ hno => nomatch hno⟩
  · refine ⟨h.there, ?_⟩
    change Watching ((s.updates D _).record D).pending _ none
    rw [record_updates h.there, hruns hnothing]
    exact ⟨fun pending hpending => Option.some.inj hpending ▸ hcounts, fun _ hno => nomatch hno⟩
  · exact .forgets h.there .stopped fun _ => rfl
  refine ⟨h.there, ?_⟩
  change Watching ((s.updates D _).record D).pending _ (some (.found state))
  rw [record_updates h.there, hruns hnothing]
  refine ⟨fun pending hpending => Option.some.inj hpending ▸ hcounts, fun phase hphase => ?_⟩
  cases hphase
  exact ⟨_, t, rfl, hcounts, rfl, hcounts.enough (by simpa using hconfirmed)⟩

theorem Watches.rereads (hrun : s.run = some (.unheld state)) : Watches D (s.rereads D state) g := by
  have hconfirmed : g.Confirmed := h.watching.phase _ hrun
  unfold State.rereads
  dsimp only
  split_ifs
  · exact h.ends .off
  · exact h.ends .stopped
  · exact h.goes hconfirmed

theorem Watches.compares (hrun : s.run = some (.reread record state)) :
    Watches D (s.compares D record state) (if (s.compares D record state).run.isNone then { g with runs := [] } else g) := by
  have hconfirmed : g.Confirmed := h.watching.phase _ hrun
  by_cases hchanged : s.active = false ∨ s.saved ≠ state
  · have hends : s.compares D record state = (s.updates D fun stored => { stored with pending := none }).ends .changed :=
      if_pos hchanged
    rw [hends]
    exact .forgets h.there .changed fun _ => rfl
  have hgoes : s.compares D record state = s.goes (.unchanged record state) := if_neg hchanged
  rw [hgoes]
  exact h.goes hconfirmed

/-- A run chooses what it observed under its locks. -/
theorem Watches.observesAgain {hairpin : Bool} (hrun : s.run = some (.unchanged record state))
    (hagain : finding.state.action.isSome = true → ∀ pending t, g.seen = some (pending, t) → confirmed finding pending t = true) :
    Watches D (s.observesAgain D record state finding hairpin)
      (if (s.observesAgain D record state finding hairpin).run.isNone then { g with runs := [] }
        else { g with chosen := some (finding, g.runs) }) := by
  have hconfirmed : g.Confirmed := h.watching.phase _ hrun
  by_cases hnothing : finding.state.action = none
  · have hends : s.observesAgain D record state finding hairpin =
        (s.updates D fun stored => { stored with pending := none }).ends .changed := if_pos hnothing
    rw [hends]
    exact .forgets h.there .changed fun _ => rfl
  by_cases hset : D.ranks = 4 ∧ hairpin = true
  · have hends : s.observesAgain D record state finding hairpin =
        (s.updates D fun stored => { stored with pending := none }).ends .report := by
      rw [State.observesAgain, if_neg hnothing, if_pos hset]
    rw [hends]
    exact .forgets h.there .report fun _ => rfl
  have hgoes : s.observesAgain D record state finding hairpin = s.goes (.chosen record state finding) := by
    rw [State.observesAgain, if_neg hnothing, if_neg hset]
  have hacting : finding.state.action.isSome = true := Option.isSome_iff_ne_none.mpr hnothing
  rw [hgoes]
  refine ⟨h.there, h.watching.counts, fun phase hphase => ?_⟩
  cases hphase
  exact ⟨g.runs, rfl, hconfirmed.backed hacting (hagain hacting)⟩

/-- An attempt begins, and nothing is counted. -/
theorem Watches.begins (hrun : s.run = some (.chosen record state finding)) :
    Watches D (s.begins D record state finding t) { g with runs := [] } := by
  obtain ⟨runs, hchosen, hbacked⟩ : g.Chosen finding := h.watching.phase _ hrun
  refine ⟨h.there, ?_⟩
  change Watching (State.record D (State.updates D _ _)).pending _ _
  rw [record_updates (show ({ s with attempts := s.attempts + 1 } : State).there D.directory = true from h.there)]
  exact .acts ⟨finding, runs, hchosen, hbacked⟩

theorem Watches.records {entry : Entry} {after : Saved} {succeeded : Bool} : Watches D (s.records D record entry after succeeded t) g := by
  have hpending : ∀ changes : Record → Record, (∀ stored, (changes stored).pending = stored.pending) → ∀ event outcome,
      Watches D (((s.updates D changes).logs event).ends outcome) g := by
    intro changes hsame event outcome
    refine ⟨h.there, ?_⟩
    change Watching ((s.updates D changes).record D).pending g none
    rw [record_updates h.there, hsame]
    exact h.watching.ends
  unfold State.records
  split_ifs
  · exact hpending (succeededChanges record _ t) (fun _ => rfl) _ _
  · exact hpending (failedChanges _ (record.failures + 1) t (some after)) (fun _ => rfl) _ _

/-- A manual operation forgets what is counted. -/
theorem Watches.manually (hnone : ∀ record, (changes record).pending = none) : Watches D (s.updates D changes) g := by
  refine ⟨h.there, ?_⟩
  rw [record_updates h.there, hnone]
  exact h.watching.forgotten

/-- A manual operation keeps what is counted. -/
theorem Watches.keeps (hsame : ∀ record, (changes record).pending = record.pending) : Watches D (s.updates D changes) g := by
  refine ⟨h.there, ?_⟩
  rw [record_updates h.there, hsame]
  exact h.watching

/-- What is watched is the deployment's directory, its record and the run. -/
theorem Watches.same (hthere : s'.there = s.there) (hdocument : s'.document = s.document)
    (hrun : s'.run = s.run ∨ s'.run = none) : Watches D s' g := by
  have hrecord : s'.record D = s.record D := congrArg (recordOf · D.directory) hdocument
  refine ⟨(congrFun hthere _).trans h.there, ?_⟩
  rw [hrecord]
  cases hrun with
  | inl hsame =>
    rw [hsame]
    exact h.watching
  | inr hended =>
    rw [hended]
    exact h.watching.ends

theorem Watches.later (t : ℚ) : Watches D { s with clock := t } g :=
  ⟨h.there, h.watching⟩

theorem Watches.step {act : Act} (hagain : ∀ finding hairpin, act = .observesAgain finding hairpin → finding.state.action.isSome = true →
      ∀ pending t, g.seen = some (pending, t) → confirmed finding pending t = true)
    (hstep : Recovery.step D s act = some s') : Watches D s' (g.after s s' act) := by
  cases moves_of_step hstep with
  | starts => exact h.starts
  | asksBusy => exact h.ends .busy
  | asks hrun | looks hrun =>
    have hcopied := h.watching.phase _ hrun
    exact h.goes hcopied
  | judges hrun hle => exact (h.later _).judges hrun
  | allows hrun => exact h.allows hrun
  | @observes record state t finding hrun hle =>
    have hafter : ∀ s', g.after s s' (.observes finding t) =
        { g with runs := if finding.state.action = none then [] else t :: g.runs, seen := some (record.confirms finding t, t) } := by
      intro s'
      simp only [Sightings.after, hrun]
    rw [hafter]
    exact (h.later t).observes hrun fun hacting => if_neg hacting
  | locksBusy => exact h.ends .busy
  | locks hrun hfree | readsHold hrun hlapsed =>
    have hconfirmed := h.watching.phase _ hrun
    exact ⟨h.there, h.watching.goes hconfirmed⟩
  | readsHeld => exact h.ends .held
  | rereads hrun => exact h.rereads hrun
  | compares hrun => exact h.compares hrun
  | @observesAgain record state finding hairpin hrun => exact h.observesAgain hrun (hagain finding hairpin rfl)
  | begins hrun hle => exact (h.later _).begins hrun
  | applies hrun | finishes hrun =>
    have hchosen := h.watching.phase _ hrun
    exact h.goes hchosen
  | returns hrun =>
    have hchosen := h.watching.phase _ hrun
    unfold State.returns
    split_ifs
    · exact h.goes hchosen
    · exact h.goes hchosen
    · exact h.goes hchosen
  | records => exact (h.later _).records
  | forgets => exact (h.manually fun _ => rfl).same rfl rfl (.inl rfl)
  | startsUp =>
    split_ifs
    · exact (h.manually fun _ => rfl).same rfl rfl (.inl rfl)
    · exact h
  | @turns forgot enabled hmanual =>
    split_ifs
    · cases enabled with
      | false =>
        have hkeeps : Watches D (s.updates D (enabledChanges false)) g := h.keeps fun _ => rfl
        exact hkeeps.same rfl rfl (.inl rfl)
      | true => exact (h.manually fun _ => rfl).same rfl rfl (.inl rfl)
    · exact h
  | writes | admits | changes | places | leaves | holds => exact h.same rfl rfl (.inl rfl)
  | dies | crashes => exact h.same rfl rfl (.inr rfl)
  | @other directory changes hne =>
    refine ⟨h.there, ?_⟩
    change Watching (recordOf (s.document.update s.there directory changes) D.directory).pending g s.run
    rw [recordOf_update_of_ne h.there hne.symm]
    exact h.watching
  | directories hthere => exact ⟨hthere, h.watching⟩

end

theorem watches_init : Watches D {} {} where
  there := rfl
  watching := .nothing

/-- What runs found does not depend on the clock. -/
theorem Sightings.after_anyTime (act : Act) : g.after (s.anyTime act) s' act = g.after s s' act := by
  cases act <;> rfl

/-- A lifecycle call of a run is enabled only once it chose what to act on. -/
theorem Watches.acts_on (h : Watches D s g) (hstep : Recovery.step D s .applies = some s') : ∃ finding, g.Chosen finding := by
  cases moves_of_step hstep with
  | applies hrun => exact h.watching.phase _ hrun

/-- In every run, with any findings and clock values, in which what is observed under the
locks is confirmed by what the run's first observation counted, recovery acts on findings
that enough consecutive runs confirmed. -/
theorem acts_on_confirmed (D : Deployment) (w w' : Watch) (h : Reachable (stepWatched D) ConfirmsAgain {} w)
    (hstep : stepWatched D w .applies = some w') : ∃ finding runs, w.sightings.chosen = some (finding, runs) ∧ Backed finding runs := by
  have hwatches : Watches D w.state w.sightings := by
    refine h.invariant (fun w => Watches D w.state w.sightings) watches_init ?_
    intro w act w' _ hinv hagain hstep
    obtain ⟨s', hstep', rfl⟩ := Option.map_eq_some_iff.mp hstep
    have hset : Watches D (w.state.anyTime act) w.sightings := by
      unfold State.anyTime
      split <;> exact ⟨hinv.there, hinv.watching⟩
    have hnext := hset.step (fun finding hairpin hact => hagain finding hairpin hact) hstep'
    rw [Sightings.after_anyTime] at hnext
    exact hnext
  obtain ⟨s', hstep', -⟩ := Option.map_eq_some_iff.mp hstep
  obtain ⟨finding, runs, hchosen, hbacked⟩ := hwatches.acts_on hstep'
  exact ⟨finding, runs, hchosen, hbacked⟩

/-- Check that what is observed under the locks is confirmed. -/
def confirmsAgain (w : Watch) : Act → Bool
  | .observesAgain finding _ => finding.state.action.isNone || w.sightings.seen.all fun seen => confirmed finding seen.1 seen.2
  | _ => true

theorem confirmsAgain_of_check {w : Watch} {a : Act} (h : confirmsAgain w a = true) : ConfirmsAgain w a := by
  rintro finding hairpin rfl hacting pending t hseen
  have hnone : finding.state.action.isNone = false := by
    rw [← Option.not_isSome, hacting]
    rfl
  simp only [confirmsAgain, hnone, hseen, Option.all_some, Bool.false_or] at h
  exact h

/-- A silent API is acted on once it has been silent for long enough. -/
theorem acts_on_silence : ∃ w w' : Watch, stepWatched pair w .applies = some w' ∧
    ∃ finding runs, w.sightings.chosen = some (finding, runs) ∧ Backed finding runs := by
  obtain ⟨w, hw, hsilent⟩ := Reachable.exists_of_checked_runs confirmsAgain (fun _ _ => confirmsAgain_of_check) (stepWatched pair) {}
    (install ++ observing .apiFailing 10 ++ observing .apiFailing 110 ++ observing .apiFailing 320 ++ locking .apiFailing ++
      [.begins 330]) (fun w : Watch => (stepWatched pair w .applies).isSome) (by decide +kernel)
  obtain ⟨w', hstep⟩ := Option.isSome_iff_exists.mp hsilent
  exact ⟨w, w', hstep, acts_on_confirmed pair w w' hw hstep⟩

/-- Two runs find the model stopped. Under its locks the second one finds a silent API for
the first time, and restarts the model. -/
theorem acts_on_new_silence : ∃ w w' : Watch, ∃ finding : Finding, Reachable (stepWatched pair) Unrestricted {} w ∧
    stepWatched pair w .applies = some w' ∧ finding.silent ∧ w.sightings.chosen = some (finding, [70, 10]) ∧
      ¬Backed finding [70, 10] := by
  obtain ⟨w, hw, hsilent⟩ := Reachable.exists_of_runs (stepWatched pair) {}
    (install ++ observing .stopped 10 ++ observing .stopped 70 ++ locking .apiFailing ++ [.begins 80])
    (fun w : Watch => (stepWatched pair w .applies).isSome &&
      w.sightings.chosen.any fun chosen : Finding × List ℚ => decide (chosen.1.silent ∧ chosen.2 = [70, 10])) (by decide +kernel)
  rw [Bool.and_eq_true, Option.isSome_iff_exists] at hsilent
  obtain ⟨⟨w', hstep⟩, hchosen⟩ := hsilent
  cases hfound : w.sightings.chosen with
  | none =>
    rw [hfound] at hchosen
    cases hchosen
  | some chosen =>
    rw [hfound] at hchosen
    obtain ⟨hsilent, hruns⟩ : chosen.1.silent ∧ chosen.2 = [70, 10] := of_decide_eq_true hchosen
    refine ⟨w, w', chosen.1, hw, hstep, hsilent, ?_, ?_⟩
    · rw [hfound, ← hruns]
    intro hbacked
    obtain ⟨last, first, hlast, hfirst, hlong⟩ := hbacked.long hsilent
    cases hlast
    rw [API_SILENCE] at hlong
    rcases List.mem_cons.mp hfirst with rfl | hfirst
    · norm_num at hlong
    · rw [List.mem_singleton.mp hfirst] at hlong
      norm_num at hlong

end SparkRing.Recovery
