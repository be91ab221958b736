import SparkRing.RecoveryRuns

/-!
# What recovery relies on

A saved state is recovery's own where its last attempt left it and no manual operation
began since. Whatever the record, or a run's copy of it, takes for left by an attempt is a
completed up or recovery's own, as long as no manual operation forgets an attempt that a
run outside its locks relies on.
-/

namespace SparkRing.Recovery

/-- What the guards speak of. -/
structure View where
  record : Record
  saved : Saved
  /-- The state that recovery's last attempt left, unless a manual operation began since. -/
  own : Option Saved
  /-- The manual operation, and whether it forgot the attempt. -/
  manual : Option Bool
  /-- The deployment is active. -/
  active : Bool
  /-- There was a moment without a hold, or the hold was not read. -/
  lapsed : Bool

variable (D : Deployment) {succeeded hairpin raises : Bool} {rest : List Operation} {after : Saved} {v' : View}

/-- What the guards see of a state. -/
def State.view (s : State) : View := ⟨s.record D, s.saved, s.own, s.manual, s.active, s.lapsed⟩

/-- Recovery may act on this state: a completed up, or its own. -/
def View.Owns (v : View) (state : Saved) : Prop := state.completedUp = true ∨ v.own = some state

/-- Recovery is on and has not stopped, and there was a moment without a hold. -/
structure View.On (v : View) : Prop where
  /-- Recovery is on. -/
  enabled : v.record.enabled = true
  going : v.record.stopped = false
  /-- There was a moment without a hold. -/
  lapsed : v.lapsed = true

/-- What holds while the run is this far. -/
def Phase.Guarded (v : View) : Phase → Prop
  | .read record => (record.attempt = none → ∀ state, record.left = some state → v.Owns state) ∧
      (record.attempt.isSome → v.Owns v.saved ∧ v.manual ≠ some true)
  | .free record => (record.attempt = none → ∀ state, record.left = some state → v.Owns state) ∧
      (record.attempt.isSome → v.Owns v.saved ∧ v.manual ≠ some true)
  | .looked record state => record.attempt.isSome ∨ record.left = some state → v.Owns state
  | .judged record state => record.left = some state → v.Owns state
  | .allowed _ state => v.Owns state
  | .found state => v.Owns state
  | .locked state => v.Owns state
  | .unheld state => v.Owns state ∧ v.lapsed = true
  | .reread _ state => v.Owns state ∧ v.On
  | .unchanged _ state => v.Owns state ∧ v.On ∧ v.active = true ∧ v.saved = state
  | .chosen _ state _ => v.Owns state ∧ v.On ∧ v.active = true ∧ v.saved = state
  | .applying .. => v.Owns v.saved ∧ v.On ∧ v.active = true ∧ v.record.attempt.isSome
  | .inApply .. => v.Owns v.saved ∧ v.On ∧ v.active = true ∧ v.record.attempt.isSome
  | .applied .. => v.Owns v.saved ∧ v.On ∧ v.active = true ∧ v.record.attempt.isSome
  | .finishing _ _ after succeeded => succeeded = false → v.Owns after

/-- What recovery relies on is its own. -/
structure Guards (v : View) (run : Option Phase) : Prop where
  left : v.record.attempt = none → ∀ state, v.record.left = some state → v.Owns state
  /-- The saved state where an attempt is unfinished. -/
  attempt : v.record.attempt.isSome → v.Owns v.saved
  /-- A manual operation that forgot the attempt. -/
  manual : v.manual = some true → v.own = none ∧ v.record.attempt = none
  /-- The locks have one holder. -/
  exclusive : ∀ phase, run = some phase → phase.inside = true → v.manual = none
  /-- What the run relies on. -/
  phase : ∀ phase, run = some phase → phase.Guarded v

/-- A run that relies, outside its locks, on what an attempt left. -/
def Phase.relies : Phase → Bool
  | .read record | .free record => record.attempt.isSome || record.left.isSome
  | .looked record state => (record.attempt.isSome || record.left.isSome) && !state.completedUp
  | .judged record state => record.left.isSome && !state.completedUp
  | .allowed _ state | .found state => !state.completedUp
  | .finishing _ _ after succeeded => !succeeded && !after.completedUp
  | _ => false

/-- Manual operations forget no attempt that a run relies on outside its locks. -/
def Apart (s : State) : Act → Prop
  | .forgets => s.run.any Phase.relies = false
  | _ => True

instance (s : State) : (act : Act) → Decidable (Apart s act)
  | .forgets => inferInstanceAs (Decidable (s.run.any Phase.relies = false))
  | .starts | .asks | .looks | .judges _ | .allows | .observes .. | .locks | .readsHold _ | .rereads | .compares
  | .observesAgain .. | .begins _ | .applies | .writes _ | .returns _ | .finishes | .records _ | .dies | .admits | .changes _
  | .places _ | .startsUp _ | .turns _ | .leaves | .holds _ | .other .. | .directories _ | .crashes =>
    inferInstanceAs (Decidable True)

variable {D} {s s' : State} {v : View} {run : Option Phase} {phase : Phase} {changes : Record → Record} {record : Record}
  {state : Saved} {finding : Finding} {entry : Entry} {t : ℚ}

theorem record_updates (h : s.there D.directory = true) : (s.updates D changes).record D = changes (s.record D) :=
  recordOf_update h

theorem view_updates (h : s.there D.directory = true) :
    (s.updates D changes).view D = { s.view D with record := changes (s.record D) } := by
  rw [State.view, record_updates h]
  rfl

/-- A run that ends relies on nothing. -/
theorem Guards.ends (h : Guards v run) : Guards v none := { h with
  exclusive := fun _ hnone => nomatch hnone
  phase := fun _ hnone => nomatch hnone }

theorem Guards.goes (h : Guards v run) (hexclusive : phase.inside = true → v.manual = none) (hphase : phase.Guarded v) :
    Guards v (some phase) := { h with
  exclusive := by
    intro other hother hinside
    cases hother
    exact hexclusive hinside
  phase := by
    intro other hother
    cases hother
    exact hphase }

/-- The record changes while no run goes on. -/
theorem Guards.writes (h : Guards v run) (hleft : record.attempt = none → ∀ state, record.left = some state → v.Owns state)
    (hattempt : record.attempt.isSome → v.record.attempt.isSome) : Guards { v with record := record } none where
  left := hleft
  attempt := fun hsome => h.attempt (hattempt hsome)
  manual := by
    intro hmanual
    obtain ⟨hown, hnone⟩ := h.manual hmanual
    refine ⟨hown, Option.not_isSome_iff_eq_none.mp fun hsome => ?_⟩
    have hbefore := hattempt hsome
    rw [hnone] at hbefore
    cases hbefore
  exclusive := fun _ hnone => nomatch hnone
  phase := fun _ hnone => nomatch hnone

/-- Changes that keep what recovery relies on, or drop it. -/
structure Plain (changes : Record → Record) : Prop where
  /-- What an attempt left. -/
  left : ∀ record, (changes record).left = record.left ∨ (changes record).left = none
  attempt : ∀ record, (changes record).attempt = record.attempt

/-- Plain changes are written while no run goes on. -/
theorem Guards.plain (h : Guards (s.view D) run) (hthere : s.there D.directory = true) (hplain : Plain changes) :
    Guards ((s.updates D changes).view D) none := by
  rw [view_updates hthere]
  refine h.writes ?_ ?_
  · intro hnone state hstate
    rw [hplain.attempt] at hnone
    rcases hplain.left (s.record D) with heq | hleft
    · exact h.left hnone state (heq ▸ hstate)
    · rw [hleft] at hstate
      cases hstate
  · exact fun hsome => hplain.attempt (s.record D) ▸ hsome

/-- Plain changes are the last thing a run writes. -/
theorem Guards.last (h : Guards (s.view D) run) (hthere : s.there D.directory = true) (outcome : Outcome) (hplain : Plain changes) :
    Guards (((s.updates D changes).ends outcome).view D) ((s.updates D changes).ends outcome).run :=
  h.plain hthere hplain

theorem servingChanges_plain : Plain servingChanges := ⟨fun _ => .inr rfl, fun _ => rfl⟩

section

variable (h : Guards (s.view D) s.run)

include h

theorem Guards.starts : Guards ((s.starts D).view D) (s.starts D).run := by
  unfold State.starts
  dsimp only
  split
  · exact h.ends
  split
  · exact h.ends
  split
  · exact h.ends
  refine h.goes (fun hno => nomatch hno) ⟨h.left, fun hattempt => ⟨h.attempt hattempt, fun hmanual => ?_⟩⟩
  have hnone : (s.record D).attempt = none := (h.manual hmanual).2
  rw [hnone] at hattempt
  cases hattempt

variable (hthere : s.there D.directory = true)

include hthere

/-- The state that the run counts an unfinished attempt for is the one it may act on. -/
theorem Guards.judges (hrun : s.run = some (.looked record state)) :
    Guards ((s.judges D record state t).view D) (s.judges D record state t).run := by
  have howns : record.attempt.isSome ∨ record.left = some state → (s.view D).Owns state := h.phase _ hrun
  unfold State.judges
  split
  · exact h.goes (fun hno => nomatch hno) fun hleft => howns (.inr hleft)
  next prior hprior =>
    have hown : (s.view D).Owns state := howns (.inl (by rw [hprior]; rfl))
    have hleft : ∀ one, (interruptedChanges record prior state t (s.record D)).left = some one → (s.view D).Owns one := by
      intro one hone
      unfold interruptedChanges failedChanges at hone
      dsimp only at hone
      split at hone
      · cases hone
        exact hown
      · cases hone
    have hnow : Guards ((s.updates D (interruptedChanges record prior state t)).view D) none := by
      rw [view_updates hthere]
      exact h.writes (fun _ => hleft) fun hno => nomatch hno
    dsimp only
    split
    · exact hnow.ends
    refine hnow.goes (fun hno => nomatch hno) fun hstate => ?_
    have hrecord : ((s.updates D (interruptedChanges record prior state t)).record D).left = some state := hstate
    rw [record_updates hthere] at hrecord
    exact hleft state hrecord

theorem Guards.allows (hrun : s.run = some (.judged record state)) :
    Guards ((s.allows D record state).view D) (s.allows D record state).run := by
  have howns : record.left = some state → (s.view D).Owns state := h.phase _ hrun
  unfold State.allows
  split
  next hmay =>
    refine h.goes (fun hno => nomatch hno) ?_
    rcases mayAct_eq.mp hmay with hup | hleft
    · exact .inl hup
    · exact howns hleft
  · split
    · exact h.last hthere _ ⟨fun _ => .inl rfl, fun _ => rfl⟩
    · exact h.ends

theorem Guards.observes (hrun : s.run = some (.allowed record state)) :
    Guards ((s.observes D record state finding t).view D) (s.observes D record state finding t).run := by
  have howns : (s.view D).Owns state := h.phase _ hrun
  unfold State.observes
  split
  · exact h.last hthere _ ⟨fun _ => .inl rfl, fun _ => rfl⟩
  split
  · exact h.last hthere .serving servingChanges_plain
  split
  · exact h.last hthere _ ⟨fun _ => .inl rfl, fun _ => rfl⟩
  dsimp only
  split
  · exact h.last hthere _ ⟨fun _ => .inl rfl, fun _ => rfl⟩
  split
  · exact h.last hthere _ ⟨fun _ => .inl rfl, fun _ => rfl⟩
  split
  · exact h.last hthere _ ⟨fun _ => .inl rfl, fun _ => rfl⟩
  · refine Guards.goes (h.last hthere .confirming ⟨fun _ => .inl rfl, fun _ => rfl⟩) (fun hno => nomatch hno) ?_
    exact howns

omit hthere in
theorem Guards.rereads (hrun : s.run = some (.unheld state)) : Guards ((s.rereads D state).view D) (s.rereads D state).run := by
  obtain ⟨howns, hlapsed⟩ : (s.view D).Owns state ∧ (s.view D).lapsed = true := h.phase _ hrun
  unfold State.rereads
  dsimp only
  split
  · exact h.ends
  next henabled =>
    split
    · exact h.ends
    next hgoing =>
      refine h.goes (fun _ => h.exclusive _ hrun rfl) ⟨howns, ?_, ?_, hlapsed⟩
      · exact Bool.eq_true_of_not_eq_false henabled
      · exact Bool.eq_false_iff.mpr hgoing

theorem Guards.compares
    (hrun : s.run = some (.reread record state)) : Guards ((s.compares D record state).view D) (s.compares D record state).run := by
  obtain ⟨howns, hon⟩ : (s.view D).Owns state ∧ (s.view D).On := h.phase _ hrun
  unfold State.compares
  split
  · exact h.last hthere _ ⟨fun _ => .inl rfl, fun _ => rfl⟩
  next hsame =>
    rw [not_or, not_ne_iff] at hsame
    exact h.goes (fun _ => h.exclusive _ hrun rfl) ⟨howns, hon, Bool.eq_true_of_not_eq_false hsame.1, hsame.2⟩

theorem Guards.observesAgain (hrun : s.run = some (.unchanged record state)) :
    Guards ((s.observesAgain D record state finding hairpin).view D) (s.observesAgain D record state finding hairpin).run := by
  have hphase : Phase.Guarded (s.view D) (.unchanged record state) := h.phase _ hrun
  unfold State.observesAgain
  split
  · exact h.last hthere _ ⟨fun _ => .inl rfl, fun _ => rfl⟩
  split
  · exact h.last hthere _ ⟨fun _ => .inl rfl, fun _ => rfl⟩
  · exact h.goes (fun _ => h.exclusive _ hrun rfl) hphase

theorem Guards.begins (hrun : s.run = some (.chosen record state finding)) :
    Guards ((s.begins D record state finding t).view D) (s.begins D record state finding t).run := by
  have hphase : Phase.Guarded (s.view D) (.chosen record state finding) := h.phase _ hrun
  obtain ⟨howns, hon, hactive, hsaved⟩ := hphase
  have hmanual : (s.view D).manual = none := h.exclusive _ hrun rfl
  have hstart : ({ s with attempts := s.attempts + 1 } : State).there D.directory = true := hthere
  change Guards (State.view D (State.updates D _ _)) _
  rw [view_updates hstart]
  have hown : (s.view D).Owns (s.view D).saved := by
    rw [hsaved]
    exact howns
  constructor
  case left => exact fun hno => nomatch hno
  case attempt => exact fun _ => hown
  case manual =>
    intro hsome
    have hno : (s.view D).manual = some true := hsome
    rw [hmanual] at hno
    cases hno
  case exclusive => exact fun _ _ _ => hmanual
  case phase =>
    intro phase hphase
    cases hphase
    exact ⟨hown, ⟨hon.enabled, hon.going, hon.lapsed⟩, hactive, rfl⟩

omit hthere in
/-- The lifecycle call of an attempt leaves recovery's own state. -/
theorem Guards.applies (hrun : s.run = some (.inApply record entry rest)) : Guards ((s.writes state).view D) s.run := by
  have hphase : Phase.Guarded (s.view D) (.inApply record entry rest) := h.phase _ hrun
  obtain ⟨-, hon, hactive, hattempt⟩ := hphase
  have hmanual : (s.view D).manual = none := h.exclusive _ hrun rfl
  have hown : ((s.writes state).view D).Owns ((s.writes state).view D).saved := .inr rfl
  constructor
  case left =>
    intro hnone
    have hno : (s.view D).record.attempt = none := hnone
    rw [hno] at hattempt
    cases hattempt
  case attempt => exact fun _ => hown
  case manual =>
    intro hsome
    have hno : (s.view D).manual = some true := hsome
    rw [hmanual] at hno
    cases hno
  case exclusive => exact fun _ _ _ => hmanual
  case phase =>
    intro phase hphase
    rw [hrun, Option.some.injEq] at hphase
    subst hphase
    exact ⟨hown, ⟨hon.enabled, hon.going, hon.lapsed⟩, hactive, hattempt⟩

omit hthere in
theorem Guards.returns (hrun : s.run = some (.inApply record entry rest)) :
    Guards ((s.returns record entry rest raises).view D) (s.returns record entry rest raises).run := by
  have hphase : Phase.Guarded (s.view D) (.inApply record entry rest) := h.phase _ hrun
  have hexclusive := h.exclusive _ hrun rfl
  unfold State.returns
  split
  · exact h.goes (fun _ => hexclusive) hphase
  split
  · exact h.goes (fun _ => hexclusive) hphase
  · exact h.goes (fun _ => hexclusive) hphase

theorem Guards.records (hrun : s.run = some (.finishing record entry after succeeded)) :
    Guards ((s.records D record entry after succeeded t).view D) (s.records D record entry after succeeded t).run := by
  have hphase : Phase.Guarded (s.view D) (.finishing record entry after succeeded) := h.phase _ hrun
  unfold State.records
  split
  · change Guards (State.view D (State.updates D _ _)) none
    rw [view_updates hthere]
    exact h.writes (fun _ _ hno => nomatch hno) fun hno => nomatch hno
  next hfailed =>
    change Guards (State.view D (State.updates D _ _)) none
    rw [view_updates hthere]
    refine h.writes (fun _ one hone => ?_) fun hno => nomatch hno
    cases hone
    exact hphase (Bool.eq_false_iff.mpr hfailed)

end

/-- A run that relies on nothing but a completed up goes on without what was forgotten. -/
theorem Phase.Guarded.forget (h : phase.Guarded v) (hrelies : phase.relies = false) (hinside : phase.inside = false) :
    phase.Guarded v' := by
  have hup : ∀ state : Saved, (!state.completedUp) = false → v'.Owns state := by
    intro state hstate
    exact .inl (by simpa using hstate)
  cases phase with
  | read | free =>
    simp only [Phase.relies, Bool.or_eq_false_iff] at hrelies
    refine ⟨fun _ state hleft => ?_, fun hattempt => ?_⟩
    · rw [hleft] at hrelies
      cases hrelies.2
    · rw [hattempt] at hrelies
      cases hrelies.1
  | looked record state =>
    intro hboth
    simp only [Phase.relies, Bool.and_eq_false_iff, Bool.or_eq_false_iff] at hrelies
    rcases hrelies with ⟨hattempt, hleft⟩ | hstate
    · rcases hboth with hsome | hsame
      · rw [hattempt] at hsome
        cases hsome
      · rw [hsame] at hleft
        cases hleft
    · exact hup state hstate
  | judged record state =>
    intro hsame
    simp only [Phase.relies, Bool.and_eq_false_iff] at hrelies
    rcases hrelies with hleft | hstate
    · rw [hsame] at hleft
      cases hleft
    · exact hup state hstate
  | allowed record state | found state => exact hup state hrelies
  | finishing record entry after succeeded =>
    intro hfailed
    subst hfailed
    exact hup after hrelies
  | locked state | unheld state | reread record state | unchanged record state | chosen record state finding
  | applying | inApply | applied => cases hinside

variable {forgot : Bool}

theorem Guards.forgets (h : Guards (s.view D) s.run) (hthere : s.there D.directory = true)
    (hmanual : s.manual = some forgot) (happart : s.run.any Phase.relies = false) :
    Guards (State.view D { (s.updates D forgetChanges).logs .forgot with manual := some true, own := none }) s.run := by
  have hinside : ∀ phase, s.run = some phase → phase.inside = false := by
    intro phase hphase
    refine Bool.eq_false_iff.mpr fun hyes => ?_
    have hnone : s.manual = none := h.exclusive phase hphase hyes
    rw [hmanual] at hnone
    cases hnone
  have hrecord : State.record D { (s.updates D forgetChanges).logs .forgot with manual := some true, own := none } =
      forgetChanges (s.record D) := record_updates hthere
  constructor
  case left =>
    intro _ state hstate
    change (State.record D _).left = some state at hstate
    rw [hrecord] at hstate
    cases hstate
  case attempt =>
    intro hsome
    change (State.record D _).attempt.isSome at hsome
    rw [hrecord] at hsome
    cases hsome
  case manual =>
    refine fun _ => ⟨rfl, ?_⟩
    change (State.record D _).attempt = none
    rw [hrecord]
    rfl
  case exclusive =>
    intro phase hphase hyes
    rw [hinside phase hphase] at hyes
    cases hyes
  case phase =>
    intro phase hphase
    rw [hphase, Option.any_some] at happart
    exact (h.phase phase hphase).forget happart (hinside phase hphase)

/-- A manual operation that forgets nothing keeps what a run outside its locks relies on. -/
theorem Phase.Guarded.beside (h : phase.Guarded v) (hinside : phase.inside = false) (hown : v'.own = v.own)
    (hsaved : v'.saved = v.saved ∨ v.manual = some true) (hmanual : v'.manual = some true → v.manual = some true) : phase.Guarded v' := by
  have howns : ∀ state, v.Owns state → v'.Owns state := by
    intro state hstate
    unfold View.Owns
    rw [hown]
    exact hstate
  have hattempt : ∀ {record : Record}, (record.attempt.isSome → v.Owns v.saved ∧ v.manual ≠ some true) →
      record.attempt.isSome → v'.Owns v'.saved ∧ v'.manual ≠ some true := by
    intro record hbefore hsome
    obtain ⟨hstate, hnot⟩ := hbefore hsome
    rcases hsaved with hsame | hyes
    · rw [hsame]
      exact ⟨howns _ hstate, fun hyes => hnot (hmanual hyes)⟩
    · exact absurd hyes hnot
  cases phase with
  | read | free => exact ⟨fun hnone state hleft => howns _ (h.1 hnone state hleft), hattempt h.2⟩
  | looked => exact fun hboth => howns _ (h hboth)
  | judged => exact fun hleft => howns _ (h hleft)
  | allowed | found => exact howns _ h
  | finishing => exact fun hfailed => howns _ (h hfailed)
  | locked state | unheld state | reread record state | unchanged record state | chosen record state finding
  | applying | inApply | applied => cases hinside

section

variable (h : Guards (s.view D) s.run)

include h

/-- No run is inside its locks beside a manual operation. -/
theorem Guards.outside (hmanual : s.manual = some forgot) : ∀ phase, s.run = some phase → phase.inside = false := by
  intro phase hphase
  refine Bool.eq_false_iff.mpr fun hyes => ?_
  have hnone : s.manual = none := h.exclusive phase hphase hyes
  rw [hmanual] at hnone
  cases hnone

/-- A manual operation writes the record. -/
theorem Guards.manually (hthere : s.there D.directory = true)
    (hmanual : s.manual = some forgot) (hleft : ∀ record, (changes record).left = record.left ∨ (changes record).left = none)
    (hattempt : ∀ record, (changes record).attempt = record.attempt ∨
      (changes record).attempt = none ∧ (changes record).left = none) : Guards ((s.updates D changes).view D) s.run := by
  have houtside := h.outside hmanual
  rw [view_updates hthere]
  constructor
  case left =>
    intro hnone state hstate
    rcases hattempt (s.record D) with hsame | ⟨-, hno⟩
    · rcases hleft (s.record D) with hsame' | hno
      · rw [hsame] at hnone
        rw [hsame'] at hstate
        exact h.left hnone state hstate
      · rw [hno] at hstate
        cases hstate
    · rw [hno] at hstate
      cases hstate
  case attempt =>
    intro hsome
    rcases hattempt (s.record D) with hsame | ⟨hno, -⟩
    · rw [hsame] at hsome
      exact h.attempt hsome
    · rw [hno] at hsome
      cases hsome
  case manual =>
    intro hyes
    obtain ⟨hown, hnone⟩ := h.manual hyes
    refine ⟨hown, ?_⟩
    rcases hattempt (s.record D) with hsame | ⟨hno, -⟩
    · exact hsame.trans hnone
    · exact hno
  case exclusive =>
    intro phase hphase hyes
    rw [houtside phase hphase] at hyes
    cases hyes
  case phase => exact fun phase hphase => (h.phase phase hphase).beside (houtside phase hphase) rfl (.inl rfl) id

theorem Guards.moves (hmanual : s.manual = some true) :
    Guards (State.view D { s with saved := state }) s.run := { h with
  attempt := by
    intro hsome
    have hnone : (s.record D).attempt = none := (h.manual hmanual).2
    have hsome' : (s.record D).attempt.isSome := hsome
    rw [hnone] at hsome'
    cases hsome'
  phase := fun phase hphase => (h.phase phase hphase).beside (h.outside hmanual phase hphase) rfl (.inr hmanual) id }

theorem Guards.places {active : Bool} (hmanual : s.manual = some forgot) :
    Guards (State.view D { s with active := active }) s.run := { h with
  phase := fun phase hphase => (h.phase phase hphase).beside (h.outside hmanual phase hphase) rfl (.inl rfl) id }

theorem Guards.admits (hfree : ¬(s.manual.isSome ∨ s.run.any Phase.inside)) :
    Guards (State.view D { s with manual := some false }) s.run := by
  have houtside : ∀ phase, s.run = some phase → phase.inside = false := by
    intro phase hphase
    rw [not_or, hphase, Option.any_some] at hfree
    exact Bool.eq_false_iff.mpr hfree.2
  constructor
  case left => exact h.left
  case attempt => exact h.attempt
  case manual => exact fun hno => nomatch hno
  case exclusive =>
    intro phase hphase hyes
    rw [houtside phase hphase] at hyes
    cases hyes
  case phase => exact fun phase hphase => (h.phase phase hphase).beside (houtside phase hphase) rfl (.inl rfl) fun hno => nomatch hno

theorem Guards.leaves {forgot : Bool} (hmanual : s.manual = some forgot) :
    Guards (State.view D { s with manual := none }) s.run := { h with
  manual := fun hno => nomatch hno
  exclusive := fun _ _ _ => rfl
  phase := fun phase hphase => (h.phase phase hphase).beside (h.outside hmanual phase hphase) rfl (.inl rfl) fun hno => nomatch hno }

theorem Guards.crashes : Guards (State.view D { s with run := none, manual := none }) none := { h with
  manual := fun hno => nomatch hno
  exclusive := fun _ hno => nomatch hno
  phase := fun _ hno => nomatch hno }

end

/-! Sections keep what exists. -/

theorem there_starts : (s.starts D).there = s.there := by
  unfold State.starts
  dsimp only
  repeat' split
  all_goals rfl

theorem there_judges : (s.judges D record state t).there = s.there := by
  unfold State.judges
  dsimp only
  repeat' split
  all_goals rfl

theorem there_allows : (s.allows D record state).there = s.there := by
  unfold State.allows
  repeat' split
  all_goals rfl

theorem there_observes : (s.observes D record state finding t).there = s.there := by
  unfold State.observes
  dsimp only
  repeat' split
  all_goals rfl

theorem there_rereads : (s.rereads D state).there = s.there := by
  unfold State.rereads
  dsimp only
  repeat' split
  all_goals rfl

theorem there_compares : (s.compares D record state).there = s.there := by
  unfold State.compares
  split
  · rfl
  · rfl

theorem there_observesAgain : (s.observesAgain D record state finding hairpin).there = s.there := by
  unfold State.observesAgain
  repeat' split
  all_goals rfl

theorem there_returns : (s.returns record entry rest raises).there = s.there := by
  unfold State.returns
  repeat' split
  all_goals rfl

theorem there_records : (s.records D record entry after succeeded t).there = s.there := by
  unfold State.records
  split
  · rfl
  · rfl

/-- A run inside its locks lets a moment without a hold pass. -/
theorem Guards.lapses {lapsed : Bool} (h : Guards (s.view D) run) : Guards (State.view D { s with lapsed := lapsed }) none := { h with
  exclusive := fun _ hno => nomatch hno
  phase := fun _ hno => nomatch hno }

/-- What holds between two steps. -/
structure Sound (D : Deployment) (s : State) : Prop where
  /-- The deployment exists. -/
  there : s.there D.directory = true
  /-- What recovery relies on is its own. -/
  guards : Guards (s.view D) s.run

theorem sound_init : Sound D {} where
  there := rfl
  guards := {
    left := fun _ _ hno => nomatch hno
    attempt := fun hno => nomatch hno
    manual := fun hno => nomatch hno
    exclusive := fun _ hno => nomatch hno
    phase := fun _ hno => nomatch hno }

/-- Steps that keep manual operations apart from runs keep what recovery relies on. -/
theorem Sound.step (h : Sound D s) {act : Act} (happart : Apart s act) (hstep : Recovery.step D s act = some s') : Sound D s' := by
  obtain ⟨hthere, hg⟩ := h
  have hset : ∀ t, Guards (State.view D { s with clock := t }) s.run := fun _ => hg
  cases moves_of_step hstep with
  | starts => exact ⟨by rwa [there_starts], hg.starts⟩
  | asksBusy => exact ⟨hthere, hg.ends⟩
  | asks hrun =>
    have hphase := hg.phase _ hrun
    exact ⟨hthere, hg.goes (fun hno => nomatch hno) hphase⟩
  | @looks record hrun =>
    have hphase : Phase.Guarded (s.view D) (.free record) := hg.phase _ hrun
    refine ⟨hthere, hg.goes (fun hno => nomatch hno) fun hboth => ?_⟩
    by_cases hattempt : record.attempt.isSome
    · exact (hphase.2 hattempt).1
    · exact hphase.1 (Option.not_isSome_iff_eq_none.mp hattempt) _ (hboth.resolve_left hattempt)
  | @judges record state t hrun hle => exact ⟨by rwa [there_judges], (hset t).judges hthere hrun⟩
  | allows hrun => exact ⟨by rwa [there_allows], hg.allows hthere hrun⟩
  | @observes record state t finding hrun hle => exact ⟨by rwa [there_observes], (hset t).observes hthere hrun⟩
  | locksBusy => exact ⟨hthere, hg.ends⟩
  | locks hrun hfree =>
    have hphase := hg.phase _ hrun
    exact ⟨hthere, hg.lapses.goes (fun _ => hfree) hphase⟩
  | readsHeld => exact ⟨hthere, hg.ends⟩
  | readsHold hrun hlapsed =>
    have hmanual : s.manual = none := hg.exclusive _ hrun rfl
    have hphase := hg.phase _ hrun
    exact ⟨hthere, hg.lapses.goes (fun _ => hmanual) ⟨hphase, hlapsed⟩⟩
  | rereads hrun => exact ⟨by rwa [there_rereads], hg.rereads hrun⟩
  | compares hrun => exact ⟨by rwa [there_compares], hg.compares hthere hrun⟩
  | observesAgain hrun => exact ⟨by rwa [there_observesAgain], hg.observesAgain hthere hrun⟩
  | @begins record state finding t hrun hle => exact ⟨hthere, (hset t).begins hthere hrun⟩
  | applies hrun =>
    have hphase := hg.phase _ hrun
    exact ⟨hthere, hg.goes (fun _ => hg.exclusive _ hrun rfl) hphase⟩
  | writes hrun => exact ⟨hthere, hg.applies hrun⟩
  | returns hrun => exact ⟨by rwa [there_returns], hg.returns hrun⟩
  | @finishes record entry raised hrun =>
    have hphase : Phase.Guarded (s.view D) (.applied record entry raised) := hg.phase _ hrun
    exact ⟨hthere, hg.goes (fun hno => nomatch hno) fun _ => hphase.1⟩
  | @records record entry after succeeded t hrun hle => exact ⟨by rwa [there_records], (hset t).records hthere hrun⟩
  | dies => exact ⟨hthere, hg.ends⟩
  | admits hfree => exact ⟨hthere, hg.admits hfree⟩
  | forgets hmanual => exact ⟨hthere, hg.forgets hthere hmanual happart⟩
  | changes hmanual => exact ⟨hthere, hg.moves hmanual⟩
  | places hmanual => exact ⟨hthere, hg.places hmanual⟩
  | startsUp hmanual =>
    split
    · exact ⟨hthere, hg.manually hthere hmanual (fun _ => .inr rfl) fun _ => .inr ⟨rfl, rfl⟩⟩
    · exact ⟨hthere, hg⟩
  | turns hmanual =>
    split
    · refine ⟨hthere, hg.manually hthere hmanual (fun record => .inl ?_) fun record => .inl ?_⟩
      · unfold enabledChanges
        split
        · rfl
        · rfl
      unfold enabledChanges
      split
      · rfl
      · rfl
    · exact ⟨hthere, hg⟩
  | leaves hmanual => exact ⟨hthere, hg.leaves hmanual⟩
  | holds => exact ⟨hthere, hg⟩
  | @other directory changes hne =>
    have hrecord : State.record D { s with document := s.document.update s.there directory changes } = s.record D :=
      recordOf_update_of_ne hthere hne.symm
    refine ⟨hthere, ?_⟩
    rw [State.view, hrecord]
    exact hg
  | directories hyes => exact ⟨hyes, hg⟩
  | crashes => exact ⟨hthere, hg.crashes⟩

end SparkRing.Recovery
