import SparkRing.RolloutCalls
import SparkRing.TransitionSystem

/-!
# What a switch owes

While a slot's journal is pending it names every deployment that served and no longer
does: the slot's previous deployment and the displaced ones. A switch that ends brings
them back, replaces them by its verified candidate, or stays pending.
-/

namespace SparkRing.Rollout

open CrashProgram TransitionSystem Function

/-- A candidate that conflicts with the deployment was verified, recorded active and
recorded complete. -/
def Covered (w : World) (d : Deployment) : Prop :=
  ∃ slot r, overlap d.placement r.candidate.placement = true ∧ .verified r.candidate ∈ w.log ∧
    .active slot r.candidate ∈ w.log ∧ .journal slot r ∈ w.log ∧ r.state = .complete

/-- A restart of the active deployment itself failed. -/
def RestartFailed (w : World) (d : Deployment) : Prop :=
  ∃ slot r, .journal slot r ∈ w.log ∧ r.candidate = d ∧ r.previous = some d ∧ r.state.failing = true

/-- A deployment that need not serve. -/
def Excused (w : World) (d : Deployment) : Prop := Covered w d ∨ RestartFailed w d

/-- Every deployment that served and was stopped since serves again or is excused, or
the slot's journal is pending. -/
def NeverStrands (served : Deployment → Prop) (slot : Placement) (w : World) : Prop :=
  JournalPending slot w ∨ ∀ d, served d → .down d ∈ w.log → (w.status d).serves = true ∨ Excused w d

/-- A deployment that served, does not serve and is not excused. -/
def Lost (served : Deployment → Prop) (w : World) (d : Deployment) : Prop :=
  served d ∧ (w.status d).serves = false ∧ ¬Excused w d

/-- A record of a slot that names what it may stop. -/
structure Known (served : Deployment → Prop) (slot : Placement) (w : World) (r : Record) : Prop where
  candidate : r.candidate.placement = slot
  /-- What it replaces shares Sparks with it. -/
  owed : ∀ d ∈ r.owed, overlap d.placement slot = true
  /-- A restart of the active deployment displaces nothing. -/
  alone : r.previous = some r.candidate → r.displaced = []
  /-- Another candidate need not serve. -/
  idle : r.previous = some r.candidate ∨ (served r.candidate → Excused w r.candidate)

/-- What holds between any two effects: a pending journal names every lost deployment,
and without one none is lost. -/
def Accounted (served : Deployment → Prop) (slot : Placement) (w : World) : Prop :=
  (∀ r, w.journal slot = some r → r.state.pending = true →
    Known served slot w r ∧ ∀ d, Lost served w d → d ∈ r.owed) ∧
  (¬JournalPending slot w → ∀ d, ¬Lost served w d)

variable {fabric : List Placement} {served : Deployment → Prop} {slot : Placement} {w v : World} {d : Deployment}

theorem Accounted.neverStrands (h : Accounted served slot w) : NeverStrands served slot w := by
  by_cases hp : JournalPending slot w
  · exact .inl hp
  refine .inr fun d hd _ => ?_
  by_contra hlost
  rw [not_or, Bool.not_eq_true] at hlost
  exact h.2 hp d ⟨hd, hlost.1, hlost.2⟩

/-- A later world: what was excused stays so. -/
def Grows (w v : World) : Prop := ∀ e ∈ w.log, e ∈ v.log

theorem Excused.grows (h : Excused w d) (hg : Grows w v) : Excused v d := by
  rcases h with ⟨s, r, ho, hv, ha, hj, hs⟩ | ⟨s, r, hj, hc, hp, hs⟩
  · exact .inl ⟨s, r, ho, hg _ hv, hg _ ha, hg _ hj, hs⟩
  · exact .inr ⟨s, r, hg _ hj, hc, hp, hs⟩

theorem Known.grows {r : Record} (h : Known served slot w r) (hg : Grows w v) : Known served slot v r := { h with
  idle := h.idle.imp_right fun hidle hs => (hidle hs).grows hg }

/-- A lost deployment whose status did not change was lost before. -/
theorem Lost.before (h : Lost served v d) (hg : Grows w v) (hs : v.status d = w.status d) : Lost served w d :=
  ⟨h.1, hs ▸ h.2.1, fun he => h.2.2 (he.grows hg)⟩

section Effects

variable {x : Deployment} {operation : Operation} {status : Status} {r : Record}

theorem grows_operate : Grows w (w.operate x operation status) := by
  intro e he
  cases operation with
  | up => exact he
  | down => exact List.mem_cons_of_mem _ he

theorem grows_verify : Grows w (w.verify x) := fun _ he => List.mem_cons_of_mem _ he

theorem grows_writeJournal : Grows w (w.writeJournal slot r) := fun _ he => List.mem_cons_of_mem _ he

theorem grows_writeActive : Grows w (w.writeActive slot x) := fun _ he => List.mem_cons_of_mem _ he

/-- Only the deployment operated may become lost. -/
theorem Lost.of_operate (h : Lost served (w.operate x operation status) d) : d = x ∨ Lost served w d := by
  by_cases hd : d = x
  · exact .inl hd
  · refine .inr (h.before grows_operate ?_)
    simp only [World.operate, update_of_ne hd]

theorem serves_verify_of_running {y : Deployment} (hs : (w.status y).serves = true) : ((w.verify x).status y).serves = true := by
  by_cases hd : y = x
  · subst hd
    simp only [World.verify, update_self]
    cases hst : w.status y with
    | stopped | unfinished => rw [hst] at hs; cases hs
    | running => rfl
  · simp only [World.verify, update_of_ne hd]
    exact hs

/-- A verification loses nothing. -/
theorem Lost.of_verify (h : Lost served (w.verify x) d) : Lost served w d := by
  refine ⟨h.1, ?_, fun he => h.2.2 (he.grows grows_verify)⟩
  by_contra hs
  rw [Bool.not_eq_false] at hs
  have hserves := serves_verify_of_running (x := x) hs
  rw [h.2.1] at hserves
  cases hserves

theorem Lost.of_writeJournal (h : Lost served (w.writeJournal slot r) d) : Lost served w d :=
  h.before grows_writeJournal rfl

theorem Lost.of_writeActive (h : Lost served (w.writeActive slot x) d) : Lost served w d :=
  h.before grows_writeActive rfl

theorem Lost.of_removeActive (h : Lost served (w.removeActive slot) d) : Lost served w d :=
  h.before (fun _ he => he) rfl

end Effects

section Account

variable {r : Record} {x : Deployment} {operation : Operation} {status : Status} {state : State}

theorem Known.restate (state : State) (h : Known served slot w r) : Known served slot w { r with state } :=
  ⟨h.candidate, h.owed, h.alone, h.idle⟩

theorem accounted_pending (hj : Journaled slot r w) (hk : Known served slot w r)
    (hl : ∀ d, Lost served w d → d ∈ r.owed) : Accounted served slot w := by
  obtain ⟨state, hstate, hj⟩ := hj
  constructor
  · intro r' hr' _
    rw [hj] at hr'
    cases hr'
    exact ⟨hk.restate state, hl⟩
  · intro hn
    exact absurd ⟨_, hj, hstate⟩ hn

/-- The journal is written as over, and no deployment is lost. -/
theorem accounted_written (hs : state.pending = false)
    (hl : ∀ d, ¬Lost served (w.writeJournal slot { r with state }) d) :
    Accounted served slot (w.writeJournal slot { r with state }) := by
  constructor
  · intro r' hr' hp
    simp only [World.writeJournal, update_self, Option.some.injEq] at hr'
    rw [← hr'] at hp
    rw [hs] at hp
    cases hp
  · intro _
    exact hl

/-- A deployment of the record is operated. -/
theorem owed_operate (hk : Known served slot w r) (hl : ∀ d, Lost served w d → d ∈ r.owed)
    (hx : x ∈ r.owed ∨ x = r.candidate) : ∀ d, Lost served (w.operate x operation status) d → d ∈ r.owed := by
  intro d hlost
  rcases hlost.of_operate with rfl | hold
  · rcases hx with hx | rfl
    · exact hx
    rcases hk.idle with heq | hidle
    · simp only [Record.owed, heq, Option.toList_some, List.mem_append, List.mem_singleton, true_or]
    · exact absurd ((hidle hlost.1).grows grows_operate) hlost.2.2
  · exact hl d hold

/-- Where nothing is lost, the journal is accounted for. -/
theorem accounted_grows (h : Accounted served slot w) (hg : Grows w v) (hj : v.journal slot = w.journal slot)
    (hl : ∀ d, ¬Lost served v d) : Accounted served slot v := by
  refine ⟨fun r hr hp => ?_, fun _ => hl⟩
  exact ⟨(h.1 r (hj ▸ hr) hp).1.grows hg, fun d hd => absurd hd (hl d)⟩

/-- A deployment that need not serve is operated. -/
theorem not_lost_operate (hl : ∀ d, ¬Lost served w d) (hx : served x → Excused w x) :
    ∀ d, ¬Lost served (w.operate x operation status) d := by
  intro d hd
  rcases hd.of_operate with rfl | hold
  · exact hd.2.2 ((hx hd.1).grows grows_operate)
  · exact hl d hold

/-- Where nothing is lost, a deployment that does not serve need not. -/
theorem excused_of_not_serving (hl : ∀ d, ¬Lost served w d) (hs : (w.status d).serves = false) : served d → Excused w d := by
  intro hd
  by_contra hn
  exact hl d ⟨hd, hs, hn⟩

/-- A restart that failed is excused, and a switch that owes nothing lost nothing. -/
theorem not_lost_failed (hk : Known served slot w r) (hl : ∀ d, Lost served w d → d ∈ r.owed)
    (hr : r.previous = some r.candidate ∨ r.owed = []) :
    ∀ d, ¬Lost served (w.writeJournal slot { r with state := .failed }) d := by
  intro d hd
  have howed := hl d hd.of_writeJournal
  rcases hr with hsame | hnone
  · have heq : d = r.candidate := by
      simpa [Record.owed, hsame, hk.alone hsame] using howed
    subst heq
    exact hd.2.2 (.inr ⟨slot, { r with state := .failed }, List.mem_cons_self, rfl, hsame, rfl⟩)
  · rw [hnone] at howed
    cases howed

/-- A verified candidate is committed: what the switch owes is covered by it. -/
theorem triple_commit {raises : Stop → Frame → Prop} :
    Triple (fun f => Accounted served slot f.world)
      (fun f => (Journaled slot r f.world ∧ Known served slot f.world r ∧ ∀ d, Lost served f.world d → d ∈ r.owed) ∧
        Verified r f)
      (commit fabric slot r.candidate) (fun _ f => Accounted served slot f.world ∧ True) raises := by
  obtain ⟨holds, hholds⟩ : ∃ holds : Frame → Prop, holds = fun f => (∃ state, f.record = { r with state }) ∧
      Journaled slot r f.world ∧ Known served slot f.world r ∧ (∀ d, Lost served f.world d → d ∈ r.owed) ∧
      .verified r.candidate ∈ f.world.log := ⟨_, rfl⟩
  have hcrash : ∀ f, holds f → Accounted served slot f.world := by
    intro f h
    rw [hholds] at h
    exact accounted_pending h.2.1 h.2.2.1 h.2.2.2.1
  have hactive : Triple (fun f => Accounted served slot f.world) holds (saveActive slot r.candidate)
      (fun _ f => holds f ∧ .active slot r.candidate ∈ f.world.log) raises := by
    refine Triple.effect hcrash fun _ f h => ?_
    rw [hholds] at h ⊢
    obtain ⟨hrecord, hj, hk, hl, hv⟩ := h
    exact ⟨⟨hrecord, hj, hk.grows grows_writeActive, fun d hd => hl d hd.of_writeActive, List.mem_cons_of_mem _ hv⟩,
      List.mem_cons_self⟩
  have hstart : ∀ f, (Journaled slot r f.world ∧ Known served slot f.world r ∧
      ∀ d, Lost served f.world d → d ∈ r.owed) ∧ Verified r f → holds f := by
    intro f h
    rw [hholds]
    exact ⟨h.2.record, h.1.1, h.1.2.1, h.1.2.2, h.2.logged⟩
  refine (hactive.strengthen hstart).seq fun _ => ?_
  refine Triple.seq (m := fun _ f => holds f ∧ .active slot r.candidate ∈ f.world.log) ?_ fun _ => ?_
  · refine Triple.forEach (fun _ f => holds f ∧ .active slot r.candidate ∈ f.world.log) fun x _ rest => ?_
    refine Triple.effect (fun f h => hcrash f h.1) fun _ f h => ?_
    rw [hholds] at h ⊢
    obtain ⟨⟨hrecord, hj, hk, hl, hv⟩, ha⟩ := h
    exact ⟨⟨hrecord, hj, hk.grows fun _ he => he, fun d hd => hl d hd.of_removeActive, hv⟩, ha⟩
  refine Triple.seq
    (m := fun _ f => f.record = { r with state := .complete } ∧ Accounted served slot f.world ∧
      Known served slot f.world r ∧ (∀ d, Lost served f.world d → d ∈ r.owed) ∧ .verified r.candidate ∈ f.world.log ∧
      .active slot r.candidate ∈ f.world.log) ?_ fun _ => ?_
  · refine Triple.note fun f h => ?_
    have hkept := hcrash f h.1
    rw [hholds] at h
    obtain ⟨⟨⟨old, hold⟩, hj, hk, hl, hv⟩, ha⟩ := h
    exact ⟨by rw [hold], hkept, hk, hl, hv, ha⟩
  refine Triple.effect (fun f h => h.2.1) fun _ f h => ?_
  obtain ⟨hrecord, -, hk, hl, hv, ha⟩ := h
  refine ⟨?_, trivial⟩
  rw [hrecord]
  refine accounted_written rfl fun d hd => hd.2.2 (.inl ?_)
  have howed := hl d hd.of_writeJournal
  refine ⟨slot, { r with state := .complete }, ?_, grows_writeJournal _ hv, grows_writeJournal _ ha, List.mem_cons_self, rfl⟩
  rw [hk.candidate]
  exact hk.owed d howed

end Account

def recovery (fabric : List Placement) (served : Deployment → Prop) (slot : Placement) : Account fabric slot where
  kept := Accounted served slot
  ended _ := True
  known r w := Known served slot w r
  owes r w := ∀ d, Lost served w d → d ∈ r.owed
  back _ w := ∀ d, ¬Lost served w d
  quiet _ w := ∀ d, ¬Lost served w d
  known_state state h := h.restate state
  owes_state _ h := h
  quiet_state _ h := h
  alone h := h.alone
  owes_of_quiet _ h d hd := absurd hd (h d)
  pending hj hk hl := ⟨accounted_pending hj hk hl, trivial⟩
  operate _ hk hl hx := ⟨hk.grows grows_operate, owed_operate hk hl hx⟩
  verify hk hl := ⟨hk.grows grows_verify, fun d hd => hl d hd.of_verify⟩
  write _ hk hl := ⟨hk.grows grows_writeJournal, fun d hd => hl d hd.of_writeJournal⟩
  write_quiet _ hk hl := ⟨hk.grows grows_writeJournal, fun d hd => hl d hd.of_writeJournal⟩
  write_over hs _ _ hl := ⟨accounted_written hs fun d hd => hl d hd.of_writeJournal, trivial⟩
  failed hk hl hr := ⟨accounted_written rfl (not_lost_failed hk hl hr), trivial⟩
  stop_unfinished hk hl hs := by
    have hexcused := excused_of_not_serving hl (by rw [hs]; rfl)
    exact ⟨hk.grows grows_operate, not_lost_operate hl hexcused,
      fun h => accounted_grows h grows_operate rfl (not_lost_operate hl hexcused)⟩
  commit := triple_commit
  back_of_checked _ hl hc d hd := by
    have hserves := serves_of_checked (hc d (hl d hd))
    rw [hd.2.1] at hserves
    cases hserves
  quiet_of_back _ h _ := h
  restore _ hk _ hb _ :=
    ⟨hk.grows grows_writeActive, fun d hd => absurd hd.of_writeActive (hb d), fun d hd => hb d hd.of_writeActive⟩
  forget hk _ hb _ _ :=
    ⟨hk.grows fun _ he => he, fun d hd => absurd hd.of_removeActive (hb d), fun d hd => hb d hd.of_removeActive⟩

/-- The candidate is the slot's, and what it replaces shares Sparks with it. -/
structure Call.Placed (call : Call) : Prop where
  /-- The candidate is the slot's. -/
  directory : call.directory.placement = call.slot
  /-- What it replaces shares Sparks with it. -/
  owed : ∀ d ∈ call.previous.toList ++ call.displaced, overlap d.placement call.slot = true

/-- A call whose switch names everything it may stop. -/
structure Names (served : Deployment → Prop) (w : World) (call : Call) : Prop where
  /-- A restart of the active deployment displaces nothing. -/
  alone : ¬Resumes w call → call.previous = some call.directory → call.displaced = []
  /-- Another candidate does not serve already. -/
  idle : ¬Resumes w call → call.previous = some call.directory ∨ (w.status call.directory).serves = false
  /-- A switch is replaced only where nothing it stopped is lost, and only if its candidate
  need not serve. -/
  replaced : ∀ r, Replaces w call r → (∀ d, ¬Lost served w d) ∧ (served r.candidate → Excused w r.candidate)

/-- A call that names what it may stop is one the account can follow. -/
theorem begins_of_names {call : Call} (hp : call.Placed) (hn : Names served w call) (ha : Accounted served call.slot w) :
    Begins (recovery fabric served call.slot) w where
  kept := ha
  resumed := ha.1
  fresh hnone := by
    have hr : ¬Resumes w call := fun ⟨r, hr, hpending, _⟩ => hnone ⟨r, hr, hpending⟩
    exact ⟨⟨hp.directory, hp.owed, hn.alone hr, (hn.idle hr).imp_right (excused_of_not_serving (ha.2 hnone))⟩, ha.2 hnone⟩
  replaced r hreplaces v hv := by
    have hr : ¬Resumes w call := by
      rintro ⟨r', hr', -, hfalse⟩
      rw [hreplaces.1] at hr'
      cases hr'
      rw [hreplaces.2.2.1] at hfalse
      cases hfalse
    obtain ⟨hlost, hidle⟩ := hn.replaced r hreplaces
    have hk : Known served call.slot w call.fresh :=
      ⟨hp.directory, hp.owed, hn.alone hr, (hn.idle hr).imp_right (excused_of_not_serving hlost)⟩
    rcases hv with rfl | ⟨status, rfl⟩
    · exact ⟨ha, hk, hlost⟩
    · have hlost' : ∀ d, ¬Lost served (w.operate r.candidate .down status) d := not_lost_operate hlost hidle
      exact ⟨accounted_grows ha grows_operate rfl hlost', hk.grows grows_operate, hlost'⟩

/-- The operations of one slot, each of which names everything it may stop. -/
def NamesAll (served : Deployment → Prop) (slot : Placement) (w : World) : Operating × List Answer → Prop
  | (.execute call, _) => call.slot = slot ∧ call.Placed ∧ Names served w call
  | (.settle s, _) => s = slot

/-- What served when the first switch began. -/
def Served (start : World) (d : Deployment) : Prop := (start.status d).serves = true

/-- Every run of calls that name what they may stop accounts for what served. -/
theorem reachable_accounted {fabric : List Placement} {start : World} (hstart : ¬JournalPending slot start)
    (h : Reachable (step fabric) (NamesAll (Served start) slot) start w) : Accounted (Served start) slot w := by
  refine h.invariant (Accounted (Served start) slot) ?_ ?_
  · refine ⟨fun r hr hp => absurd ⟨r, hr, hp⟩ hstart, fun _ d hd => ?_⟩
    have hserves : (start.status d).serves = true := hd.1
    rw [hd.2.1] at hserves
    cases hserves
  rintro w ⟨operating, script⟩ v - ha hgood hstep
  cases hstep
  cases operating with
  | execute call =>
    obtain ⟨rfl, hp, hn⟩ := hgood
    have hbegins : Begins (recovery fabric (Served start) call.slot) w := begins_of_names hp hn ha
    have hexecute : Triple (AtCrash (recovery fabric (Served start) call.slot)) (fun f => f.world = w)
        ((Operating.execute call).program fabric) (fun _ => AtEnd (recovery fabric (Served start) call.slot))
        (Raised (recovery fabric (Served start) call.slot) w) := triple_execute hbegins
    exact kept_of_triple hbegins.kept hexecute script
  | settle s =>
    obtain rfl : s = slot := hgood
    have hsettle : Triple (AtCrash (recovery fabric (Served start) s)) (fun f => f.world = w)
        ((Operating.settle s).program fabric) (fun _ => AtEnd (recovery fabric (Served start) s)) (Raised (recovery fabric (Served start) s) w) :=
      triple_settle ha ha.1
    have hkept : (recovery fabric (Served start) s).kept (w.run fabric (.settle s) script) := kept_of_triple ha hsettle script
    exact hkept

/-- In every run of calls and settlements that name what they may stop, with any
failures, cancels and crashes, no deployment that served is stranded. -/
theorem switches_never_strand {fabric : List Placement} {start : World} (hstart : ¬JournalPending slot start)
    (h : Reachable (step fabric) (NamesAll (Served start) slot) start w) : NeverStrands (Served start) slot w :=
  (reachable_accounted hstart h).neverStrands

/-- The deployment that serves at first. -/
def old : Deployment := ⟨"old", none⟩

/-- Two candidates. -/
def stuck : Deployment := ⟨"stuck", none⟩

/-- The later candidate. -/
def latest : Deployment := ⟨"latest", none⟩

/-- The old deployment serves, and no switch was made. -/
def before : World where
  journal _ := none
  active := Function.update (fun _ => none) none (some old)
  status := Function.update (fun _ => .stopped) old (.running true true)
  log := []

theorem before_idle : ¬JournalPending none before := by
  rintro ⟨r, hr, -⟩
  cases hr

/-- A call that begins a new switch and names what it may stop. -/
def namesAct (w : World) : Operating × List Answer → Bool
  | (.execute call, _) => decide (call.slot = none) && decide (call.directory.placement = none) &&
    decide (call.previous ≠ some call.directory) && !(w.status call.directory).serves &&
    (w.journal none).all fun r => !r.state.pending
  | (.settle s, _) => decide (s = none)

theorem namesAll_of_namesAct (w : World) (a : Operating × List Answer) (h : namesAct w a = true) : NamesAll (Served before) none w a := by
  obtain ⟨operating, script⟩ := a
  cases operating with
  | settle =>
    simp only [namesAct, decide_eq_true_eq] at h
    exact h
  | execute =>
    simp only [namesAct, Bool.and_eq_true, decide_eq_true_eq, Bool.not_eq_true', Option.all_eq_true] at h
    obtain ⟨⟨⟨⟨hslot, hplacement⟩, hprevious⟩, hidle⟩, hjournal⟩ := h
    refine ⟨hslot, ⟨hplacement.trans hslot.symm, fun d _ => ?_⟩, ?_, ?_, ?_⟩
    · rw [hslot]
      cases d.placement <;> rfl
    · exact fun _ heq => absurd heq hprevious
    · exact fun _ => .inr hidle
    rintro r ⟨hr, hpending, -⟩
    rw [hslot] at hr
    rw [hjournal r hr] at hpending
    cases hpending

/-- A switch whose candidate fails its verification, and one that completes. -/
def failedThenComplete : List (Operating × List Answer) :=
  [(.execute ⟨none, stuck, some old, [], true⟩, List.replicate 11 .ok ++ [.broken] ++ List.replicate 7 .ok),
    (.execute ⟨none, latest, some old, [], true⟩, List.replicate 15 .ok)]

/-- The old deployment is brought back, and then replaced by a complete switch. -/
theorem switches_never_strand_failed : ∃ w, Reachable (step [none]) (NamesAll (Served before) none) before w ∧
    w.status latest = .running true true ∧ w.status old = .stopped ∧ NeverStrands (Served before) none w := by
  obtain ⟨w, hs, hp⟩ := Reachable.exists_of_checked_runs namesAct namesAll_of_namesAct (step [none]) before
    failedThenComplete (fun w => decide (w.status latest = .running true true) && decide (w.status old = .stopped))
    (by decide +kernel)
  simp only [Bool.and_eq_true, decide_eq_true_eq] at hp
  exact ⟨w, hs, hp.1, hp.2, switches_never_strand before_idle hs⟩

def PlacedAll (slot : Placement) (_ : World) : Operating × List Answer → Prop
  | (.execute call, _) => call.slot = slot ∧ call.Placed
  | (.settle s, _) => s = slot

/-- An operation of the whole fabric's slot. -/
def placedAct (_ : World) : Operating × List Answer → Bool
  | (.execute call, _) => decide (call.slot = none) && decide (call.directory.placement = none)
  | (.settle s, _) => decide (s = none)

theorem placedAll_of_placedAct (w : World) (a : Operating × List Answer) (h : placedAct w a = true) : PlacedAll none w a := by
  obtain ⟨operating, script⟩ := a
  cases operating with
  | settle =>
    simp only [placedAct, decide_eq_true_eq] at h
    exact h
  | execute =>
    simp only [placedAct, Bool.and_eq_true, decide_eq_true_eq] at h
    refine ⟨h.1, h.2.trans h.1.symm, fun d _ => ?_⟩
    rw [h.1]
    cases d.placement <;> rfl

/-- A switch crashes after it stopped the old deployment; the one that replaces it fails
its preparation. -/
def replacedThenUnprepared : List (Operating × List Answer) :=
  [(.execute ⟨none, stuck, some old, [], true⟩, List.replicate 8 .ok),
    (.execute ⟨none, latest, some old, [], true⟩, List.replicate 3 .ok ++ [.refused, .ok])]

/-- No event excuses the old deployment. -/
def unexcused : Event → Bool
  | .journal _ r => decide (r.state ≠ .complete) && (!r.state.failing || decide (r.previous ≠ some r.candidate))
  | _ => true

/-- The replaced switch's stop of the old deployment is forgotten. -/
theorem replaced_switch_strands : ∃ w, Reachable (step [none]) (PlacedAll none) before w ∧
    w.journal none = some ⟨latest, some old, [], .preparationFailed⟩ ∧ ¬NeverStrands (Served before) none w := by
  obtain ⟨w, hs, hp⟩ := Reachable.exists_of_checked_runs placedAct placedAll_of_placedAct (step [none]) before
    replacedThenUnprepared (fun w => decide (w.journal none = some ⟨latest, some old, [], .preparationFailed⟩) &&
      decide (w.status old = .stopped) && decide (Event.down old ∈ w.log) && w.log.all unexcused) (by decide +kernel)
  simp only [Bool.and_eq_true, decide_eq_true_eq, List.all_eq_true] at hp
  obtain ⟨⟨⟨hjournal, hstatus⟩, hdown⟩, hunexcused⟩ := hp
  refine ⟨w, hs, hjournal, ?_⟩
  rintro (⟨r, hr, hpending⟩ | hall)
  · rw [hjournal] at hr
    cases hr
    cases hpending
  rcases hall old rfl hdown with hserves | ⟨slot, r, -, -, -, hcomplete, hstate⟩ | ⟨slot, r, hjournal, hcand, hprev, hstate⟩
  · rw [hstatus] at hserves
    cases hserves
  · have hevent := hunexcused _ hcomplete
    simp [unexcused, hstate] at hevent
  · have hevent := hunexcused _ hjournal
    simp [unexcused, hstate, hprev, hcand] at hevent

end SparkRing.Rollout
