import SparkRing.RolloutCalls
import SparkRing.TransitionSystem

/-!
# What the active records say

Over all slots of a fabric, with calls made as the installer makes them: at most one of
two conflicting slots records a deployment, a slot that records its switch's candidate
records one that serves, and a switch that is left puts the active records back.
-/

namespace SparkRing.Rollout

open CrashProgram TransitionSystem Function
open Option (some.inj some.injEq)

/-- The running deployments of the slots that conflict with a placement. -/
def displacedBy (fabric : List Placement) (w : World) (placement : Placement) : List Deployment :=
  (conflicting fabric placement).filterMap fun slot =>
    (w.active slot).filter fun d => decide (w.status d ≠ .stopped)

/-- A call as the installer makes it. -/
structure Call.Asked (fabric : List Placement) (w : World) (call : Call) : Prop where
  listed : call.slot ∈ fabric
  /-- The candidate is the slot's. -/
  directory : call.directory.placement = call.slot
  /-- The previous deployment is the recorded one. -/
  previous : call.previous = w.active call.slot
  /-- The displaced ones are those that run. -/
  displaced : call.displaced = (displacedBy fabric w call.slot).filter fun d => decide (d ≠ call.directory)
  /-- No conflicting slot's switch is unfinished. -/
  free : ∀ s ∈ conflicting fabric call.slot, ¬JournalPending s w

/-- No unfinished switch of another slot displaced a deployment that overlaps a slot. -/
def Undisturbed (slot : Placement) (w : World) : Prop :=
  ∀ s, s ≠ slot → ∀ q, w.journal s = some q → q.state.pending = true → ∀ d ∈ q.displaced, overlap d.placement slot = false

/-- A switch without a previous deployment crashed while it committed. -/
def Midcommit (slot : Placement) (w : World) : Prop :=
  ∃ r, w.journal slot = some r ∧ r.state.pending = true ∧ r.previous = none ∧ w.active slot = some r.candidate

def InstallerAct (fabric : List Placement) (w : World) (a : Operating × List Answer) : Prop :=
  Undisturbed a.1.slot w ∧ ¬Midcommit a.1.slot (w.run fabric a.1 a.2) ∧
    match a.1 with
    | .execute call => call.Asked fabric w ∧ ∀ r, Replaces w call r → ∀ d ∈ r.displaced, (w.status d).checked = true
    | .settle slot => slot ∈ fabric

/-- A record of a slot. -/
structure Stated (fabric : List Placement) (slot : Placement) (r : Record) : Prop where
  listed : slot ∈ fabric
  candidate : r.candidate.placement = slot
  /-- So is the previous deployment. -/
  previous : ∀ d, r.previous = some d → d.placement = slot
  /-- The displaced ones are those of other slots that conflict with it. -/
  displaced : ∀ d ∈ r.displaced, d.placement ≠ slot ∧ overlap d.placement slot = true ∧ d.placement ∈ fabric
  /-- There are none beside a previous one. -/
  alone : r.previous ≠ none → r.displaced = []

/-- The active records an unfinished switch found, its own perhaps replaced. -/
def Standing (slot : Placement) (w : World) (r : Record) : Prop :=
  (w.active slot = r.previous ∨ w.active slot = some r.candidate ∧ r.previous ≠ none) ∧
    ∀ d ∈ r.displaced, w.active d.placement = some d

/-- The slots' records fit together, as far as some slots' unfinished switches go. -/
structure Fitting (fabric : List Placement) (slots : Placement → Prop) (w : World) : Prop where
  /-- A slot records its own deployments. -/
  placed : ∀ s d, w.active s = some d → d.placement = s ∧ s ∈ fabric
  /-- At most one of two conflicting slots records a deployment. -/
  apart : ∀ s t, s ≠ t → overlap s t = true → w.active s = none ∨ w.active t = none
  /-- Journals are of their slots. -/
  stated : ∀ s r, w.journal s = some r → Stated fabric s r
  /-- Unfinished switches find the records as they were. -/
  standing : ∀ s r, slots s → w.journal s = some r → r.state.pending = true → Standing s w r
  /-- At most one of two conflicting slots has an unfinished switch. -/
  alone : ∀ s t, s ≠ t → overlap s t = true → JournalPending s w → ¬JournalPending t w

/-- A slot that records the candidate of a switch that is over records a deployment that
serves, unless it is exempt. -/
def Tells (exempt : Deployment → Prop) (w : World) : Prop :=
  ∀ s q, w.journal s = some q → w.active s = some q.candidate → q.previous ≠ some q.candidate →
    q.state.pending = false → (w.status q.candidate).checked = true ∨ exempt q.candidate

/-- An unfinished switch of a slot among some displaced a deployment. -/
def DisplacedIn (slots : Placement → Prop) (w : World) (d : Deployment) : Prop :=
  ∃ t q, slots t ∧ w.journal t = some q ∧ q.state.pending = true ∧ d ∈ q.displaced

def anySlot (_ : Placement) : Prop := True

/-- What holds between two operations. -/
def Recorded (fabric : List Placement) (w : World) : Prop :=
  Fitting fabric anySlot w ∧ Tells (DisplacedIn anySlot w) w

/-- Nothing in the way of a slot's switch. -/
def Clear (slot : Placement) (w : World) : Prop :=
  (∀ s, s ≠ slot → overlap s slot = true → ¬JournalPending s w) ∧ Undisturbed slot w

variable {fabric : List Placement} {slot : Placement} {w v : World} {d : Deployment} {r : Record}

theorem overlap_comm (a b : Placement) : overlap a b = overlap b a := by
  cases a with
  | none => cases b <;> rfl
  | some =>
    cases b with
    | none => rfl
    | some =>
      simp only [overlap]
      rw [Bool.eq_iff_iff]
      simp only [List.any_eq_true, decide_eq_true_eq]
      constructor
      · rintro ⟨x, ha, hb⟩
        exact ⟨x, hb, ha⟩
      · rintro ⟨x, hb, ha⟩
        exact ⟨x, ha, hb⟩

theorem mem_conflicting {s : Placement} : s ∈ conflicting fabric slot ↔ s ∈ fabric ∧ s ≠ slot ∧ overlap s slot = true := by
  simp only [conflicting, List.mem_filter, Bool.and_eq_true, decide_eq_true_eq]

theorem Stated.restate (state : State) (h : Stated fabric slot r) : Stated fabric slot { r with state } :=
  ⟨h.listed, h.candidate, h.previous, h.displaced, h.alone⟩

section Effects

variable {x : Deployment} {operation : Operation} {status : Status} {exempt : Deployment → Prop} {state : State}

/-- A status changes where nothing is told of it. -/
theorem Tells.operate (h : Tells exempt w)
    (hx : ∀ s q, w.journal s = some q → w.active s = some q.candidate → q.previous ≠ some q.candidate →
      q.state.pending = false → q.candidate = x → exempt x) : Tells exempt (w.operate x operation status) := by
  intro s q hj ha hp hs
  by_cases hq : q.candidate = x
  · exact .inr (hq ▸ hx s q hj ha hp hs hq)
  rcases h s q hj ha hp hs with hc | he
  · refine .inl ?_
    simp only [World.operate, update_of_ne hq]
    exact hc
  · exact .inr he

theorem Tells.verify (h : Tells exempt w) : Tells exempt (w.verify x) := fun s q hj ha hp hs =>
  (h s q hj ha hp hs).imp_left checked_verify_of_checked

theorem Fitting.operate {slots : Placement → Prop} (h : Fitting fabric slots w) : Fitting fabric slots (w.operate x operation status) :=
  ⟨h.placed, h.apart, h.stated, h.standing, h.alone⟩

theorem Tells.mono {more : Deployment → Prop} (h : Tells exempt w) (hm : ∀ d, exempt d → more d) : Tells more w :=
  fun s q hj ha hp hs => (h s q hj ha hp hs).imp_right (hm _)

theorem journal_write (s : Placement) (q : Record) :
    (w.writeJournal slot r).journal s = some q ↔ s = slot ∧ q = r ∨ s ≠ slot ∧ w.journal s = some q := by
  by_cases hs : s = slot
  · subst hs
    simp only [World.writeJournal, update_self, some.injEq, true_and, ne_eq, not_true_eq_false, false_and,
      or_false, eq_comm]
  · simp only [World.writeJournal, update_of_ne hs, hs, false_and, ne_eq, not_false_eq_true, true_and, false_or]

theorem journal_write_of_ne {s : Placement} (hs : s ≠ slot) : (w.writeJournal slot r).journal s = w.journal s := update_of_ne hs _ _

theorem displacedIn_write (hd : DisplacedIn (· ≠ slot) w d) : DisplacedIn (· ≠ slot) (w.writeJournal slot r) d := by
  obtain ⟨t, q, ht, hj, hp, hd⟩ := hd
  exact ⟨t, q, ht, (journal_write_of_ne ht).trans hj, hp, hd⟩

theorem Clear.write (h : Clear slot w) : Clear slot (w.writeJournal slot r) := by
  constructor
  · rintro s hs ho ⟨q, hj, hp⟩
    exact h.1 s hs ho ⟨q, (journal_write_of_ne hs).symm.trans hj, hp⟩
  · exact fun s hs q hj => h.2 s hs q ((journal_write_of_ne hs).symm.trans hj)

theorem Clear.ne (h : Clear slot w) (hown : overlap slot slot = true) {s : Placement} {q : Record} (hs : s ≠ slot) (hj : w.journal s = some q)
    (hp : q.state.pending = true) (hd : d ∈ q.displaced) : d.placement ≠ slot := by
  intro heq
  have hfree := h.2 s hs q hj hp d hd
  rw [heq, hown] at hfree
  cases hfree

theorem Fitting.mono {slots less : Placement → Prop} (h : Fitting fabric slots w) (hl : ∀ s, less s → slots s) : Fitting fabric less w :=
  ⟨h.placed, h.apart, h.stated, fun s r hs => h.standing s r (hl s hs), h.alone⟩

/-- A record is written that is known as far as it is pending. -/
theorem Fitting.write (h : Fitting fabric (· ≠ slot) w) (hr : Stated fabric slot r) (hc : Clear slot w)
    (hs : state.pending = true → Standing slot w r) : Fitting fabric anySlot (w.writeJournal slot { r with state }) := { h with
  stated s q hj := by
    rcases (journal_write s q).mp hj with ⟨rfl, rfl⟩ | ⟨-, hj⟩
    · exact hr.restate state
    · exact h.stated s q hj
  standing s q _ hj hp := by
    rcases (journal_write s q).mp hj with ⟨rfl, rfl⟩ | ⟨hne, hj⟩
    · exact hs hp
    · exact h.standing s q hne hj hp
  alone s t hne ho hps hpt := by
    have hother : ∀ u, u ≠ slot → JournalPending u (w.writeJournal slot { r with state }) → JournalPending u w := by
      rintro u hu ⟨q, hj, hp⟩
      exact ⟨q, (journal_write_of_ne hu).symm.trans hj, hp⟩
    by_cases hs' : s = slot
    · subst hs'
      exact hc.1 t hne.symm (overlap_comm s t ▸ ho) (hother t hne.symm hpt)
    by_cases ht : t = slot
    · subst ht
      exact hc.1 s hne ho (hother s hne hps)
    · exact h.alone s t hne ho (hother s hs' hps) (hother t ht hpt) }

/-- What is told of the other slots, once the slot's journal is written. -/
theorem Tells.write (h : Tells exempt w) (hr : r.state.pending = false → w.active slot = some r.candidate → r.previous ≠ some r.candidate →
      (w.status r.candidate).checked = true ∨ exempt r.candidate) : Tells exempt (w.writeJournal slot r) := by
  intro s q hj ha hp hs
  rcases (journal_write s q).mp hj with ⟨rfl, rfl⟩ | ⟨-, hj⟩
  · exact hr hs ha hp
  · exact h s q hj ha hp hs

theorem DisplacedIn.mono {slots more : Placement → Prop} (h : DisplacedIn slots w d) (hm : ∀ s, slots s → more s) :
    DisplacedIn more w d := by
  obtain ⟨t, q, ht, hj, hp, hd⟩ := h
  exact ⟨t, q, hm t ht, hj, hp, hd⟩

/-- A pending record written in a slot's journal displaces what it names. -/
theorem displacedIn_of_journaled (hj : Journaled slot r w) (hd : DisplacedIn (· ≠ slot) w d ∨ d ∈ r.displaced) :
    DisplacedIn anySlot w d := by
  rcases hd with hd | hd
  · exact hd.mono fun _ _ => trivial
  · obtain ⟨state, hs, hj⟩ := hj
    exact ⟨slot, _, trivial, hj, hs, hd⟩

theorem displacedIn_other (h : DisplacedIn anySlot w d) :
    DisplacedIn (· ≠ slot) w d ∨ ∃ q, w.journal slot = some q ∧ q.state.pending = true ∧ d ∈ q.displaced := by
  obtain ⟨t, q, -, hj, hp, hd⟩ := h
  by_cases ht : t = slot
  · subst ht
    exact .inr ⟨q, hj, hp, hd⟩
  · exact .inl ⟨t, q, ht, hj, hp, hd⟩

end Effects

/-- A record is the slot's, and nothing is in its way. -/
structure Holds (fabric : List Placement) (slot : Placement) (r : Record) (w : World) : Prop where
  /-- It is a record of the slot. -/
  stated : Stated fabric slot r
  /-- The active records are those it found. -/
  standing : Standing slot w r
  /-- Nothing is in its way. -/
  clear : Clear slot w

/-- The records fit, and the other slots tell what serves unless it is exempt. -/
def Fits (fabric : List Placement) (exempt : World → Deployment → Prop) (w : World) : Prop :=
  Fitting fabric anySlot w ∧ Tells (exempt w) w

/-- What other slots' switches displaced. -/
def DisplacedElsewhere (slot : Placement) (w : World) (d : Deployment) : Prop := DisplacedIn (· ≠ slot) w d

/-- What some switch displaced, with the slot's record pending. -/
def DisplacedBeside (slot : Placement) (r : Record) (w : World) (d : Deployment) : Prop :=
  DisplacedIn (· ≠ slot) w d ∨ d ∈ r.displaced

/-- A slot's switch that is over without being complete left the active records as it found them. -/
def Restored (slot : Placement) (w : World) : Prop :=
  ∀ q, w.journal slot = some q → q.state.pending = false → q.state ≠ .complete →
    w.active slot = q.previous ∧ ∀ d ∈ q.displaced, w.active d.placement = some d

section Account

variable {x : Deployment} {operation : Operation} {status : Status} {state : State}

theorem Holds.write (h : Holds fabric slot r w) : Holds fabric slot r (w.writeJournal slot { r with state }) :=
  ⟨h.stated, h.standing, h.clear.write⟩

/-- What is owed does not depend on the record's state, and a pending record may be written. -/
theorem Fits.writePending (h : Fits fabric (DisplacedBeside slot r) w) (hh : Holds fabric slot r w)
    (hs : state.pending = true) : Fits fabric (DisplacedBeside slot r) (w.writeJournal slot { r with state }) := by
  constructor
  · exact (h.1.mono fun _ _ => trivial).write hh.stated hh.clear fun _ => hh.standing
  have htells : Tells (DisplacedBeside slot r (w.writeJournal slot { r with state })) w :=
    h.2.mono fun d hd => hd.imp_left displacedIn_write
  refine htells.write fun hf => ?_
  rw [hs] at hf
  cases hf

/-- A switch that stopped nothing is written, in any state. -/
theorem Fits.writeQuiet (h : Fits fabric (DisplacedElsewhere slot) w) (hh : Holds fabric slot r w)
    (hq : w.active slot = r.previous) : Fits fabric (DisplacedElsewhere slot) (w.writeJournal slot { r with state }) := by
  constructor
  · exact (h.1.mono fun _ _ => trivial).write hh.stated hh.clear fun _ => hh.standing
  have htells : Tells (DisplacedElsewhere slot (w.writeJournal slot { r with state })) w :=
    h.2.mono fun d hd => displacedIn_write hd
  exact htells.write fun _ ha hp => absurd (hq.symm.trans ha) hp

theorem recorded_of_elsewhere (h : Fits fabric (DisplacedElsewhere slot) w) : Recorded fabric w :=
  ⟨h.1, h.2.mono fun _ hd => hd.mono fun _ _ => trivial⟩

/-- A pending switch is one between two operations. -/
theorem recorded_of_beside (h : Fits fabric (DisplacedBeside slot r) w) (hj : Journaled slot r w) : Recorded fabric w :=
  ⟨h.1, h.2.mono fun _ hd => displacedIn_of_journaled hj hd⟩

/-- A deployment of a pending switch is operated. -/
theorem Fits.operate (h : Fits fabric (DisplacedBeside slot r) w) (hj : Journaled slot r w) (hr : Stated fabric slot r)
    (hx : x ∈ r.owed ∨ x = r.candidate) : Fits fabric (DisplacedBeside slot r) (w.operate x operation status) := by
  refine ⟨h.1.operate, h.2.operate ?_⟩
  intro s q hq ha hp hs hc
  have hplace : x.placement = s := (h.1.placed s x (hc ▸ ha)).1
  have hother : s ≠ slot := by
    rintro rfl
    obtain ⟨old, hold, hj⟩ := hj
    rw [hj] at hq
    cases hq
    rw [hold] at hs
    cases hs
  rcases hx with howed | rfl
  · rcases List.mem_append.mp howed with hprevious | hdisplaced
    · have heq : r.previous = some x := by simpa using hprevious
      exact absurd (hplace.symm.trans (hr.previous x heq)) hother
    · exact .inr hdisplaced
  · exact absurd (hplace.symm.trans hr.candidate) hother

/-- A candidate whose own start or stop did not complete is operated. -/
theorem Tells.operate_idle {exempt : Deployment → Prop} {last : Operation} (h : Tells exempt w)
    (hx : w.status x = .unfinished last) : Tells exempt (w.operate x operation status) := by
  refine h.operate fun s q hj ha hp hs hc => ?_
  rcases h s q hj ha hp hs with hchecked | he
  · rw [hc, hx] at hchecked
    cases hchecked
  · exact hc ▸ he

/-- A restart, or a switch that owes nothing, failed. -/
theorem Fits.failed (h : Fits fabric (DisplacedBeside slot r) w) (hh : Holds fabric slot r w)
    (hr : r.previous = some r.candidate ∨ r.owed = []) :
    (w.active slot = r.previous ∧ r.displaced = []) ∧ Fits fabric (DisplacedElsewhere slot) w := by
  have hdisplaced : r.displaced = [] := by
    rcases hr with hsame | hnone
    · exact hh.stated.alone (by rw [hsame]; exact Option.some_ne_none _)
    · exact (List.append_eq_nil_iff.mp hnone).2
  refine ⟨⟨?_, hdisplaced⟩, h.1, h.2.mono fun d hd => hd.resolve_right (by rw [hdisplaced]; exact List.not_mem_nil)⟩
  rcases hh.standing.1 with hfound | ⟨hown, hsome⟩
  · exact hfound
  rcases hr with hsame | hnone
  · exact hown.trans hsame.symm
  have hprevious : r.previous = none := by
    have htoList := (List.append_eq_nil_iff.mp hnone).1
    cases hp : r.previous with
    | none => rfl
    | some =>
      rw [hp] at htoList
      cases htoList
  exact absurd hprevious hsome

/-- A switch that stopped nothing is over. -/
theorem restored_written (hs : Standing slot w r) (hq : w.active slot = r.previous) :
    Restored slot (w.writeJournal slot { r with state }) := by
  intro q hj _ _
  simp only [World.writeJournal, update_self, some.injEq] at hj
  subst hj
  exact ⟨hq, hs.2⟩

theorem restored_pending (hj : Journaled slot r w) : Restored slot w := by
  intro q hq hs
  obtain ⟨state, hstate, hj⟩ := hj
  rw [hj] at hq
  cases hq
  rw [hstate] at hs
  cases hs

variable {p : Deployment}

/-- Another active deployment of the slot's own, where it recorded one before. -/
theorem Fits.writeActive (h : Fits fabric (DisplacedBeside slot r) w) (hh : Holds fabric slot r w)
    (hj : Journaled slot r w) (hp : p.placement = slot) (hown : overlap slot slot = true)
    (hsome : w.active slot ≠ none) (hstanding : Standing slot (w.writeActive slot p) r) :
    Fits fabric (DisplacedBeside slot r) (w.writeActive slot p) := by
  have hother : ∀ s, s ≠ slot → (w.writeActive slot p).active s = w.active s := by
    intro s hs
    simp only [World.writeActive, update_of_ne hs]
  refine ⟨⟨?_, ?_, h.1.stated, ?_, h.1.alone⟩, ?_⟩
  · intro s d hs
    by_cases heq : s = slot
    · subst heq
      simp only [World.writeActive, update_self, some.injEq] at hs
      exact ⟨hs ▸ hp, hh.stated.listed⟩
    · exact h.1.placed s d ((hother s heq) ▸ hs)
  · intro s t hne ho
    by_cases hs : s = slot
    · subst hs
      rw [hother t hne.symm]
      exact .inr ((h.1.apart s t hne ho).resolve_left hsome)
    rw [hother s hs]
    by_cases ht : t = slot
    · subst ht
      exact .inl ((h.1.apart s t hne ho).resolve_right hsome)
    · rw [hother t ht]
      exact h.1.apart s t hne ho
  · intro s q _ hq hpending
    by_cases hs : s = slot
    · subst hs
      obtain ⟨state, -, hjournal⟩ := hj
      have heq : q = { r with state } := some.inj (hq.symm.trans hjournal)
      subst heq
      exact hstanding
    have hold := h.1.standing s q trivial hq hpending
    refine ⟨?_, fun d hd => ?_⟩
    · rw [hother s hs]
      exact hold.1
    rw [hother d.placement (hh.clear.ne hown hs hq hpending hd)]
    exact hold.2 d hd
  · intro s q hq ha hprevious hs
    by_cases hslot : s = slot
    · subst hslot
      obtain ⟨state, hstate, hjournal⟩ := hj
      have heq : q = { r with state } := some.inj (hq.symm.trans hjournal)
      rw [heq, hstate] at hs
      cases hs
    · rw [hother s hslot] at ha
      exact h.2 s q hq ha hprevious hs

theorem Holds.writeActive (hh : Holds fabric slot r w) (hstanding : Standing slot (w.writeActive slot p) r) :
    Holds fabric slot r (w.writeActive slot p) := ⟨hh.stated, hstanding, hh.clear⟩

/-- The slot's own active record changes, to the previous deployment or the candidate. -/
theorem standing_writeActive (hh : Holds fabric slot r w)
    (hp : r.previous = some p ∨ p = r.candidate ∧ r.previous ≠ none) : Standing slot (w.writeActive slot p) r := by
  refine ⟨?_, fun d hd => ?_⟩
  · simp only [World.writeActive, update_self]
    rcases hp with hp | ⟨rfl, hsome⟩
    · exact .inl hp.symm
    · exact .inr ⟨rfl, hsome⟩
  · simp only [World.writeActive, update_of_ne (hh.stated.displaced d hd).1]
    exact hh.standing.2 d hd

theorem Standing.active_ne_none (h : Standing slot w r) (hr : r.previous ≠ none) : w.active slot ≠ none := by
  rcases h.1 with heq | ⟨heq, -⟩
  · rw [heq]
    exact hr
  · rw [heq]
    exact Option.some_ne_none _

end Account

/-- A switch commits: its candidate is recorded, and the conflicting slots' records are
removed but for those left. -/
structure Committing (found : World) (r : Record) (slot : Placement) (rest : List Placement) (f : Frame) : Prop where
  /-- It holds its record. -/
  record : ∃ state, f.record = { r with state }
  journal : f.world.journal = found.journal
  /-- No deployment changed. -/
  status : f.world.status = found.status
  /-- The candidate is recorded. -/
  own : f.world.active slot = some r.candidate
  /-- Slots that do not conflict keep their records. -/
  others : ∀ s, s ≠ slot → overlap s slot = false → f.world.active s = found.active s
  /-- Those that do lose them. -/
  cleared : ∀ s, s ≠ slot → overlap s slot = true →
    f.world.active s = none ∨ s ∈ rest ∧ f.world.active s = found.active s

/-- What is known of a world whose switch commits. -/
structure Commits (fabric : List Placement) (slot : Placement) (r : Record) (w : World) : Prop where
  /-- Its journal is pending. -/
  journal : Journaled slot r w
  /-- Its record is known. -/
  holds : Holds fabric slot r w
  fits : Fits fabric (DisplacedBeside slot r) w
  checked : (w.status r.candidate).checked = true

section Commit

variable {found : World} {rest : List Placement} {f : Frame}

/-- A switch in the place of a previous deployment has nothing to remove. -/
theorem Committing.world_eq (h : Committing found r slot rest f) (hc : Commits fabric slot r found)
    (hr : r.previous ≠ none) : f.world.active = (found.writeActive slot r.candidate).active := by
  funext s
  by_cases hs : s = slot
  · subst hs
    simp only [World.writeActive, update_self]
    exact h.own
  simp only [World.writeActive, update_of_ne hs]
  cases ho : overlap s slot with
  | false => exact h.others s hs ho
  | true =>
    have hnone : found.active s = none :=
      (hc.fits.1.apart s slot hs ho).resolve_right (hc.holds.standing.active_ne_none hr)
    rcases h.cleared s hs ho with heq | ⟨-, heq⟩
    · rw [heq, hnone]
    · exact heq

/-- Where only the log differs, the records are the same. -/
theorem Recorded.same (h : Recorded fabric w) (hj : v.journal = w.journal) (ha : v.active = w.active)
    (hs : v.status = w.status) : Recorded fabric v := by
  obtain ⟨journal, active, status, log⟩ := w
  obtain ⟨journal', active', status', log'⟩ := v
  subst hj ha hs
  exact ⟨⟨h.1.placed, h.1.apart, h.1.stated, h.1.standing, h.1.alone⟩, h.2⟩

/-- A switch may crash while it commits. -/
theorem Committing.kept (h : Committing found r slot rest f) (hc : Commits fabric slot r found)
    (hown : overlap slot slot = true) : Recorded fabric f.world ∨ Midcommit slot f.world := by
  by_cases hr : r.previous = none
  · obtain ⟨state, hs, hj⟩ := hc.journal
    exact .inr ⟨{ r with state }, h.journal ▸ hj, hs, hr, h.own⟩
  have hstanding := standing_writeActive hc.holds (.inr ⟨rfl, hr⟩)
  have hfits := hc.fits.writeActive hc.holds hc.journal hc.holds.stated.candidate hown
    (hc.holds.standing.active_ne_none hr) hstanding
  have hrecorded : Recorded fabric (found.writeActive slot r.candidate) := recorded_of_beside hfits hc.journal
  exact .inl (hrecorded.same h.journal (h.world_eq hc hr) h.status)

theorem Committing.complete (h : Committing found r slot [] f) (hc : Commits fabric slot r found)
    (hown : overlap slot slot = true) : Recorded fabric (f.world.writeJournal slot { r with state := .complete }) := by
  have hcleared : ∀ s, s ≠ slot → overlap s slot = true → f.world.active s = none := fun s hs ho =>
    (h.cleared s hs ho).resolve_right fun hn => List.not_mem_nil hn.1
  have hbefore : ∀ s d, s ≠ slot → f.world.active s = some d → found.active s = some d ∧ overlap s slot = false := by
    intro s d hs ha
    cases ho : overlap s slot with
    | false => exact ⟨(h.others s hs ho) ▸ ha, rfl⟩
    | true =>
      rw [hcleared s hs ho] at ha
      cases ha
  have hstated : ∀ s q, f.world.journal s = some q → Stated fabric s q := by
    rw [h.journal]
    exact hc.fits.1.stated
  have hfits : Fitting fabric (· ≠ slot) f.world := by
    refine ⟨?_, ?_, hstated, ?_, ?_⟩
    · intro s d ha
      by_cases hs : s = slot
      · subst hs
        rw [h.own] at ha
        cases ha
        exact ⟨hc.holds.stated.candidate, hc.holds.stated.listed⟩
      · exact hc.fits.1.placed s d (hbefore s d hs ha).1
    · intro s t hne ho
      by_cases hs : s = slot
      · subst hs
        exact .inr (hcleared t hne.symm (overlap_comm s t ▸ ho))
      by_cases ht : t = slot
      · subst ht
        exact .inl (hcleared s hne ho)
      cases ha : f.world.active s with
      | none => exact .inl rfl
      | some d =>
        cases hb : f.world.active t with
        | none => exact .inr rfl
        | some e =>
          have hfound := hc.fits.1.apart s t hne ho
          rw [(hbefore s d hs ha).1, (hbefore t e ht hb).1] at hfound
          rcases hfound with hf | hf <;> cases hf
    · intro s q hs hq hp
      rw [h.journal] at hq
      have hold := hc.fits.1.standing s q trivial hq hp
      have hfree : overlap s slot = false := by
        cases ho : overlap s slot with
        | false => rfl
        | true => exact absurd ⟨q, hq, hp⟩ (hc.holds.clear.1 s hs ho)
      refine ⟨?_, fun d hd => ?_⟩
      · rw [h.others s hs hfree]
        exact hold.1
      rw [h.others d.placement (hc.holds.clear.ne hown hs hq hp hd) (hc.holds.clear.2 s hs q hq hp d hd)]
      exact hold.2 d hd
    · intro s t hne ho hs ht
      simp only [JournalPending, h.journal] at hs ht
      exact hc.fits.1.alone s t hne ho hs ht
  have hclear : Clear slot f.world := by
    obtain ⟨hfree, hundisturbed⟩ := hc.holds.clear
    simp only [Clear, Undisturbed, JournalPending, h.journal]
    exact ⟨hfree, hundisturbed⟩
  refine ⟨hfits.write hc.holds.stated hclear fun hp => (by cases hp), ?_⟩
  refine Tells.write ?_ fun _ _ _ => .inl (by rw [h.status]; exact hc.checked)
  intro s q hq ha hprevious hs
  rw [h.journal] at hq
  by_cases hslot : s = slot
  · subst hslot
    obtain ⟨state, hstate, hjournal⟩ := hc.journal
    rw [hjournal] at hq
    cases hq
    rw [hstate] at hs
    cases hs
  obtain ⟨hfound, hfree⟩ := hbefore s _ hslot ha
  rw [h.status]
  refine (hc.fits.2 s q hq hfound hprevious hs).imp_right fun hd => ?_
  rcases hd with ⟨t, q', ht, hj', hp', hd'⟩ | hd
  · exact ⟨t, q', trivial, (journal_write t q').mpr (.inr ⟨ht, h.journal ▸ hj'⟩), hp', hd'⟩
  have hplace := (hc.fits.1.placed s _ hfound).1
  have hoverlap := (hc.holds.stated.displaced _ hd).2.1
  rw [hplace, hfree] at hoverlap
  cases hoverlap

theorem Committing.start (h : Commits fabric slot r found) (hrecord : ∃ state, f.record = { r with state }) :
    Committing found r slot (conflicting fabric slot) { f with world := found.writeActive slot r.candidate } where
  record := hrecord
  journal := rfl
  status := rfl
  own := by simp only [World.writeActive, update_self]
  others s hs _ := by simp only [World.writeActive, update_of_ne hs]
  cleared s hs ho := by
    have hsame : (found.writeActive slot r.candidate).active s = found.active s := by
      simp only [World.writeActive, update_of_ne hs]
    cases ha : found.active s with
    | none => exact .inl (hsame.trans ha)
    | some d => exact .inr ⟨mem_conflicting.mpr ⟨(h.fits.1.placed s d ha).2, hs, ho⟩, hsame.trans ha⟩

/-- One conflicting slot's record is removed. -/
theorem Committing.unlink {x : Placement} (h : Committing found r slot (x :: rest) f) (hx : x ∈ conflicting fabric slot) :
    Committing found r slot rest { f with world := f.world.removeActive x } := by
  obtain ⟨-, hne, hoverlap⟩ := mem_conflicting.mp hx
  refine ⟨h.record, h.journal, h.status, ?_, ?_, ?_⟩
  · simp only [World.removeActive, update_of_ne hne.symm]
    exact h.own
  · intro s hs ho
    have hsx : s ≠ x := by
      rintro rfl
      rw [hoverlap] at ho
      cases ho
    simp only [World.removeActive, update_of_ne hsx]
    exact h.others s hs ho
  intro s hs ho
  by_cases hsx : s = x
  · subst hsx
    simp only [World.removeActive, update_self, true_or]
  simp only [World.removeActive, update_of_ne hsx]
  refine (h.cleared s hs ho).imp_right fun hleft => ⟨?_, hleft.2⟩
  exact (List.mem_cons.mp hleft.1).resolve_left hsx

theorem triple_commit_records {raises : Stop → Frame → Prop} (hown : overlap slot slot = true) :
    Triple (fun f => Recorded fabric f.world ∨ Midcommit slot f.world)
      (fun f => (Journaled slot r f.world ∧ Holds fabric slot r f.world ∧ Fits fabric (DisplacedBeside slot r) f.world) ∧
        Verified r f)
      (commit fabric slot r.candidate)
      (fun _ f => (Recorded fabric f.world ∨ Midcommit slot f.world) ∧ Restored slot f.world) raises := by
  refine Triple.seq
    (m := fun _ f => ∃ found, Commits fabric slot r found ∧
      Committing found r slot (conflicting fabric slot) f) ?_ fun _ => ?_
  · refine Triple.effect (fun f h => .inl (recorded_of_beside h.1.2.2 h.1.1)) fun _ f h => ?_
    have hcommits : Commits fabric slot r f.world := ⟨h.1.1, h.1.2.1, h.1.2.2, h.2.checked⟩
    exact ⟨f.world, hcommits, .start hcommits h.2.record⟩
  refine Triple.seq (m := fun _ f => ∃ found, Commits fabric slot r found ∧ Committing found r slot [] f) ?_ fun _ => ?_
  · refine Triple.forEach (fun rest f => ∃ found, Commits fabric slot r found ∧ Committing found r slot rest f)
      fun x hx rest => ?_
    refine Triple.effect (fun f ⟨found, hc, h⟩ => h.kept hc hown) fun _ f ⟨found, hc, h⟩ => ?_
    exact ⟨found, hc, h.unlink hx⟩
  refine Triple.seq
    (m := fun _ f => (∃ found, Commits fabric slot r found ∧ Committing found r slot [] f) ∧
      f.record = { r with state := .complete }) ?_ fun _ => ?_
  · refine Triple.note fun f ⟨found, hc, h⟩ => ?_
    obtain ⟨old, hold⟩ := h.record
    have hrecord : { f.record with state := .complete } = { r with state := .complete } := by rw [hold]
    exact ⟨⟨found, hc, ⟨.complete, hrecord⟩, h.journal, h.status, h.own, h.others, h.cleared⟩, hrecord⟩
  refine Triple.effect (fun f ⟨⟨found, hc, h⟩, _⟩ => h.kept hc hown) fun _ f ⟨⟨found, hc, h⟩, hrecord⟩ => ?_
  rw [hrecord]
  refine ⟨.inl (h.complete hc hown), ?_⟩
  intro q hj _ hopen
  simp only [World.writeJournal, update_self, some.injEq] at hj
  subst hj
  exact absurd rfl hopen

end Commit

/-- The account of the active records. -/
def records (fabric : List Placement) (slot : Placement) (hown : overlap slot slot = true) : Account fabric slot where
  kept w := Recorded fabric w ∨ Midcommit slot w
  ended := Restored slot
  known := Holds fabric slot
  owes r := Fits fabric (DisplacedBeside slot r)
  back _ := Fits fabric (DisplacedElsewhere slot)
  quiet r w := Fits fabric (DisplacedElsewhere slot) w ∧ w.active slot = r.previous
  known_state state h := ⟨h.stated.restate state, h.standing, h.clear⟩
  owes_state _ h := h
  quiet_state _ h := h
  alone h hr := h.stated.alone (by rw [hr]; exact Option.some_ne_none _)
  owes_of_quiet _ h := ⟨h.1.1, h.1.2.mono fun _ hd => .inl hd⟩
  pending hj _ ho := ⟨.inl (recorded_of_beside ho hj), restored_pending hj⟩
  operate hj hk ho hx := ⟨⟨hk.stated, hk.standing, hk.clear⟩, ho.operate hj hk.stated hx⟩
  verify hk ho := ⟨⟨hk.stated, hk.standing, hk.clear⟩,
    ⟨ho.1.placed, ho.1.apart, ho.1.stated, ho.1.standing, ho.1.alone⟩, ho.2.verify⟩
  write hs hk ho := ⟨hk.write, ho.writePending hk hs⟩
  write_quiet _ hk hq := ⟨hk.write, hq.1.writeQuiet hk hq.2, hq.2⟩
  write_over _ _ hk hq := ⟨.inl (recorded_of_elsewhere (hq.1.writeQuiet hk hq.2)), restored_written hk.standing hq.2⟩
  failed hk ho hr := by
    obtain ⟨⟨hown, -⟩, hfits⟩ := ho.failed hk hr
    exact ⟨.inl (recorded_of_elsewhere (hfits.writeQuiet hk hown)), restored_written hk.standing hown⟩
  stop_unfinished hk hq hs := by
    refine ⟨⟨hk.stated, hk.standing, hk.clear⟩, ⟨⟨hq.1.1.operate, hq.1.2.operate_idle hs⟩, hq.2⟩, ?_⟩
    exact fun h => h.imp_left fun hrecorded => ⟨hrecorded.1.operate, hrecorded.2.operate_idle hs⟩
  commit := triple_commit_records hown
  back_of_checked _ ho hc := ⟨ho.1, fun s q hj ha hp hs => (ho.2 s q hj ha hp hs).elim .inl fun hd =>
    hd.elim .inr fun hd => .inl (hc _ (List.mem_append_right _ hd))⟩
  quiet_of_back hk hb hr := by
    refine ⟨hb, ?_⟩
    rcases hk.standing.1 with heq | ⟨hcand, hsome⟩
    · exact heq
    rcases hr with hne | hnone | hsame
    · exact absurd hcand hne
    · exact absurd hnone hsome
    · exact hcand.trans hsame.symm
  restore hj hk ho hb hp := by
    have hsome := hk.standing.active_ne_none (by rw [hp]; exact Option.some_ne_none _)
    have hstanding := standing_writeActive hk (.inl hp)
    have hfits := ho.writeActive hk hj (hk.stated.previous _ hp) hown hsome hstanding
    refine ⟨hk.writeActive hstanding, hfits, ⟨hfits.1, ?_⟩, ?_⟩
    · intro s q hq ha hprevious hs
      refine (hfits.2 s q hq ha hprevious hs).imp_right fun hd => hd.resolve_right ?_
      have hdisplaced := hk.stated.alone (by rw [hp]; exact Option.some_ne_none _)
      rw [hdisplaced]
      exact List.not_mem_nil
    · simp only [World.writeActive, Function.update_self]
      exact hp.symm
  forget hk _ _ hnone hactive := by
    rcases hk.standing.1 with heq | ⟨-, hsome⟩
    · rw [hnone, hactive] at heq
      cases heq
    · exact absurd hnone hsome

/-- An unfinished switch is known to the account. -/
theorem holds_of_recorded (h : Recorded fabric w) (hu : Undisturbed slot w) (hj : w.journal slot = some r)
    (hp : r.state.pending = true) : Holds fabric slot r w ∧ Fits fabric (DisplacedBeside slot r) w := by
  refine ⟨⟨h.1.stated slot r hj, h.1.standing slot r trivial hj hp, ?_, hu⟩, h.1, h.2.mono fun d hd => ?_⟩
  · exact fun s hs ho hpending => h.1.alone s slot hs ho hpending ⟨r, hj, hp⟩
  rcases displacedIn_other hd with hother | ⟨q, hq, -, hdisplaced⟩
  · exact .inl hother
  rw [hj] at hq
  cases hq
  exact .inr hdisplaced

variable {call : Call}

/-- The record of a new switch is known. -/
theorem holds_fresh (h : Recorded fabric w) (hu : Undisturbed call.slot w) (ha : call.Asked fabric w) :
    Holds fabric call.slot call.fresh w := by
  have hdisplaced : ∀ d ∈ call.displaced, ∃ s ∈ conflicting fabric call.slot, w.active s = some d := by
    intro d hd
    rw [ha.displaced] at hd
    obtain ⟨s, hs, hactive⟩ := List.mem_filterMap.mp (List.mem_of_mem_filter hd)
    exact ⟨s, hs, (Option.filter_eq_some_iff.mp hactive).1⟩
  refine ⟨⟨ha.listed, ha.directory, ?_, ?_, ?_⟩, ⟨.inl ha.previous.symm, ?_⟩, ?_, hu⟩
  · intro d hd
    exact (h.1.placed call.slot d (ha.previous.symm.trans hd)).1
  · intro d hd
    obtain ⟨s, hs, hactive⟩ := hdisplaced d hd
    obtain ⟨hlisted, hne, ho⟩ := mem_conflicting.mp hs
    have hplace := (h.1.placed s d hactive).1
    rw [hplace]
    exact ⟨hne, ho, hlisted⟩
  · intro hsome
    rw [List.eq_nil_iff_forall_not_mem]
    intro d hd
    obtain ⟨s, hs, hactive⟩ := hdisplaced d hd
    obtain ⟨-, hne, ho⟩ := mem_conflicting.mp hs
    rcases h.1.apart s call.slot hne ho with hnone | hnone
    · rw [hnone] at hactive
      cases hactive
    · exact hsome (ha.previous.trans hnone)
  · intro d hd
    obtain ⟨s, hs, hactive⟩ := hdisplaced d hd
    have hplace := (h.1.placed s d hactive).1
    rw [hplace]
    exact hactive
  · rintro s hne ho ⟨q, hq, hp⟩
    exact ha.free s (mem_conflicting.mpr ⟨(h.1.stated s q hq).listed, hne, ho⟩) ⟨q, hq, hp⟩

/-- A call as the installer makes it is one the account can follow. -/
theorem begins_of_asked (hown : overlap call.slot call.slot = true) (h : Recorded fabric w)
    (hu : Undisturbed call.slot w) (ha : call.Asked fabric w)
    (hserving : ∀ r, Replaces w call r → ∀ d ∈ r.displaced, (w.status d).checked = true) : Begins (records fabric call.slot hown) w where
  kept := .inl h
  resumed r hj hp := holds_of_recorded h hu hj hp
  fresh hnone := by
    refine ⟨holds_fresh h hu ha, ⟨h.1, h.2.mono fun d hd => ?_⟩, ha.previous.symm⟩
    rcases displacedIn_other hd with hother | ⟨q, hq, hp, -⟩
    · exact hother
    · exact absurd ⟨q, hq, hp⟩ hnone
  replaced r hreplaces v hv := by
    have hholds := holds_fresh h hu ha
    have htells : Tells (DisplacedElsewhere call.slot w) w := by
      intro s q hj hactive hprevious hs
      rcases h.2 s q hj hactive hprevious hs with hc | hd
      · exact .inl hc
      rcases displacedIn_other hd with hother | ⟨r', hr', -, hdisplaced⟩
      · exact .inr hother
      rw [hreplaces.1] at hr'
      cases hr'
      exact .inl (hserving r hreplaces _ hdisplaced)
    rcases hv with rfl | ⟨status, rfl⟩
    · exact ⟨.inl h, hholds, ⟨h.1, htells⟩, ha.previous.symm⟩
    have hother : ∀ {exempt : Deployment → Prop}, Tells exempt w →
        Tells exempt (w.operate r.candidate .down status) := by
      intro exempt ht
      refine ht.operate fun s q hj hactive _ hs hc => ?_
      have hslot : s = call.slot :=
        (h.1.placed s r.candidate (hc ▸ hactive)).1.symm.trans (h.1.stated _ r hreplaces.1).candidate
      subst hslot
      rw [hreplaces.1] at hj
      cases hj
      rw [hreplaces.2.1] at hs
      cases hs
    exact ⟨.inl ⟨h.1.operate, hother h.2⟩, ⟨hholds.stated, hholds.standing, hholds.clear⟩, ⟨h.1.operate, hother htells⟩,
      ha.previous.symm⟩

/-- What an operation of the installer leaves. -/
theorem recorded_run {a : Operating × List Answer} (hfabric : ∀ s ∈ fabric, overlap s s = true) (h : Recorded fabric w)
    (ha : InstallerAct fabric w a) : Recorded fabric (w.run fabric a.1 a.2) ∧ (w.outcome fabric a.1 a.2 ≠ .crashed →
      w.outcome fabric a.1 a.2 ≠ .raised .refused → Restored a.1.slot (w.run fabric a.1 a.2)) := by
  obtain ⟨operating, script⟩ := a
  obtain ⟨hu, hmid, hcall⟩ := ha
  cases operating with
  | execute call =>
    have hown := hfabric _ hcall.1.listed
    have hbegins := begins_of_asked hown h hu hcall.1 hcall.2
    have hexecute : Triple (AtCrash (records fabric call.slot hown)) (fun f => f.world = w)
        ((Operating.execute call).program fabric) (fun _ => AtEnd (records fabric call.slot hown))
        (Raised (records fabric call.slot hown) w) := triple_execute hbegins
    have hkept : (records fabric call.slot hown).kept (w.run fabric (.execute call) script) :=
      kept_of_triple hbegins.kept hexecute script
    exact ⟨hkept.resolve_right hmid, fun hc hr => ended_of_triple hexecute hc hr⟩
  | settle s =>
    have hown := hfabric s hcall
    have hkept : (records fabric s hown).kept w := .inl h
    have hsettle : Triple (AtCrash (records fabric s hown)) (fun f => f.world = w)
        ((Operating.settle s).program fabric) (fun _ => AtEnd (records fabric s hown))
        (Raised (records fabric s hown) w) := triple_settle hkept fun r hr hp => holds_of_recorded h hu hr hp
    have hrun : (records fabric s hown).kept (w.run fabric (.settle s) script) := kept_of_triple hkept hsettle script
    exact ⟨hrun.resolve_right hmid, fun hc hr => ended_of_triple hsettle hc hr⟩

/-- A fabric before its first switch. -/
structure Unswitched (fabric : List Placement) (w : World) : Prop where
  /-- No slot has a journal. -/
  journal : ∀ s, w.journal s = none
  /-- Slots record their own deployments. -/
  placed : ∀ s d, w.active s = some d → d.placement = s ∧ s ∈ fabric
  /-- At most one of two conflicting slots records a deployment. -/
  apart : ∀ s t, s ≠ t → overlap s t = true → w.active s = none ∨ w.active t = none

theorem Unswitched.recorded (h : Unswitched fabric w) : Recorded fabric w := by
  have hnone : ∀ {s r}, w.journal s ≠ some r := by
    intro s r hj
    rw [h.journal s] at hj
    cases hj
  exact ⟨⟨h.placed, h.apart, fun _ _ hj => absurd hj hnone, fun _ _ _ hj => absurd hj hnone,
    fun _ _ _ _ ⟨_, hj, _⟩ => absurd hj hnone⟩, fun _ _ hj => absurd hj hnone⟩

/-- Every run of the installer's operations keeps the records. -/
theorem reachable_recorded {start : World} (hfabric : ∀ s ∈ fabric, overlap s s = true) (hstart : Unswitched fabric start)
    (h : Reachable (step fabric) (InstallerAct fabric) start w) : Recorded fabric w := by
  refine h.invariant (Recorded fabric) hstart.recorded ?_
  rintro w a v - hw hgood hstep
  cases hstep
  exact (recorded_run hfabric hw hgood).1

/-- In every run of the installer's operations a slot whose switch is over names its
candidate only if that serves, was the active deployment already or is displaced by an
unfinished switch; a switch that is left without completing puts the active records
back; and no two conflicting slots both record a deployment that serves. -/
theorem active_records_tell {start : World} (hfabric : ∀ s ∈ fabric, overlap s s = true)
    (hstart : Unswitched fabric start) (h : Reachable (step fabric) (InstallerAct fabric) start w) :
    (∀ s q, w.journal s = some q → q.state.settled = true → w.active s = some q.candidate →
      (w.status q.candidate).checked = true ∨ q.previous = some q.candidate ∨ DisplacedIn anySlot w q.candidate) ∧
    (∀ a, InstallerAct fabric w a → w.outcome fabric a.1 a.2 ≠ .crashed → w.outcome fabric a.1 a.2 ≠ .raised .refused →
      ∀ q, (w.run fabric a.1 a.2).journal a.1.slot = some q → q.state.settled = true → q.state ≠ .complete →
        (w.run fabric a.1 a.2).active a.1.slot = q.previous ∧
        ∀ d ∈ q.displaced, (w.run fabric a.1 a.2).active d.placement = some d) ∧
    ∀ s t, s ≠ t → overlap s t = true → ∀ d e, w.active s = some d → w.active t = some e →
      ¬((w.status d).serves = true ∧ (w.status e).serves = true) := by
  have hrecorded := reachable_recorded hfabric hstart h
  have hover : ∀ state : State, state.settled = true → state.pending = false := by
    intro state hs
    cases state <;> first | rfl | cases hs
  refine ⟨fun s q hj hs ha => ?_, fun a ha hc hr q hj hs hopen => ?_, fun s t hne ho d e hd he _ => ?_⟩
  · by_cases hprevious : q.previous = some q.candidate
    · exact .inr (.inl hprevious)
    · exact (hrecorded.2 s q hj ha hprevious (hover _ hs)).imp_right .inr
  · exact (recorded_run hfabric hrecorded ha).2 hc hr q hj (hover _ hs) hopen
  rcases hrecorded.1.apart s t hne ho with hnone | hnone
  · rw [hnone] at hd
    cases hd
  · rw [hnone] at he
    cases he

/-- One Spark. -/
def one : Placement := some [0]

/-- Two Sparks. -/
def both : Placement := some [0, 1]

/-- The deployment of one Spark. -/
def narrow : Deployment := ⟨"narrow", one⟩

/-- The deployment of two. -/
def wide : Deployment := ⟨"wide", both⟩

/-- The deployment of one Spark serves, and no switch was made. -/
def narrowServes : World where
  journal _ := none
  active := Function.update (fun _ => none) one (some narrow)
  status := Function.update (fun _ => .stopped) narrow (.running true true)
  log := []

theorem active_narrowServes {s : Placement} (h : narrowServes.active s = some d) : s = one ∧ d = narrow := by
  simp only [narrowServes] at h
  by_cases hs : s = one
  · subst hs
    simp only [update_self, some.injEq] at h
    exact ⟨rfl, h.symm⟩
  · simp only [update_of_ne hs] at h
    cases h

theorem narrowServes_unswitched : Unswitched [one, both] narrowServes where
  journal _ := rfl
  placed s d h := by
    obtain ⟨rfl, rfl⟩ := active_narrowServes h
    exact ⟨rfl, List.mem_cons_self⟩
  apart s t hne _ := by
    cases hs : narrowServes.active s with
    | none => exact .inl rfl
    | some =>
      cases ht : narrowServes.active t with
      | none => exact .inr rfl
      | some => exact absurd ((active_narrowServes hs).1.trans (active_narrowServes ht).1.symm) hne

/-- A call of the installer while no switch is unfinished. -/
def idleCall (w : World) (call : Call) (script : List Answer) : Bool :=
  decide (call.slot ∈ [one, both]) && decide (call.directory.placement = call.slot) &&
    decide (call.previous = w.active call.slot) &&
    decide (call.displaced = (displacedBy [one, both] w call.slot).filter fun d => decide (d ≠ call.directory)) &&
    ([one, both].all fun s => (w.journal s).all fun r => !r.state.pending) &&
    ((w.run [one, both] (.execute call) script).journal call.slot).all fun r => !r.state.pending ||
      decide ((w.run [one, both] (.execute call) script).active call.slot ≠ some r.candidate)

theorem installerAct_of_idleCall {script : List Answer} (hw : Recorded [one, both] w)
    (h : idleCall w call script = true) : InstallerAct [one, both] w (.execute call, script) := by
  simp only [idleCall, Bool.and_eq_true, decide_eq_true_eq, List.all_eq_true, Option.all_eq_true, Bool.or_eq_true,
    Bool.not_eq_true'] at h
  obtain ⟨⟨⟨⟨⟨hlisted, hdirectory⟩, hprevious⟩, hdisplaced⟩, hidle⟩, hend⟩ := h
  have hover : ∀ s r, w.journal s = some r → r.state.pending = false := fun s r hr =>
    hidle s (hw.1.stated s r hr).listed r hr
  refine ⟨fun s _ q hq hp => ?_, ?_, ⟨hlisted, hdirectory, hprevious, hdisplaced, ?_⟩, ?_⟩
  · rw [hover s q hq] at hp
    cases hp
  · rintro ⟨r, hr, hpending, -, hactive⟩
    rcases hend r hr with hf | hne
    · rw [hpending] at hf
      cases hf
    · exact hne hactive
  · rintro s - ⟨r, hr, hp⟩
    rw [hover s r hr] at hp
    cases hp
  rintro r ⟨hr, hp, -⟩
  rw [hover _ r hr] at hp
  cases hp

/-- A switch into both Sparks whose candidate fails its verification. -/
def failedSwitch : Operating × List Answer :=
  (.execute ⟨both, wide, none, [narrow], false⟩, List.replicate 11 .ok ++ [.refused] ++ List.replicate 6 .ok)

/-- The failed switch leaves its slot without a record, and the other slot with its own. -/
theorem active_records_tell_failed : ∃ w, Reachable (step [one, both]) (InstallerAct [one, both]) narrowServes w ∧
    w.journal both = some ⟨wide, none, [narrow], .failedRecovered⟩ ∧ w.active both = none ∧ w.active one = some narrow := by
  have hact : InstallerAct [one, both] narrowServes failedSwitch :=
    installerAct_of_idleCall narrowServes_unswitched.recorded (by decide +kernel)
  have hjournal : (narrowServes.run [one, both] failedSwitch.1 failedSwitch.2).journal both =
      some ⟨wide, none, [narrow], .failedRecovered⟩ := by decide +kernel
  have hended : ((narrowServes.outcome [one, both] failedSwitch.1 failedSwitch.2).casesOn (fun _ => false)
    (fun e => decide (e = .error)) false : Bool) = true := by decide +kernel
  obtain ⟨-, hrestored, -⟩ := active_records_tell (by decide) narrowServes_unswitched .start
  have hleft := hrestored failedSwitch hact (by intro hc; rw [hc] at hended; cases hended)
    (by intro hr; rw [hr] at hended; cases hended) _ hjournal rfl (by decide)
  exact ⟨_, .next .start hact rfl, hjournal, hleft.1, hleft.2 narrow List.mem_cons_self⟩

/-- A restart of the active deployment whose verification fails. -/
def failedRestart : Operating × List Answer :=
  (.execute ⟨one, narrow, some narrow, [], false⟩, List.replicate 9 .ok ++ [.refused, .ok])

/-- Another deployment of one Spark. -/
def newer : Deployment := ⟨"newer", one⟩

/-- It replaces the first one. -/
def replacement : Operating × List Answer := (.execute ⟨one, newer, some narrow, [], false⟩, List.replicate 20 .ok)

/-- A switch into both Sparks crashes once it stopped it. -/
def crashedSwitch : Operating × List Answer := (.execute ⟨both, wide, none, [newer], false⟩, List.replicate 6 .ok)

/-- A restart that failed is over, and its slot still names the candidate, which was not
verified after its last start; so does a slot whose deployment an unfinished switch of
another slot stopped. -/
theorem settled_records_name_stopped :
    (∃ w, Reachable (step [one, both]) (InstallerAct [one, both]) narrowServes w ∧
      w.journal one = some ⟨narrow, some narrow, [], .failed⟩ ∧ w.active one = some narrow ∧
      (w.status narrow).checked = false) ∧
    ∃ w, Reachable (step [one, both]) (InstallerAct [one, both]) narrowServes w ∧
      w.journal one = some ⟨newer, some narrow, [], .complete⟩ ∧ w.active one = some newer ∧
      w.status newer = .stopped := by
  have hrestart : InstallerAct [one, both] narrowServes failedRestart :=
    installerAct_of_idleCall narrowServes_unswitched.recorded (by decide +kernel)
  have hreplace : InstallerAct [one, both] narrowServes replacement :=
    installerAct_of_idleCall narrowServes_unswitched.recorded (by decide +kernel)
  have hreached : Reachable (step [one, both]) (InstallerAct [one, both]) narrowServes
      (narrowServes.run [one, both] replacement.1 replacement.2) := .next .start hreplace rfl
  have hcrash : InstallerAct [one, both] (narrowServes.run [one, both] replacement.1 replacement.2) crashedSwitch :=
    installerAct_of_idleCall (reachable_recorded (by decide) narrowServes_unswitched hreached) (by decide +kernel)
  exact ⟨⟨_, .next .start hrestart rfl, by decide +kernel, by decide +kernel, by decide +kernel⟩,
    ⟨_, .next hreached hcrash rfl, by decide +kernel, by decide +kernel, by decide +kernel⟩⟩

end SparkRing.Rollout
