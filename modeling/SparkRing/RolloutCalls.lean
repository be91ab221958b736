import SparkRing.Rollout

/-!
# What a call does to an account of its slot

An account says what holds of the world between any two effects of a call: while the
slot's journal is pending it names what the switch may have stopped, and a switch is
written as over only where all of it is back. An account that the single effects keep
is kept by every call and every settlement, however adapters fail, operators cancel
and crashes interrupt them.
-/

namespace SparkRing.Rollout

open CrashProgram Function
open Triple (assume effect forEach handle raise ret seq)

def JournalPending (slot : Placement) (w : World) : Prop := ∃ r, w.journal slot = some r ∧ r.state.pending = true

/-- The deployments a record names besides its candidate. -/
def Record.owed (r : Record) : List Deployment := r.previous.toList ++ r.displaced

/-- A slot's journal names a record as pending. -/
def Journaled (slot : Placement) (r : Record) (w : World) : Prop :=
  ∃ state, state.pending = true ∧ w.journal slot = some { r with state }

/-- A switch holds a verified candidate to commit. -/
structure Verified (r : Record) (f : Frame) : Prop where
  /-- It holds the record. -/
  record : ∃ state, f.record = { r with state }
  checked : (f.world.status r.candidate).checked = true
  logged : .verified r.candidate ∈ f.world.log

/-- An account of a slot that effects keep. -/
structure Account (fabric : List Placement) (slot : Placement) where
  /-- What holds wherever a call crashes. -/
  kept : World → Prop
  /-- What holds when a call ends. -/
  ended : World → Prop
  /-- A record names what it may stop. -/
  known : Record → World → Prop
  /-- All that may be stopped is named. -/
  owes : Record → World → Prop
  /-- All that was stopped is back. -/
  back : Record → World → Prop
  /-- Nothing is stopped, and the active record is the previous one. -/
  quiet : Record → World → Prop
  /-- A record's state is not part of it. -/
  known_state : ∀ {r w} state, known r w → known { r with state } w
  owes_state : ∀ {r w} state, owes r w → owes { r with state } w
  quiet_state : ∀ {r w} state, quiet r w → quiet { r with state } w
  /-- A restart of the active deployment displaces nothing. -/
  alone : ∀ {r w}, known r w → r.previous = some r.candidate → r.displaced = []
  /-- Where nothing is stopped, all that may be is named. -/
  owes_of_quiet : ∀ {r w}, known r w → quiet r w → owes r w
  /-- A pending switch may crash, and end. -/
  pending : ∀ {r w}, Journaled slot r w → known r w → owes r w → kept w ∧ ended w
  /-- Deployments of a pending switch are operated and verified. -/
  operate : ∀ {r w x operation status}, Journaled slot r w → known r w → owes r w → x ∈ r.owed ∨ x = r.candidate →
    known r (w.operate x operation status) ∧ owes r (w.operate x operation status)
  verify : ∀ {r w x}, known r w → owes r w → known r (w.verify x) ∧ owes r (w.verify x)
  write : ∀ {r w state}, state.pending = true → known r w → owes r w →
    known r (w.writeJournal slot { r with state }) ∧ owes r (w.writeJournal slot { r with state })
  /-- A switch that stopped nothing is written. -/
  write_quiet : ∀ {r w} state, known r w → quiet r w →
    known r (w.writeJournal slot { r with state }) ∧ quiet r (w.writeJournal slot { r with state })
  /-- A switch that stopped nothing is written as over. -/
  write_over : ∀ {r w state}, state.pending = false → state ≠ .complete → known r w → quiet r w →
    kept (w.writeJournal slot { r with state }) ∧ ended (w.writeJournal slot { r with state })
  /-- A restart, or a switch that owes nothing, failed. -/
  failed : ∀ {r w}, known r w → owes r w → r.previous = some r.candidate ∨ r.owed = [] →
    kept (w.writeJournal slot { r with state := .failed }) ∧ ended (w.writeJournal slot { r with state := .failed })
  /-- A candidate whose own start or stop did not complete is stopped. -/
  stop_unfinished : ∀ {r w operation status}, known r w → quiet r w → w.status r.candidate = .unfinished operation →
    known r (w.operate r.candidate .down status) ∧ quiet r (w.operate r.candidate .down status) ∧
      (kept w → kept (w.operate r.candidate .down status))
  /-- A verified candidate is committed. -/
  commit : ∀ {r} {raises : Stop → Frame → Prop}, Triple (fun f => kept f.world)
    (fun f => (Journaled slot r f.world ∧ known r f.world ∧ owes r f.world) ∧ Verified r f)
    (Rollout.commit fabric slot r.candidate) (fun _ f => kept f.world ∧ ended f.world) raises
  /-- All that is owed was started and verified. -/
  back_of_checked : ∀ {r w}, known r w → owes r w → (∀ d ∈ r.owed, (w.status d).checked = true) → back r w
  /-- The active record is the previous one. -/
  quiet_of_back : ∀ {r w}, known r w → back r w →
    w.active slot ≠ some r.candidate ∨ r.previous = none ∨ r.previous = some r.candidate → quiet r w
  /-- The active record becomes the previous one. -/
  restore : ∀ {r w p}, Journaled slot r w → known r w → owes r w → back r w → r.previous = some p →
    known r (w.writeActive slot p) ∧ owes r (w.writeActive slot p) ∧ quiet r (w.writeActive slot p)
  /-- The active record of a committed candidate is removed. -/
  forget : ∀ {r w}, known r w → owes r w → back r w → r.previous = none → w.active slot = some r.candidate →
    known r (w.removeActive slot) ∧ owes r (w.removeActive slot) ∧ quiet r (w.removeActive slot)

variable {fabric : List Placement} {slot : Placement} {w v : World} {d : Deployment} {A : Account fabric slot} {operation : Operation}
  {operating : Operating} {stopped : Bool} {xs rest : List Deployment} {status : Status}

/-- A switch holds a record, and the slot's journal names it as pending. -/
structure Pending (A : Account fabric slot) (r : Record) (f : Frame) : Prop where
  /-- It holds the record. -/
  record : ∃ state, f.record = { r with state }
  journal : Journaled slot r f.world
  /-- The record is known. -/
  known : A.known r f.world
  /-- It names all that may be stopped. -/
  owes : A.owes r f.world

/-- A switch holds a record, and stopped nothing. -/
structure Quiet (A : Account fabric slot) (r : Record) (f : Frame) : Prop where
  /-- It holds the record. -/
  record : ∃ state, f.record = { r with state }
  /-- It may crash. -/
  kept : A.kept f.world
  /-- The record is known. -/
  known : A.known r f.world
  /-- It stopped nothing. -/
  quiet : A.quiet r f.world

/-- What holds wherever a call crashes. -/
abbrev AtCrash (A : Account fabric slot) (f : Frame) : Prop := A.kept f.world

/-- From every state of `pre` a program leaves what is said, and it may crash. -/
abbrev Account.Keeps (A : Account fabric slot) {α : Type} (pre : Frame → Prop) (p : Op α) (post : α → Frame → Prop)
    (raises : Stop → Frame → Prop) : Prop := Triple (AtCrash A) pre p post raises

/-- What holds when a call ends. -/
def AtEnd (A : Account fabric slot) (f : Frame) : Prop := A.kept f.world ∧ A.ended f.world

section Pending

variable {r : Record} {f g : Frame} {x : Deployment}

section

variable (h : Pending A r f)

include h

theorem Pending.atEnd : AtEnd A f := A.pending h.journal h.known h.owes

theorem Pending.kept : A.kept f.world := h.atEnd.1

/-- Whatever is held changes, but not the record. -/
theorem Pending.held (hw : g.world = f.world) (hr : g.record = f.record) : Pending A r g where
  record := hr ▸ h.record
  journal := hw ▸ h.journal
  known := hw ▸ h.known
  owes := hw ▸ h.owes

theorem Pending.operate (hx : x ∈ r.owed ∨ x = r.candidate) :
    Pending A r { f with world := f.world.operate x operation status } := { h with
  known := (A.operate h.journal h.known h.owes hx).1
  owes := (A.operate h.journal h.known h.owes hx).2 }

theorem Pending.verify : Pending A r { f with world := f.world.verify x } := { h with
  known := (A.verify h.known h.owes).1
  owes := (A.verify h.known h.owes).2 }

end

variable {state : State}

theorem journaled_write (hs : state.pending = true) :
    Journaled slot r (w.writeJournal slot { r with state }) :=
  ⟨state, hs, by simp only [World.writeJournal, update_self]⟩

theorem Pending.written (hr : f.record = { r with state }) (hs : state.pending = true)
    (hk : A.known r f.world) (ho : A.owes r f.world) :
    Pending A r { f with world := f.world.writeJournal slot f.record } where
  record := ⟨state, hr⟩
  journal := by
    rw [hr]
    exact journaled_write hs
  known := by
    rw [hr]
    exact (A.write hs hk ho).1
  owes := by
    rw [hr]
    exact (A.write hs hk ho).2

variable {S T : Frame → Prop}

/-- A deployment of the record is started or stopped. -/
theorem triple_apply (hx : x ∈ r.owed ∨ x = r.candidate) (hok : ∀ f calls, S f →
      T { f with world := f.world.operate x operation ((f.world.status x).after operation), calls }) :
    A.Keeps (fun f => Pending A r f ∧ S f) (apply x operation) (fun _ f => Pending A r f ∧ T f)
      fun e f => e = .error ∧ Pending A r f ∧ ∃ g, S g ∧ f.switched = g.switched := by
  refine effect (fun f h => h.1.kept) fun answer f h => ?_
  cases answer with
  | ok => exact ⟨(h.1.operate hx).held rfl rfl, hok f _ h.2⟩
  | refused => exact ⟨rfl, h.1.held rfl rfl, f, h.2, rfl⟩
  | broken => exact ⟨rfl, (h.1.operate hx).held rfl rfl, f, h.2, rfl⟩

theorem triple_verify (hok : ∀ f, S f → T { f with world := f.world.verify x }) :
    A.Keeps (fun f => Pending A r f ∧ S f) (verify x) (fun _ f => Pending A r f ∧ T f)
      fun e f => e = .error ∧ Pending A r f ∧ ∃ g, S g ∧ f.switched = g.switched := by
  refine effect (fun f h => h.1.kept) fun answer f h => ?_
  cases answer with
  | ok => exact ⟨h.1.verify, hok f h.2⟩
  | refused | broken => exact ⟨rfl, h.1, f, h.2, rfl⟩

variable {raises : Stop → Frame → Prop}

/-- The record's state is noted. -/
theorem triple_note {P : World → Prop} :
    A.Keeps (fun f => (∃ old, f.record = { r with state := old }) ∧ P f.world)
      (note fun f => { f with record := { f.record with state } } : Op Unit)
      (fun _ f => f.record = { r with state } ∧ P f.world) raises := by
  refine Triple.note fun f h => ⟨?_, h.2⟩
  obtain ⟨old, hold⟩ := h.1
  rw [hold]

/-- A pending switch is written as still pending. -/
theorem triple_writePending (hstate : state.pending = true) :
    A.Keeps (Pending A r) (write slot state) (fun _ => Pending A r) raises := by
  refine seq (m := fun _ f => f.record = { r with state } ∧ A.kept f.world ∧ A.known r f.world ∧ A.owes r f.world) ?_ fun _ => ?_
  · exact (triple_note (P := fun w => A.kept w ∧ A.known r w ∧ A.owes r w)).strengthen fun f h =>
      ⟨h.record, h.kept, h.known, h.owes⟩
  exact effect (fun f h => h.2.1) fun _ f h => .written h.1 hstate h.2.2.1 h.2.2.2

/-- A switch that stopped nothing is written as over. -/
theorem triple_writeOver (hstate : state.pending = false)
    (hopen : state ≠ .complete) : A.Keeps (Quiet A r) (write slot state) (fun _ => AtEnd A) raises := by
  refine seq (m := fun _ f => f.record = { r with state } ∧ A.kept f.world ∧ A.known r f.world ∧ A.quiet r f.world) ?_ fun _ => ?_
  · exact (triple_note (P := fun w => A.kept w ∧ A.known r w ∧ A.quiet r w)).strengthen fun f h =>
      ⟨h.record, h.kept, h.known, h.quiet⟩
  refine effect (fun f h => h.2.1) fun _ f h => ?_
  rw [h.1]
  exact A.write_over hstate hopen h.2.2.1 h.2.2.2

end Pending

/-- A deployment runs. -/
def Started (w : World) (d : Deployment) : Prop := ∃ verified checked, w.status d = .running verified checked

variable {x : Deployment}

theorem started_up : Started (w.operate x .up ((w.status x).after .up)) d ↔ d = x ∨ Started w d := by
  by_cases hd : d = x
  · subst hd
    simp only [Started, World.operate, update_self, true_or, iff_true]
    cases hs : w.status d with
    | stopped | unfinished => exact ⟨false, false, rfl⟩
    | running a b => exact ⟨a, false, rfl⟩
  · simp only [Started, World.operate, update_of_ne hd, hd, false_or]

theorem started_verify (h : Started w d) : Started (w.verify x) d := by
  by_cases hd : d = x
  · obtain ⟨a, b, hs⟩ := h
    subst hd
    exact ⟨true, true, by simp only [World.verify, update_self, hs]⟩
  · obtain ⟨a, b, hs⟩ := h
    exact ⟨a, b, by simp only [World.verify, update_of_ne hd, hs]⟩

theorem checked_verify (h : Started w x) : ((w.verify x).status x).checked = true := by
  obtain ⟨a, b, hs⟩ := h
  simp only [World.verify, update_self, hs, Status.checked, Bool.and_self]

theorem checked_verify_of_checked (h : (w.status d).checked = true) : ((w.verify x).status d).checked = true := by
  by_cases hd : d = x
  · subst hd
    refine checked_verify ?_
    cases hs : w.status d with
    | stopped | unfinished => rw [hs] at h; cases h
    | running a b => exact ⟨a, b, hs⟩
  · simp only [World.verify, update_of_ne hd]
    exact h

theorem serves_of_checked (h : status.checked = true) : status.serves = true := by
  cases status with
  | stopped | unfinished => cases h
  | running =>
    simp only [Status.checked, Bool.and_eq_true] at h
    exact h.1

section BringBack

variable {r : Record}

variable {x : Deployment}

/-- One more start: every deployment is left to start or runs. -/
theorem started_next (h : ∀ d ∈ xs, d ∈ x :: rest ∨ Started w d) :
    ∀ d ∈ xs, d ∈ rest ∨ Started (w.operate x .up ((w.status x).after .up)) d := by
  intro d hd
  rcases h d hd with hmem | hs
  · rcases List.mem_cons.mp hmem with rfl | hrest
    · exact .inr (started_up.mpr (.inl rfl))
    · exact .inl hrest
  · exact .inr (started_up.mpr (.inr hs))

/-- One more verification: every deployment runs, and is left to verify or serves. -/
theorem checked_next (hs : ∀ d ∈ xs, Started w d) (h : ∀ d ∈ xs, d ∈ x :: rest ∨ (w.status d).checked = true) :
    (∀ d ∈ xs, Started (w.verify x) d) ∧ ∀ d ∈ xs, d ∈ rest ∨ ((w.verify x).status d).checked = true := by
  refine ⟨fun d hd => started_verify (hs d hd), fun d hd => ?_⟩
  rcases h d hd with hmem | hc
  · rcases List.mem_cons.mp hmem with rfl | hrest
    · exact .inr (checked_verify (hs d hd))
    · exact .inl hrest
  · exact .inr (checked_verify_of_checked hc)

theorem triple_ups (hxs : ∀ x ∈ xs, x ∈ r.owed) :
    A.Keeps (Pending A r) (forEach (fun other => apply other .up) xs)
      (fun _ f => Pending A r f ∧ ∀ d ∈ xs, Started f.world d) fun _ f => Pending A r f := by
  have hloop : A.Keeps (fun f => Pending A r f ∧ ∀ d ∈ xs, d ∈ xs ∨ Started f.world d)
      (forEach (fun other => apply other .up) xs)
      (fun _ f => Pending A r f ∧ ∀ d ∈ xs, d ∈ ([] : List Deployment) ∨ Started f.world d) fun _ f => Pending A r f := by
    refine forEach (fun rest f => Pending A r f ∧ ∀ d ∈ xs, d ∈ rest ∨ Started f.world d) ?_
    intro x hx rest
    exact (triple_apply (.inl (hxs x hx)) fun f _ h => started_next h).weaken (fun _ h => h) (fun _ _ h => h)
      fun _ _ h => h.2.1
  refine hloop.weaken (fun f h => ⟨h, fun d hd => .inl hd⟩) (fun _ f h => ⟨h.1, fun d hd => ?_⟩) fun _ _ h => h
  exact (h.2 d hd).resolve_left List.not_mem_nil

/-- Verifying all owed deployments. -/
theorem triple_verifies :
    A.Keeps (fun f => Pending A r f ∧ ∀ d ∈ xs, Started f.world d) (forEach verify xs)
      (fun _ f => Pending A r f ∧ ∀ d ∈ xs, (f.world.status d).checked = true) fun _ f => Pending A r f := by
  have hloop : A.Keeps (fun f => Pending A r f ∧ (∀ d ∈ xs, Started f.world d) ∧
        ∀ d ∈ xs, d ∈ xs ∨ (f.world.status d).checked = true) (forEach verify xs)
      (fun _ f => Pending A r f ∧ (∀ d ∈ xs, Started f.world d) ∧
        ∀ d ∈ xs, d ∈ ([] : List Deployment) ∨ (f.world.status d).checked = true) fun _ f => Pending A r f := by
    refine forEach (fun rest f => Pending A r f ∧ (∀ d ∈ xs, Started f.world d) ∧
      ∀ d ∈ xs, d ∈ rest ∨ (f.world.status d).checked = true) ?_
    intro x hx rest
    exact (triple_verify fun f h => checked_next h.1 h.2).weaken (fun _ h => h) (fun _ _ h => h) fun _ _ h => h.2.1
  refine hloop.weaken (fun f h => ⟨h.1, h.2, fun d hd => .inl hd⟩) (fun _ f h => ⟨h.1, fun d hd => ?_⟩) fun _ _ h => h
  exact (h.2.2 d hd).resolve_left List.not_mem_nil

/-- A deployment of the record is operated, with nothing more to say. -/
theorem triple_apply_pending (hx : x ∈ r.owed ∨ x = r.candidate) :
    A.Keeps (Pending A r) (apply x operation) (fun _ => Pending A r) fun _ => Pending A r :=
  (triple_apply (S := fun _ => True) (T := fun _ => True) hx fun _ _ _ => trivial).weaken (fun _ h => ⟨h, trivial⟩)
    (fun _ _ h => h.1) fun _ _ h => h.2.1

/-- All that is owed is brought back. -/
theorem triple_bringBack :
    A.Keeps (Pending A r) (bringBack r.candidate r.owed) (fun _ f => Pending A r f ∧ A.back r f.world)
      fun _ f => Pending A r f := by
  have hmem : ∀ x ∈ r.owed.eraseDups, x ∈ r.owed := fun x hx => List.mem_eraseDups.mp hx
  refine (triple_apply_pending (.inr rfl)).seq fun _ => ?_
  refine (forEach (fun _ => Pending A r) fun x hx rest => ?_).seq fun _ => ?_
  · split
    · exact ret fun _ h => h
    · exact triple_apply_pending (.inl (hmem x hx))
  refine (triple_ups hmem).seq fun _ => ?_
  refine triple_verifies.weaken (fun _ h => h) (fun _ f h => ⟨h.1, ?_⟩) fun _ _ h => h
  exact A.back_of_checked h.1.known h.1.owes fun d hd => h.2 d (List.mem_eraseDups.mpr hd)

end BringBack

section Switch

variable {r : Record} {resume : Bool}

/-- A cancel must bring deployments back. -/
def Frame.stops (f : Frame) (resume : Bool) : Bool := resume || f.switched || f.stoppedActive || f.attempted

/-- A switch under way: once it may have stopped something its journal is pending, and
before that it stopped nothing. -/
structure Going (A : Account fabric slot) (r : Record) (resume : Bool) (f : Frame) : Prop where
  /-- It may have stopped something. -/
  pending : f.stops resume = true → Pending A r f
  quiet : f.stops resume = false → Quiet A r f
  /-- What it stopped is to be brought back. -/
  switched : f.switched = true → r.restore ≠ []

theorem Going.pending_or_quiet {f : Frame} (h : Going A r resume f) : Pending A r f ∨ Quiet A r f := by
  cases hs : f.stops resume with
  | true => exact .inl (h.pending hs)
  | false => exact .inr (h.quiet hs)

theorem Going.kept {f : Frame} (h : Going A r resume f) : A.kept f.world := h.pending_or_quiet.elim Pending.kept Quiet.kept

theorem Going.record {f : Frame} (h : Going A r resume f) : ∃ state, f.record = { r with state } :=
  h.pending_or_quiet.elim Pending.record Quiet.record

theorem Going.known {f : Frame} (h : Going A r resume f) : A.known r f.world := h.pending_or_quiet.elim Pending.known Quiet.known

theorem Going.owes {f : Frame} (h : Going A r resume f) : A.owes r f.world :=
  h.pending_or_quiet.elim Pending.owes fun hq => A.owes_of_quiet hq.known hq.quiet

/-- A step of a pending switch that leaves what it holds. -/
theorem Going.of_pending {f : Frame} (h : Pending A r f) (hs : f.stops resume = true)
    (hswitched : f.switched = true → r.restore ≠ []) : Going A r resume f where
  pending _ := h
  quiet hn := by rw [hs] at hn; cases hn
  switched := hswitched

variable {S : Frame → Prop}

/-- A step is recorded unless an operator cancelled. -/
theorem triple_save {state : State} (hstate : state.pending = true)
    (hS : ∀ f w r, w.status = f.world.status → S f → S { f with world := w, record := r }) :
    A.Keeps (fun f => Going A r resume f ∧ S f) (save slot state)
      (fun _ f => Going A r resume f ∧ Pending A r f ∧ S f) fun e f => e = .cancelled ∧ Going A r resume f := by
  refine seq (m := fun _ f => Going A r resume f ∧ S f) ?_ fun _ => ?_
  · refine effect (fun f h => h.1.kept) fun answer f h => ?_
    cases answer with
    | ok => exact h
    | refused | broken => exact ⟨rfl, h.1⟩
  refine seq (m := fun _ f => (Going A r resume f ∧ S f) ∧ f.record = { r with state }) ?_ fun _ => ?_
  · refine Triple.note ?_
    rintro f ⟨h, hs⟩
    obtain ⟨old, hold⟩ := h.record
    have hrecord : { f.record with state } = { r with state } := by rw [hold]
    refine ⟨⟨⟨fun ht => ?_, fun hf => ?_, h.switched⟩, hS f f.world _ rfl hs⟩, hrecord⟩
    · have hp := h.pending ht
      exact ⟨⟨state, hrecord⟩, hp.journal, hp.known, hp.owes⟩
    · have hq := h.quiet hf
      exact ⟨⟨state, hrecord⟩, hq.kept, hq.known, hq.quiet⟩
  refine effect (fun f h => h.1.1.kept) fun _ f h => ?_
  obtain ⟨⟨hgoing, hs⟩, hrecord⟩ := h
  have hp : Pending A r { f with world := f.world.writeJournal slot f.record } :=
    .written hrecord hstate hgoing.known hgoing.owes
  refine ⟨⟨fun _ => hp, fun hf => ⟨hp.record, hp.kept, hp.known, ?_⟩, hgoing.switched⟩, hp, hS f _ f.record rfl hs⟩
  have hq := hgoing.quiet hf
  rw [hrecord]
  exact (A.write_quiet state hq.known hq.quiet).2

/-- A failed switch brings back what it owes, or only restarted the active deployment. -/
def Recovers (r : Record) (f : Frame) : Prop :=
  (f.switched = true ∨ r.previous = some r.candidate ∨ r.owed = []) ∧ (f.switched = true → r.restore ≠ [])

theorem Recovers.same {f g : Frame} (h : Recovers r g) (hs : f.switched = g.switched) : Recovers r f := by
  unfold Recovers at *
  rw [hs]
  exact h

/-- A switch that raised: cancelled with what it may have stopped in its journal, or
failed. -/
def Interrupted (A : Account fabric slot) (r : Record) (resume : Bool) (e : Stop) (f : Frame) : Prop :=
  e = .cancelled ∧ Going A r resume f ∨ e = .error ∧ Pending A r f ∧ Recovers r f

/-- A deployment that the switch brings back stops. -/
theorem triple_stop {x : Deployment} (hx : x ∈ r.restore) :
    A.Keeps (Going A r resume)
      (do
        save slot .stoppingPrevious
        note fun f => { f with switched := true }
        apply x .down)
      (fun _ f => Going A r resume f ∧ f.switched = true) (Interrupted A r resume) := by
  have hne : r.restore ≠ [] := List.ne_nil_of_mem hx
  have howed : x ∈ r.owed := by
    rcases List.mem_append.mp hx with hp | hd
    · exact List.mem_append_left _ (List.mem_of_mem_filter hp)
    · exact List.mem_append_right _ hd
  refine seq (m := fun _ => Pending A r) ?_ fun _ => ?_
  · exact (triple_save (S := fun _ => True) rfl fun _ _ _ _ _ => trivial).weaken (fun _ h => ⟨h, trivial⟩)
      (fun _ _ h => h.2.1) fun _ _ h => .inl h
  refine seq (m := fun _ f => Pending A r f ∧ f.switched = true) ?_ fun _ => ?_
  · exact Triple.note fun f h => ⟨h.held rfl rfl, rfl⟩
  have hdown : A.Keeps (fun f => Pending A r f ∧ f.switched = true) (apply x .down)
      (fun _ f => Pending A r f ∧ f.switched = true)
      fun e f => e = .error ∧ Pending A r f ∧ ∃ g : Frame, g.switched = true ∧ f.switched = g.switched :=
    triple_apply (.inl howed) fun f _ h => h
  refine hdown.weaken (fun _ h => h) (fun _ f h => ?_) fun _ f h => ?_
  · exact ⟨.of_pending h.1 (by simp [Frame.stops, h.2]) fun _ => hne, h.2⟩
  · obtain ⟨rfl, hp, g, hg, heq⟩ := h
    exact .inr ⟨rfl, hp, .inl (heq.trans hg), fun _ => hne⟩

/-- The previous deployment stops. -/
theorem triple_stopPrevious :
    A.Keeps (Going A r resume) (stopPrevious slot r stopped)
      (fun _ f => Going A r resume f ∧ (f.switched = true ∨ r.previous = some r.candidate ∨ r.previous = none))
      (Interrupted A r resume) := by
  unfold stopPrevious
  cases hprevious : r.previous with
  | none => exact ret fun f h => ⟨h, .inr (.inr rfl)⟩
  | some previous =>
    simp only
    split
    case isTrue hne =>
      have hx : previous ∈ r.restore := by
        simp [Record.restore, hprevious, hne]
      exact (triple_stop hx).weaken (fun _ h => h) (fun _ f h => ⟨h.1, .inl h.2⟩) fun _ _ h => h
    case isFalse heq =>
      rw [not_not] at heq
      subst heq
      split
      case isTrue => exact ret fun f h => ⟨h, .inr (.inl rfl)⟩
      case isFalse =>
        refine seq (m := fun _ => Going A r resume) ?_ fun serves => ?_
        · exact effect (fun f h => h.kept) fun _ f h => h
        split
        case isTrue => exact ret fun f h => ⟨h, .inr (.inl rfl)⟩
        case isFalse =>
          refine seq (m := fun _ f => Pending A r f ∧ (f.switched = true → r.restore ≠ [])) ?_ fun _ => ?_
          · exact (triple_save (S := fun _ => True) rfl fun _ _ _ _ _ => trivial).weaken (fun _ h => ⟨h, trivial⟩)
              (fun _ f h => ⟨h.2.1, h.1.switched⟩) fun _ _ h => .inl h
          refine seq (m := fun _ f => Pending A r f ∧ (f.switched = true → r.restore ≠ [])) ?_ fun _ => Triple.note fun f h => ?_
          · exact (triple_apply (.inr rfl) fun f _ h => h).weaken (fun _ h => h) (fun _ _ h => h) fun _ f h => by
              obtain ⟨rfl, hp, g, hg, heq⟩ := h
              exact .inr ⟨rfl, hp, .inr (.inl hprevious), fun hs => hg (heq ▸ hs)⟩
          exact ⟨.of_pending (h.1.held rfl rfl) (by simp [Frame.stops]) h.2, .inr (.inl rfl)⟩

theorem triple_stopAll :
    A.Keeps
      (fun f => Going A r resume f ∧ (f.switched = true ∨ r.previous = some r.candidate ∨ r.previous = none))
      (forEach (stopDisplaced slot) r.displaced) (fun _ f => Going A r resume f ∧ Recovers r f)
      (Interrupted A r resume) := by
  have hloop : A.Keeps
      (fun f => Going A r resume f ∧
        (f.switched = true ∨ r.previous = some r.candidate ∨ r.previous = none ∧ r.displaced = r.displaced))
      (forEach (stopDisplaced slot) r.displaced)
      (fun _ f => Going A r resume f ∧
        (f.switched = true ∨ r.previous = some r.candidate ∨ r.previous = none ∧ [] = r.displaced))
      (Interrupted A r resume) := by
    refine forEach (fun rest f => Going A r resume f ∧
      (f.switched = true ∨ r.previous = some r.candidate ∨ r.previous = none ∧ rest = r.displaced)) ?_
    intro x hx rest
    have hmem : x ∈ r.restore := List.mem_append_right _ hx
    exact (triple_stop hmem).weaken (fun _ h => h.1) (fun _ f h => ⟨h.1, .inl h.2⟩) fun _ _ h => h
  refine hloop.weaken (fun f h => ⟨h.1, ?_⟩) (fun _ f h => ⟨h.1, ?_⟩) fun _ _ h => h
  · rcases h.2 with hs | hp | hp
    · exact .inl hs
    · exact .inr (.inl hp)
    · exact .inr (.inr ⟨hp, rfl⟩)
  refine ⟨?_, h.1.switched⟩
  rcases h.2 with hs | hp | ⟨hp, hd⟩
  · exact .inl hs
  · exact .inr (.inl hp)
  · exact .inr (.inr (by simp [Record.owed, hp, ← hd]))

/-- A switch that starts its candidate. -/
def Trying (r : Record) (f : Frame) : Prop := Recovers r f ∧ f.attempted = true

theorem Going.of_trying {f : Frame} (h : Pending A r f) (ht : Trying r f) : Going A r resume f :=
  .of_pending h (by simp [Frame.stops, ht.2]) ht.1.2

theorem triple_switch :
    A.Keeps (Going A r resume) (switch fabric slot r stopped) (fun _ => AtEnd A) (Interrupted A r resume) := by
  refine triple_stopPrevious.seq fun _ => ?_
  refine triple_stopAll.seq fun _ => ?_
  refine seq (m := fun _ f => Pending A r f ∧ Recovers r f) ?_ fun _ => ?_
  · exact (triple_save (S := Recovers r) rfl fun _ _ _ _ h => h).weaken (fun _ h => h) (fun _ f h => h.2) fun _ _ h => .inl h
  refine seq (m := fun _ f => Pending A r f ∧ Trying r f) ?_ fun _ => ?_
  · exact Triple.note fun f h => ⟨h.1.held rfl rfl, h.2, rfl⟩
  refine seq (m := fun _ f => Pending A r f ∧ Trying r f ∧ Started f.world r.candidate) ?_ fun _ => ?_
  · refine (triple_apply (S := Trying r) (T := fun f => Trying r f ∧ Started f.world r.candidate) (.inr rfl)
      fun f _ h => ⟨h, started_up.mpr (.inl rfl)⟩).weaken (fun _ h => h) (fun _ _ h => h) fun _ f h => ?_
    obtain ⟨rfl, hp, g, hg, heq⟩ := h
    exact .inr ⟨rfl, hp, hg.1.same heq⟩
  refine seq (m := fun _ f => Pending A r f ∧ Trying r f ∧ Started f.world r.candidate) ?_ fun _ => ?_
  · refine (triple_save (S := fun f => Trying r f ∧ Started f.world r.candidate) rfl ?_).weaken
      (fun _ h => ⟨.of_trying h.1 h.2.1, h.2⟩) (fun _ f h => h.2) fun _ _ h => .inl h
    rintro f w r' hw ⟨ht, a, b, hs⟩
    exact ⟨ht, a, b, by rw [← hs, hw]⟩
  refine seq
    (m := fun _ f => Pending A r f ∧ Trying r f ∧ (f.world.status r.candidate).checked = true ∧
      .verified r.candidate ∈ f.world.log) ?_ fun _ => ?_
  · refine (triple_verify (S := fun f => Trying r f ∧ Started f.world r.candidate)
      (T := fun f => Trying r f ∧ (f.world.status r.candidate).checked = true ∧ .verified r.candidate ∈ f.world.log)
      fun f h => ⟨h.1, checked_verify h.2, List.mem_cons_self⟩).weaken (fun _ h => h) (fun _ _ h => h) fun _ f h => ?_
    obtain ⟨rfl, hp, g, hg, heq⟩ := h
    exact .inr ⟨rfl, hp, hg.1.1.same heq⟩
  refine seq (m := fun _ f => (Journaled slot r f.world ∧ A.known r f.world ∧ A.owes r f.world) ∧ Verified r f) ?_ fun _ => A.commit
  · refine effect (fun f h => h.1.kept) fun answer f h => ?_
    cases answer with
    | ok => exact ⟨⟨h.1.journal, h.1.known, h.1.owes⟩, h.1.record, h.2.2.1, h.2.2.2⟩
    | refused | broken => exact .inl ⟨rfl, .of_trying h.1 h.2.1⟩

/-- The active record names the previous deployment again. -/
theorem triple_restoreActive {raises : Stop → Frame → Prop} :
    A.Keeps (fun f => Pending A r f ∧ A.back r f.world) (restoreActive slot r) (fun _ => Quiet A r) raises := by
  unfold restoreActive
  have hquiet : r.previous = none ∨ r.previous = some r.candidate → ∀ f, Pending A r f ∧ A.back r f.world → Quiet A r f :=
    fun hr f h => ⟨h.1.record, h.1.kept, h.1.known, A.quiet_of_back h.1.known h.2 (.inr hr)⟩
  split
  case h_1 heq => exact ret (hquiet (.inl heq))
  case h_2 previous heq =>
    split
    case isTrue hsame => exact ret (hquiet (.inr (hsame ▸ heq)))
    case isFalse =>
      refine effect (fun f h => h.1.kept) fun _ f h => ?_
      obtain ⟨hknown, howes, hq⟩ := A.restore h.1.journal h.1.known h.1.owes h.2 heq
      have hjournal : Journaled slot r (f.world.writeActive slot previous) := h.1.journal
      exact ⟨h.1.record, (A.pending hjournal hknown howes).1, hknown, hq⟩

theorem restore_eq_owed (h : A.known r w) (hne : r.restore ≠ []) : r.restore = r.owed := by
  have hprevious : r.previous ≠ some r.candidate := by
    intro heq
    exact hne (by simp [Record.restore, heq, A.alone h heq])
  unfold Record.restore Record.owed
  cases hp : r.previous with
  | none => rfl
  | some previous =>
    have hother : previous ≠ r.candidate := fun heq => hprevious (heq ▸ hp)
    simp [hother]

/-- What a cancelled switch brings back is what it owes. -/
theorem cancelBack_eq_owed {f : Frame} (h : Going A r resume f) (hs : f.stops resume = true) : cancelBack f r resume = r.owed := by
  unfold cancelBack
  split
  case isTrue heq =>
    have hswitched : f.switched = false := by
      cases hsw : f.switched with
      | true => exact absurd heq (h.switched hsw)
      | false => rfl
    have hrest : (f.stoppedActive || f.attempted || resume) = true := by
      simp only [Frame.stops, hswitched, Bool.or_false] at hs
      revert hs
      cases f.stoppedActive <;> cases f.attempted <;> cases resume <;> decide
    have hdisplaced : r.displaced = [] := (List.append_eq_nil_iff.mp heq).2
    rw [if_pos hrest]
    simp [Record.owed, hdisplaced]
  case isFalse hne => exact restore_eq_owed h.known hne

theorem triple_leaveCancelled :
    A.Keeps (Going A r resume) (leaveCancelled slot r resume) (fun _ => AtEnd A) fun _ => AtEnd A := by
  refine seq (m := fun back f => Going A r resume f ∧ (f.stops resume = true → back = r.owed)) ?_ fun back => ?_
  · exact Triple.look fun f h => ⟨h, cancelBack_eq_owed h⟩
  refine seq (m := fun _ => AtEnd A) ?_ fun _ => raise fun _ h => h
  refine handle (m := fun _ => Pending A r) ?_ fun _ => ?_
  · have hstops : A.Keeps (fun f => Going A r resume f ∧ (f.stops resume = true → back = r.owed))
        (look fun f => resume || f.switched || f.stoppedActive || f.attempted : Op Bool)
        (fun stops f => if stops then Pending A r f ∧ back = r.owed else Quiet A r f) fun _ => Pending A r := by
      refine Triple.look fun f h => ?_
      split
      case isTrue hs => exact ⟨h.1.pending hs, h.2 hs⟩
      case isFalse hs => exact h.1.quiet (Bool.not_eq_true _ ▸ hs)
    refine hstops.seq fun stops => ?_
    cases stops with
    | true =>
      by_cases hback : back = r.owed
      · subst hback
        refine (triple_bringBack.strengthen fun _ h => h.1).seq fun _ => ?_
        refine triple_restoreActive.seq fun _ => ?_
        exact triple_writeOver rfl (by decide)
      · exact fun f _ h => absurd h.2 hback
    | false =>
      exact triple_writeOver rfl (by decide)
  refine (triple_writePending rfl).seq fun _ => ?_
  exact raise fun _ h => h.atEnd

theorem triple_leaveFailed :
    A.Keeps (fun f => Pending A r f ∧ Recovers r f) (leaveFailed slot r) (fun _ => AtEnd A)
      fun _ => AtEnd A := by
  refine seq
    (m := fun switched f => (if switched then r.restore = r.owed else r.previous = some r.candidate ∨ r.owed = []) ∧
      Pending A r f) ?_ fun switched => assume fun hrestore => ?_
  · refine Triple.look fun f h => ⟨?_, h.1⟩
    split
    case isTrue hs => exact restore_eq_owed h.1.known (h.2.2 hs)
    case isFalse hs => exact h.2.1.resolve_left hs
  cases switched with
  | true =>
    refine (triple_writePending rfl).seq fun _ => ?_
    refine seq (m := fun _ => AtEnd A) ?_ fun _ => raise fun _ h => h
    refine handle (m := fun _ => Pending A r) ?_ fun _ => ?_
    · rw [hrestore]
      refine triple_bringBack.seq fun _ => ?_
      refine triple_restoreActive.seq fun _ => ?_
      exact triple_writeOver rfl (by decide)
    exact (triple_writePending rfl).weaken (fun _ h => h) (fun _ f h => h.atEnd) fun _ _ h => h
  | false =>
    refine seq (m := fun _ => AtEnd A) ?_ fun _ => raise fun _ h => h
    refine seq
      (m := fun _ f => f.record = { r with state := .failed } ∧ A.kept f.world ∧ A.known r f.world ∧
        A.owes r f.world) ?_ fun _ => ?_
    · exact (triple_note (P := fun w => A.kept w ∧ A.known r w ∧ A.owes r w)).strengthen fun f h =>
        ⟨h.record, h.kept, h.known, h.owes⟩
    refine effect (fun f h => h.2.1) fun _ f h => ?_
    rw [h.1]
    exact A.failed h.2.2.1 h.2.2.2 hrestore

end Switch

/-- A call takes a switch up again. -/
def Resumes (w : World) (call : Call) : Prop :=
  ∃ r, w.journal call.slot = some r ∧ r.state.pending = true ∧ abandoned r call.directory = false

/-- A call replaces an unfinished switch. -/
def Replaces (w : World) (call : Call) (r : Record) : Prop :=
  w.journal call.slot = some r ∧ r.state.pending = true ∧ abandoned r call.directory = true ∧ call.supersede = true

/-- The record of a call's new switch. -/
def Call.fresh (call : Call) : Record := ⟨call.directory, call.previous, call.displaced, .preparing⟩

/-- A call that an account can follow. -/
structure Begins {call : Call} (A : Account fabric call.slot) (w : World) : Prop where
  /-- It may crash at once. -/
  kept : A.kept w
  /-- A switch it takes up again. -/
  resumed : ∀ r, w.journal call.slot = some r → r.state.pending = true → A.known r w ∧ A.owes r w
  /-- A new switch. -/
  fresh : ¬JournalPending call.slot w → A.known call.fresh w ∧ A.quiet call.fresh w
  /-- A new switch in the place of an unfinished one, whose candidate it stops. -/
  replaced : ∀ r, Replaces w call r → ∀ v, (v = w ∨ ∃ status, v = w.operate r.candidate .down status) →
    A.kept v ∧ A.known call.fresh v ∧ A.quiet call.fresh v

section Execute

variable {call : Call} {A : Account fabric call.slot} {r : Record} {resume : Bool}

/-- A frame that holds a record and did nothing yet. -/
structure Entered (A : Account fabric slot) (r : Record) (resume : Bool) (f : Frame) : Prop where
  /-- It may resume a switch. -/
  going : Going A r resume f
  flags : f.switched = false ∧ f.stoppedActive = false ∧ f.attempted = false

theorem Entered.of_quiet {f : Frame} (h : Quiet A r f)
    (hf : f.switched = false ∧ f.stoppedActive = false ∧ f.attempted = false) : Entered A r false f where
  going := {
    pending := fun hs => by simp [Frame.stops, hf] at hs
    quiet := fun _ => h
    switched := fun hs => by simp [hf] at hs }
  flags := hf

theorem Entered.quiet {f : Frame} (h : Entered A r false f) : Quiet A r f :=
  h.going.quiet (by simp [Frame.stops, h.flags])

/-- A frame that holds a record in a world. -/
structure Found (w : World) (r : Record) (f : Frame) : Prop where
  world : f.world = w
  record : f.record = r
  flags : f.switched = false ∧ f.stoppedActive = false ∧ f.attempted = false

theorem Found.entered {f : Frame} (h : Found v call.fresh f) (hk : A.kept v) (hr : A.known call.fresh v)
    (hq : A.quiet call.fresh v) : Entered A call.fresh false f := by
  obtain ⟨rfl, hrecord, hflags⟩ := h
  exact .of_quiet ⟨⟨.preparing, hrecord⟩, hk, hr, hq⟩ hflags

/-- What a call raises: refused at once, it changed nothing. -/
def Raised (A : Account fabric slot) (w : World) (e : Stop) (f : Frame) : Prop :=
  e = .refused ∧ f.world = w ∨ AtEnd A f

/-- A call takes up the slot's journal. -/
theorem triple_takeUp (h : Begins A w) :
    A.Keeps (fun f => f.world = w) (takeUp call)
      (fun resume f => ∃ r, r.candidate = call.directory ∧ Entered A r resume f) (Raised A w) := by
  have hcrash : ∀ f, Found w call.fresh f → AtCrash A f := fun f hf => by
    rw [AtCrash, hf.world]
    exact h.kept
  refine seq (m := fun _ => Found w call.fresh) ?_ fun _ => ?_
  · exact Triple.note fun f h => ⟨h, rfl, rfl, rfl, rfl⟩
  refine seq
    (m := fun journal f => journal = w.journal call.slot ∧
      Found w call.fresh f) ?_ fun journal => assume fun hj => ?_
  · exact Triple.look fun f hf => ⟨by rw [hf.world], hf⟩
  -- without a pending journal a new switch begins
  have hbegin : ¬JournalPending call.slot w → A.Keeps (Found w call.fresh) (pure false : Op Bool)
      (fun resume f => ∃ r, r.candidate = call.directory ∧ Entered A r resume f) (Raised A w) := by
    intro hnone
    exact ret fun f hf => ⟨call.fresh, rfl, hf.entered h.kept (h.fresh hnone).1 (h.fresh hnone).2⟩
  cases journal with
  | none =>
    refine hbegin ?_
    rintro ⟨r, hr, -⟩
    rw [← hj] at hr
    cases hr
  | some retained =>
    simp only
    split
    case isFalse hpending =>
      refine hbegin ?_
      rintro ⟨r, hr, hpending'⟩
      rw [← hj] at hr
      cases hr
      exact hpending hpending'
    case isTrue hpending =>
      split
      case isFalse habandoned =>
        have hsame : retained.candidate = call.directory := by
          simp only [abandoned, Bool.or_eq_true, decide_eq_true_eq, not_or, not_not] at habandoned
          exact habandoned.2
        refine seq (m := fun _ => Found w retained) ?_ fun _ => ret fun f hf => ?_
        · exact Triple.note fun f hf => ⟨hf.world, rfl, hf.flags⟩
        obtain ⟨hknown, howes⟩ := h.resumed retained hj.symm hpending
        obtain ⟨rfl, hrecord, hflags⟩ := hf
        have hpend : Pending A retained f := ⟨⟨retained.state, hrecord⟩, ⟨retained.state, hpending, hj.symm⟩, hknown, howes⟩
        exact ⟨retained, hsame, .of_pending hpend rfl fun hs => by simp [hflags] at hs, hflags⟩
      case isTrue habandoned =>
        split
        case isFalse => exact raise fun f hf => .inl ⟨rfl, hf.world⟩
        case isTrue hsupersede =>
          have hreplaced := h.replaced retained ⟨hj.symm, hpending, habandoned, hsupersede⟩
          refine seq (m := fun _ => Entered A call.fresh false) ?_ fun _ => ret fun f hf => ⟨call.fresh, rfl, hf⟩
          · refine handle (m := fun _ => Entered A call.fresh false) ?_ fun _ => ret fun _ h => h
            refine effect hcrash fun answer f hf => ?_
            have hentered : ∀ v, (v = w ∨ ∃ status, v = w.operate retained.candidate .down status) → ∀ g : Frame,
                Found v call.fresh g → Entered A call.fresh false g := by
              intro v hv g hg
              obtain ⟨hkept, hknown, hquiet⟩ := hreplaced v hv
              exact hg.entered hkept hknown hquiet
            obtain ⟨rfl, hrecord, hflags⟩ := hf
            cases answer with
            | ok => exact hentered _ (.inr ⟨_, rfl⟩) _ ⟨rfl, hrecord, hflags⟩
            | refused => exact hentered _ (.inl rfl) _ ⟨rfl, hrecord, hflags⟩
            | broken => exact hentered _ (.inr ⟨_, rfl⟩) _ ⟨rfl, hrecord, hflags⟩

theorem triple_getReady (hr : r.candidate = call.directory) :
    A.Keeps (Entered A r false) (getReady call) (fun _ => Entered A r false) fun _ => AtEnd A := by
  have hstop : ∀ {α : Type} {state : State} (stop : Stop), state.pending = false → state ≠ .complete →
      A.Keeps (Entered A r false)
        (do
          write call.slot state
          raise stop : Op α)
        (fun _ => Entered A r false) fun _ => AtEnd A := by
    intro α state stop hstate hopen
    have hover : A.Keeps (Quiet A r) (write call.slot state) (fun _ => AtEnd A) fun _ => AtEnd A :=
      triple_writeOver hstate hopen
    exact (hover.strengthen fun f h => h.quiet).seq fun _ => raise fun _ h => h
  have hsave : A.Keeps (Entered A r false) (save call.slot .preparing) (fun _ => Entered A r false)
      fun _ => Entered A r false := by
    refine seq (m := fun _ => Entered A r false) ?_ fun _ => ?_
    · refine effect (fun f h => h.quiet.kept) fun answer f h => ?_
      cases answer <;> exact h
    refine seq (m := fun _ f => Entered A r false f ∧ f.record = { r with state := .preparing }) ?_ fun _ => ?_
    · refine Triple.note fun f h => ?_
      obtain ⟨old, hold⟩ := h.quiet.record
      have hrecord : { f.record with state := .preparing } = { r with state := .preparing } := by rw [hold]
      exact ⟨.of_quiet ⟨⟨.preparing, hrecord⟩, h.quiet.kept, h.quiet.known, h.quiet.quiet⟩ h.flags, hrecord⟩
    refine effect (fun f h => h.1.quiet.kept) fun _ f h => ?_
    have hq := h.1.quiet
    refine .of_quiet ⟨⟨.preparing, h.2⟩, ?_, ?_, ?_⟩ h.1.flags
    · rw [h.2]
      exact (A.write_over rfl (by decide) hq.known hq.quiet).1
    · rw [h.2]
      exact (A.write_quiet .preparing hq.known hq.quiet).1
    · rw [h.2]
      exact (A.write_quiet .preparing hq.known hq.quiet).2
  have hcancelled : ∀ stop, A.Keeps (Entered A r false)
      (do
        write call.slot .cancelled
        raise stop : Op Unit)
      (fun _ => Entered A r false) fun _ => AtEnd A := fun stop => hstop stop rfl (by decide)
  refine (hsave.handle hcancelled).seq fun _ => ?_
  refine handle (m := fun _ => Entered A r false) ?_ fun stop => hstop stop rfl (by decide)
  · have hunfinished : A.Keeps (Entered A r false) (stopUnfinished call.directory)
        (fun _ => Entered A r false) fun _ => Entered A r false := by
      refine seq (m := fun status f => Entered A r false f ∧ f.world.status call.directory = status) ?_ fun status => ?_
      · exact Triple.look fun f h => ⟨h, rfl⟩
      cases status with
      | stopped | running => exact ret fun f h => h.1
      | unfinished operation =>
        refine seq (m := fun _ => Entered A r false) ?_ fun _ => ret fun _ h => h
        · refine effect (fun f h => h.1.quiet.kept) fun answer f h => ?_
          have hq := h.1.quiet
          have hstatus := h.2
          rw [← hr] at hstatus ⊢
          have hmoved : ∀ status calls,
              Entered A r false { f with world := f.world.operate r.candidate .down status, calls } := by
            intro status calls
            obtain ⟨hknown, hquiet, hkept⟩ : A.known r (f.world.operate r.candidate .down status) ∧
                A.quiet r (f.world.operate r.candidate .down status) ∧
                (A.kept f.world → A.kept (f.world.operate r.candidate .down status)) :=
              A.stop_unfinished hq.known hq.quiet hstatus
            exact .of_quiet ⟨hq.record, hkept hq.kept, hknown, hquiet⟩ h.1.flags
          cases answer with
          | ok => exact hmoved _ _
          | refused => exact .of_quiet ⟨hq.record, hq.kept, hq.known, hq.quiet⟩ h.1.flags
          | broken => exact hmoved _ _
    refine hunfinished.seq fun stopped => ?_
    refine seq (m := fun _ => Entered A r false) ?_ fun _ => ret fun _ h => h
    · refine effect (fun f h => h.quiet.kept) fun answer f h => ?_
      cases answer <;> exact h

theorem Going.hold {f : Frame} (state : State) (h : Going A r resume f) : Going A { r with state } resume f := { h with
  pending hs := ⟨(h.pending hs).record, (h.pending hs).journal, A.known_state state (h.pending hs).known,
    A.owes_state state (h.pending hs).owes⟩
  quiet hs := ⟨(h.quiet hs).record, (h.quiet hs).kept, A.known_state state (h.quiet hs).known,
    A.quiet_state state (h.quiet hs).quiet⟩ }

theorem triple_execute (h : Begins A w) :
    A.Keeps (fun f => f.world = w) (execute fabric call) (fun _ => AtEnd A) (Raised A w) := by
  refine (triple_takeUp h).seq fun resume => ?_
  have hswitch : ∀ leave : Record → Stop → Op Unit, (∀ record, leave record .cancelled = leaveCancelled call.slot record resume ∧
      leave record .error = leaveFailed call.slot record ∧ leave record .refused = leaveFailed call.slot record) → ∀ stopped,
      A.Keeps (fun f => ∃ r, Going A r resume f)
        (do
          let record ← look fun f => f.record
          handle (switch fabric call.slot record stopped) (leave record))
        (fun _ => AtEnd A) (Raised A w) := by
    intro leave hleave stopped
    refine seq (m := fun record => Going A record resume) ?_ fun record => triple_switch.handle fun stop => ?_
    · refine Triple.look ?_
      rintro f ⟨r, h⟩
      obtain ⟨state, hstate⟩ := h.record
      rw [hstate]
      exact h.hold state
    cases stop with
    | cancelled =>
      rw [(hleave _).1]
      refine triple_leaveCancelled.weaken ?_ (fun _ _ h => h) fun _ _ h => .inr h
      rintro f (h | h)
      · exact h.2
      · cases h.1
    | error =>
      rw [(hleave _).2.1]
      refine triple_leaveFailed.weaken ?_ (fun _ _ h => h) fun _ _ h => .inr h
      rintro f (h | h)
      · cases h.1
      · exact h.2
    | refused =>
      rw [(hleave _).2.2]
      refine triple_leaveFailed.weaken ?_ (fun _ _ h => h) fun _ _ h => .inr h
      rintro f (h | h)
      · cases h.1
      · cases h.1
  cases resume with
  | true =>
    refine seq (m := fun _ f => ∃ r, Going A r true f) ?_ (hswitch _ fun _ => ⟨rfl, rfl, rfl⟩)
    · refine ret fun f hf => ?_
      obtain ⟨r, _, h⟩ := hf
      exact ⟨r, h.going⟩
  | false =>
    refine seq (m := fun _ f => ∃ r, Going A r false f) ?_ (hswitch _ fun _ => ⟨rfl, rfl, rfl⟩)
    · rintro f script ⟨r, hr, h⟩
      exact (triple_getReady hr).weaken (fun _ h => h) (fun _ _ h => ⟨r, h.going⟩) (fun _ _ h => .inr h) f script h

end Execute

section Settle

variable {r : Record} {S T : Frame → Prop} {p : Op Unit}

/-- Something is tried: what it leaves when it succeeds and when it raises. -/
theorem triple_attempt (hp : A.Keeps S p (fun _ => T) fun _ => Pending A r) :
    A.Keeps S (attempt p) (fun done f => if done then T f else Pending A r f) fun _ _ => False := by
  refine handle (m := fun _ => Pending A r) ?_ fun _ => ret fun f h => by simpa using h
  · exact hp.seq fun _ => ret fun f h => by simpa using h

/-- Something is tried of every deployment; where all succeed an invariant of what is
left is kept. -/
theorem triple_attemptAll {f : Deployment → Op Unit} (inv : List Deployment → Frame → Prop)
    (h : ∀ x ∈ xs, ∀ rest, A.Keeps (inv (x :: rest)) (f x) (fun _ => inv rest) fun _ => Pending A r)
    (hany : ∀ x ∈ xs, A.Keeps (Pending A r) (f x) (fun _ => Pending A r) fun _ => Pending A r) :
    A.Keeps (inv xs) (attemptAll f xs) (fun done g => if done then inv [] g else Pending A r g)
      fun _ _ => False := by
  have hrest : ∀ ys, (∀ y ∈ ys, y ∈ xs) → A.Keeps (Pending A r) (attemptAll f ys) (fun _ => Pending A r)
      fun _ _ => False := by
    intro ys
    induction ys with
    | nil => exact fun _ => ret fun _ h => h
    | cons y ys ih =>
      intro hys
      refine (triple_attempt (hany y (hys y List.mem_cons_self))).seq fun first => ?_
      have hothers := ih fun z hz => hys z (List.mem_cons_of_mem y hz)
      refine (hothers.strengthen ?_).seq fun others => ret fun _ h => h
      intro g hg
      cases first <;> simpa using hg
  have hall : ∀ ys, (∀ y ∈ ys, y ∈ xs) → A.Keeps (inv ys) (attemptAll f ys)
      (fun done g => if done then inv [] g else Pending A r g) fun _ _ => False := by
    intro ys
    induction ys with
    | nil => exact fun _ => ret fun _ h => by simpa using h
    | cons y ys ih =>
      intro hys
      have htail : ∀ z ∈ ys, z ∈ xs := fun z hz => hys z (List.mem_cons_of_mem y hz)
      refine (triple_attempt (h y (hys y List.mem_cons_self) ys)).seq fun first => ?_
      cases first with
      | true =>
        refine ((ih htail).strengthen fun g hg => by simpa using hg).seq fun others => ret fun g hg => ?_
        simpa using hg
      | false =>
        refine ((hrest ys htail).strengthen fun g hg => by simpa using hg).seq fun others => ret fun g hg => ?_
        simpa using hg
  exact hall xs fun _ hx => hx

theorem settleBack_eq_owed (h : A.known r w) (hs : r.state.pending = true) : settleBack r = r.owed := by
  unfold settleBack
  split
  case isTrue heq =>
    rw [heq] at hs
    cases hs
  case isFalse =>
    split
    case isTrue heq =>
      have hdisplaced : r.displaced = [] := (List.append_eq_nil_iff.mp heq).2
      have hprevious := (List.append_eq_nil_iff.mp heq).1
      cases hp : r.previous with
      | none => simp [Record.owed, hp, hdisplaced]
      | some previous =>
        have hsame : previous = r.candidate := by simpa [hp] using hprevious
        simp [Record.owed, hp, hdisplaced, hsame]
    case isFalse hne => exact restore_eq_owed h hne

/-- The active record of a settled switch is the previous one. -/
theorem triple_settleActive {raises : Stop → Frame → Prop} :
    A.Keeps (fun f => Pending A r f ∧ A.back r f.world) (settleActive slot r) (fun _ => Quiet A r) raises := by
  refine seq (m := fun active f => (Pending A r f ∧ A.back r f.world) ∧ f.world.active slot = active) ?_ fun active => ?_
  · exact Triple.look fun _ h => ⟨h, rfl⟩
  split
  case isFalse hne =>
    refine ret fun f h => ⟨h.1.1.record, h.1.1.kept, h.1.1.known, A.quiet_of_back h.1.1.known h.1.2 (.inl ?_)⟩
    rw [h.2]
    exact hne
  case isTrue heq =>
    split
    case h_1 previous hprevious =>
      refine effect (fun f h => h.1.1.kept) fun _ f h => ?_
      obtain ⟨hknown, howes, hq⟩ := A.restore h.1.1.journal h.1.1.known h.1.1.owes h.1.2 hprevious
      have hjournal : Journaled slot r (f.world.writeActive slot previous) := h.1.1.journal
      exact ⟨h.1.1.record, (A.pending hjournal hknown howes).1, hknown, hq⟩
    case h_2 hprevious =>
      refine effect (fun f h => h.1.1.kept) fun _ f h => ?_
      obtain ⟨hknown, howes, hq⟩ := A.forget h.1.1.known h.1.1.owes h.1.2 hprevious (h.2.trans heq)
      have hjournal : Journaled slot r (f.world.removeActive slot) := h.1.1.journal
      exact ⟨h.1.1.record, (A.pending hjournal hknown howes).1, hknown, hq⟩

/-- Every settlement keeps the account. -/
theorem triple_settle (hkept : A.kept w)
    (h : ∀ r, w.journal slot = some r → r.state.pending = true → A.known r w ∧ A.owes r w) :
    A.Keeps (fun f => f.world = w) (settle slot) (fun _ => AtEnd A) (Raised A w) := by
  refine seq (m := fun journal f => w.journal slot = journal ∧ f.world = w) ?_ fun journal => assume fun hj => ?_
  · exact Triple.look fun f h => ⟨by rw [h], h⟩
  cases journal with
  | none => exact raise fun f hf => .inl ⟨rfl, hf⟩
  | some r =>
    simp only
    split
    case isFalse => exact raise fun f hf => .inl ⟨rfl, hf⟩
    case isTrue hpending =>
      obtain ⟨hknown, howes⟩ := h r hj hpending
      refine seq (m := fun _ => Pending A r) ?_ fun _ => ?_
      · refine Triple.note fun f hf => ?_
        obtain rfl := hf
        exact ⟨⟨r.state, rfl⟩, ⟨r.state, hpending, hj⟩, hknown, howes⟩
      rw [settleBack_eq_owed hknown hpending]
      have hverify : ∀ x, A.Keeps (Pending A r) (verify x) (fun _ => Pending A r) fun _ => Pending A r := by
        intro x
        exact (triple_verify (S := fun _ => True) (T := fun _ => True) fun _ _ => trivial).weaken
          (fun _ h => ⟨h, trivial⟩) (fun _ _ h => h.1) fun _ _ h => h.2.1
      refine seq (m := fun _ => Pending A r) ?_ fun first => ?_
      · refine (triple_attempt (triple_apply_pending (.inr rfl))).weaken (fun _ h => h) (fun done _ h => ?_)
          fun _ _ h => h.elim
        cases done <;> simpa using h
      refine seq (m := fun _ => Pending A r) ?_ fun downs => ?_
      · refine (triple_attemptAll (fun _ => Pending A r) (fun x hx _ => triple_apply_pending (.inl hx))
          fun x hx => triple_apply_pending (.inl hx)).weaken (fun _ h => h) (fun done _ h => ?_) fun _ _ h => h.elim
        cases done <;> simpa using h
      refine seq (m := fun ups f => Pending A r f ∧ (ups = true → ∀ d ∈ r.owed, Started f.world d)) ?_ fun ups => ?_
      · refine (triple_attemptAll (fun rest f => Pending A r f ∧ ∀ d ∈ r.owed, d ∈ rest ∨ Started f.world d) ?_
          fun x hx => triple_apply_pending (.inl hx)).weaken (fun _ h => ⟨h, fun d hd => .inl hd⟩) (fun done _ h => ?_)
          fun _ _ h => h.elim
        · intro x hx rest
          exact (triple_apply (.inl hx) fun f _ h => started_next h).weaken (fun _ h => h) (fun _ _ h => h)
            fun _ _ h => h.2.1
        cases done with
        | true => exact ⟨h.1, fun _ d hd => (h.2 d hd).resolve_left List.not_mem_nil⟩
        | false => exact ⟨h, fun hf => by cases hf⟩
      refine seq
        (m := fun verified f => Pending A r f ∧
          (ups = true → verified = true → ∀ d ∈ r.owed, (f.world.status d).checked = true)) ?_ fun verified => ?_
      · refine (triple_attemptAll (fun rest f => Pending A r f ∧ (ups = true → (∀ d ∈ r.owed, Started f.world d) ∧
          ∀ d ∈ r.owed, d ∈ rest ∨ (f.world.status d).checked = true)) ?_ fun x _ => hverify x).weaken
          (fun _ h => ⟨h.1, fun hu => ⟨h.2 hu, fun d hd => .inl hd⟩⟩) (fun done _ h => ?_) fun _ _ h => h.elim
        · intro x hx rest
          exact (triple_verify fun f h hu => checked_next (h hu).1 (h hu).2).weaken (fun _ h => h) (fun _ _ h => h)
            fun _ _ h => h.2.1
        cases done with
        | true => exact ⟨h.1, fun hu _ d hd => ((h.2 hu).2 d hd).resolve_left List.not_mem_nil⟩
        | false => exact ⟨h, fun _ hf => by cases hf⟩
      split
      case isFalse =>
        exact (triple_writePending rfl).weaken (fun _ h => h.1) (fun _ _ h => h.atEnd) fun _ _ h => h
      case isTrue hall =>
        simp only [Bool.and_eq_true] at hall
        refine seq (m := fun _ => Quiet A r) ?_ fun _ => ?_
        · exact triple_settleActive.strengthen fun f hf =>
            ⟨hf.1, A.back_of_checked hf.1.known hf.1.owes (hf.2 hall.1.2 hall.2)⟩
        exact triple_writeOver rfl (by decide)

end Settle

/-- What an operation leaves in a world, and how it ended. -/
def World.outcome (fabric : List Placement) (w : World) (operating : Operating) (script : List Answer) :
    Ending Stop Unit := ((operating.program fabric) (.enter w) script).1

/-- A triple speaks of what its program leaves, wherever its answers end. -/
theorem kept_of_triple {A : Account fabric slot} (hkept : A.kept w)
    (h : A.Keeps (fun f => f.world = w) (operating.program fabric) (fun _ => AtEnd A) (Raised A w))
    (script : List Answer) : A.kept (w.run fabric operating script) := by
  have hrun := h (.enter w) script rfl
  unfold World.run
  cases hending : ((operating.program fabric) (.enter w) script).1 with
  | done =>
    rw [hending] at hrun
    exact hrun.1
  | raised =>
    rw [hending] at hrun
    rcases hrun with ⟨-, hw⟩ | hend
    · rw [hw]
      exact hkept
    · exact hend.1
  | crashed =>
    rw [hending] at hrun
    exact hrun

/-- An operation that was neither refused nor crashed ended. -/
theorem ended_of_triple {A : Account fabric slot}
    (h : A.Keeps (fun f => f.world = w) (operating.program fabric) (fun _ => AtEnd A) (Raised A w))
    {script : List Answer} (hcrash : w.outcome fabric operating script ≠ .crashed)
    (hrefused : w.outcome fabric operating script ≠ .raised .refused) : A.ended (w.run fabric operating script) := by
  have hrun := h (.enter w) script rfl
  unfold World.outcome at hcrash hrefused
  cases hending : ((operating.program fabric) (.enter w) script).1 with
  | done =>
    rw [hending] at hrun
    exact hrun.2
  | raised =>
    rw [hending] at hrun hrefused
    rcases hrun with ⟨rfl, -⟩ | hend
    · exact absurd rfl hrefused
    · exact hend.2
  | crashed => exact absurd hending hcrash

end SparkRing.Rollout
