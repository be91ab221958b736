import SparkRing.RecoveryArmed
import SparkRing.RecoverySafety

/-!
# Recovery acts on what runs confirmed

Beside the record, the times of the consecutive runs that found a state to act on. The
record counts no more runs than there were, and dates their start no earlier. A run
confirms its first observation, and acts on its second one: so the second one is confirmed
where the rule of the first one was no shorter than its own.
-/

namespace SparkRing.Recovery

open TransitionSystem

variable (D : Deployment)

/-- What runs found, beside the record. -/
structure Sightings where
  /-- The times of the consecutive runs that found a state to act on, the latest first. -/
  runs : List ℚ := []
  /-- What the run's first observation counted, and its time. -/
  seen : Option (Pending × ℚ) := none
  /-- The finding that the run acts on, and the runs before it. -/
  chosen : Option (Finding × List ℚ) := none

/-- The state of Node A and what runs found. -/
structure Watch where
  /-- The state of Node A. -/
  state : State := {}
  /-- What runs found. -/
  sightings : Sightings := {}

/-- What runs found after a step. Findings that are nothing to act on and changes of the
deployment end the consecutive runs, and so does an attempt. -/
def Sightings.after (g : Sightings) (s s' : State) : Act → Sightings
  | .observes finding t => match s.run with
    | some (.allowed record _) =>
      { g with
        runs := if finding.state.action = none then [] else t :: g.runs
        seen := some (record.confirms finding t, t) }
    | _ => g
  | .observesAgain finding _ => if s'.run.isNone then { g with runs := [] } else { g with chosen := some (finding, g.runs) }
  | .allows | .compares => if s'.run.isNone then { g with runs := [] } else g
  | .begins _ => { g with runs := [] }
  | _ => g

/-- One step, with a clock that may be set. -/
def stepWatched (w : Watch) (a : Act) : Option Watch :=
  (stepAnyTime D w.state a).map fun s' => ⟨s', w.sightings.after w.state s' a⟩

/-- An API that gives no answer at all. -/
def Finding.silent (finding : Finding) : Prop := finding.state = .apiFailing ∧ finding.apiDead = false

instance (finding : Finding) : Decidable finding.silent := inferInstanceAs (Decidable (_ ∧ _))

/-- A finding to act on, after enough consecutive runs: a silent API counts once one of them
came long enough before the last one. -/
structure Backed (finding : Finding) (runs : List ℚ) : Prop where
  /-- Recovery may act on it. -/
  acting : finding.state.action.isSome = true
  /-- The runs are enough. -/
  many : CONFIRMATIONS ≤ runs.length
  long : finding.silent → ∃ last first, runs.head? = some last ∧ first ∈ runs ∧ API_SILENCE ≤ last - first

/-- What a run observes under its locks is confirmed by what its first observation counted. -/
def ConfirmsAgain (w : Watch) (a : Act) : Prop :=
  ∀ finding hairpin, a = .observesAgain finding hairpin → finding.state.action.isSome = true →
    ∀ pending t, w.sightings.seen = some (pending, t) → confirmed finding pending t = true

/-- The counted runs were there, and the first time is one of theirs. -/
structure Pending.Counts (pending : Pending) (runs : List ℚ) : Prop where
  /-- There was a run. -/
  positive : 1 ≤ pending.count
  /-- There were as many as counted. -/
  fits : pending.count ≤ runs.length
  /-- The first time is that of a counted run. -/
  since : pending.since ∈ runs.take pending.count

/-- What a run copied from the record. -/
structure Copied (stored copy : Option Pending) (runs : List ℚ) : Prop where
  /-- Only manual operations have changed the record since. -/
  same : stored = none ∨ stored = copy
  /-- The counted runs were there. -/
  counts : ∀ pending, copy = some pending → pending.Counts runs

/-- What a run confirmed with its first observation. -/
def Sightings.Confirmed (g : Sightings) : Prop :=
  ∃ pending t, g.seen = some (pending, t) ∧ pending.Counts g.runs ∧ g.runs.head? = some t ∧ CONFIRMATIONS ≤ g.runs.length

/-- What a run acts on. -/
def Sightings.Chosen (g : Sightings) (finding : Finding) : Prop :=
  ∃ runs, g.chosen = some (finding, runs) ∧ Backed finding runs

/-- What a run relies on. -/
def Phase.Watched (stored : Option Pending) (g : Sightings) : Phase → Prop
  | .read record | .free record | .looked record _ | .judged record _ | .allowed record _ => Copied stored record.pending g.runs
  | .found .. | .locked .. | .unheld .. | .reread .. | .unchanged .. => g.Confirmed
  | .chosen _ _ finding => g.Chosen finding
  | .applying .. | .inApply .. | .applied .. | .finishing .. => ∃ finding, g.Chosen finding

/-- What holds of the record and the run between two steps. -/
structure Watching (stored : Option Pending) (g : Sightings) (run : Option Phase) : Prop where
  /-- The counted runs were there. -/
  counts : ∀ pending, stored = some pending → pending.Counts g.runs
  /-- What the run relies on. -/
  phase : ∀ phase, run = some phase → phase.Watched stored g

variable {D} {g : Sightings} {runs : List ℚ} {stored : Option Pending} {run : Option Phase} {phase : Phase}
  {record : Record} {state : Saved} {pending : Pending} {finding : Finding} {t : ℚ}

theorem Pending.Counts.confirms (h : ∀ pending, record.pending = some pending → pending.Counts runs) :
    (record.confirms finding t).Counts (t :: runs) := by
  cases hpending : record.pending with
  | none =>
    refine ⟨?_, ?_, ?_⟩
    · simp [Record.confirms, hpending]
    · simp [Record.confirms, hpending]
    · simp [Record.confirms, hpending, orNow]
  | some pending =>
    have hcounts := h pending hpending
    have hsince : orNow (some pending.since) t ∈ t :: runs.take pending.count := by
      unfold orNow
      dsimp only
      split_ifs
      · exact List.mem_cons_self
      · exact List.mem_cons_of_mem t hcounts.since
    refine ⟨?_, ?_, ?_⟩
    · simp [Record.confirms, hpending]
    · have hfits := hcounts.fits
      simp only [Record.confirms, hpending, Option.map_some, Option.getD_some, List.length_cons]
      omega
    · simpa [Record.confirms, hpending] using hsince

/-- Two runs at least confirm a finding: an API that is silent for long was seen before. -/
theorem Pending.Counts.enough (h : pending.Counts (t :: runs)) (hconfirmed : confirmed finding pending t = true) :
    CONFIRMATIONS ≤ (t :: runs).length := by
  unfold confirmed at hconfirmed
  split_ifs at hconfirmed with hsilent
  · have hlong : API_SILENCE ≤ t - pending.since := of_decide_eq_true hconfirmed
    have hsome := h.positive
    have hfits := h.fits
    by_contra hshort
    have hone : pending.count = 1 := by
      rw [CONFIRMATIONS] at hshort
      omega
    have hsince := h.since
    rw [hone, List.take_succ_cons, List.take_zero, List.mem_singleton] at hsince
    rw [hsince, API_SILENCE] at hlong
    norm_num at hlong
  · exact (of_decide_eq_true hconfirmed).trans h.fits

/-- A finding that the first observation's count confirms is one to act on. -/
theorem Sightings.Confirmed.backed (h : g.Confirmed) (hacting : finding.state.action.isSome = true)
    (hagain : ∀ pending t, g.seen = some (pending, t) → confirmed finding pending t = true) : Backed finding g.runs := by
  obtain ⟨pending, t, hseen, hcounts, hlast, hmany⟩ := h
  have hconfirmed := hagain pending t hseen
  refine ⟨hacting, hmany, fun hsilent => ?_⟩
  have hcondition : finding.state = .apiFailing ∧ finding.apiDead = false := hsilent
  rw [confirmed, if_pos hcondition, decide_eq_true_eq] at hconfirmed
  exact ⟨t, pending.since, hlast, List.mem_of_mem_take hcounts.since, hconfirmed⟩

/-- A manual operation forgets what runs found, and a run's copy stays. -/
theorem Phase.Watched.forgotten (h : phase.Watched stored g) : phase.Watched none g := by
  cases phase with
  | read | free | looked | judged | allowed => exact ⟨.inl rfl, h.counts⟩
  | found state | locked state | unheld state | reread record state | unchanged record state
  | chosen record state finding | applying record entry operations | inApply record entry rest
  | applied | finishing => exact h

theorem Watching.ends (h : Watching stored g run) : Watching stored g none :=
  ⟨h.counts, fun _ hno => nomatch hno⟩

theorem Watching.goes (h : Watching stored g run) (hphase : phase.Watched stored g) : Watching stored g (some phase) :=
  ⟨h.counts, fun _ hsame => Option.some.inj hsame ▸ hphase⟩

/-- A manual operation forgets what runs found. -/
theorem Watching.forgotten (h : Watching stored g run) : Watching none g run :=
  ⟨fun _ hno => (nomatch hno), fun phase hphase => (h.phase phase hphase).forgotten⟩

theorem Watching.nothing : Watching none g none :=
  ⟨fun _ hno => (nomatch hno), fun _ hno => (nomatch hno)⟩

/-- A run starts to act, and nothing is counted. -/
theorem Watching.acts (h : phase.Watched none g) : Watching none g (some phase) :=
  ⟨fun _ hno => (nomatch hno), fun _ hsame => Option.some.inj hsame ▸ h⟩

theorem Watching.copied (h : Watching stored g run) : Copied stored stored g.runs := ⟨.inr rfl, h.counts⟩

end SparkRing.Recovery
