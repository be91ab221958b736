import SparkRing.TeardownClose

/-!
# Closing one native context

A close stops the rank's progress thread, at once when aborting and inside the
ordered close otherwise, and then destroys the native context. The exchange of
a round, `stop` and `close` may each raise or return anything. Whatever they do,
the context is stopped once and then destroyed once, and the arena stays
allocated when a verbs object or a kernel may still use it.
-/

namespace SparkRing.NativeClose

open TeardownNote TeardownClose
open Except (ok.inj)

/-- An exception. -/
structure Raised where
  /-- Name of its class. -/
  type : String
  text : String

/-- Any object an exchange returns for a rank. -/
inductive Posted where
  | ofNote (note : Note)
  /-- Another object, by what its `repr` returns or raises. -/
  | other (repr : Except Raised String)

/-- What becomes of one exchange. -/
inductive Answer where
  /-- It returns within the limit. -/
  | notes (notes : List Posted)
  | raised (exc : Raised)
  /-- It has not returned within the limit. -/
  | late
  /-- Its thread did not start. -/
  | unstarted (exc : Raised)

/-- A call of the native context. -/
inductive Call where
  | stop
  | close
  deriving DecidableEq

/-- A native context: what its next call does, after the calls before it. -/
structure Native where
  /-- The exception of `stop`. -/
  stop : List Call → Option Raised
  /-- The number of failed verbs calls that `close` returns, or its exception. -/
  close : List Call → Except Raised (Option ℤ)

/-- What a close is called with. -/
structure Setting extends Request where
  exchange : Note → Answer
  /-- The limit of a round, in the words of its message. -/
  limit : String
  /-- Stop at once, without rounds. -/
  abort : Bool
  arena : Option ℕ
  /-- The rank's own GPU work was not shown complete. -/
  unsettled : Bool

/-- The process during a close. -/
structure World where
  /-- Calls of the native context, in order. -/
  calls : List Call
  /-- This close has called `stop`. -/
  stopped : Bool
  /-- Why the group's teardown rounds stopped. -/
  unusable : Option String
  /-- Arenas kept for the rest of the process. -/
  retained : List ℕ

/-- Stop teardown rounds on the group; the first reason is kept. -/
def World.markUnusable (w : World) (why : String) : World :=
  { w with unusable := some (w.unusable.getD why) }

def World.retain (w : World) (arena : Option ℕ) : World :=
  { w with retained := w.retained ++ arena.toList }

/-- A round, with any object for a rank. -/
structure Round where
  /-- Every rank answered within the limit. -/
  arrived : Bool
  notes : List Posted := []
  /-- Why it did not arrive. -/
  why : Option String := none

def teardownRound (s : Setting) (note : Note) (name : String) : Round :=
  match s.exchange note with
  | .notes notes => ⟨true, notes, none⟩
  | .raised exc => ⟨false, [], some s!"{name}: {exc.type}: {exc.text}"⟩
  | .late => ⟨false, [], some s!"{name}: not every rank arrived within {s.limit} s"⟩
  | .unstarted exc =>
    ⟨false, [], some s!"{name}: its thread did not start: {exc.type}: {exc.text}"⟩

/-- The note of a posted object. -/
def Posted.note? : Posted → Option Note
  | .ofNote note => some note
  | .other _ => none

/-- A posted object in the words of a message. -/
def Posted.shown : Posted → Except Raised String
  | .ofNote note => .ok note.describe
  | .other repr => repr

/-- A round in which some rank posted no note of this close did not complete. -/
def matched (round : Round) (mine : Note) (name : String) : Except Raised Round :=
  if round.arrived then
    match round.notes.findIdx? fun posted => !(posted.note?.any mine.sameClose) with
    | some rank =>
      ((round.notes.getD rank (.ofNote otherFormat)).shown).map fun other =>
        ⟨false, [], some s!"{name}: rank {rank} closed {other} while this rank closed {mine.describe}"⟩
    | none => .ok round
  else .ok round

/-- A teardown round as it counts for the close. -/
def held (s : Setting) (note : Note) (name : String) : Except Raised Round :=
  matched (teardownRound s note name) note name

/-- Call `stop`, the first time only. -/
def stopOnce (native : Native) (w : World) : Except Raised Unit × World :=
  if w.stopped then (.ok (), w)
  else ((native.stop w.calls).elim (.ok ()) .error,
    { w with stopped := true, calls := w.calls ++ [.stop] })

/-- What follows a `stop` that returned. -/
def afterStop (native : Native) (w : World) (next : World → Except Raised (Option String) × World) :
    Except Raised (Option String) × World :=
  match stopOnce native w with
  | (.error exc, w) => (.error exc, w)
  | (.ok _, w) => next w

/-- Round 2, after `stop`. -/
def quietRound (s : Setting) (result : Option String) (w : World) :
    Except Raised (Option String) × World :=
  let name := s!"{s.what} round 2"
  match held s s.quiet name with
  | .error exc => (.error exc, w)
  | .ok second =>
    if second.arrived then (.ok result, w)
    else (.ok ((truthy result) <|> second.why),
      w.markUnusable ((truthy second.why).getD s!"{name} did not complete"))

/-- Round 1, `stop`, and round 2 when round 1 completed. -/
def orderedClose (native : Native) (s : Setting) (w : World) :
    Except Raised (Option String) × World :=
  match w.unusable with
  | some reason => afterStop native w fun w => (.ok ((truthy s.ownFailure) <|>
      some s!"{s.what}: closed without the teardown rounds ({reason})"), w)
  | none =>
    let name := s!"{s.what} round 1"
    match held s s.mine name with
    | .error exc => (.error exc, w)
    | .ok first =>
      if first.arrived then
        afterStop native w (quietRound s (match s.ownFailure with
          | some text => some text
          | none => firstFailure 0 (first.notes.filterMap Posted.note?)))
      else
        afterStop native (w.markUnusable ((truthy first.why).getD s!"{name} did not complete"))
          fun w => (.ok ((truthy s.ownFailure) <|> first.why), w)

/-- A failure after the one before it. -/
def joined (first : Option String) (second : String) : Option String :=
  match truthy first with
  | some text => some s!"{text}; {second}"
  | none => some second

/-- A second attempt to stop, when the first was never made. -/
def stopAfterRaise (native : Native) (s : Setting) (result : Option String) (w : World) :
    Option String × World :=
  if w.stopped then (result, w)
  else
    match stopOnce native w with
    | (.error exc, w) => (joined result
        s!"{s.what}: stopping the progress thread raised {exc.type}: {exc.text}", w)
    | (.ok _, w) => (result, w)

/-- An exception of the teardown is part of the result. -/
def caught (native : Native) (s : Setting) :
    Except Raised (Option String) × World → Option String × World
  | (.ok result, w) => (result, w)
  | (.error exc, w) => stopAfterRaise native s
      (joined s.ownFailure s!"{s.what}: the teardown raised {exc.type}: {exc.text}") w

/-- The context is stopped. -/
def halt (native : Native) (s : Setting) (w : World) : Option String × World :=
  caught native s
    (if s.abort then afterStop native w fun w => (.ok s.ownFailure, w) else orderedClose native s w)

/-- What the destroyed context leaves: `none` when `close` raised. -/
def failedCalls (native : Native) (calls : List Call) : Option ℤ :=
  (native.close calls).toOption.map (·.getD 0)

/-- The result of a close whose context was destroyed. -/
def destroyed (native : Native) (s : Setting) (calls : List Call) (result : Option String) :
    Option String :=
  match native.close calls with
  | .error exc => joined result s!"{s.what}: destroying the native context raised {exc.type}: {exc.text}; the registered arena stays allocated for the rest of the process"
  | .ok count =>
    if count.getD 0 ≠ 0 then
      let failed := count.getD 0
      joined result s!"{s.what}: {failed} RDMA teardown call(s) failed; the registered arena stays allocated for the rest of the process"
    else if s.unsettled then
      joined result s!"{s.what}: the arena stays allocated for the rest of the process: its GPU work was not shown complete"
    else result

/-- Close one rank's native context; `none` is a context that setup never made. -/
def closeNative (native : Option Native) (s : Setting) (w : World) : Option String × World :=
  match native with
  | none => (s.ownFailure, if s.unsettled then w.retain s.arena else w)
  | some native =>
    let (result, w) := halt native s { w with stopped := false }
    let after := { w with calls := w.calls ++ [.close] }
    (destroyed native s w.calls result,
      if failedCalls native w.calls ≠ some 0 ∨ s.unsettled then after.retain s.arena else after)

section

variable {native : Native} {s : Setting} {w : World} {result : Option String} {first : Round}
  {outcome : Except Raised (Option String) × World} {name : String} {note : Note} {next : World → Except Raised (Option String) × World}

theorem matched_ok {round : Round} {mine : Note} (h : matched round mine name = .ok first) (ha : first.arrived = true) : first = round := by
  unfold matched at h
  split at h
  case isTrue =>
    split at h
    case h_1 =>
      cases hs : (round.notes.getD _ (.ofNote otherFormat)).shown <;> rw [hs] at h
      · cases h
      · cases h
        cases ha
    case h_2 => exact (ok.inj h).symm
  case isFalse => exact (ok.inj h).symm

/-- A round arrived with what its exchange returned, or says why it did not. -/
theorem teardownRound_cases (s : Setting) (note : Note) : (∃ notes, s.exchange note = .notes notes) ∨
      ((teardownRound s note name).arrived = false ∧ (teardownRound s note name).why ≠ none) := by
  unfold teardownRound
  cases s.exchange note <;> simp

/-- A round that does not count as arrived says why. -/
theorem held_why (h : held s note name = .ok first) (ha : first.arrived = false) : first.why ≠ none := by
  unfold held matched at h
  split at h
  case isTrue harrived =>
    split at h
    case h_1 =>
      cases hs : ((teardownRound s note name).notes.getD _ (.ofNote otherFormat)).shown <;>
        rw [hs] at h <;> cases h
      simp
    case h_2 =>
      cases h
      rw [harrived] at ha
      cases ha
  case isFalse hmissed =>
    cases h
    rcases teardownRound_cases s note with ⟨notes, hn⟩ | ⟨-, hwhy⟩
    · simp [teardownRound, hn] at hmissed
    · exact hwhy

/-- A round that counts as arrived had an exchange that returned. -/
theorem held_notes (h : held s note name = .ok first) (ha : first.arrived = true) : ∃ notes, s.exchange note = .notes notes := by
  rcases teardownRound_cases s note with hn | ⟨hmissed, -⟩
  · exact hn
  · rw [matched_ok h ha, hmissed] at ha
    cases ha

theorem orElse_none {first second : Option String} (h : (truthy first <|> second) = none) :
    second = none := by
  cases hf : truthy first <;> simp_all

theorem joined_ne_none (first : Option String) (second : String) : joined first second ≠ none := by
  unfold joined
  cases truthy first <;> simp

/-- A context that was stopped once, at `w`, and since then nothing was kept. -/
structure Stopped (native : Native) (w after : World) : Prop where
  calls : after.calls = w.calls ++ [.stop]
  stopped : after.stopped = true
  retained : after.retained = w.retained

theorem Stopped.of_marked {after : World} {why : String} (h : Stopped native (w.markUnusable why) after) : Stopped native w after :=
  ⟨h.calls, h.stopped, h.retained⟩

/-- The stop is the only call, whatever follows it leaves calls and arenas alone. -/
theorem afterStop_stopped (hw : w.stopped = false) (hnext : ∀ v, (next v).2.calls = v.calls ∧ (next v).2.stopped = v.stopped ∧
      (next v).2.retained = v.retained) : Stopped native w (afterStop native w next).2 := by
  unfold afterStop stopOnce
  rw [hw]
  cases native.stop w.calls with
  | some => exact ⟨rfl, rfl, rfl⟩
  | none =>
    obtain ⟨hc, hs, hr⟩ := hnext { w with stopped := true, calls := w.calls ++ [.stop] }
    exact ⟨hc, hs, hr⟩

theorem afterStop_ok (hw : w.stopped = false) (h : (afterStop native w next).1 = .ok result) :
    native.stop w.calls = none ∧ ∃ v, (next v).1 = .ok result := by
  unfold afterStop stopOnce at h
  rw [hw] at h
  cases hs : native.stop w.calls with
  | some =>
    rw [hs] at h
    cases h
  | none =>
    rw [hs] at h
    exact ⟨rfl, _, h⟩

theorem quietRound_frame (v : World) : (quietRound s result v).2.calls = v.calls ∧ (quietRound s result v).2.stopped = v.stopped ∧
      (quietRound s result v).2.retained = v.retained := by
  unfold quietRound
  dsimp only
  cases held s s.quiet s!"{s.what} round 2" with
  | error => exact ⟨rfl, rfl, rfl⟩
  | ok second => cases hs : second.arrived <;> simp [hs, World.markUnusable]

theorem quietRound_none {v : World}
    (h : (quietRound s result v).1 = .ok none) :
    result = none ∧ ∃ notes, s.exchange s.quiet = .notes notes := by
  unfold quietRound at h
  cases hm : held s s.quiet s!"{s.what} round 2" with
  | error => simp [hm] at h
  | ok second =>
    cases ha : second.arrived with
    | true => exact ⟨by simpa [hm, ha] using h, held_notes hm ha⟩
    | false =>
      simp only [hm, ha, Bool.false_eq_true, if_false, Except.ok.injEq] at h
      exact absurd (orElse_none h) (held_why hm ha)

/-- An ordered close stops the context once, or raised before it changed anything. -/
theorem orderedClose_cases (hw : w.stopped = false) : Stopped native w (orderedClose native s w).2 ∨
      ((∃ exc, (orderedClose native s w).1 = .error exc) ∧ (orderedClose native s w).2 = w) := by
  unfold orderedClose
  cases w.unusable with
  | some => exact .inl (afterStop_stopped hw fun v => ⟨rfl, rfl, rfl⟩)
  | none =>
    dsimp only
    cases held s s.mine s!"{s.what} round 1" with
    | error exc => exact .inr ⟨⟨exc, rfl⟩, rfl⟩
    | ok first =>
      dsimp only
      split_ifs with ha
      · exact .inl (afterStop_stopped hw quietRound_frame)
      · exact .inl (Stopped.of_marked (afterStop_stopped (by exact hw) fun v => ⟨rfl, rfl, rfl⟩))

/-- An ordered close without a failure: the rank had none, nothing raised, and both
rounds were held. -/
theorem orderedClose_none (hw : w.stopped = false) (h : (orderedClose native s w).1 = .ok none) :
    s.ownFailure = none ∧ native.stop w.calls = none ∧ w.unusable = none ∧
      (∃ notes, s.exchange s.mine = .notes notes) ∧ ∃ notes, s.exchange s.quiet = .notes notes := by
  unfold orderedClose at h
  cases hu : w.unusable with
  | some =>
    simp only [hu] at h
    obtain ⟨-, v, hv⟩ := afterStop_ok hw h
    exact absurd (orElse_none (ok.inj hv)) (by simp)
  | none =>
    simp only [hu] at h
    cases hm : held s s.mine s!"{s.what} round 1" with
    | error => simp [hm] at h
    | ok first =>
      simp only [hm] at h
      split_ifs at h with ha
      · obtain ⟨hs, v, hv⟩ := afterStop_ok hw h
        obtain ⟨hresult, hquiet⟩ := quietRound_none hv
        refine ⟨?_, hs, rfl, held_notes hm ha, hquiet⟩
        cases ho : s.ownFailure with
        | none => rfl
        | some => simp [ho] at hresult
      obtain ⟨-, v, hv⟩ := afterStop_ok (by exact hw) h
      exact absurd (orElse_none (ok.inj hv)) (held_why hm (by simpa using ha))

/-- Once the context is stopped, catching an exception does not stop it again. -/
theorem caught_stopped (h : Stopped native w outcome.2) : Stopped native w (caught native s outcome).2 := by
  obtain ⟨exc | result, v⟩ := outcome
  · have hs : v.stopped = true := h.stopped
    simpa [caught, stopAfterRaise, hs] using h
  · exact h

/-- A result without a failure comes from a teardown that did not raise. -/
theorem caught_none (h : (caught native s outcome).1 = none) : outcome.1 = .ok none := by
  obtain ⟨exc | result, v⟩ := outcome
  · simp only [caught, stopAfterRaise] at h
    split at h
    · exact absurd h (joined_ne_none _ _)
    split at h
    · exact absurd h (joined_ne_none _ _)
    · exact absurd h (joined_ne_none _ _)
  · exact congrArg Except.ok h

/-- Whatever the rounds and `stop` do, the context is stopped once. -/
theorem halt_stopped (hw : w.stopped = false) : Stopped native w (halt native s w).2 := by
  unfold halt
  cases s.abort with
  | true => exact caught_stopped (afterStop_stopped hw fun v => ⟨rfl, rfl, rfl⟩)
  | false =>
    rw [if_neg Bool.false_ne_true]
    rcases orderedClose_cases hw with hv | ⟨⟨exc, hexc⟩, hv⟩
    · exact caught_stopped hv
    rw [show orderedClose native s w = (.error exc, w) from Prod.ext hexc hv]
    simp only [caught, stopAfterRaise, stopOnce, hw]
    cases native.stop w.calls <;> exact ⟨rfl, rfl, rfl⟩

theorem halt_none (hw : w.stopped = false) (h : (halt native s w).1 = none) : s.ownFailure = none ∧ native.stop w.calls = none ∧
      (s.abort = false → (orderedClose native s w).1 = .ok none) := by
  have houtcome := caught_none h
  cases hab : s.abort with
  | true =>
    rw [hab, if_pos rfl] at houtcome
    obtain ⟨hstop, v, hv⟩ := afterStop_ok hw houtcome
    exact ⟨ok.inj hv, hstop, nofun⟩
  | false =>
    rw [hab, if_neg Bool.false_ne_true] at houtcome
    obtain ⟨hown, hstop, -⟩ := orderedClose_none hw houtcome
    exact ⟨hown, hstop, fun _ => houtcome⟩

theorem destroyed_none {calls : List Call} (h : destroyed native s calls result = none) :
    result = none ∧ failedCalls native calls = some 0 ∧ s.unsettled = false := by
  unfold destroyed at h
  unfold failedCalls
  cases hc : native.close calls with
  | error =>
    simp only [hc] at h
    exact absurd h (joined_ne_none _ _)
  | ok count =>
    simp only [hc] at h
    by_cases hz : count.getD 0 ≠ 0
    · rw [if_pos hz] at h
      exact absurd h (joined_ne_none _ _)
    rw [if_neg hz] at h
    cases hu : s.unsettled with
    | true =>
      simp only [hu, if_true] at h
      exact absurd h (joined_ne_none _ _)
    | false =>
      simp only [hu, Bool.false_eq_true, if_false] at h
      exact ⟨h, by simpa [Except.toOption] using hz, rfl⟩

end

/-- Whatever the exchange, `stop` and `close` do, the context is stopped once and then
destroyed once; the arena is kept exactly when `close` raised or counted a failed call,
or the rank's GPU work was not shown complete; and a close without a failure had none
anywhere: no exception, no failed call, and two rounds held unless it aborted. -/
theorem closeNative_once (native : Native) (s : Setting) (w : World) :
    (closeNative (some native) s w).2.calls = w.calls ++ [.stop, .close] ∧
    (closeNative (some native) s w).2.retained = w.retained ++
      (if failedCalls native (w.calls ++ [.stop]) ≠ some 0 ∨ s.unsettled then s.arena.toList
        else []) ∧
    ((closeNative (some native) s w).1 = none →
      s.ownFailure = none ∧ native.stop w.calls = none ∧
      failedCalls native (w.calls ++ [.stop]) = some 0 ∧ s.unsettled = false ∧
      (s.abort = false →
        (orderedClose native s { w with stopped := false }).1 = .ok none ∧
        (∃ notes, s.exchange s.mine = .notes notes) ∧
        ∃ notes, s.exchange s.quiet = .notes notes)) := by
  have hstopped : Stopped native { w with stopped := false }
      (halt native s { w with stopped := false }).2 := halt_stopped rfl
  obtain ⟨hcalls, -, hretained⟩ := hstopped
  refine ⟨?_, ?_, fun hnone => ?_⟩
  · simp only [closeNative]
    split <;> simp [World.retain, hcalls]
  · simp only [closeNative, hcalls]
    split <;> simp [World.retain, hretained]
  simp only [closeNative, hcalls] at hnone
  obtain ⟨hresult, hfailed, hsettled⟩ := destroyed_none hnone
  obtain ⟨hown, hstop, hordered⟩ := halt_none rfl hresult
  refine ⟨hown, hstop, hfailed, hsettled, fun hab => ?_⟩
  obtain ⟨-, -, -, hrounds⟩ := orderedClose_none rfl (hordered hab)
  exact ⟨hordered hab, hrounds⟩

end SparkRing.NativeClose
