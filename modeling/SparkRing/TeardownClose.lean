import SparkRing.TransitionSystem
import SparkRing.TeardownNote

/-!
# The ordered close of one process group

Every rank runs its closes one after another, in an order of its own. A close
holds round 1, stops its progress thread and holds round 2; a round is one
collective of the group, issued by a thread that the close waits for and may
abandon. The group pairs collectives by the order in which each rank issues
them, whichever close or user they belong to: the i-th collective of a rank
completes with the i-th of every other rank.

Waiting limits are not measured. A round may be missed at any moment, for any
reason, and its thread may issue the collective later or never.
-/

namespace SparkRing.TeardownClose

open TeardownNote

/-- What a round returns. -/
structure Round where
  /-- Every rank answered within the limit. -/
  arrived : Bool
  /-- Every rank's note, when the round arrived. -/
  notes : List Note := []
  /-- Why it did not arrive. -/
  why : Option String := none

/-- A text that counts as true: present and not empty. -/
def truthy (text : Option String) : Option String := text.filter (· ≠ "")

/-- A round in which some rank named another close did not complete. -/
def matched (round : Round) (mine : Note) (name : String) : Round :=
  if round.arrived then
    match round.notes.findIdx? fun note => !mine.sameClose note with
    | some rank =>
      let other := round.notes.getD rank otherFormat
      ⟨false, [], some s!"{name}: rank {rank} closed {other.describe} while this rank closed {mine.describe}"⟩
    | none => round
  else round

/-- The first failure among the notes of ranks `index`, `index + 1`, … -/
def firstFailure (index : ℕ) : List Note → Option String
  | [] => none
  | note :: rest =>
    match note.failure with
    | some text => some s!"rank {index}: {text}"
    | none => firstFailure (index + 1) rest

/-- A matched round that arrived has the notes it arrived with, all of the same
close. -/
theorem matched_arrived {round : Round} {mine : Note} {name : String} (h : (matched round mine name).arrived = true) :
    matched round mine name = round ∧ ∀ note ∈ round.notes, mine.sameClose note = true := by
  unfold matched at h ⊢
  split at h
  case isTrue ha =>
    rw [if_pos ha]
    split at h
    · cases h
    case h_2 hn =>
      refine ⟨rfl, fun note hm => ?_⟩
      simpa using List.findIdx?_eq_none_iff.mp hn note hm
  case isFalse ha => exact absurd h ha

theorem firstFailure_none {notes : List Note} : ∀ {index : ℕ}, firstFailure index notes = none → ∀ note ∈ notes, note.failure = none := by
  induction notes with
  | nil => simp
  | cons first rest ih =>
    intro index h note hm
    unfold firstFailure at h
    split at h
    · cases h
    case h_2 hf =>
      rcases List.mem_cons.mp hm with rfl | hm
      · exact hf
      · exact ih h note hm

/-- The closed object a note names: its kind and its ordinal. -/
abbrev Close := Kind × ℤ

/-- What one rank's close is called with. -/
structure Request where
  /-- Kind of the object. -/
  kind : Kind
  /-- Its index among the objects the rank created on the group. -/
  ordinal : ℤ
  ownFailure : Option String
  /-- The close, in the words of its result. -/
  what : String

/-- The object of a request. -/
def Request.close (req : Request) : Close := (req.kind, req.ordinal)

/-- The note of round 1. -/
def Request.mine (req : Request) : Note := ⟨req.kind, req.ordinal, 1, req.ownFailure⟩

/-- The note of round 2. -/
def Request.quiet (req : Request) : Note := ⟨req.kind, req.ordinal, 2, none⟩

/-- Where a rank stands in its close. -/
inductive Pc where
  /-- In no close. -/
  | outside
  /-- The group was unusable: about to stop and return. -/
  | skipping (req : Request) (reason : String)
  /-- Waiting for round 1. -/
  | health (req : Request)
  /-- Round 1 did not complete: about to stop and return. -/
  | unhealthy (req : Request) (why : Option String)
  /-- Round 1 completed: about to stop. -/
  | stopping (req : Request) (result : Option String)
  /-- Waiting for round 2. -/
  | quiet (req : Request) (result : Option String)

/-- The note of the round a rank waits for. -/
def Pc.waiting : Pc → Option Note
  | .health req => some req.mine
  | .quiet req _ => some req.quiet
  | _ => none

/-- One collective a rank issued on the group. -/
structure Collective where
  /-- The note of the teardown round that issued it; `none` for another user's. -/
  sender : Option Note
  /-- The rank's part of the gathered bytes. -/
  raw : List UInt8

/-- One rank's process, as far as the group is concerned. -/
structure Rank where
  /-- The close in progress. -/
  pc : Pc
  /-- Why the group's teardown rounds stopped in this process. -/
  unusable : Option String
  /-- Rounds whose thread has not issued its collective. -/
  threads : List Note
  /-- Collectives issued on the group, in order. -/
  log : List Collective
  /-- Every round started, in order. -/
  rounds : List Note
  begun : Close → Bool
  /-- The failure of its own with which the rank entered round 1 of a close. -/
  entered : Close → Option (Option String)
  /-- Closes whose `stop` has returned. -/
  stopped : Close → Bool
  returned : Close → Option (Option String)

/-- A process before its first close. -/
def Rank.initial : Rank :=
  ⟨.outside, none, [], [], [], fun _ => false, fun _ => none, fun _ => false, fun _ => none⟩

/-- What can happen at a rank. -/
inductive Event where
  /-- The rank begins a close. -/
  | enter (req : Request)
  /-- The k-th thread that has not issued its collective does so. -/
  | issue (k : ℕ)
  /-- Another user of the group issues a collective. -/
  | other (raw : List UInt8)
  /-- The round waited for arrives. -/
  | arrive
  /-- The round waited for does not arrive in time, raised, or its thread did
  not start. -/
  | miss (why : String)
  | stopReturns
  /-- `stop` raises, which ends the close without a result. -/
  | stopRaises

/-- Stop teardown rounds on the group; the first reason is kept. -/
def Rank.markUnusable (s : Rank) (why : String) : Rank :=
  { s with unusable := some (s.unusable.getD why) }

/-- Start a round's thread. -/
def Rank.teardownRound (s : Rank) (note : Note) (pc : Pc) : Rank :=
  { s with pc, threads := s.threads ++ [note], rounds := s.rounds ++ [note] }

/-- End a close with a result. -/
def Rank.finish (s : Rank) (req : Request) (result : Option String) : Rank :=
  { s with pc := .outside, returned := Function.update s.returned req.close (some result) }

/-- Record that a close's `stop` returned. -/
def Rank.stop (s : Rank) (req : Request) : Rank :=
  { s with stopped := Function.update s.stopped req.close true }

/-- A close begins: round 1, or none on an unusable group. -/
def Rank.enter (s : Rank) (req : Request) : Rank :=
  let s := { s with begun := Function.update s.begun req.close true }
  match s.unusable with
  | some reason => { s with pc := .skipping req reason }
  | none =>
    { s with entered := Function.update s.entered req.close (some req.ownFailure) }.teardownRound
      req.mine (.health req)

/-- What a close does with the round it waited for. -/
def Rank.conclude (s : Rank) (round : Round) : Option Rank :=
  match s.pc with
  | .health req =>
    let name := s!"{req.what} round 1"
    let first := matched round req.mine name
    if first.arrived then
      some { s with pc := .stopping req (match req.ownFailure with
        | some text => some text
        | none => firstFailure 0 first.notes) }
    else
      some { s.markUnusable ((truthy first.why).getD s!"{name} did not complete") with
        pc := .unhealthy req first.why }
  | .quiet req result =>
    let name := s!"{req.what} round 2"
    let second := matched round req.quiet name
    if second.arrived then some (s.finish req result)
    else
      some ((s.markUnusable ((truthy second.why).getD s!"{name} did not complete")).finish req
        ((truthy result) <|> second.why))
  | _ => none

def Rank.stopReturns (s : Rank) : Option Rank :=
  match s.pc with
  | .skipping req reason =>
    some ((s.stop req).finish req ((truthy req.ownFailure) <|>
      some s!"{req.what}: closed without the teardown rounds ({reason})"))
  | .unhealthy req why => some ((s.stop req).finish req ((truthy req.ownFailure) <|> why))
  | .stopping req result => some ((s.stop req).teardownRound req.quiet (.quiet req result))
  | _ => none

/-- Position of a round's own collective. -/
def Rank.position (s : Rank) (note : Note) : Option ℕ :=
  s.log.findIdx? fun c => c.sender == some note

/-- One event of a rank. `gathered i` is what its i-th collective completes with,
`none` while some rank has not issued its own i-th. -/
def Rank.act (gathered : ℕ → Option (List Note)) (s : Rank) : Event → Option Rank
  | .enter req =>
    match s.pc with
    | .outside => if s.begun req.close then none else some (s.enter req)
    | _ => none
  | .issue k =>
    s.threads[k]?.bind fun note =>
      (encode note).map fun raw =>
        { s with threads := s.threads.eraseIdx k, log := s.log ++ [⟨some note, raw⟩] }
  | .other raw => if foreign raw then some { s with log := s.log ++ [⟨none, raw⟩] } else none
  | .arrive =>
    s.pc.waiting.bind fun mine =>
      (s.position mine).bind fun i =>
        (gathered i).bind fun notes => s.conclude ⟨true, notes, none⟩
  | .miss why => s.conclude ⟨false, [], some why⟩
  | .stopReturns => s.stopReturns
  | .stopRaises =>
    match s.pc with
    | .skipping .. | .unhealthy .. | .stopping .. => some { s with pc := .outside }
    | _ => none

/-- One event at one rank. -/
structure Action where
  rank : ℕ
  /-- What happens there. -/
  event : Event

/-- What the i-th collective of the group gathers, once every rank issued its own. -/
def gathered (world : ℕ) (s : ℕ → Rank) (i : ℕ) : Option (List Note) :=
  if ∀ r < world, i < (s r).log.length then
    some ((List.range world).map fun r => decode ((s r).log.getD i ⟨none, []⟩).raw)
  else none

/-- One step of a group of `world` ranks. -/
def step (world : ℕ) (s : ℕ → Rank) (a : Action) : Option (ℕ → Rank) :=
  if a.rank < world then
    ((s a.rank).act (gathered world s) a.event).map (Function.update s a.rank)
  else none

/-- Every process before its first close. -/
def initial : ℕ → Rank := fun _ => .initial

/-- A step changes the rank that takes it, by one event. -/
theorem step_eq_some {world : ℕ} {s t : ℕ → Rank} {a : Action} (h : step world s a = some t) :
    a.rank < world ∧ ∃ u, (s a.rank).act (gathered world s) a.event = some u ∧ t = Function.update s a.rank u := by
  unfold step at h
  split at h
  case isTrue hr =>
    obtain ⟨u, hu, rfl⟩ := Option.map_eq_some_iff.mp h
    exact ⟨hr, u, hu, rfl⟩
  · cases h

end SparkRing.TeardownClose
