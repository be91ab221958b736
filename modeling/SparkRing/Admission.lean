import Mathlib.Data.List.Sort
import SparkRing.LockTable
import SparkRing.Rollout

/-!
# Admission to the ring

Operations on the ring are admitted through file locks: one lock per Spark, a gate that
ring-wide operations hold alone and the others share, and an admission lock that an
acquisition or a look at the owners holds while it lasts. Calls of any number of
processes take their steps in any order; a process may die at any moment, which
releases its locks.
-/

namespace SparkRing.Admission

open LockTable Rollout

/-- What a slot records. -/
structure SlotRecords where
  slot : Placement
  /-- Its active record names a deployment that may run. -/
  running : Bool
  /-- Its journal, when there is one: whether it is complete, and whether it was cancelled. -/
  journal : Option (Bool × Bool)

/-- Its model switch did not finish. -/
def SlotRecords.unfinished (r : SlotRecords) : Bool := r.journal.any fun journal => !journal.1 && !journal.2

/-- The positions of a list in order, each once. -/
def sortedSet (positions : List ℕ) : List ℕ := positions.dedup.insertionSort (· ≤ ·)

/-- Add the slots that overlap some positions and whose deployments may have to stop. -/
def collect (positions : List ℕ) : List SlotRecords → List ℕ → Placement
  | [], result => some (sortedSet result)
  | r :: rest, result =>
    if overlap r.slot (some positions) && (r.running || r.unfinished) then
      match r.slot with
      | none => none
      | some slot => collect positions rest (result ++ slot)
    else collect positions rest result

/-- Include whole deployments whose stop or rollback a replacement can cause. -/
def affected (records : List SlotRecords) : Placement → Placement
  | none => none
  | some positions => collect positions records positions

/-- The lock files. -/
inductive Lock
  | admission
  | gate
  | spark (position : ℕ)
  deriving DecidableEq

def Lock.position : Lock → Option ℕ
  | .spark position => some position
  | _ => none

/-- The locks of a hold, in the order they are acquired. -/
def needed (selected : Placement) : List Lock := .gate :: (sortedSet (selected.getD [])).map .spark

/-- How a hold takes a lock: a ring-wide one takes the gate alone. -/
def modeFor (selected : Placement) : Lock → Mode
  | .gate => if selected = none then .exclusive else .shared
  | _ => .exclusive

/-- Who holds a lock, as its file says. -/
structure Owner (ι : Type) where
  /-- The hold. -/
  id : ι
  positions : Placement

/-- A live owner. -/
structure Row (ι : Type) where
  /-- The hold, when its file names one. -/
  id : Option ι
  positions : Placement

/-- A call. -/
inductive Request
  /-- Hold positions, perhaps with the deployments that they affect. -/
  | hold (positions : Placement) (expand : Bool)
  /-- Hold the positions of a route beside held ones. -/
  | transfer (held : Placement) (route : List ℕ)
  /-- Read live owners. -/
  | active
  /-- Read those that overlap some positions. -/
  | conflict (positions : Placement)
  /-- Ask whether there are any. -/
  | busy (positions : Placement)

/-- Why owners are read. -/
inductive Purpose
  /-- A hold was refused. -/
  | refuse (selected : Placement)
  /-- Read live owners. -/
  | active
  /-- Read those that overlap some positions. -/
  | conflict (positions : Placement)
  /-- Ask whether there are any. -/
  | busy (positions : Placement)

/-- How a call ended. -/
inductive Outcome (ι : Type)
  /-- It was refused; the owners it names. -/
  | refused (holders : List (Row ι))
  /-- Reading the records raised. -/
  | fault
  /-- The owners it read. -/
  | rows (rows : List (Row ι))
  /-- Whether there are any. -/
  | busy (answer : Bool)
  /-- It was admitted and left. -/
  | left

/-- Where a call is. -/
inductive Stage (ι : Type)
  /-- It was not made, or its process died. -/
  | idle
  /-- It waits for the admission lock. -/
  | entering (request : Request)
  /-- It is to choose the positions to lock. -/
  | selecting (positions : Placement) (expand : Bool)
  /-- It acquires locks: those held, newest first, and those to acquire. -/
  | acquiring (selected : Placement) (held todo : List Lock)
  /-- It was refused and releases what it acquired. -/
  | closing (selected : Placement) (held : List Lock)
  /-- It is to look at the gate. -/
  | scanning (purpose : Purpose)
  /-- It looks at the gate. -/
  | gated (purpose : Purpose)
  /-- It is to look at Sparks' locks. -/
  | probing (purpose : Purpose) (todo : List ℕ) (rows : List (Row ι))
  /-- It looks at a Spark's lock. -/
  | probed (purpose : Purpose) (position : ℕ) (todo : List ℕ) (rows : List (Row ι))
  /-- It is to release the admission lock. -/
  | exiting (outcome : Outcome ι)
  | admitted (selected : Placement) (held : List Lock)
  /-- It left and releases its locks. -/
  | leaving (selected : Placement) (held : List Lock)
  /-- It ended. -/
  | done (outcome : Outcome ι)

/-- The ring's locks, records and calls. -/
structure State (ι : Type) where
  records : List SlotRecords
  /-- Who holds which lock. -/
  locks : Table Lock ι
  files : List Lock
  /-- What the lock files say. -/
  content : Lock → Option (Owner ι)
  /-- Where every call is. -/
  stage : ι → Stage ι

variable {ι : Type} [DecidableEq ι]

/-- A call moves. -/
def State.move (w : State ι) (c : ι) (s : Stage ι) : State ι := { w with stage := Function.update w.stage c s }

/-- A call acquires a lock: its file exists from then on, and names an exclusive owner. -/
def State.take (w : State ι) (c : ι) (l : Lock) (m : Mode) (owner : Option (Owner ι)) : State ι := { w with
  locks := w.locks.acquire l c m
  files := l :: w.files.filter fun k => decide (k ≠ l)
  content := match m with
    | .exclusive => Function.update w.content l owner
    | .shared => w.content }

/-- A call releases a lock. -/
def State.free (w : State ι) (c : ι) (l : Lock) : State ι := { w with locks := w.locks.release l c }

/-- The Sparks whose lock files exist, in the order of their names. -/
def State.sparks (w : State ι) : List ℕ :=
  (w.files.filterMap Lock.position).insertionSort fun a b => toString a ≤ toString b

/-- A live owner joins those found; one that is known takes its place. -/
def insertRow (rows : List (Row ι)) (row : Row ι) : List (Row ι) :=
  if row.id ≠ none ∧ (rows.any fun other => decide (other.id = row.id)) = true then
    rows.map fun other => if other.id = row.id then row else other
  else rows ++ [row]

/-- The owner of a Spark's lock that is held. -/
def State.rowOf (w : State ι) (position : ℕ) : Row ι :=
  match w.content (.spark position) with
  | some owner => ⟨some owner.id, owner.positions⟩
  | none => ⟨none, some [position]⟩

/-- The rows that overlap some positions. -/
def overlapping (positions : Placement) (rows : List (Row ι)) : List (Row ι) :=
  rows.filter fun row => overlap positions row.positions

/-- What a look at the owners is for. -/
def Purpose.outcome (rows : List (Row ι)) : Purpose → Outcome ι
  | .refuse selected => .refused (overlapping selected rows)
  | .active => .rows rows
  | .conflict positions => .rows (overlapping positions rows)
  | .busy positions => .busy (!(overlapping positions rows).isEmpty)

/-- The positions a transfer holds beside those held. -/
def extra (held : Placement) (route : List ℕ) : List ℕ :=
  match held with
  | none => []
  | some positions => sortedSet (route.filter fun position => decide (position ∉ positions) && decide (position ≠ 0))

/-- What a call does first once it has the admission lock. -/
def Request.inside : Request → Stage ι
  | .hold positions expand => .selecting positions expand
  | .transfer held route => .selecting (some (extra held route)) false
  | .active => .scanning .active
  | .conflict positions => .scanning (.conflict positions)
  | .busy positions => .scanning (.busy positions)

/-- A call is made; a transfer that needs nothing more holds nothing. -/
def Request.start : Request → Stage ι
  | .transfer held route => if extra held route = [] then .done .left else .entering (.transfer held route)
  | request => .entering request

/-- The next step of a call on its own; none while it waits. -/
def State.next (w : State ι) (c : ι) : Option (State ι) :=
  match w.stage c with
  | .entering request =>
    if w.locks.grants .admission .exclusive then
      some ((w.take c .admission .exclusive none).move c request.inside)
    else none
  | .selecting positions expand =>
    let selected := if expand then affected w.records positions else positions
    some (w.move c (.acquiring selected [] (needed selected)))
  | .acquiring selected held (l :: todo) =>
    if w.locks.grants l (modeFor selected l) then
      some ((w.take c l (modeFor selected l) (some ⟨c, selected⟩)).move c (.acquiring selected (l :: held) todo))
    else some (w.move c (.closing selected held))
  | .acquiring selected held [] => some ((w.free c .admission).move c (.admitted selected held))
  | .closing selected (l :: held) => some ((w.free c l).move c (.closing selected held))
  | .closing selected [] => some (w.move c (.scanning (.refuse selected)))
  | .scanning purpose =>
    if .gate ∈ w.files then
      if w.locks.grants .gate .shared then some ((w.take c .gate .shared none).move c (.gated purpose))
      else some (w.move c (.exiting (purpose.outcome [⟨(w.content .gate).map Owner.id, none⟩])))
    else some (w.move c (.probing purpose w.sparks []))
  | .gated purpose => some ((w.free c .gate).move c (.probing purpose w.sparks []))
  | .probing purpose (position :: todo) rows =>
    if w.locks.grants (.spark position) .exclusive then
      some ((w.take c (.spark position) .exclusive none).move c (.probed purpose position todo rows))
    else some (w.move c (.probing purpose todo (insertRow rows (w.rowOf position))))
  | .probing purpose [] rows => some (w.move c (.exiting (purpose.outcome rows)))
  | .probed purpose position todo rows => some ((w.free c (.spark position)).move c (.probing purpose todo rows))
  | .exiting outcome => some ((w.free c .admission).move c (.done outcome))
  | .leaving selected (l :: held) =>
    some ((w.free c l).move c (if held = [] then .done .left else .leaving selected held))
  | _ => none

/-- What may happen. -/
inductive Move (ι π : Type)
  /-- A call is made. -/
  | start (c : ι) (request : Request)
  /-- A call takes its next step. -/
  | next (c : ι)
  /-- Reading the records raises. -/
  | fault (c : ι)
  /-- The body of a hold ends. -/
  | leave (c : ι)
  | die (process : π)
  | record (records : List SlotRecords)

variable {π : Type} [DecidableEq π]

/-- One step of the ring; a call runs in one process. -/
def step (process : ι → π) (w : State ι) : Move ι π → Option (State ι)
  | .start c request =>
    match w.stage c with
    | .idle => some (w.move c request.start)
    | _ => none
  | .next c => w.next c
  | .fault c =>
    match w.stage c with
    | .selecting _ true => some (w.move c (.exiting .fault))
    | _ => none
  | .leave c =>
    match w.stage c with
    | .admitted selected held => some (w.move c (.leaving selected held))
    | _ => none
  | .die p => some { w with
      locks := w.locks.drop fun c => decide (process c = p)
      stage := fun c => if decide (process c = p) then .idle else w.stage c }
  | .record records => some { w with records }

/-- A ring on which no call was made. -/
def initial (records : List SlotRecords) (files : List Lock) (content : Lock → Option (Owner ι)) : State ι :=
  ⟨records, fun _ => [], files, content, fun _ => .idle⟩

end SparkRing.Admission
