import Mathlib.Data.List.Dedup
import SparkRing.CrashProgram

/-!
# Model switches

A switch prepares a candidate deployment, stops the deployments it replaces, starts
and checks the candidate and commits it as its slot's active deployment. Its journal
and the slots' active records are durable; deployments change through adapters that
may raise. A switch that fails or is cancelled brings back what it stopped; one that
crashed is resumed, replaced or settled by a later call.
-/

namespace SparkRing.Rollout

open CrashProgram

/-- The Sparks of a slot or deployment; every Spark for `none`. -/
abbrev Placement := Option (List ℕ)

/-- Two placements share a Spark. -/
def overlap : Placement → Placement → Bool
  | some a, some b => a.any fun spark => decide (spark ∈ b)
  | _, _ => true

/-- A deployment. -/
structure Deployment where
  /-- Its directory. -/
  path : String
  /-- Its Sparks. -/
  placement : Placement
  deriving DecidableEq

/-- What an adapter asks a deployment to do. -/
inductive Operation
  /-- Start. -/
  | up
  /-- Stop. -/
  | down
  deriving DecidableEq

/-- What a deployment runs. -/
inductive Status
  /-- No model: its last stop completed, or it was never started. -/
  | stopped
  /-- Its last start or stop did not complete. -/
  | unfinished (operation : Operation)
  /-- Its model: whether it was verified since its last stop, and since its last start. -/
  | running (verified checked : Bool)
  deriving DecidableEq

/-- It serves: it was started and verified after its last stop. -/
def Status.serves : Status → Bool
  | .running verified _ => verified
  | _ => false

/-- It serves and was verified after its last start. -/
def Status.checked : Status → Bool
  | .running verified checked => verified && checked
  | _ => false

/-- What a switch's journal says it does. -/
inductive State
  | preparing
  | stoppingPrevious
  | starting
  | verifying
  | recoveringPrevious
  | needsAttention
  | complete
  | failed
  | preparationFailed
  | failedRecovered
  | cancelled
  deriving DecidableEq

/-- A switch that stopped before it finished. -/
def State.pending : State → Bool
  | .stoppingPrevious | .starting | .verifying | .recoveringPrevious | .needsAttention => true
  | _ => false

/-- A switch that left nothing of itself running. -/
def State.settled : State → Bool
  | .complete | .failed | .preparationFailed | .failedRecovered | .cancelled => true
  | _ => false

/-- A switch failed. -/
def State.failing : State → Bool
  | .failed | .preparationFailed | .failedRecovered => true
  | _ => false

/-- A switch's journal. -/
structure Record where
  /-- The deployment to start. -/
  candidate : Deployment
  /-- The slot's deployment before. -/
  previous : Option Deployment
  /-- Running deployments of conflicting slots. -/
  displaced : List Deployment
  /-- What it does. -/
  state : State
  deriving DecidableEq

/-- What happened so far, as far as it is spoken of. -/
inductive Event
  /-- A stop of a deployment that may have stopped it. -/
  | down (deployment : Deployment)
  | verified (deployment : Deployment)
  /-- A slot's active record was written. -/
  | active (slot : Placement) (deployment : Deployment)
  /-- A slot's journal was written. -/
  | journal (slot : Placement) (record : Record)
  deriving DecidableEq

/-- What a crash leaves. -/
structure World where
  journal : Placement → Option Record
  /-- The deployment each slot's active record names. -/
  active : Placement → Option Deployment
  /-- What every deployment runs. -/
  status : Deployment → Status
  /-- What happened so far. -/
  log : List Event

/-- A call of a deployment's adapter. -/
structure AdapterCall where
  deployment : Deployment
  /-- What it was asked. -/
  operation : Operation
  /-- The adapter returned. -/
  succeeded : Bool
  deriving DecidableEq

/-- A world and what a switch holds in memory. -/
structure Frame where
  world : World
  record : Record
  /-- It may have stopped a deployment that it brings back. -/
  switched : Bool
  /-- It stopped the active deployment to start it again. -/
  stoppedActive : Bool
  /-- It may have started the candidate. -/
  attempted : Bool
  /-- The calls it made so far, newest first. -/
  calls : List AdapterCall

/-- What the environment answers a call. -/
inductive Answer
  /-- It succeeds; an operator did not cancel. -/
  | ok
  /-- It raises and changed nothing; an operator cancelled. -/
  | refused
  /-- It raises half way; an operator cancelled. -/
  | broken
  deriving DecidableEq

/-- What a switch raises. -/
inductive Stop
  /-- The call itself is refused. -/
  | refused
  /-- An adapter raised. -/
  | error
  | cancelled
  deriving DecidableEq

/-- A program of a switch. -/
abbrev Op := Program Frame Answer Stop

/-- A deployment's status after a completed operation. -/
def Status.after : Operation → Status → Status
  | .down, _ => .stopped
  | .up, .running verified _ => .running verified false
  | .up, _ => .running false false

/-- An operation of a deployment came as far as the answer says. -/
def World.operate (w : World) (deployment : Deployment) (operation : Operation) (status : Status) : World :=
  { w with
    status := Function.update w.status deployment status
    log := match operation with
      | .down => .down deployment :: w.log
      | .up => w.log }

/-- Start or stop a deployment. -/
def apply (deployment : Deployment) (operation : Operation) : Op Unit := effect fun answer f =>
  match answer with
  | .ok =>
    (.done (), { f with
      world := f.world.operate deployment operation ((f.world.status deployment).after operation)
      calls := ⟨deployment, operation, true⟩ :: f.calls })
  | .refused => (.raised .error, { f with calls := ⟨deployment, operation, false⟩ :: f.calls })
  | .broken =>
    (.raised .error, { f with
      world := f.world.operate deployment operation (.unfinished operation)
      calls := ⟨deployment, operation, false⟩ :: f.calls })

/-- A deployment passed its verification. -/
def World.verify (w : World) (deployment : Deployment) : World :=
  { w with
    status := Function.update w.status deployment (match w.status deployment with
      | .running .. => .running true true
      | status => status)
    log := .verified deployment :: w.log }

def verify (deployment : Deployment) : Op Unit := effect fun answer f =>
  match answer with
  | .ok => (.done (), { f with world := f.world.verify deployment })
  | _ => (.raised .error, f)

def prepare (_ : Deployment) : Op Unit := effect fun answer f =>
  match answer with
  | .ok => (.done (), f)
  | _ => (.raised .error, f)

/-- Ask whether a deployment serves on every rank. -/
def serving (_ : Deployment) : Op Bool := effect fun answer f => (.done (decide (answer = .ok)), f)

/-- Stop here if an operator cancelled. -/
def cancelled : Op Unit := effect fun answer f =>
  match answer with
  | .ok => (.done (), f)
  | _ => (.raised .cancelled, f)

def World.writeJournal (w : World) (slot : Placement) (record : Record) : World :=
  { w with journal := Function.update w.journal slot (some record), log := .journal slot record :: w.log }

/-- Write the journal, cancelled or not. -/
def write (slot : Placement) (state : State) : Op Unit := do
  note fun f => { f with record := { f.record with state } }
  effect fun _ f => (.done (), { f with world := f.world.writeJournal slot f.record })

/-- Write the journal unless an operator cancelled. -/
def save (slot : Placement) (state : State) : Op Unit := do
  cancelled
  write slot state

/-- A slot's active record is written. -/
def World.writeActive (w : World) (slot : Placement) (deployment : Deployment) : World :=
  { w with active := Function.update w.active slot (some deployment), log := .active slot deployment :: w.log }

/-- Make a deployment the slot's active one. -/
def saveActive (slot : Placement) (deployment : Deployment) : Op Unit :=
  effect fun _ f => (.done (), { f with world := f.world.writeActive slot deployment })

/-- A slot's active record is removed. -/
def World.removeActive (w : World) (slot : Placement) : World := { w with active := Function.update w.active slot none }

/-- Remove a slot's active record. -/
def unlink (slot : Placement) : Op Unit := effect fun _ f => (.done (), { f with world := f.world.removeActive slot })

/-- The slots that cannot serve while a placement serves. -/
def conflicting (fabric : List Placement) (placement : Placement) : List Placement :=
  fabric.filter fun slot => decide (slot ≠ placement) && overlap slot placement

/-- Remove the active records of the slots that conflict with a placement. -/
def clearConflicting (fabric : List Placement) (placement : Placement) : Op Unit :=
  forEach unlink (conflicting fabric placement)

/-- One call of a switch. -/
structure Call where
  slot : Placement
  /-- The candidate. -/
  directory : Deployment
  /-- The slot's deployment before. -/
  previous : Option Deployment
  /-- Running deployments of conflicting slots. -/
  displaced : List Deployment
  /-- It may replace an unfinished switch. -/
  supersede : Bool

/-- Another call must not resume a switch: its recovery failed, or it is another
candidate's. -/
def abandoned (retained : Record) (directory : Deployment) : Bool :=
  decide (retained.state = .recoveringPrevious) || decide (retained.state = .needsAttention) ||
    decide (retained.candidate ≠ directory)

/-- Take up the slot's journal: resume it, replace it, or begin a new one. Returns
whether it is resumed. -/
def takeUp (call : Call) : Op Bool := do
  note fun f => { f with
    record := ⟨call.directory, call.previous, call.displaced, .preparing⟩
    switched := false
    stoppedActive := false
    attempted := false }
  match ← look fun f => f.world.journal call.slot with
  | none => pure false
  | some retained =>
    if retained.state.pending then
      if abandoned retained call.directory then
        if call.supersede then do
          handle (apply retained.candidate .down) fun _ => pure ()
          pure false
        else raise .refused
      else do
        note fun f => { f with record := retained }
        pure true
    else pure false

/-- A candidate whose own start or stop did not complete stops first. -/
def stopUnfinished (directory : Deployment) : Op Bool := do
  match ← look fun f => f.world.status directory with
  | .unfinished _ => do
    apply directory .down
    pure true
  | _ => pure false

/-- Prepare the candidate before anything else is stopped. Returns whether the candidate
itself stopped. -/
def getReady (call : Call) : Op Bool := do
  handle (save call.slot .preparing) fun stop => do
    write call.slot .cancelled
    raise stop
  handle
    (do
      let stopped ← stopUnfinished call.directory
      prepare call.directory
      pure stopped)
    fun stop => do
      write call.slot .preparationFailed
      raise stop

/-- Stop the slot's previous deployment, or the active candidate when it does not serve. -/
def stopPrevious (slot : Placement) (record : Record) (stopped : Bool) : Op Unit :=
  match record.previous with
  | none => pure ()
  | some previous =>
    if previous ≠ record.candidate then do
      save slot .stoppingPrevious
      note fun f => { f with switched := true }
      apply previous .down
    else if stopped then pure ()
    else do
      if ← serving record.candidate then pure ()
      else do
        save slot .stoppingPrevious
        apply record.candidate .down
        note fun f => { f with stoppedActive := true }

def stopDisplaced (slot : Placement) (other : Deployment) : Op Unit := do
  save slot .stoppingPrevious
  note fun f => { f with switched := true }
  apply other .down

/-- Commit a verified candidate. -/
def commit (fabric : List Placement) (slot : Placement) (candidate : Deployment) : Op Unit := do
  saveActive slot candidate
  clearConflicting fabric slot
  write slot .complete

/-- Stop what the candidate replaces, start and verify it, and commit. -/
def switch (fabric : List Placement) (slot : Placement) (record : Record) (stopped : Bool) : Op Unit := do
  stopPrevious slot record stopped
  forEach (stopDisplaced slot) record.displaced
  save slot .starting
  note fun f => { f with attempted := true }
  apply record.candidate .up
  save slot .verifying
  verify record.candidate
  cancelled
  commit fabric slot record.candidate

/-- The deployments a failed switch brings back. -/
def Record.restore (record : Record) : List Deployment :=
  (record.previous.toList.filter fun previous => decide (previous ≠ record.candidate)) ++ record.displaced

/-- Stop the candidate and bring deployments back. -/
def bringBack (directory : Deployment) (paths : List Deployment) : Op Unit := do
  apply directory .down
  forEach (fun other => if other = directory then pure () else apply other .down) paths.eraseDups
  forEach (fun other => apply other .up) paths.eraseDups
  forEach verify paths.eraseDups

/-- The active record names the previous deployment again. -/
def restoreActive (slot : Placement) (record : Record) : Op Unit :=
  match record.previous with
  | none => pure ()
  | some previous => if previous = record.candidate then pure () else saveActive slot previous

/-- What a cancelled switch brings back. -/
def cancelBack (f : Frame) (record : Record) (resume : Bool) : List Deployment :=
  if record.restore = [] then
    if f.stoppedActive || f.attempted || resume then record.previous.toList else []
  else record.restore

/-- Leave a cancelled switch. -/
def leaveCancelled (slot : Placement) (record : Record) (resume : Bool) : Op Unit := do
  let back ← look fun f => cancelBack f record resume
  handle
    (do
      if ← look fun f => resume || f.switched || f.stoppedActive || f.attempted then do
        bringBack record.candidate back
        restoreActive slot record
      else pure ()
      write slot .cancelled)
    fun _ => do
      write slot .needsAttention
      raise .error
  raise .cancelled

def leaveFailed (slot : Placement) (record : Record) : Op Unit := do
  if ← look fun f => f.switched then do
    write slot .recoveringPrevious
    handle
      (do
        bringBack record.candidate record.restore
        restoreActive slot record
        write slot .failedRecovered)
      fun _ => write slot .needsAttention
  else write slot .failed
  raise .error

/-- Prepare and switch, and on failure recover what was stopped. -/
def execute (fabric : List Placement) (call : Call) : Op Unit := do
  let resume ← takeUp call
  let stopped ← if resume then pure false else getReady call
  let record ← look fun f => f.record
  handle (switch fabric call.slot record stopped) fun stop =>
    match stop with
    | .cancelled => leaveCancelled call.slot record resume
    | _ => leaveFailed call.slot record

/-- Try something; returns whether it succeeded. -/
def attempt (p : Op Unit) : Op Bool :=
  handle
    (do
      p
      pure true)
    fun _ => pure false

/-- Try something of every deployment; returns whether all succeeded. -/
def attemptAll (f : Deployment → Op Unit) : List Deployment → Op Bool
  | [] => pure true
  | x :: xs => do
    let first ← attempt (f x)
    let others ← attemptAll f xs
    pure (first && others)

/-- What settling a switch brings back. -/
def settleBack (record : Record) : List Deployment :=
  if record.state = .preparing then []
  else if record.restore = [] then record.previous.toList.filter fun previous => decide (previous = record.candidate)
  else record.restore

/-- The active record of a switch that committed before it stopped. -/
def settleActive (slot : Placement) (record : Record) : Op Unit := do
  if (← look fun f => f.world.active slot) = some record.candidate then
    match record.previous with
    | some previous => saveActive slot previous
    | none => unlink slot
  else pure ()

/-- Stop an unfinished switch's candidate and bring back what it stopped. -/
def settle (slot : Placement) : Op Unit := do
  match ← look fun f => f.world.journal slot with
  | none => raise .refused
  | some record =>
    if record.state.pending then do
      note fun f => { f with record }
      let back := settleBack record
      let first ← attempt (apply record.candidate .down)
      let downs ← attemptAll (fun path => apply path .down) back
      let ups ← attemptAll (fun path => apply path .up) back
      let verified ← attemptAll verify back
      if first && downs && ups && verified then do
        settleActive slot record
        write slot .cancelled
      else write slot .needsAttention
    else raise .refused

/-- One operation on a fabric. -/
inductive Operating
  /-- A switch. -/
  | execute (call : Call)
  | settle (slot : Placement)

def Operating.slot : Operating → Placement
  | .execute call => call.slot
  | .settle slot => slot

def Operating.program (fabric : List Placement) : Operating → Op Unit
  | .execute call => Rollout.execute fabric call
  | .settle slot => Rollout.settle slot

/-- A switch's memory before it begins. -/
def Frame.enter (w : World) : Frame := ⟨w, ⟨⟨"", none⟩, none, [], .preparing⟩, false, false, false, []⟩

/-- What an operation leaves, up to where its answers end. -/
def World.run (fabric : List Placement) (w : World) (operating : Operating) (script : List Answer) : World :=
  ((operating.program fabric) (.enter w) script).2.1.world

/-- One operation, with the answers it gets. -/
def step (fabric : List Placement) (w : World) (a : Operating × List Answer) : Option World := some (w.run fabric a.1 a.2)

end SparkRing.Rollout
