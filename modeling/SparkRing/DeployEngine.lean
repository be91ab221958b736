import SparkRing.DeployPlan
import SparkRing.TransitionSystem

/-!
# Carrying out a plan

A call holds the lock of the receipt, checks a whole phase before it changes anything,
records the actions as running, issues their commands from a pool of four workers and
records the results in plan order as they arrive. Commands may fail, time out or raise,
saves may fail, and the process may end between any two steps; the receipt on the disk is
all that the next call knows.
-/

namespace SparkRing.Deploy

/-- Workers of a pool. -/
def WORKERS : ℕ := 4

/-- How far a worker is with an action. -/
inductive Worker
  /-- The action waits for a worker. -/
  | waiting
  /-- Its command was issued. -/
  | running
  /-- Its command succeeded, and its verification was issued. -/
  | verifying
  /-- It ended. -/
  | finished (state : ActionState)
  | raised
  deriving DecidableEq

/-- The worker is busy with a command. -/
def Worker.busy : Worker → Bool
  | .running | .verifying => true
  | _ => false

/-- Where a call is. -/
inductive Pc
  /-- The receipt is saved as not complete. -/
  | opening
  | phase (i : ℕ)
  /-- The checks of an action of a phase. -/
  | preflight (i j c : ℕ)
  /-- Actions that succeeded are verified again, the others are marked as running. -/
  | marking (i j : ℕ) (todo : List ℕ)
  /-- The marks are saved. -/
  | saving (i : ℕ) (todo : List ℕ)
  /-- The workers run, and the results before the next one were recorded. -/
  | applying (i : ℕ) (workers : List (ℕ × Worker)) (next : ℕ)
  /-- An error waits for the workers to end. -/
  | draining (i : ℕ) (workers : List (ℕ × Worker)) (message : String)
  /-- The receipt is saved as complete. -/
  | finishing
  deriving DecidableEq

/-- A call that holds the lock. -/
structure Call where
  /-- Its number. -/
  id : ℕ
  /-- What it allows. -/
  permissions : Permissions
  receipt : Receipt
  pc : Pc

/-- What happened, for the record only. -/
inductive Note
  | opened (call : ℕ) (permissions : Permissions)
  /-- A check of an action passed. -/
  | passed (call i j c : ℕ)
  /-- An action that had succeeded was verified again. -/
  | reverified (call i j : ℕ)
  /-- The command of an action was issued. -/
  | issued (call i j : ℕ)
  /-- It ran and succeeded, with its verification where it has one. -/
  | succeeded (call i j : ℕ)
  /-- The receipt on the disk records that an action succeeded. -/
  | recorded (call : ℕ) (key : String)
  /-- The receipt on the disk says complete. -/
  | completed (call : ℕ)
  deriving DecidableEq

/-- The receipt on the disk and the call that holds its lock. -/
structure State where
  disk : Option Receipt
  /-- The call in progress. -/
  process : Option Call
  /-- How many calls began. -/
  calls : ℕ
  /-- What the last call came to. -/
  answer : Option (Except String Unit)
  /-- What happened, the latest first. -/
  log : List Note

/-- Something happens. -/
inductive Event
  /-- A controller calls. -/
  | start (resume : Bool) (permissions : Permissions) (approval : String)
  /-- The call goes on without a command; a save may fail. -/
  | advance (ok : Bool)
  /-- A command of the call itself gives a result or raises; the save after it may fail. -/
  | ask (result : Option Result) (ok : Bool)
  /-- A worker issues the command of its action. -/
  | begin (k : ℕ)
  /-- The command gives a result or raises. -/
  | reply (k : ℕ) (result : Option Result)
  /-- The verification gives a result or raises. -/
  | confirm (k : ℕ) (result : Option Result)
  /-- The process ends. -/
  | crash

namespace State

/-- The call goes on. -/
def goto (s : State) (call : Call) (pc : Pc) : State := { s with process := some { call with pc := pc } }

/-- The call ends. -/
def finish (s : State) (answer : Except String Unit) : State := { s with process := none, answer := some answer }

/-- Something is noted. -/
def note (s : State) (note : Note) : State := { s with log := note :: s.log }

/-- The receipt of a call replaces the one on the disk. -/
def save (s : State) (receipt : Receipt) : State := { s with disk := some receipt }

end State

/-- How far the receipt of a call says that an action got. -/
def Call.stateOf? (call : Call) (phase : Phase) (action : Action) : Option ActionState :=
  call.receipt.actions.get? (actionKey phase action)

/-- A call whose receipt says how far an action got. -/
def Call.mark (call : Call) (phase : Phase) (action : Action) (state : ActionState) : Call :=
  { call with receipt := { call.receipt with actions := call.receipt.actions.set (actionKey phase action) state } }

/-- A controller calls. -/
def start (plan : Plan) (s : State) (resume : Bool) (permissions : Permissions) (approval : String) : State :=
  if s.process.isSome then { s with answer := some (.error "Another operation is active; use sparkring status to follow it") }
  else if approval ≠ plan.sha256 then s.finish (.error "Approval must name the exact plan SHA-256")
  else
    match (plan.phases.flatMap Phase.actions).findSome? permissions.refuse with
    | some message => s.finish (.error message)
    | none =>
      let begin (receipt : Receipt) : State :=
        { s.note (.opened s.calls permissions) with
          process := some ⟨s.calls, permissions, { receipt with complete := false }, .opening⟩, calls := s.calls + 1 }
      match s.disk with
      | none => if resume then s.finish (.error "No receipt exists to resume") else begin (Receipt.fresh plan)
      | some receipt =>
        if resume = false then s.finish (.error "Receipt exists; use resume after inspecting it")
        else if receipt.plan ≠ plan.sha256 then s.finish (.error "Receipt belongs to a different plan")
        else begin receipt

/-- The call goes on without a command. -/
def advance (plan : Plan) (s : State) (call : Call) (ok : Bool) : Option State :=
  match call.pc with
  | .opening => if ok then some ((s.save call.receipt).goto call (.phase 0)) else some (s.finish (.error "The receipt was not saved"))
  | .phase i =>
    match plan.phases[i]? with
    | none => some (s.goto call .finishing)
    | some phase =>
      match phase.actions.findSome? call.permissions.refuseAgain with
      | some message => some (s.finish (.error message))
      | none => some (s.goto call (.preflight i 0 0))
  | .preflight i j c =>
    match plan.action? i j with
    | none => some (s.goto call (.marking i 0 []))
    | some (phase, action) =>
      match call.stateOf? phase action with
      | some .running | some .uncertain =>
        some (s.finish (.error (actionKey phase action ++
          ": prior outcome is uncertain; inspect host state before creating a recovery plan")))
      | some .succeeded => some (s.goto call (.preflight i (j + 1) 0))
      | _ => if action.checks.length ≤ c then some (s.goto call (.preflight i (j + 1) 0)) else none
  | .marking i j todo =>
    match plan.action? i j with
    | none => some (s.goto call (.saving i todo))
    | some (phase, action) =>
      if call.stateOf? phase action = some .succeeded then none
      else some (s.goto (call.mark phase action .running) (.marking i (j + 1) (todo ++ [j])))
  | .saving i todo =>
    if ok then some ((s.save call.receipt).goto call (.applying i (todo.map fun j => (j, .waiting)) 0))
    else some (s.finish (.error "The receipt was not saved"))
  | .applying i workers next =>
    match workers[next]? with
    | none =>
      -- every result was recorded
      if workers.all fun worker => worker.2 = .finished .succeeded then some (s.goto call (.phase (i + 1)))
      else some (s.finish (.error "phase failed; later phases were not started"))
    | some (j, .finished state) =>
      match plan.action? i j with
      | none => none
      | some (phase, action) =>
        if ok then
          let call := call.mark phase action state
          let s := s.save call.receipt
          let s := if state = .succeeded then s.note (.recorded call.id (actionKey phase action)) else s
          some (s.goto call (.applying i workers (next + 1)))
        -- the call has no more use for its receipt
        else some (s.goto call (.draining i workers "The receipt was not saved"))
    | some (_, .raised) => some (s.goto call (.draining i workers "The runner raised"))
    | some _ => none
  | .draining _ workers message => if workers.any fun worker => worker.2.busy then none else some (s.finish (.error message))
  | .finishing =>
    if ok then some (((s.save { call.receipt with complete := true }).note (.completed call.id)).finish (.ok ()))
    else some (s.finish (.error "The receipt was not saved"))

/-- A command of the call itself gives a result or raises. -/
def ask (plan : Plan) (s : State) (call : Call) (result : Option Result) (ok : Bool) : Option State :=
  match call.pc with
  | .preflight i j c =>
    match plan.action? i j with
    | none => none
    | some (phase, action) =>
      if call.stateOf? phase action = none ∨ call.stateOf? phase action = some .failed then
        match action.checks[c]?, result with
        | none, _ => none
        | some _, none => some (s.finish (.error "The runner raised"))
        | some check, some result =>
          if verified result check then some ((s.note (.passed call.id i j c)).goto call (.preflight i j (c + 1)))
          else
            some (if ok then (s.save call.receipt).finish (.error (actionKey phase action ++ ": preflight failed"))
              else s.finish (.error "The receipt was not saved"))
      else none
  | .marking i j todo =>
    match plan.action? i j with
    | none => none
    | some (phase, action) =>
      if call.stateOf? phase action = some .succeeded then
        match result with
        | none => some (s.finish (.error "The runner raised"))
        | some result =>
          if verified result action.recheck then
            if ok then some (((s.save call.receipt).note (.reverified call.id i j)).goto call (.marking i (j + 1) todo))
            else some (s.finish (.error "The receipt was not saved"))
          else
            some (if ok then (s.save call.receipt).finish (.error (actionKey phase action ++
                ": completed action no longer verifies; review drift"))
              else s.finish (.error "The receipt was not saved"))
      else none
  | _ => none

/-- The workers of a call, with its phase. -/
def Pc.pool? : Pc → Option (ℕ × List (ℕ × Worker))
  | .applying i workers _ | .draining i workers _ => some (i, workers)
  | _ => none

/-- The same place with other workers. -/
def Pc.withPool : Pc → List (ℕ × Worker) → Pc
  | .applying i _ next, workers => .applying i workers next
  | .draining i _ message, workers => .draining i workers message
  | pc, _ => pc

/-- A worker goes on. -/
def State.setWorker (s : State) (call : Call) (workers : List (ℕ × Worker)) (k j : ℕ) (worker : Worker) : State :=
  s.goto call (call.pc.withPool (workers.set k (j, worker)))

/-- A worker issues the command of its action: the first one that waits, while fewer than four are busy. -/
def begin (s : State) (call : Call) (k : ℕ) : Option State :=
  match call.pc.pool? with
  | none => none
  | some (i, workers) =>
    match workers[k]? with
    | some (j, .waiting) =>
      if (workers.take k).all (fun worker => worker.2 ≠ .waiting) ∧ workers.countP (fun worker => worker.2.busy) < WORKERS then
        some ((s.note (.issued call.id i j)).setWorker call workers k j .running)
      else none
    | _ => none

def State.endWorker (s : State) (call : Call) (i : ℕ) (workers : List (ℕ × Worker)) (k j : ℕ) (state : ActionState) : State :=
  let s := if state = .succeeded then s.note (.succeeded call.id i j) else s
  s.setWorker call workers k j (.finished state)

/-- The command of an action gives a result or raises. -/
def reply (plan : Plan) (s : State) (call : Call) (k : ℕ) (result : Option Result) : Option State :=
  match call.pc.pool? with
  | none => none
  | some (i, workers) =>
    match workers[k]? with
    | some (j, .running) =>
      match plan.action? i j, result with
      | none, _ => none
      | some _, none => some (s.setWorker call workers k j .raised)
      | some (_, action), some result =>
        if stateOf action result = .succeeded ∧ action.verify.isSome then some (s.setWorker call workers k j .verifying)
        else some (s.endWorker call i workers k j (stateOf action result))
    | _ => none

/-- The verification of an action gives a result or raises. -/
def confirm (plan : Plan) (s : State) (call : Call) (k : ℕ) (result : Option Result) : Option State :=
  match call.pc.pool? with
  | none => none
  | some (i, workers) =>
    match workers[k]? with
    | some (j, .verifying) =>
      match (plan.action? i j).bind fun action => action.2.verify, result with
      | none, _ => none
      | some _, none => some (s.setWorker call workers k j .raised)
      | some check, some result =>
        some (s.endWorker call i workers k j (if verified result check then .succeeded else .uncertain))
    | _ => none

def step (plan : Plan) (s : State) (event : Event) : Option State :=
  match event, s.process with
  | .start resume permissions approval, _ => some (start plan s resume permissions approval)
  | .crash, _ => some { s with process := none }
  | .advance ok, some call => advance plan s call ok
  | .ask result ok, some call => ask plan s call result ok
  | .begin k, some call => begin s call k
  | .reply k result, some call => reply plan s call k result
  | .confirm k result, some call => confirm plan s call k result
  | _, none => none

/-- Nothing was called yet. -/
def init : State := ⟨none, none, 0, none, []⟩

end SparkRing.Deploy
