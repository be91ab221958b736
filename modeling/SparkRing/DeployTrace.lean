import SparkRing.DeployEngine

/-!
# What a receipt stands for

An action that changes a host is issued only where no receipt told of it, so a key that is
blank or failed stands for a command that was never issued, and a key that succeeded for a
result that was recorded. A call knows of each phase it has passed that every action
succeeded in it or was verified again.
-/

namespace SparkRing.Deploy

/-- A call has run an action to its success, or verified it again. -/
def Completed (log : List Note) (call i j : ℕ) : Prop := .succeeded call i j ∈ log ∨ .reverified call i j ∈ log

/-- An action was recorded as succeeded, and verified again where an earlier call ran it. -/
def Settled (log : List Note) (call i j : ℕ) (key : String) : Prop :=
  .recorded call key ∈ log ∨ (∃ before, .recorded before key ∈ log) ∧ .reverified call i j ∈ log

def Passed (log : List Note) (call i j : ℕ) (action : Action) : Prop := ∀ c < action.checks.length, .passed call i j c ∈ log

/-- What must have happened before an action is issued. -/
structure MayIssue (plan : Plan) (earlier : List Note) (call i j : ℕ) : Prop where
  /-- Its risk was permitted. -/
  permitted : ∃ permissions phase action, .opened call permissions ∈ earlier ∧ plan.action? i j = some (phase, action) ∧
    permissions.refuse action = none
  /-- A changing action was never issued before, by any call. -/
  first : ∀ phase action, plan.action? i j = some (phase, action) → action.risk ≠ .readOnly → ∀ before, .issued before i j ∉ earlier
  /-- In this call the actions of the phase that had succeeded were verified again, and the checks of the others passed. -/
  checked : ∀ j' phase action, plan.action? i j' = some (phase, action) →
    .reverified call i j' ∈ earlier ∨ Passed earlier call i j' action
  /-- Every action of an earlier phase was recorded, and verified again where an earlier call ran it. -/
  after : ∀ i' < i, ∀ j' phase action, plan.action? i' j' = some (phase, action) → Settled earlier call i' j' (actionKey phase action)

/-- What must have happened before something is noted. -/
def Allowed (plan : Plan) (earlier : List Note) : Note → Prop
  | .issued call i j => MayIssue plan earlier call i j
  | .completed call => ∀ i j phase action, plan.action? i j = some (phase, action) → Completed earlier call i j
  | _ => True

/-- Everything that happened was allowed when it did. -/
def Orderly (plan : Plan) (log : List Note) : Prop := ∀ note earlier, note :: earlier <:+ log → Allowed plan earlier note

/-- No changing action with this key was issued. -/
def Fresh (plan : Plan) (log : List Note) (key : String) : Prop := ∀ call i j phase action, plan.action? i j = some (phase, action) →
  actionKey phase action = key → action.risk ≠ .readOnly → .issued call i j ∉ log

/-- Nothing that a receipt tells of an action stands for an issued command. -/
def Blank (known : Option ActionState) : Prop := known = none ∨ known = some .failed

/-- What a receipt tells stands for what happened. -/
structure ReceiptOk (plan : Plan) (log : List Note) (known : String → Option ActionState) : Prop where
  /-- A success was recorded. -/
  recorded : ∀ key, known key = some .succeeded → ∃ call, .recorded call key ∈ log
  /-- Where it tells nothing, or of a failure, no changing action was issued. -/
  blank : ∀ key, Blank (known key) → Fresh plan log key

/-- What the receipt on the disk tells. -/
def State.known (s : State) (key : String) : Option ActionState := s.disk.bind fun receipt => receipt.actions.get? key

section

variable (plan : Plan) (log : List Note) (disk memory : String → Option ActionState) (call i : ℕ)

def PhaseDone : Prop := ∀ j phase action, plan.action? i j = some (phase, action) →
  Completed log call i j ∧ Settled log call i j (actionKey phase action)

def Before : Prop := ∀ i' < i, PhaseDone plan log call i'

/-- An action had succeeded, or nothing was issued of it and its checks passed. -/
def Clear (j : ℕ) : Prop := ∀ phase action, plan.action? i j = some (phase, action) →
  memory (actionKey phase action) = some .succeeded ∨ Blank (memory (actionKey phase action)) ∧ Passed log call i j action

/-- An action that had succeeded was verified again. -/
def Rechecked (j : ℕ) (key : String) : Prop := .reverified call i j ∈ log ∧ ∃ before, .recorded before key ∈ log

/-- An action is to be issued: its checks passed, it is marked and it was not issued. -/
def Marked (j : ℕ) (phase : Phase) (action : Action) : Prop :=
  Passed log call i j action ∧ memory (actionKey phase action) = some .running ∧ Fresh plan log (actionKey phase action)

/-- The actions before one are marked, where they are to be done, or were verified again. -/
structure MarkedUpTo (j : ℕ) (todo : List ℕ) : Prop where
  each : ∀ j' < j, ∀ phase action, plan.action? i j' = some (phase, action) →
    j' ∈ todo ∧ Marked plan log memory call i j' phase action ∨ j' ∉ todo ∧ Rechecked log call i j' (actionKey phase action)
  /-- Those to be done are actions before it. -/
  listed : ∀ j' ∈ todo, j' < j ∧ (plan.action? i j').isSome
  /-- Each is to be done once. -/
  nodup : todo.Nodup

/-- What is known of the action of a worker. -/
structure WorkerOk (j : ℕ) (phase : Phase) (action : Action) (worker : Worker) : Prop where
  /-- Nothing changing was issued for one that waits. -/
  waiting : worker = .waiting → Fresh plan log (actionKey phase action)
  /-- Nothing changing was issued for one that reads only. -/
  readOnly : action.risk = .readOnly → Fresh plan log (actionKey phase action)
  /-- Until it has ended it is marked, in the process and on the disk. -/
  marked : (∀ state, worker ≠ .finished state) →
    memory (actionKey phase action) = some .running ∧ disk (actionKey phase action) = some .running
  /-- A changing action does not end as failed. -/
  failed : worker = .finished .failed → action.risk = .readOnly
  /-- A success was run. -/
  succeeded : worker = .finished .succeeded → .succeeded call i j ∈ log

/-- What is known of a pool. -/
structure PoolOk (workers : List (ℕ × Worker)) : Prop where
  /-- Every action has one worker. -/
  nodup : (workers.map Prod.fst).Nodup
  /-- Every action of the phase has a worker and its checks passed, or was verified again. -/
  each : ∀ j phase action, plan.action? i j = some (phase, action) →
    j ∈ workers.map Prod.fst ∧ Passed log call i j action ∨ Rechecked log call i j (actionKey phase action)
  worker : ∀ (k j : ℕ) (worker : Worker), workers[k]? = some (j, worker) → ∃ phase action, plan.action? i j = some (phase, action) ∧
    WorkerOk plan log disk memory call i j phase action worker

/-- The results before the next one were recorded. -/
def Collected (workers : List (ℕ × Worker)) (next : ℕ) : Prop := ∀ k < next, ∀ (j : ℕ) (worker : Worker), workers[k]? = some (j, worker) →
  (∃ state, worker = .finished state) ∧ ∀ phase action, plan.action? i j = some (phase, action) → worker = .finished .succeeded →
    .recorded call (actionKey phase action) ∈ log

/-- What a call knows where it is. -/
def PcOk : Pc → Prop
  | .opening => True
  | .phase i => Before plan log call i
  | .preflight i j c => Before plan log call i ∧ (∀ j' < j, Clear plan log memory call i j') ∧ ∀ c' < c, .passed call i j c' ∈ log
  | .marking i j todo => Before plan log call i ∧ (∀ j' ≥ j, Clear plan log memory call i j') ∧ MarkedUpTo plan log memory call i j todo
  | .saving i todo => Before plan log call i ∧ ∃ j, plan.action? i j = none ∧ (∀ j' ≥ j, plan.action? i j' = none) ∧
    MarkedUpTo plan log memory call i j todo
  | .applying i workers next => Before plan log call i ∧ PoolOk plan log disk memory call i workers ∧
    Collected plan log call i workers next
  | .draining i workers _ => Before plan log call i ∧ PoolOk plan log disk memory call i workers
  | .finishing => ∀ i, PhaseDone plan log call i

end

/-- What a call in progress knows. -/
structure CallOk (plan : Plan) (s : State) (call : Call) : Prop where
  /-- It began with its permissions. -/
  opened : .opened call.id call.permissions ∈ s.log
  permitted : ∀ i j phase action, plan.action? i j = some (phase, action) → call.permissions.refuse action = none
  /-- Its receipt stands for what happened. -/
  receipt : ReceiptOk plan s.log fun key => call.receipt.actions.get? key
  /-- Its receipt does not say complete. -/
  incomplete : call.receipt.complete = false
  pc : PcOk plan s.log s.known (fun key => call.receipt.actions.get? key) call.id call.pc

/-- The invariant. -/
structure Inv (plan : Plan) (s : State) : Prop where
  /-- Everything that happened was allowed. -/
  orderly : Orderly plan s.log
  /-- The receipt on the disk stands for what happened. -/
  disk : ReceiptOk plan s.log s.known
  /-- It says complete where a call noted that. -/
  complete : ∀ receipt, s.disk = some receipt → receipt.complete = true → ∃ call, .completed call ∈ s.log
  /-- What the call in progress knows. -/
  process : ∀ call, s.process = some call → CallOk plan s call

end SparkRing.Deploy
