import SparkRing.SirclPlans

/-!
# The locks of a session

The threads of one SIRCL session take its lock and its tuning lock in nested contexts. An op
whose size the tuning table decides runs with the table's choice applied to the session's
settings: the context finds the choice, takes the tuning lock, applies the choice and restores
the settings when it is left. A step of a thread is what it does until it has taken or let go of
a lock, or found or not found a choice.
-/

namespace SparkRing.SessionLocks

open Engine (Schedule Collective)
open Sircl (Algorithm)

/-- A collective as the tuning table names it. -/
inductive TunedOp
  | allReduce
  | allGather
  | reduceScatter
  | allToAll
deriving DecidableEq, Repr

/-- The settings that a collective's ops have of their own. -/
def TunedOp.kind : TunedOp → Option Collective
  | .allReduce => some .reduce
  | .allGather => some .gather
  | .reduceScatter => some .scatter
  | .allToAll => none

/-- How ops are launched. -/
inductive RunMode
  | eager
  | graph
deriving DecidableEq, Repr

/-- A choice of the table; what it leaves out stays as the session has it. -/
structure Choice where
  algorithm : Option Algorithm := none
  schedule : Option Schedule := none
  grid : Option ℕ := none
  piece : Option ℕ := none
  stagger : Option ℕ := none
  gatherStagger : Option ℕ := none
  blocks : Option ℕ := none
deriving DecidableEq, Repr

/-- The settings that a choice changes. -/
structure Settings where
  largeBlocks : ℕ
  blocks : ℕ
  largeSchedule : Schedule
  gatherSchedule : Schedule
  scatterSchedule : Schedule
  ringMins : Collective → ℕ
  chainMins : Collective → ℕ
  linkChunks : Collective → Option ℕ
  chainChunkBytes : ℕ
  ringStagger : ℕ
  ringGatherStagger : ℕ
  /-- Blocks of a link kernel, or of the chain all-reduce, by schedule and collective. -/
  opBlocks : Schedule → Collective → Option ℕ

/-- What a session has agreed on. -/
structure Session where
  worldSize : ℕ
  subsetRing : Bool
  counterBlocks : ℕ
  maxSize : ℕ
  ringAvailable : Bool
  linkAvailable : Bool
  chainAvailable : Bool
  chainSlotBytes : ℕ
  linkSlotBytes : ℕ
  linkSlots : ℕ
  available : Algorithm → Bool
  /-- The environment sets the chain all-reduce's blocks. -/
  chainBlocksEnv : Bool
  /-- The environment sets the blocks of a collective's link kernels. -/
  linkBlocksEnv : Collective → Bool
  /-- The table is a built-in plan. -/
  builtin : Bool
  /-- The settings that the session was configured with. -/
  configured : Settings
  tableDecide : TunedOp → ℕ → RunMode → Option Choice

/-- The schedule of a collective. -/
def Settings.scheduleOf (settings : Settings) : TunedOp → Option Schedule
  | .allReduce => some settings.largeSchedule
  | .allGather => some settings.gatherSchedule
  | .reduceScatter => some settings.scatterSchedule
  | .allToAll => none

variable (session : Session)

/-- Whether the table may decide a collective (`_plan_applies`). -/
def Session.planApplies (settings : Settings) (op : TunedOp) : Bool :=
  if session.builtin then
    (settings.scheduleOf op).isSome && settings.scheduleOf op == session.configured.scheduleOf op
  else true

/-- Smallest shard of a chain all-gather of some of the fabric's ranks. -/
def gatherMinBytes : ℕ := 4 * 2 ^ 20

/-- Link slots of a staggered ring link. -/
def ringStaggerSlots (world stagger : ℕ) : ℕ := if stagger = 0 then 2 else stagger * (world - 1) + 2

/-- A link schedule of a choice cannot run here. -/
def Session.refusesSchedule (kind : Option Collective) (choice : Choice) : Bool :=
  match choice.schedule, kind with
  | none, _ => false
  | some _, none => true
  | some schedule, some kind =>
    schedule == .ring && !session.ringAvailable ||
    schedule == .chain && !(if kind = .reduce then session.chainAvailable else session.linkAvailable) ||
    (schedule == .ring || schedule == .chain) && choice.piece.any
      (fun piece => decide ((if schedule = .chain ∧ kind = .reduce then session.chainSlotBytes else session.linkSlotBytes) < piece)) ||
    choice.stagger.any (fun stagger => schedule != .ring || kind == .gather ||
      decide (session.linkSlots < ringStaggerSlots session.worldSize stagger)) ||
    choice.gatherStagger.any (fun stagger => schedule != .ring || kind == .scatter ||
      decide (session.linkSlots < ringStaggerSlots session.worldSize stagger))

/-- A session cannot run a choice. -/
def Session.refuses (op : TunedOp) (choice : Choice) (nbytes : ℕ) : Bool :=
  session.subsetRing && (choice.schedule == some .ring || choice.schedule == some .chain &&
    (op.kind != some .gather || decide (nbytes < gatherMinBytes))) ||
  choice.grid.any (fun grid => decide (session.counterBlocks < grid)) ||
  op == .allReduce && choice.algorithm.isSome && decide (session.maxSize < nbytes) ||
  session.refusesSchedule op.kind choice ||
  choice.algorithm.any (fun algorithm => !session.available algorithm)

/-- The op blocks that a choice sets (`_choice_blocks`). -/
def Session.choiceBlocks (op : TunedOp) (choice : Choice) (settings : Settings) : Schedule → Collective → Option ℕ :=
  match choice.blocks, op.kind, choice.schedule with
  | some blocks, some kind, some schedule =>
    if schedule = .chain ∨ schedule = .ring then
      if schedule = .chain ∧ kind = .reduce then
        if session.chainBlocksEnv then settings.opBlocks
        else Function.update settings.opBlocks .chain (Function.update (settings.opBlocks .chain) .reduce (some blocks))
      else if session.linkBlocksEnv kind then settings.opBlocks
      else Function.update settings.opBlocks schedule (Function.update (settings.opBlocks schedule) kind (some blocks))
    else settings.opBlocks
  | _, _, _ => settings.opBlocks

/-- The settings with the schedule of a choice. -/
def Settings.withSchedule (settings : Settings) (op : TunedOp) (schedule : Schedule) : Settings :=
  match op with
  | .allReduce => { settings with largeSchedule := schedule }
  | .allGather => { settings with gatherSchedule := schedule }
  | .reduceScatter => { settings with scatterSchedule := schedule }
  | .allToAll => { settings with scatterSchedule := schedule }

/-- The settings with a choice, or nothing where the session cannot run it (`_apply_choice`). -/
def Session.applyChoice (settings : Settings) (op : TunedOp) (choice : Choice) (nbytes : ℕ) : Option Settings :=
  if session.refuses op choice nbytes then none
  else
    let grown := { settings with largeBlocks := choice.grid.getD settings.largeBlocks, blocks := choice.grid.getD settings.blocks }
    match choice.schedule, op.kind with
    | some schedule, some kind =>
      let scheduled := grown.withSchedule op schedule
      let linked := schedule == .ring || schedule == .chain
      some { scheduled with
        ringMins := if linked then Function.update scheduled.ringMins kind 0 else scheduled.ringMins
        chainMins := if linked then Function.update scheduled.chainMins kind 0 else scheduled.chainMins
        chainChunkBytes :=
          if schedule = .chain ∧ kind = .reduce then choice.piece.getD scheduled.chainChunkBytes else scheduled.chainChunkBytes
        linkChunks :=
          if linked ∧ ¬(schedule = .chain ∧ kind = .reduce) ∧ choice.piece.isSome then
            Function.update scheduled.linkChunks kind choice.piece
          else scheduled.linkChunks
        ringStagger := choice.stagger.getD scheduled.ringStagger
        ringGatherStagger := choice.gatherStagger.getD scheduled.ringGatherStagger
        opBlocks := session.choiceBlocks op choice scheduled }
    | _, _ => some grown

/-- What a call has still to do. -/
inductive Item
  /-- Work that takes no lock. -/
  | work
  /-- Enter the context of an op (`_tuned_op`). -/
  | tuned (op : TunedOp) (nbytes : ℕ) (mode : RunMode) (direct : Bool)
  /-- Take the tuning lock for a choice that was found, and apply it. -/
  | take (op : TunedOp) (nbytes : ℕ) (choice : Choice)
  /-- Take the session lock. -/
  | acquire
  /-- Take the tuning lock to count. -/
  | hold
  /-- The table decides nothing from here on. -/
  | suspend
  /-- That ends. -/
  | resume
  /-- Leave the innermost context. -/
  | leave
deriving DecidableEq, Repr

/-- The context of an op around what it does. -/
def tunedOp (op : TunedOp) (nbytes : ℕ) (mode : RunMode) (direct : Bool) (body : List Item) : List Item :=
  .tuned op nbytes mode direct :: body ++ [.leave]

/-- The session lock around what a call does. -/
def locked (body : List Item) : List Item := .acquire :: body ++ [.leave]

def scatterUsesRing (nbytes : ℕ) (mode : RunMode) : List Item := tunedOp .reduceScatter nbytes mode false [.work]

def scatterUsesChain (nbytes : ℕ) (mode : RunMode) : List Item := tunedOp .reduceScatter nbytes mode false [.work]

def gatherUsesRing (nbytes : ℕ) (mode : RunMode) : List Item := tunedOp .allGather nbytes mode false [.work]

def gatherUsesChain (nbytes : ℕ) (mode : RunMode) : List Item := tunedOp .allGather nbytes mode false [.work]

def largeReducePlan (nbytes : ℕ) (mode : RunMode) : List Item := tunedOp .allReduce nbytes mode false [.work]

/-- A call of a thread, with what its arguments and the predicates' answers decide. -/
inductive Call
  /-- An all-reduce; `fixed` when its algorithm is an argument. -/
  | allReduce (nbytes : ℕ) (mode : RunMode) (fixed : Bool)
  | allReduceLarge (nbytes : ℕ) (mode : RunMode)
  | allGather (nbytes : ℕ) (mode : RunMode)
  /-- A large all-gather; `empty` when there is nothing to gather, `ring` when a ring does it. -/
  | allGatherLarge (nbytes : ℕ) (mode : RunMode) (empty ring : Bool)
  /-- A reduce-scatter; `ring` when a ring does it. -/
  | reduceScatter (nbytes : ℕ) (mode : RunMode) (ring : Bool)
  | allToAll (nbytes : ℕ) (mode : RunMode)
  | scatterUsesRing (nbytes : ℕ) (mode : RunMode)
  | scatterUsesChain (nbytes : ℕ) (mode : RunMode)
  | gatherUsesRing (nbytes : ℕ) (mode : RunMode)
  | gatherUsesChain (nbytes : ℕ) (mode : RunMode)
  | largeReducePlan (nbytes : ℕ) (mode : RunMode)
  | shouldReduceScatter (nbytes : ℕ) (mode : RunMode) (ring : Bool)
  | shouldAllToAll
  /-- Enter `untuned`. -/
  | untuned
  /-- Leave `untuned`. -/
  | tunedAgain
  | close
deriving DecidableEq, Repr

/-- What a call does. -/
def Call.program : Call → List Item
  | .allReduce nbytes mode fixed =>
    locked (.work :: (if fixed then [.work] else tunedOp .allReduce nbytes mode true [.work]) ++ [.work])
  | .allReduceLarge nbytes mode =>
    locked (.work :: tunedOp .allReduce nbytes mode false (.work :: SessionLocks.largeReducePlan nbytes mode ++ [.work]) ++ [.work])
  | .allGather nbytes mode => locked (.work :: tunedOp .allGather nbytes mode false [.work])
  | .allGatherLarge nbytes mode empty ring =>
    locked (.work :: tunedOp .allGather nbytes mode false (.work :: if empty then [] else
      SessionLocks.gatherUsesRing nbytes mode ++ (if ring then [] else SessionLocks.gatherUsesChain nbytes mode) ++ [.work]) ++ [.work])
  | .reduceScatter nbytes mode ring =>
    tunedOp .reduceScatter nbytes mode false (SessionLocks.scatterUsesRing nbytes mode ++
      (if ring then [] else SessionLocks.scatterUsesChain nbytes mode) ++ locked [.work])
  | .allToAll nbytes mode => tunedOp .allToAll nbytes mode false (locked [.work])
  | .scatterUsesRing nbytes mode => SessionLocks.scatterUsesRing nbytes mode
  | .scatterUsesChain nbytes mode => SessionLocks.scatterUsesChain nbytes mode
  | .gatherUsesRing nbytes mode => SessionLocks.gatherUsesRing nbytes mode
  | .gatherUsesChain nbytes mode => SessionLocks.gatherUsesChain nbytes mode
  | .largeReducePlan nbytes mode => SessionLocks.largeReducePlan nbytes mode
  | .shouldReduceScatter nbytes mode ring =>
    SessionLocks.scatterUsesRing nbytes mode ++ (if ring then [] else SessionLocks.scatterUsesChain nbytes mode) ++ [.work]
  | .shouldAllToAll => [.work]
  | .untuned => [.hold, .suspend, .leave]
  | .tunedAgain => [.hold, .resume, .leave]
  | .close => locked [.work] ++ [.work]

/-- A context that a thread is inside. -/
inductive Context
  /-- The session lock is held. -/
  | session
  /-- An op without a choice. -/
  | plain
  /-- An op with a choice: the tuning lock is held, and these settings come back. -/
  | tuned (saved : Settings)
  /-- The tuning lock is held to count. -/
  | counting

/-- A thread: what its call has still to do, its contexts from the innermost on, and how often
it is inside `untuned`. -/
structure Thread where
  program : List Item
  contexts : List Context
  suspensions : ℕ

/-- The state of a session with threads. -/
structure State (ι : Type) where
  threads : ι → Thread
  /-- The thread that holds the session lock. -/
  lock : Option ι
  /-- The thread that holds the tuning lock, and how often. -/
  tuningLock : Option (ι × ℕ)
  suspended : ℕ
  settings : Settings

/-- No thread has called anything. -/
def Session.start (ι : Type) : State ι := ⟨fun _ => ⟨[], [], 0⟩, none, none, 0, session.configured⟩

variable {ι : Type} [DecidableEq ι]

/-- The state with another state of one thread. -/
def State.put (s : State ι) (t : ι) (thread : Thread) : State ι := { s with threads := Function.update s.threads t thread }

/-- The choice that the context of an op finds. -/
def Session.found (suspended : ℕ) (settings : Settings) (op : TunedOp) (nbytes : ℕ) (mode : RunMode) (direct : Bool) : Option Choice :=
  if suspended ≠ 0 ∨ session.planApplies settings op = false then none
  else (session.tableDecide op nbytes mode).filter fun choice =>
    !(direct && (choice.schedule == some .ring || choice.schedule == some .chain))

/-- Take the tuning lock, which its holder takes again. -/
def State.lockTuning (s : State ι) (t : ι) : Option (State ι) :=
  match s.tuningLock with
  | none => some { s with tuningLock := some (t, 1) }
  | some (u, depth) => if u = t then some { s with tuningLock := some (t, depth + 1) } else none

/-- Let go of the tuning lock once. -/
def State.unlockTuning (s : State ι) : State ι :=
  match s.tuningLock with
  | some (u, depth + 2) => { s with tuningLock := some (u, depth + 1) }
  | _ => { s with tuningLock := none }

/-- A thread leaves its innermost context. -/
def State.leave (s : State ι) (t : ι) (rest : List Item) (suspensions : ℕ) : List Context → Option (State ι)
  | [] => none
  | .session :: contexts => some { s.put t ⟨rest, contexts, suspensions⟩ with lock := none }
  | .plain :: contexts => some (s.put t ⟨rest, contexts, suspensions⟩)
  | .tuned saved :: contexts => some { (s.put t ⟨rest, contexts, suspensions⟩).unlockTuning with settings := saved }
  | .counting :: contexts => some (s.put t ⟨rest, contexts, suspensions⟩).unlockTuning

/-- A thread goes on with its call; it cannot while it waits for a lock. -/
def Session.go (s : State ι) (t : ι) : Option (State ι) :=
  let thread := s.threads t
  match thread.program with
  | [] => none
  | .work :: rest => some (s.put t { thread with program := rest })
  | .tuned op nbytes mode direct :: rest =>
    match session.found s.suspended s.settings op nbytes mode direct with
    | none => some (s.put t { thread with program := rest, contexts := .plain :: thread.contexts })
    | some choice => some (s.put t { thread with program := .take op nbytes choice :: rest })
  | .take op nbytes choice :: rest =>
    (s.put t { thread with program := rest, contexts := .tuned s.settings :: thread.contexts }).lockTuning t |>.map fun s =>
      { s with settings := (session.applyChoice s.settings op choice nbytes).getD s.settings }
  | .acquire :: rest =>
    if s.lock = none then
      some { s.put t { thread with program := rest, contexts := .session :: thread.contexts } with lock := some t }
    else none
  | .hold :: rest => (s.put t { thread with program := rest, contexts := .counting :: thread.contexts }).lockTuning t
  | .suspend :: rest =>
    some { s.put t ⟨rest, thread.contexts, thread.suspensions + 1⟩ with suspended := s.suspended + 1 }
  | .resume :: rest =>
    some { s.put t ⟨rest, thread.contexts, thread.suspensions - 1⟩ with suspended := s.suspended - 1 }
  | .leave :: rest => s.leave t rest thread.suspensions thread.contexts

/-- What happens next. -/
inductive Action (ι : Type)
  /-- A thread goes on. -/
  | go (t : ι)
  /-- A thread's work raises: it leaves its contexts. -/
  | raise (t : ι)
  /-- A thread whose last call has returned calls. -/
  | call (t : ι) (call : Call)
deriving DecidableEq

def Session.step (s : State ι) : Action ι → Option (State ι)
  | .go t => session.go s t
  | .raise t =>
    if (s.threads t).program.head? = some .work then
      some (s.put t { s.threads t with program := (s.threads t).contexts.map fun _ => .leave })
    else none
  | .call t call =>
    if (s.threads t).program = [] ∧ (call = .tunedAgain → (s.threads t).suspensions ≠ 0) then
      some (s.put t { s.threads t with program := call.program })
    else none

end SparkRing.SessionLocks
