import SparkRing.StreamOrder
import SparkRing.TransitionSystem

/-!
# Teardown of a communicator's engine

An engine launches kernels on the streams that its callers name and on the streams of its
channels, and graphs that captured its calls launch them again whenever they are replayed. Its
destroy or abort decides from the streams that the engine remembers whether its memory may go at
once; else the engine waits in quarantine, where later creations and destroys look at it again.
What the driver and the verbs calls return is an input of each step.
-/

namespace SparkRing.EngineTeardown

open StreamOrder (Item Streams)

/-- How a kernel came to a stream. -/
inductive Origin
  /-- A call launched it, after so many calls of the engine that could not be ordered. -/
  | eager (failures : ℕ)
  | channel
  /-- A graph was replayed. -/
  | replay
deriving DecidableEq, Repr

/-- Work on a stream. -/
inductive Work
  | kernel (engine : ℕ) (origin : Origin)
  /-- Work that uses no engine's memory. -/
  | other
deriving DecidableEq, Repr

/-- What an engine holds: its arena, counters, scratch and staging; the arena and staging of its
channels; its record. -/
inductive Part
  | core
  | channels
  | record
deriving DecidableEq, Repr

/-- Where an engine is. -/
inductive Status
  | live
  /-- Its memory waits for its events. -/
  | quarantined
  /-- Its memory stays until the process ends. -/
  | kept
  | freed
deriving DecidableEq, Repr

/-- An engine. -/
structure Engine where
  world : ℕ
  context : ℕ
  status : Status
  closing : Bool
  haveLast : Bool
  lastStream : ℕ
  captureId : ℕ
  captureStream : ℕ
  /-- A graph captured one of its calls. -/
  captured : Bool
  /-- Streams of the channels, by whether they send and the peer. -/
  channel : Bool → ℕ → Option ℕ
  /-- The native transport holds queue pairs and registrations. -/
  proxy : Bool
  /-- The channel context does. -/
  p2p : Bool
  /-- The memory of its parts is allocated. -/
  core : Bool
  channelMemory : Bool
  /-- Events of the quarantine: a stream and the items ahead of the event. -/
  quarantineDone : List (ℕ × ℕ)
  /-- Calls that could not be ordered. -/
  failures : ℕ
  /-- Verbs objects of the channel context, and of both, whose release failed. -/
  p2pSurvivors : ℕ
  survivors : ℕ

def Engine.new (world context : ℕ) (p2p : Bool) : Engine where
  world := world
  context := context
  status := .live
  closing := false
  haveLast := false
  lastStream := 0
  captureId := 0
  captureStream := 0
  captured := false
  channel := fun _ _ => none
  proxy := decide (1 < world)
  p2p := p2p
  core := true
  channelMemory := p2p
  quarantineDone := []
  failures := 0
  p2pSurvivors := 0
  survivors := 0

def Engine.channelStreams (e : Engine) : List ℕ := [false, true].flatMap fun send => (List.range e.world).filterMap (e.channel send)

/-- The streams that an engine remembers. -/
def Engine.streams (e : Engine) : List ℕ := (if e.haveLast then [e.lastStream] else []) ++ e.channelStreams

/-- A process with its engines, by their numbers. -/
structure Process where
  streams : Streams ℕ Work
  /-- Contexts that were destroyed. -/
  gone : ℕ → Bool
  engines : ℕ → Option Engine
  /-- The quarantine, the last engine first. -/
  quarantined : List ℕ
  /-- How often a part of an engine was released. -/
  released : ℕ → Part → ℕ

/-- A process without engines. -/
def Process.start : Process := ⟨.empty, fun _ => false, fun _ => none, [], fun _ _ => 0⟩

/-- What the driver tells of a stream's capture. -/
inductive Capture
  | error
  | invalidated
  | active (id : ℕ)
  | none
deriving DecidableEq, Repr

/-- What the driver returns while a call begins. -/
structure BeginResults where
  /-- The context is current, or could be made current. -/
  current : Bool
  capture : Capture
  /-- The order event was recorded. -/
  recorded : Bool
  /-- The stream waits for it. -/
  waited : Bool
deriving DecidableEq, Repr

/-- A call that began: the engine, the streams, and whether it is captured. -/
structure Begun where
  engine : Engine
  streams : Streams ℕ Work
  capturing : Bool

/-- A call begins (`begin_call`); without a call that began, the engine after it was refused. -/
def beginCall (e : Engine) (streams : Streams ℕ Work) (t : ℕ) (results : BeginResults) : Except Engine Begun :=
  if e.closing = true ∨ results.current = false then .error e
  else
    match results.capture with
    | .error | .invalidated => .error e
    | .active id =>
      if id ≠ e.captureId then .ok ⟨{ e with captureId := id, captureStream := t }, streams, true⟩
      else if t ≠ e.captureStream then .error e
      else .ok ⟨e, streams, true⟩
    | .none =>
      if e.world ≤ 1 then .ok ⟨e, streams, false⟩
      else if e.haveLast = true ∧ t ≠ e.lastStream then
        if results.recorded = false ∨ results.waited = false then .error { e with haveLast := false, failures := e.failures + 1 }
        else
          .ok ⟨{ e with lastStream := t }, streams.push t (.wait e.lastStream (streams.items e.lastStream).length), false⟩
      else .ok ⟨{ e with haveLast := true, lastStream := t }, streams, false⟩

/-- So many items on a stream. -/
def pushAll (streams : Streams ℕ Work) (t : ℕ) (x : Item ℕ Work) : ℕ → Streams ℕ Work
  | 0 => streams
  | n + 1 => (pushAll streams t x n).push t x

/-- A collective launches its kernels on the stream, or the graph captures them; a communicator of one
rank copies. -/
def launch (a : ℕ) (b : Begun) (t kernels : ℕ) : Engine × Streams ℕ Work :=
  if b.capturing then ({ b.engine with captured := true }, b.streams)
  else if b.engine.world ≤ 1 then (b.engine, pushAll b.streams t (.work .other) kernels)
  else (b.engine, pushAll b.streams t (.work (.kernel a (.eager b.engine.failures))) kernels)

/-- A send or receive of a channel group and what the driver returns for it. -/
structure ChannelOp where
  send : Bool
  peer : ℕ
  /-- The stream that is made on first use; none when that fails. -/
  made : Option ℕ
  /-- The channel's stream waits for the group. -/
  waited : Bool
  launched : Bool
  /-- What follows the launch fails. -/
  failed : Bool
deriving DecidableEq, Repr

/-- A channel group under way. -/
structure Group where
  engine : Engine
  streams : Streams ℕ Work
  /-- The channels' streams that wait for the group. -/
  joined : List ℕ
  good : Bool

/-- The next send or receive of a group, behind what the group's stream had by then. A channel's stream is
made in the engine's context. -/
def groupOp (contextOf : ℕ → ℕ) (a t mark : ℕ) (g : Group) (op : ChannelOp) : Group :=
  if g.good = false then g
  else
    match (g.engine.channel op.send op.peer).or (op.made.filter fun c => contextOf c = g.engine.context) with
    | none => { g with good := false }
    | some c =>
      let g := { g with engine := { g.engine with channel := fun send peer => if send = op.send ∧ peer = op.peer then some c else g.engine.channel send peer } }
      if c ∉ g.joined ∧ op.waited = false then { g with good := false }
      else
        let g := if c ∈ g.joined then g else { g with streams := g.streams.push c (.wait t mark), joined := g.joined ++ [c] }
        if op.launched then { g with streams := g.streams.push c (.work (.kernel a .channel)), good := !op.failed } else { g with good := false }

/-- The group's stream waits for a channel's, where the driver lets it. -/
def joinStream (t : ℕ) (joins : ℕ → Bool) (streams : Streams ℕ Work) (c : ℕ) : Streams ℕ Work :=
  if joins c then streams.push t (.wait c (streams.items c).length) else streams

/-- The sends and then the receives of a group, and the joins (`p2p_group`). -/
def p2pGroup (contextOf : ℕ → ℕ) (a : ℕ) (e : Engine) (streams : Streams ℕ Work) (t : ℕ) (recorded : Bool) (ops : List ChannelOp) (joins : ℕ → Bool) :
    Engine × Streams ℕ Work :=
  if recorded = false then (e, streams)
  else
    let ordered := ops.filter (fun op => op.send) ++ ops.filter (fun op => !op.send)
    let g := ordered.foldl (groupOp contextOf a t (streams.items t).length) ⟨e, streams, [], true⟩
    (g.engine, g.joined.foldl (joinStream t joins) g.streams)

namespace Process

variable (p : Process)

/-- Set an engine. -/
def put (a : ℕ) (e : Engine) : Process := { p with engines := Function.update p.engines a (some e) }

/-- A part of an engine is released. -/
def releasePart (a : ℕ) (part : Part) : Process :=
  { p with released := Function.update p.released a (Function.update (p.released a) part (p.released a part + 1)) }

/-- The memory of the channels is released, if it is allocated. -/
def releaseChannels (a : ℕ) (e : Engine) : Process × Engine :=
  if e.channelMemory then (p.releasePart a .channels, { e with channelMemory := false, channel := fun _ _ => none }) else (p, e)

/-- The arena, counters, scratch and staging are released, if they are allocated (`release_memory`). -/
def releaseMemory (a : ℕ) (e : Engine) : Process × Engine :=
  if e.core then (p.releasePart a .core, { e with core := false }) else (p, e)

/-- The channel context is closed (`p2p_close`). -/
def p2pClose (a : ℕ) (e : Engine) (freeMemory : Bool) (unreleased : ℕ) : Process × Engine :=
  let unreleased := if e.p2p then unreleased else 0
  let e := { e with p2p := false, p2pSurvivors := e.p2pSurvivors + unreleased, survivors := e.survivors + unreleased }
  if freeMemory = false ∨ unreleased ≠ 0 then (p, e) else p.releaseChannels a e

/-- An engine's memory and record go. -/
def free (a : ℕ) (e : Engine) : Process :=
  let (p, e) := p.releaseChannels a e
  let (p, e) := p.releaseMemory a e
  (p.releasePart a .record).put a { e with status := .freed }

/-- The events of a quarantined engine completed, or its context is gone. -/
def reclaimable (answers : ℕ → ℕ → Bool) (a : ℕ) : Bool :=
  match p.engines a with
  | none => false
  | some e => p.gone e.context || e.quarantineDone.zipIdx.all fun ((t, mark), i) => answers a i && p.streams.reached t mark

/-- A quarantined engine goes. -/
def freeQuarantined (a : ℕ) : Process :=
  match p.engines a with
  | none => p
  | some e => p.free a e

/-- The quarantined engines that may go, go (`quarantine_reclaim`); an engine's event may be found complete
where it is. -/
def quarantineReclaim (answers : ℕ → ℕ → Bool) : Process :=
  let freed := p.quarantined.filter (p.reclaimable answers)
  { freed.foldl freeQuarantined p with quarantined := p.quarantined.filter fun a => !p.reclaimable answers a }

/-- What the driver and verbs calls of a destroy return. -/
structure DestroyResults where
  /-- The queries of quarantined engines' events. -/
  answers : ℕ → ℕ → Bool
  /-- The wait for the context succeeded. -/
  synced : Bool
  /-- The query of a stream succeeded. -/
  queried : ℕ → Bool
  /-- Failed verbs calls of the channel context, and of the transport. -/
  p2pUnreleased : ℕ
  unreleased : ℕ
  /-- How many events of the quarantine could be made. -/
  events : ℕ

def contextIdle (contextOf : ℕ → ℕ) (context : ℕ) : Bool := p.streams.used.all fun t => decide (contextOf t ≠ context) || p.streams.idle t

/-- Whether a destroy or abort finds the engine idle. -/
def findsIdle (contextOf : ℕ → ℕ) (e : Engine) (abort : Bool) (results : DestroyResults) : Bool :=
  if abort then e.streams.all fun t => results.queried t && p.streams.idle t
  else results.synced && p.contextIdle contextOf e.context

/-- An engine waits for events behind the streams that it remembers, if they can be made (`quarantine_add`). -/
def quarantineAdd (a : ℕ) (e : Engine) (events : ℕ) : Process :=
  if events < e.streams.length then p.put a { e with status := .kept }
  else
    { p.put a { e with status := .quarantined, quarantineDone := e.streams.map fun t => (t, (p.streams.items t).length) } with
      quarantined := a :: p.quarantined }

/-- A destroy or abort (`sccl_engine_destroy`). -/
def engineDestroy (contextOf : ℕ → ℕ) (a : ℕ) (e : Engine) (abort : Bool) (results : DestroyResults) : Process :=
  let p := p.quarantineReclaim results.answers
  let pushed := !p.gone e.context
  let idle := pushed && p.findsIdle contextOf e abort results
  let (p, e) := p.p2pClose a { e with closing := true } (pushed && idle) results.p2pUnreleased
  let unreleased := if e.proxy then results.unreleased else 0
  let released := decide (unreleased = 0 ∧ e.p2pSurvivors = 0)
  let e := { e with proxy := false, survivors := e.survivors + unreleased }
  if pushed && idle && released then p.free a e
  else if !pushed && released then p.free a e
  else if pushed && released then p.quarantineAdd a e results.events
  else p.put a { e with status := .kept }

end Process

/-- What happens in a process. -/
inductive Act
  /-- An engine is created. -/
  | create (a world context : ℕ) (p2p : Bool) (answers : ℕ → ℕ → Bool)
  /-- A collective on a stream, and how many kernels it launches. -/
  | call (a t : ℕ) (results : BeginResults) (kernels : ℕ)
  | group (a t : ℕ) (results : BeginResults) (recorded : Bool) (ops : List ChannelOp) (joins : ℕ → Bool)
  /-- A graph with a captured call is replayed on a stream. -/
  | replay (a t : ℕ)
  /-- Other work, or a wait, on a stream. -/
  | foreign (t : ℕ)
  | awaits (t u mark : ℕ)
  /-- A stream does its next item. -/
  | finish (t : ℕ)
  | destroyContext (context : ℕ)
  | destroy (a : ℕ) (abort : Bool) (results : Process.DestroyResults)

/-- A call of a live engine on a stream of its context. -/
def withEngine (p : Process) (contextOf : ℕ → ℕ) (a t : ℕ) (run : Engine → Engine × Streams ℕ Work) : Option Process :=
  match p.engines a with
  | none => none
  | some e =>
    if e.status = .live ∧ contextOf t = e.context then
      let (e, streams) := run e
      some { p.put a e with streams }
    else none

/-- A step of a process whose streams belong to contexts. -/
def step (contextOf : ℕ → ℕ) (p : Process) : Act → Option Process
  | .create a world context p2p answers =>
    if (p.engines a).isNone then some ((p.quarantineReclaim answers).put a (Engine.new world context p2p)) else none
  | .call a t results kernels =>
    withEngine p contextOf a t fun e =>
      match beginCall e p.streams t results with
      | .error e => (e, p.streams)
      | .ok b => launch a b t kernels
  | .group a t results recorded ops joins =>
    withEngine p contextOf a t fun e =>
      if e.p2p = false ∨ (ops.all fun op => decide (op.peer < e.world)) = false then (e, p.streams)
      else
        match beginCall e p.streams t results with
        | .error e => (e, p.streams)
        -- The sends and receives of channels cannot be captured.
        | .ok b => if b.capturing then (b.engine, b.streams) else p2pGroup contextOf a b.engine b.streams t recorded ops joins
  | .replay a t =>
    match p.engines a with
    | none => none
    | some e =>
      if e.captured = true ∧ contextOf t = e.context then some { p with streams := p.streams.push t (.work (.kernel a .replay)) } else none
  | .foreign t => some { p with streams := p.streams.push t (.work .other) }
  | .awaits t u mark => some { p with streams := p.streams.push t (.wait u mark) }
  | .finish t => (p.streams.finish t).map fun streams => { p with streams }
  | .destroyContext context => some { p with gone := Function.update p.gone context true }
  | .destroy a abort results =>
    match p.engines a with
    | none => none
    | some e => if e.status = .live then some (p.engineDestroy contextOf a e abort results) else none

end SparkRing.EngineTeardown
