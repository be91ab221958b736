import Mathlib.Data.Int.Log
import Mathlib.Data.Rat.Floor
import SparkRing.ArenaPlan
import SparkRing.SessionLocks

/-!
# Pieces and relay queues

A session whose lanes cross relays and that has no forward windows keeps the ops of large
messages within a size per peer, so that the busiest relay queue stays within its share. The
ops are those of the large all-reduce, the large all-gather, the reduce-scatter and the
all-to-all that are posted as one-shot, two-shot or scatter ops; ring and chain ops travel on
links of their own.
-/

namespace SparkRing.RelayPieces

open Engine (Schedule Collective pack)
open Sircl (Algorithm PieceError)
open SessionLocks (TunedOp RunMode Choice Settings)

/-- A whole number nearest to a number, the even one of two. -/
def nearestEven (x : ℚ) : ℤ :=
  let below := ⌊x⌋
  if x - below < 1 / 2 then below
  else if 1 / 2 < x - below then below + 1
  else if below % 2 = 0 then below
  else below + 1

/-- A positive number as a double holds it. -/
def double (x : ℚ) : ℚ := nearestEven (x / 2 ^ (Int.log 2 x - 52)) * 2 ^ (Int.log 2 x - 52)

/-- Largest per-peer size of an op that keeps the busiest relay queue within its share of three
quarters; `none` when no lane crosses a relay (`pieces.relay_safe_bytes`). -/
def relaySafeBytes (busiestLanes laneCount queueBytes : ℕ) : Option ℕ :=
  if busiestLanes = 0 then none
  else
    let factor := double (busiestLanes / laneCount)
    let share := double (double (3 / 4 * double queueBytes) / factor)
    some (max pack (⌊share⌋.toNat / pack * pack))

/-- Lanes in the busiest relay queue. -/
def busiest (routes : RelayQueues.Routes) : ℕ := (routes.all.map (RelayQueues.load routes)).foldl max 0

/-- Slots are whole multiples of 4096 bytes. -/
def slotBytesFor (capacity gatherCapacity : ℕ) : ℕ := (max capacity gatherCapacity + 4095) / 4096 * 4096

/-- The progress thread posts multi-phase and scatter ops. -/
def multiPhaseAvailable (laneCount slotBytes : ℕ) : Bool := decide (2 * laneCount ≤ 4 ∧ slotBytes < 2 ^ 30)

/-- A session with a layout, as it was accepted. -/
structure Session extends SessionLocks.Session where
  /-- The agreed route maps. -/
  routes : RelayQueues.Routes
  maxGatherBytes : ℕ
  /-- The configured op size of large messages. -/
  piece : ℕ
  forwardWindowBytes : ℕ
  hairpinQueueBytes : ℕ
  /-- `none` is `auto`. -/
  algorithm : Option Algorithm
  /-- The latency model's limit, or the environment's. -/
  oneshotMaxBytes : ℕ
  world_eq : routes.world = worldSize
  world_ge : 2 ≤ worldSize
  world_le : worldSize ≤ 16
  lanes_pos : 0 < routes.lanes
  piece_ge : pack ≤ piece
  piece_packs : piece % pack = 0
  piece_word : piece < 2 ^ 30
  gather_packs : maxGatherBytes % pack = 0
  queue_ge : 4096 ≤ hairpinQueueBytes
  ring_links : ringAvailable = true → linkAvailable = true
  /-- Two-shot needs the progress thread; there is no Swing kernel. -/
  available_eq : ∀ a, available a = match a with
    | .oneshot => true
    | .twoshot => multiPhaseAvailable routes.lanes (slotBytesFor (max maxSize piece) maxGatherBytes)
    | .swing => false
  algorithm_available : ∀ a, algorithm = some a → available a = true

namespace Session

variable (session : Session)

def arena : ArenaPlan.Config where
  world := session.worldSize
  laneCount := session.routes.lanes
  slotBytes := slotBytesFor (max session.maxSize session.piece) session.maxGatherBytes
  world_ge := session.world_ge
  world_le := session.world_le
  laneCount_pos := session.lanes_pos

/-- The relay-safe size; `none` with forward windows and without relays (`_plan_relays`). -/
def relaySafeBytes : Option ℕ :=
  if session.forwardWindowBytes ≠ 0 then none
  else RelayPieces.relaySafeBytes (busiest session.routes) session.routes.lanes session.hairpinQueueBytes

/-- The op size of large all-gathers. -/
def gatherPieceBytes : ℕ :=
  let capacity := session.maxGatherBytes / pack * pack
  match session.relaySafeBytes with
  | none => capacity
  | some safe => max pack (min capacity safe)

/-- The op size of large messages. -/
def largePieceBytes : ℕ :=
  match session.relaySafeBytes with
  | none => session.piece
  | some safe => max pack (min session.piece (safe * if session.available .twoshot then session.worldSize else 1))

/-- The settings of an op: with the table's choice where one was found and can run. -/
def settingsOf (suspended : ℕ) (settings : Settings) (op : TunedOp) (nbytes : ℕ) (mode : RunMode) : Settings :=
  match session.found suspended settings op nbytes mode false with
  | none => settings
  | some choice => (session.applyChoice settings op choice nbytes).getD settings

/-- The session's rules under settings. -/
def rules (settings : Settings) : Sircl.Session where
  worldSize := session.worldSize
  largeSchedule := settings.largeSchedule
  gatherSchedule := settings.gatherSchedule
  ringAvailable := session.ringAvailable
  linkAvailable := session.linkAvailable
  chainAvailable := session.chainAvailable
  ring_links := session.ring_links
  chainMins := settings.chainMins
  ringMins := settings.ringMins
  largePieceBytes := session.largePieceBytes
  maxGatherBytes := session.maxGatherBytes
  subsetRing := session.subsetRing
  algorithm := session.algorithm
  largeAlgorithm := .twoshot
  oneshotMaxBytes := session.oneshotMaxBytes
  swingAboveBytes := 0
  available := session.available

/-- The algorithm of a message (`select_algorithm`). -/
def selectAlgorithm (suspended nbytes : ℕ) (mode : RunMode) : Algorithm :=
  let chosen := if suspended ≠ 0 then none else (session.tableDecide .allReduce nbytes mode).bind Choice.algorithm
  match chosen.filter session.available with
  | some algorithm => algorithm
  | none => (session.rules session.configured).selectAlgorithm nbytes

/-- An all-reduce op as it is posted. -/
def opCode : Algorithm → ArenaPlan.OpCode
  | .oneshot => .oneshot
  | .twoshot => .twoshot
  | .swing => .described

def opOf (suspended : ℕ) (mode : RunMode) (piece : Sircl.ReducePiece) : Option ArenaPlan.Op :=
  if piece.chain || piece.ring then none
  else
    let size := if piece.padded then pack else piece.nbytes
    some ⟨opCode (session.selectAlgorithm suspended size mode), size⟩

/-- The one-shot and two-shot ops of a large all-reduce. -/
def allReduceLarge (suspended : ℕ) (settings : Settings) (nbytes : ℕ) (mode : RunMode) : Except PieceError (List ArenaPlan.Op) :=
  ((session.rules (session.settingsOf suspended settings .allReduce nbytes mode)).largeReducePlan nbytes).map
    fun plan => plan.filterMap (session.opOf suspended mode)

/-- Rows and columns of a shard. -/
structure GatherTile where
  row : ℕ
  rows : ℕ
  col : ℕ
  cols : ℕ
deriving DecidableEq, Repr

/-- The bytes of a tile. -/
def GatherTile.nbytes (tile : GatherTile) : ℕ := tile.rows * tile.cols

/-- The tiles of an all-gather (`gather_plan`). -/
def gatherPlan (outer inner piece : ℕ) : Except PieceError (List GatherTile) :=
  if piece < pack ∨ piece % pack ≠ 0 then .error (.badPiece piece)
  else if outer = 0 ∨ inner = 0 then .ok []
  else if inner ≤ piece then
    .ok ((TileLoop.range 0 outer (piece / inner)).map fun row => ⟨row, min (piece / inner) (outer - row), 0, inner⟩)
  else
    .ok ((List.range outer).flatMap fun row => (TileLoop.range 0 inner piece).map fun col => ⟨row, 1, col, min piece (inner - col)⟩)

/-- Bytes rounded up to whole packs. -/
def padded (nbytes : ℕ) : ℕ := (nbytes + (pack - 1)) / pack * pack

/-- The bytes of a row of a shard. -/
def inner (inp : Sircl.Session.Tensor) (dim : ℤ) : ℕ := (inp.shape.drop (dim % inp.shape.length).toNat).prod * inp.elementSize

/-- The ops of a large all-gather; `aligned` when both tensors are. -/
def allGatherLarge (suspended : ℕ) (settings : Settings) (inp : Sircl.Session.Tensor) (dim : ℤ) (mode : RunMode) (aligned : Bool) :
    Except PieceError (List ArenaPlan.Op) :=
  let rules := session.rules (session.settingsOf suspended settings .allGather inp.bytes mode)
  if inp.outer dim * inner inp dim = 0 ∨ rules.gatherUsesRing inp dim = true ∨ rules.gatherUsesChain inp dim = true then .ok []
  else
    (gatherPlan (inp.outer dim) (inner inp dim) session.gatherPieceBytes).map fun plan => plan.map fun tile =>
      ⟨.oneshot, if inner inp dim % pack = 0 ∧ aligned = true then tile.nbytes else padded tile.nbytes⟩

/-- Why a scatter is refused. -/
inductive ScatterError
  | smallOp
  | smallCap
  | badChunk
  | badPiece
deriving DecidableEq, Repr

/-- The geometry of a scatter input: its chunk and its stride (`scatter_geometry`). -/
def scatterGeometry (totalBytes world : ℕ) (chunkBytes srcStrideBytes : Option ℕ) : Option (ℕ × ℕ) :=
  if world < 2 ∨ totalBytes = 0 then none
  else
    let given : Option (ℕ × ℕ) :=
      match chunkBytes with
      | none => if totalBytes % (world * pack) ≠ 0 then none else some (totalBytes / world, totalBytes / world)
      | some chunk => some (chunk, srcStrideBytes.getD chunk)
    given.filter fun (chunk, stride) =>
      !decide (chunk = 0 ∨ chunk % pack ≠ 0 ∨ stride % pack ≠ 0 ∨ stride < chunk ∨ totalBytes < (world - 1) * stride + chunk)

/-- Largest per-peer piece of an op (`op_peer_bytes`). -/
def opPeerBytes (opBytes world : ℕ) : Except ScatterError ℕ :=
  let piece := opBytes / world / pack * pack
  if piece < pack then .error .smallOp else .ok piece

def capPiece (piece : ℕ) (cap : Option ℕ) : Except ScatterError ℕ :=
  match cap with
  | none => .ok piece
  | some cap =>
    if piece ≤ cap then .ok piece
    else if cap / pack * pack < pack then .error .smallCap
    else .ok (cap / pack * pack)

/-- Per-peer bytes of one op (`scatter_plan.piece_bytes`). -/
def scatterPieceBytes (chunkBytes : ℕ) (relaySafe opPeerLimit : Option ℕ) : Except ScatterError ℕ :=
  match capPiece chunkBytes opPeerLimit with
  | .error e => .error e
  | .ok piece => capPiece piece relaySafe

/-- The pieces of a chunk (`scatter_plan.scatter_plan`). -/
def scatterPlan (chunk size : ℕ) : Except ScatterError (List (ℕ × ℕ)) :=
  if chunk = 0 ∨ chunk % pack ≠ 0 then .error .badChunk
  else if size < pack ∨ size % pack ≠ 0 then .error .badPiece
  else .ok ((TileLoop.range 0 chunk size).map fun offset => (offset, min size (chunk - offset)))

/-- Largest whole message of one scatter op (`op_bytes`). -/
def opBytes : ℕ :=
  if pack ≤ session.largePieceBytes then min session.largePieceBytes session.arena.slotBytes
  else min session.maxSize session.arena.slotBytes

/-- Per-peer bytes of one scatter op (`_scatter_ops.piece_bytes`). -/
def pieceBytes (chunkBytes : ℕ) : Except ScatterError ℕ :=
  match opPeerBytes session.opBytes session.worldSize with
  | .error e => .error e
  | .ok limit => scatterPieceBytes chunkBytes session.relaySafeBytes (some limit)

/-- The scatter ops of a reduce-scatter or an all-to-all that is not eligible for them, or that the
links carry, are none (`_scatter_ops._ops`). -/
def scatter (totalBytes : ℕ) (chunkBytes srcStrideBytes : Option ℕ) (links : Bool) : Except ScatterError (List ArenaPlan.Op) :=
  match scatterGeometry totalBytes session.worldSize chunkBytes srcStrideBytes with
  | none => .ok []
  | some (chunk, _) =>
    if links = true ∨ session.available .twoshot = false then .ok []
    else
      match session.pieceBytes chunk with
      | .error e => .error e
      | .ok piece => (scatterPlan chunk piece).map fun plan => plan.map fun part => ⟨.scatter, part.2 * session.worldSize⟩

/-- A large collective. -/
inductive Call
  | allReduceLarge (nbytes : ℕ) (mode : RunMode)
  | allGatherLarge (inp : Sircl.Session.Tensor) (dim : ℤ) (mode : RunMode) (aligned : Bool)
  /-- `links` when a ring or a chain carries it. -/
  | reduceScatter (totalBytes : ℕ) (chunkBytes srcStrideBytes : Option ℕ) (links : Bool)
  | allToAll (totalBytes : ℕ) (chunkBytes srcStrideBytes : Option ℕ)

/-- The one-shot, two-shot, gather and scatter ops of a call; none where it is refused. -/
def ops (suspended : ℕ) (settings : Settings) : Call → List ArenaPlan.Op
  | .allReduceLarge nbytes mode => (session.allReduceLarge suspended settings nbytes mode).toOption.getD []
  | .allGatherLarge inp dim mode aligned => (session.allGatherLarge suspended settings inp dim mode aligned).toOption.getD []
  | .reduceScatter totalBytes chunkBytes srcStrideBytes links =>
    (session.scatter totalBytes chunkBytes srcStrideBytes links).toOption.getD []
  | .allToAll totalBytes chunkBytes srcStrideBytes => (session.scatter totalBytes chunkBytes srcStrideBytes false).toOption.getD []

def posted (op : ArenaPlan.Op) (rank phase : ℕ) : List ArenaPlan.Stripe :=
  (if phase = 0 then ArenaPlan.postFirstPhase session.arena rank op none
    else ArenaPlan.postLaterPhase session.arena rank op phase none).getD []

/-- Bytes that a rank sends to a peer in a phase of an op. -/
def sent (op : ArenaPlan.Op) (rank peer phase : ℕ) : ℕ :=
  (((session.posted op rank phase).filter fun stripe => stripe.peer = peer).map fun stripe => stripe.count).sum * pack

end Session

end SparkRing.RelayPieces
