import SparkRing.EngineSettings
import SparkRing.TileLoop

/-!
# The large-op plans of a SIRCL session

`pieces.reduce_plan`, the schedules and minimums of a session and the tests that choose a ring
or chain all-gather, as the Python runtime states them. Sizes are unbounded integers here.
-/

namespace SparkRing.Sircl

open Engine (Schedule Collective pack)

/-- The all-reduce algorithms of a session. -/
inductive Algorithm
  | oneshot
  | twoshot
  | swing
deriving DecidableEq, Repr

/-- The agreed settings of a session. -/
structure Session where
  worldSize : ℕ
  largeSchedule : Schedule
  gatherSchedule : Schedule
  ringAvailable : Bool
  linkAvailable : Bool
  chainAvailable : Bool
  ring_links : ringAvailable = true → linkAvailable = true
  chainMins : Collective → ℕ
  ringMins : Collective → ℕ
  largePieceBytes : ℕ
  maxGatherBytes : ℕ
  subsetRing : Bool
  /-- `none` is `auto`. -/
  algorithm : Option Algorithm
  largeAlgorithm : Algorithm
  oneshotMaxBytes : ℕ
  swingAboveBytes : ℕ
  available : Algorithm → Bool

/-- Bytes `[offset, offset + nbytes)` of the message: the zero-padded tail, a chain op, a ring
all-reduce, or a piece. -/
structure ReducePiece where
  offset : ℕ
  nbytes : ℕ
  padded : Bool := false
  chain : Bool := false
  ring : Bool := false
deriving DecidableEq, Repr

/-- Why a plan is refused. -/
inductive PieceError
  | badPiece (piece : ℕ)
  | noRingWorld
deriving DecidableEq, Repr

/-- The ring op of a plan: the largest prefix of whole groups. -/
def ringPrefix (aligned ringWorld : ℕ) : ℕ := aligned / (ringWorld * pack) * ringWorld * pack

/-- The ops of an all-reduce of `total` bytes, in message order. -/
def reducePlan (total piece : ℕ) (chainFrom ringFrom : Option ℕ) (ringWorld : ℕ) :
    Except PieceError (List ReducePiece) :=
  if piece < pack ∨ piece % pack ≠ 0 then .error (.badPiece piece)
  else if ringFrom.isSome ∧ ringWorld < 2 then .error .noRingWorld
  else
    let aligned := total / pack * pack
    let ringBytes := ringPrefix aligned ringWorld
    let ring : List ReducePiece :=
      match ringFrom with
      | some least => if ringBytes ≠ 0 ∧ least ≤ ringBytes then [{ offset := 0, nbytes := ringBytes, ring := true }] else []
      | none => []
    let chain : List ReducePiece :=
      match chainFrom with
      | some least =>
        if ring = [] ∧ aligned ≠ 0 ∧ least ≤ aligned then [{ offset := 0, nbytes := aligned, chain := true }] else []
      | none => []
    let start := if ring ≠ [] then ringBytes else if chain ≠ [] then aligned else 0
    .ok (ring ++ chain ++
      (TileLoop.range start aligned piece).map (fun offset => { offset, nbytes := min piece (aligned - offset) }) ++
      if aligned < total then [{ offset := aligned, nbytes := total - aligned, padded := true }] else [])

namespace Session

variable (session : Session)

/-- A schedule of a session of some of the fabric's ranks (`subset.schedule`). -/
def subsetSchedule (requested : Schedule) (collective : Collective) : Schedule :=
  if collective ≠ .gather then .pieces else if requested = .ring then .auto else requested

/-- A schedule as it runs for `collective` of `nbytes` (`_schedule`). -/
def schedule (schedule : Schedule) (nbytes : ℕ) (collective : Collective) : Schedule :=
  if session.subsetRing then subsetSchedule schedule collective
  else if schedule = .ring ∧ (session.ringAvailable = false ∨ nbytes < session.ringMins collective) then .auto
  else schedule

/-- The ops of `all_reduce_large` (`_large_reduce_plan`). -/
def largeReducePlan (nbytes : ℕ) : Except PieceError (List ReducePiece) :=
  let schedule := session.schedule session.largeSchedule nbytes .reduce
  let ringFrom := if schedule = .ring then some (pack * session.worldSize) else none
  let chainFrom :=
    if schedule = .ring then none
    else if session.chainAvailable ∧ schedule ≠ .pieces then
      some (if schedule = .chain then pack else max pack (session.chainMins .reduce))
    else none
  reducePlan nbytes session.largePieceBytes chainFrom ringFrom session.worldSize

/-- The algorithm of a message of `nbytes` (`protocol.select_algorithm`). -/
def selectAlgorithm (nbytes : ℕ) : Algorithm :=
  match session.algorithm with
  | some algorithm => algorithm
  | none =>
    if nbytes ≤ session.oneshotMaxBytes ∨ session.available session.largeAlgorithm = false then .oneshot
    else if session.swingAboveBytes ≠ 0 ∧ session.swingAboveBytes < nbytes ∧ session.available .swing then .swing
    else session.largeAlgorithm

/-- An op as it is launched. -/
inductive Op
  | ring (nbytes : ℕ)
  | chain (nbytes : ℕ)
  | piece (algorithm : Algorithm) (offset nbytes : ℕ)
  | tail (algorithm : Algorithm) (offset nbytes : ℕ)
deriving DecidableEq, Repr

/-- The op of a piece of the plan. -/
def opOf (piece : ReducePiece) : Op :=
  if piece.chain then .chain piece.nbytes
  else if piece.ring then .ring piece.nbytes
  else if piece.padded then .tail (session.selectAlgorithm pack) piece.offset piece.nbytes
  else .piece (session.selectAlgorithm piece.nbytes) piece.offset piece.nbytes

/-- The ops that `all_reduce_large` launches. -/
def allReduceLarge (nbytes : ℕ) : Except PieceError (List Op) :=
  match session.largeReducePlan nbytes with
  | .ok plan => .ok (plan.map session.opOf)
  | .error e => .error e

/-- A tensor by its shape and the bytes of an element. -/
structure Tensor where
  shape : List ℕ
  elementSize : ℕ

def Tensor.bytes (inp : Tensor) : ℕ := inp.shape.prod * inp.elementSize

/-- The extents ahead of a dimension, counted from the end where it is negative. -/
def Tensor.outer (inp : Tensor) (dim : ℤ) : ℕ := (inp.shape.take (dim % inp.shape.length).toNat).prod

/-- Every rank's shard lands in one piece of the output, a multiple of 16 bytes (`_gather_shape`). -/
def gatherShape (inp : Tensor) (dim : ℤ) : Bool :=
  if session.maxGatherBytes = 0 ∨ inp.shape = [] then false
  else !decide (inp.outer dim ≠ 1 ∨ inp.bytes = 0 ∨ inp.bytes % pack ≠ 0 ∨ 2 ^ 31 ≤ inp.bytes * session.worldSize)

/-- Bytes below which a session of some of the fabric's ranks keeps the pieces. -/
def subsetGatherMinBytes : ℕ := 4 * 2 ^ 20

/-- Whether an all-gather runs as one chain op (`_gather_uses_chain`). -/
def gatherUsesChain (inp : Tensor) (dim : ℤ) : Bool :=
  if session.subsetRing ∧ (inp.shape.length ≠ 1 ∨ inp.bytes < subsetGatherMinBytes) then false
  else if session.linkAvailable = false ∨ session.gatherShape inp dim = false then false
  else
    let schedule := session.schedule session.gatherSchedule (inp.bytes * session.worldSize) .gather
    if schedule ≠ .auto ∧ schedule ≠ .chain then false
    else decide (schedule = .chain ∨ session.chainMins .gather ≤ inp.bytes * session.worldSize)

/-- Whether an all-gather runs as one ring op (`_gather_uses_ring`). -/
def gatherUsesRing (inp : Tensor) (dim : ℤ) : Bool :=
  if session.gatherShape inp dim = false then false
  else decide (session.schedule session.gatherSchedule (inp.bytes * session.worldSize) .gather = .ring)

end Session

end SparkRing.Sircl
