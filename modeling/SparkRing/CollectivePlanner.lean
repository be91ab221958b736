import SparkRing.GroupFabric
import SparkRing.RelayPieces

/-!
# Plans of a group's collectives

For every collective call of a vLLM group a plan says which backend carries it, the
group's SIRCL session, NCCL or nobody, and how. It reads only what every rank of the
group shares: the cabling, the session's agreed limits, the call and whether a graph is
being captured.
-/

namespace SparkRing.CollectivePlanner

open Engine (pack)
open Sircl (PieceError)
open GroupFabric (Operation NcclPolicy GroupTopology)

/-- Types a session sums. -/
def summedDtypes : List String := ["float16", "bfloat16", "float32"]

/-- Types with an exact sum in rank order. -/
def exactLocalSumDtypes : List String := summedDtypes ++ ["int8", "uint8", "int16", "int32", "int64", "float64"]

/-- Types a session gathers as bytes. -/
def byteViewDtypes : List String := ["bool", "complex64", "complex128", "float8_e4m3fn", "float8_e5m2"]

/-- What all ranks know of one tensor. -/
structure TensorMeta where
  /-- Its extents. -/
  shape : List ℕ
  /-- Name of its type. -/
  dtype : String
  /-- Bytes of an element. -/
  itemsize : ℕ
  /-- Its elements lie in order. -/
  contiguous : Bool := true
  deriving DecidableEq

/-- Elements of a tensor. -/
def TensorMeta.numel (tensor : TensorMeta) : ℕ := tensor.shape.prod

/-- Bytes of a tensor. -/
def TensorMeta.nbytes (tensor : TensorMeta) : ℕ := tensor.numel * tensor.itemsize

/-- A dimension counted from the end when it is negative. -/
def TensorMeta.axis (tensor : TensorMeta) (dim : ℤ) : ℕ := (dim % tensor.shape.length).toNat

def TensorMeta.ofBytes (nbytes : ℕ) : TensorMeta := ⟨[nbytes], "uint8", 1, true⟩

/-- Agreed limits of one group's session. -/
structure SessionLimits where
  /-- Ranks. -/
  world : ℕ
  /-- Largest all-reduce one op carries. -/
  capacity : ℕ
  /-- Largest all-reduce sent as one op. -/
  dispatch : ℕ
  /-- Largest shard of one all-gather op; 0 for none. -/
  gather : ℕ
  /-- All-reduce types prepared. -/
  reduceDtypes : List String
  /-- Reduce-scatter types prepared. -/
  scatterDtypes : List String
  allToAll : Bool
  /-- Relay-safe bytes per peer and op; `none` without relays. -/
  perPeerOpBytes : Option ℕ
  /-- Bytes of one scatter op, when set. -/
  scatterOpOverride : Option ℕ
  /-- Piece of the session's large all-reduce. -/
  largePiece : Option ℕ
  /-- Piece of the session's large all-gather. -/
  gatherPiece : Option ℕ
  /-- Op size the session cuts a whole reduce-scatter into. -/
  scatterPiece : Option ℕ
  /-- A session has ranks. -/
  world_pos : 0 < world
  deriving DecidableEq

/-- Largest shard of one all-gather op. -/
def SessionLimits.gatherOpBytes (limits : SessionLimits) : ℕ :=
  match limits.perPeerOpBytes with
  | none => limits.gather
  | some bytes => min limits.gather bytes

/-- Largest whole message of one reduce-scatter or all-to-all op. -/
def SessionLimits.scatterOpBytes (limits : SessionLimits) : ℕ :=
  let limit :=
    match limits.scatterOpOverride, limits.perPeerOpBytes with
    | some bytes, _ => min limits.capacity bytes
    | none, some bytes => min limits.capacity (bytes * limits.world)
    | none, none => limits.capacity
  limit / (limits.world * pack) * (limits.world * pack)

/-- A size that is stated and not zero. -/
def stated (size : Option ℕ) : Option ℕ := size.filter (0 < ·)

/-- Who carries a call. -/
inductive Backend
  | sircl
  | nccl
  | refuse
  deriving DecidableEq

/-- How a call is carried. -/
inductive Method
  | refuse
  | nccl
  | empty
  | direct
  | padded
  | large
  | chunked
  | gatherSum
  | rows
  | tiles
  | scatter
  | allreduceSlice
  | gatherBytes
  | gatherPick
  | relayed
  /-- The same over the tensor's bytes. -/
  | bytes (inner : Method)
  /-- The same over shards padded to the longest. -/
  | paddedTo (inner : Method)
  deriving DecidableEq

/-- A method as the source writes it. -/
def Method.text : Method → String
  | .refuse => "refuse"
  | .nccl => "nccl"
  | .empty => "empty"
  | .direct => "direct"
  | .padded => "padded"
  | .large => "large"
  | .chunked => "chunked"
  | .gatherSum => "gather_sum"
  | .rows => "rows"
  | .tiles => "tiles"
  | .scatter => "scatter"
  | .allreduceSlice => "allreduce_slice"
  | .gatherBytes => "gather_bytes"
  | .gatherPick => "gather_pick"
  | .relayed => "relayed"
  | .bytes inner => "bytes_" ++ inner.text
  | .paddedTo inner => "padded_" ++ inner.text

/-- How one collective call is carried. -/
structure Plan where
  /-- The call. -/
  collective : Operation
  /-- Who carries it. -/
  backend : Backend
  /-- How. -/
  method : Method
  /-- Session ops issued. -/
  ops : ℕ := 0
  /-- Bytes of one piece, rows for gathers. -/
  piece : ℕ := 0
  /-- Why. -/
  reason : String := ""
  /-- The tensor is copied first. -/
  contiguousCopy : Bool := false
  deriving DecidableEq

/-- Modes of `SIRCL_NCCL`. -/
inductive NcclMode
  | never
  | auto
  deriving DecidableEq

/-- Settings of `SIRCL_LARGE_ALLREDUCE`. -/
inductive LargeMode
  | auto
  | sircl
  | nccl
  deriving DecidableEq

/-- What a group puts into every plan. -/
structure Policy where
  /-- Its placement; `none` for a group without one. -/
  topology : Option GroupTopology
  ncclMode : NcclMode := .auto
  /-- The operator's choice for large messages. -/
  large : LargeMode := .auto
  /-- Sizes above which eager calls prefer NCCL; 0 for never. -/
  ncclAbove : List (Operation × ℕ) := []
  /-- The effective policy where it differs from the cabling's. -/
  policyOverride : Option NcclPolicy := none
  /-- Why NCCL may or may not run. -/
  reason : String := ""
  /-- Two ranks share a cable. -/
  cabled : Option (ℕ → ℕ → Bool) := none

namespace Policy

variable (policy : Policy)

/-- What NCCL may do on the group. -/
def ncclPolicy : NcclPolicy :=
  match policy.policyOverride, policy.topology with
  | some effective, _ => effective
  | none, none => .all
  | none, some topology => topology.ncclPolicy

/-- NCCL may run an operation on the group. -/
def ncclAllows (operation : Operation) : Bool :=
  if policy.topology.isNone ∧ policy.policyOverride.isNone then true
  else if policy.ncclMode = .never then false
  else policy.ncclPolicy.allows operation

/-- An eager call above its threshold on a group that runs the NCCL collective. -/
def prefersNccl (collective : Operation) (nbytes singleOpLimit : ℕ) (capturing : Bool) : Bool :=
  if capturing = true ∨ policy.large = .sircl ∨ policy.ncclAllows collective = false then false
  else
    match policy.ncclAbove.reverse.lookup collective with
    | none => decide (singleOpLimit < nbytes)
    | some threshold => decide (0 < threshold ∧ threshold < nbytes)

/-- The policy of a session op that is part of a composed collective. -/
def internal : Policy := ⟨policy.topology, .never, .sircl, [], policy.policyOverride, policy.reason, policy.cabled⟩

/-- Two ranks share a cable. -/
def pairCabled (rank peer : ℕ) : Bool :=
  match policy.cabled, policy.topology with
  | some cabled, _ => cabled rank peer
  | none, some topology => topology.pairCabled rank peer
  | none, none => false

/-- Why NCCL may not run an operation. -/
def forbidden (operation : Operation) : String :=
  if policy.ncclMode = .never then "SIRCL_NCCL=never"
  else
    let reason :=
      if policy.reason ≠ "" then policy.reason
      else (policy.topology.map GroupTopology.ncclReason).getD ""
    s!"NCCL may not run {operation.text} on this group ({policy.ncclPolicy.value}): {reason}"

end Policy

/-- This rank's point-to-point channels. -/
structure P2PLimits where
  /-- Ranks it has a channel with. -/
  peers : List ℕ
  /-- Of them, those whose lanes cross relays. -/
  relayed : List ℕ
  /-- Ranks without a channel, and why. -/
  problems : List (ℕ × String)
  /-- Why the group has no channels at all. -/
  reason : String
  deriving DecidableEq

/-- Why a rank has no channel with this one. -/
def P2PLimits.problem (limits : P2PLimits) (peer : ℕ) : String :=
  if limits.reason ≠ "" then limits.reason
  else
    match limits.problems.lookup peer with
    | some why => s!"the point-to-point channel to rank {peer} is unavailable: {why}"
    | none => s!"rank {peer} has no point-to-point channel with this rank"

/-- Why no plan was made. -/
inductive PlanError
  /-- A piece size that carries no message. -/
  | piece (error : PieceError)
  /-- The largest of no sizes. -/
  | noSizes
  deriving DecidableEq

def refuse (collective : Operation) (why : String) : Plan := { collective, backend := .refuse, method := .refuse, reason := why }

def nccl (collective : Operation) (why : String) : Plan := { collective, backend := .nccl, method := .nccl, reason := why }

/-- A plan that moves nothing. -/
def empty (collective : Operation) (why : String) : Plan := { collective, backend := .sircl, method := .empty, reason := why }

/-- A quotient rounded up. -/
def ceil (a b : ℕ) : ℕ := (a + b - 1) / b

/-- NCCL or, where it may not run, a refusal: a call without a session op. -/
def withoutSession (policy : Policy) (name : Operation) (why : String) : Plan :=
  if policy.ncclAllows name = true then nccl name why else refuse name (why ++ " and " ++ policy.forbidden name)

/-- An all-gather of more than one op. -/
def splitGather (tensor : TensorMeta) (limits : SessionLimits) (outer inner : ℕ) (view : Method → Method) :
    Except PlanError Plan :=
  let name := Operation.allGather
  let copy := !tensor.contiguous
  let rowBytes := inner * tensor.itemsize
  let opBytes := limits.gatherOpBytes
  match stated limits.gatherPiece with
  | some piece =>
    match RelayPieces.Session.gatherPlan outer rowBytes piece with
    | .error error => .error (.piece error)
    | .ok tiles =>
      .ok ⟨name, .sircl, view .large, tiles.length, piece,
        s!"{outer} rows of {rowBytes} bytes in {tiles.length} session op(s) of at most {piece} bytes (all_gather_large)", copy⟩
  | none =>
    if rowBytes ≤ opBytes then
      let rows := opBytes / rowBytes
      .ok ⟨name, .sircl, view .rows, ceil outer rows, rows, s!"{outer} rows of {rowBytes} bytes, {rows} per op", copy⟩
    else
      let columns := max 1 (opBytes / tensor.itemsize)
      .ok ⟨name, .sircl, view .tiles, outer * ceil inner columns, columns,
        s!"rows of {rowBytes} bytes exceed the op limit {opBytes}: tiles of {columns} elements", copy⟩

def planAllGather (tensor : TensorMeta) (dim : ℤ) (limits : Option SessionLimits) (policy : Policy) (capturing : Bool) :
    Except PlanError Plan :=
  let name := Operation.allGather
  if tensor.shape = [] then .ok (refuse name "a scalar has no dimension to gather along")
  else if tensor.nbytes = 0 then .ok (empty name "empty shard")
  else
    match limits with
    | none => .ok (withoutSession policy name "the group has no SIRCL session")
    | some limits =>
      if limits.gather = 0 then .ok (withoutSession policy name "SIRCL all-gather is disabled (G=0)")
      else
        let opBytes := limits.gatherOpBytes
        let view := fun method => if tensor.dtype ∈ byteViewDtypes then Method.bytes method else method
        if policy.prefersNccl name tensor.nbytes opBytes capturing = true then
          .ok (nccl name
            s!"{tensor.nbytes}-byte shard is above the group's SIRCL gather threshold on a group whose cabling carries NCCL's ring")
        else if tensor.nbytes ≤ opBytes then
          .ok ⟨name, .sircl, view .direct, 1, tensor.nbytes, "within the gather op limit", !tensor.contiguous⟩
        else
          splitGather tensor limits (tensor.shape.take (tensor.axis dim)).prod (tensor.shape.drop (tensor.axis dim)).prod view

/-- An all-reduce of a type the session does not sum. -/
def planUnsummed (tensor : TensorMeta) (limits : SessionLimits) (policy : Policy) (capturing : Bool) : Except PlanError Plan :=
  let name := Operation.allReduce
  if policy.ncclAllows name = true ∧ policy.large ≠ .sircl then
    .ok (nccl name s!"dtype {tensor.dtype} is not summed by the prepared session")
  else if tensor.dtype ∉ exactLocalSumDtypes then
    .ok (refuse name (s!"dtype {tensor.dtype} has no exact rank-ordered sum; " ++ policy.forbidden name))
  else do
    let gather ← planAllGather ⟨[tensor.numel], tensor.dtype, tensor.itemsize, true⟩ 0 limits policy.internal capturing
    if gather.backend ≠ .sircl then
      .ok (refuse name s!"dtype {tensor.dtype}: the gather it is composed of is refused: {gather.reason}")
    else
      .ok ⟨name, .sircl, .gatherSum, gather.ops, gather.piece, s!"dtype {tensor.dtype} is summed locally after an all-gather",
        !tensor.contiguous⟩

/-- An all-reduce above the dispatch ceiling that stays on the session. -/
def splitReduce (tensor : TensorMeta) (limits : SessionLimits) : Plan :=
  let name := Operation.allReduce
  let copy := !tensor.contiguous
  let padded := ceil tensor.nbytes pack * pack
  match stated limits.largePiece with
  | some large =>
    let ops := ceil tensor.nbytes large
    ⟨name, .sircl, .large, ops, large,
      s!"{tensor.nbytes} bytes through the session's all_reduce_large (at most {ops} op(s) of at most {large} bytes, or one chain op)",
      copy⟩
  | none =>
    let unit := max pack tensor.itemsize
    let piece := limits.dispatch / unit * unit / pack * pack
    if piece < pack then refuse name s!"dispatch ceiling {limits.dispatch} holds no whole element"
    else
      let ops := ceil padded piece
      ⟨name, .sircl, .chunked, ops, piece, s!"{tensor.nbytes} bytes in {ops} ops of at most {piece} bytes", copy⟩

/-- The refusal of an all-reduce that was to go to NCCL. -/
def largeRefusal (policy : Policy) : Plan :=
  refuse .allReduce ("SIRCL_LARGE_ALLREDUCE=nccl but " ++ policy.forbidden .allReduce)

def planAllReduce (tensor : TensorMeta) (limits : Option SessionLimits) (policy : Policy) (capturing : Bool) :
    Except PlanError Plan :=
  let name := Operation.allReduce
  if tensor.nbytes = 0 then .ok (empty name "empty tensor")
  else
    match limits with
    | none => .ok (withoutSession policy name "the group has no SIRCL session")
    | some limits =>
      if tensor.dtype ∉ limits.reduceDtypes then planUnsummed tensor limits policy capturing
      else
        let padded := ceil tensor.nbytes pack * pack
        if padded ≤ limits.dispatch ∧ policy.prefersNccl name tensor.nbytes limits.dispatch capturing = false then
          .ok ⟨name, .sircl, if padded = tensor.nbytes then .direct else .padded, 1, padded, "within the dispatch ceiling",
            !tensor.contiguous⟩
        else if policy.prefersNccl name tensor.nbytes limits.dispatch capturing = true then
          .ok (nccl name
            s!"{tensor.nbytes} bytes exceed the dispatch ceiling {limits.dispatch} on a group whose cabling carries NCCL's ring")
        else if policy.large = .nccl ∧ capturing = false then .ok (largeRefusal policy)
        else .ok (splitReduce tensor limits)

/-- The plan of a reduce-scatter on a session. -/
def sessionScatter (tensor : TensorMeta) (dim : ℤ) (limits : SessionLimits) (policy : Policy) (capturing : Bool) :
    Except PlanError Plan :=
  let name := Operation.reduceScatter
  let rows := tensor.shape.getD (tensor.axis dim) 0
  let rowBytes := tensor.nbytes / rows
  let copy := !tensor.contiguous || decide (tensor.axis dim ≠ 0)
  let prepared := tensor.dtype ∈ limits.scatterDtypes ∧ rowBytes % pack = 0
  if prepared ∧ (stated limits.scatterPiece).isSome then
    .ok ⟨name, .sircl, .scatter, 1, tensor.nbytes,
      s!"session reduce-scatter of the whole message (the session cuts ops of at most {limits.scatterPiece.getD 0} bytes)", copy⟩
  else if prepared ∧ limits.scatterOpBytes ≠ 0 then
    let perOpChunk := limits.scatterOpBytes / limits.world
    let block := rows / limits.world * rowBytes
    let ops := if tensor.nbytes ≤ limits.scatterOpBytes then 1 else ceil block perOpChunk
    .ok ⟨name, .sircl, .scatter, ops, min block perOpChunk,
      "session reduce-scatter" ++ (if ops = 1 then "" else s!" in {ops} strided ops"), copy⟩
  else do
    let reduce ← planAllReduce tensor limits policy.internal capturing
    if reduce.backend ≠ .sircl then
      if policy.ncclAllows name = true then .ok (nccl name ("SIRCL cannot reduce this tensor: " ++ reduce.reason))
      else .ok (refuse name reduce.reason)
    else
      .ok ⟨name, .sircl, .allreduceSlice, reduce.ops, reduce.piece, "all-reduce then this rank's chunk of it", reduce.contiguousCopy⟩

def unevenRefusal (dim : ℤ) (extent world : ℕ) : Plan :=
  refuse .reduceScatter s!"dimension {dim} of extent {extent} does not split into {world} equal chunks"

def planReduceScatter (tensor : TensorMeta) (dim : ℤ) (limits : Option SessionLimits) (policy : Policy) (capturing : Bool) :
    Except PlanError Plan :=
  let name := Operation.reduceScatter
  let extent := tensor.shape.getD (tensor.axis dim) 0
  if tensor.shape = [] then .ok (refuse name "a scalar cannot be scattered")
  else
    match limits with
    | none =>
      if tensor.nbytes = 0 then .ok (empty name "empty tensor")
      else .ok (withoutSession policy name "the group has no SIRCL session")
    | some limits =>
      if extent % limits.world ≠ 0 then .ok (unevenRefusal dim extent limits.world)
      else if tensor.nbytes = 0 then .ok (empty name "empty tensor")
      else if policy.prefersNccl name tensor.nbytes limits.scatterOpBytes capturing = true then
        .ok (nccl name
          s!"{tensor.nbytes} bytes are above the group's SIRCL reduce-scatter threshold on a group whose cabling carries NCCL's ring")
      else sessionScatter tensor dim limits policy capturing

/-- Sizes that are absent or all alike. -/
def even (sizes : Option (List ℕ)) : Bool := sizes.all fun sizes => decide (sizes.dedup.length = 1)

/-- The plan of an all-gather of shards of given sizes. -/
def planAllGatherv (tensor : TensorMeta) (sizes : Option (List ℕ)) (limits : Option SessionLimits) (policy : Policy)
    (capturing : Bool) : Except PlanError Plan :=
  if even sizes = true then do
    let inner ← planAllGather tensor 0 limits policy capturing
    .ok { inner with collective := .allGatherv }
  else
    match (sizes.getD []).max? with
    | none => .error .noSizes
    | some longest => do
      let inner ← planAllGather ⟨longest :: tensor.shape.tail, tensor.dtype, tensor.itemsize, true⟩ 0 limits policy capturing
      if inner.backend ≠ .sircl then .ok { inner with collective := .allGatherv }
      else
        .ok ⟨.allGatherv, .sircl, .paddedTo inner.method, inner.ops, inner.piece, s!"uneven sizes {sizes.getD []} padded to {longest}",
          true⟩

/-- The plan of a reduce-scatter into shards of given sizes. -/
def planReduceScatterv (tensor : TensorMeta) (sizes : Option (List ℕ)) (limits : Option SessionLimits) (policy : Policy)
    (capturing : Bool) : Except PlanError Plan :=
  if even sizes = true then do
    let inner ← planReduceScatter tensor 0 limits policy capturing
    .ok { inner with collective := .reduceScatterv }
  else if policy.ncclAllows .reduceScatter = true ∧ capturing = false ∧ policy.large ≠ .sircl then
    .ok (nccl .reduceScatterv "uneven sizes on a group whose cabling carries NCCL's ring")
  else do
    let reduce ← planAllReduce tensor limits policy.internal capturing
    if reduce.backend ≠ .sircl then .ok (refuse .reduceScatterv reduce.reason)
    else
      .ok ⟨.reduceScatterv, .sircl, .allreduceSlice, reduce.ops, reduce.piece,
        s!"uneven sizes {sizes.getD []}: all-reduce then this rank's rows", reduce.contiguousCopy⟩

/-- The plan of a broadcast or a gather as an all-gather of the tensor's bytes. -/
def planBytesGather (collective : Operation) (tensor : TensorMeta) (limits : Option SessionLimits) (policy : Policy)
    (capturing : Bool) (ncclOperation : Operation) : Except PlanError Plan :=
  if tensor.nbytes = 0 then .ok (empty collective "empty tensor")
  else if policy.ncclAllows ncclOperation = true ∧ (limits = none ∨ (capturing = false ∧ policy.large ≠ .sircl)) then
    .ok (nccl collective "the group's cabling carries this NCCL collective")
  else do
    let inner ← planAllGather (.ofBytes tensor.nbytes) 0 limits policy.internal capturing
    if inner.backend ≠ .sircl then .ok (refuse collective inner.reason)
    else
      .ok ⟨collective, .sircl, .gatherBytes, inner.ops, inner.piece, "all-gather of the bytes, then the source rank's copy",
        !tensor.contiguous⟩

def sessionAllToAll (tensor : TensorMeta) (limits : SessionLimits) (policy : Policy) (capturing : Bool) : Except PlanError Plan :=
  let name := Operation.allToAll
  let prepared := tensor.nbytes % (limits.world * pack) = 0 ∧ limits.allToAll = true
  if prepared ∧ (stated limits.scatterPiece).isSome then
    .ok ⟨name, .sircl, .scatter, 1, tensor.nbytes,
      s!"session all-to-all of the whole message (the session cuts ops of at most {limits.scatterPiece.getD 0} bytes)",
      !tensor.contiguous⟩
  else if prepared ∧ limits.scatterOpBytes ≠ 0 then
    .ok ⟨name, .sircl, .scatter, max 1 (ceil tensor.nbytes limits.scatterOpBytes), min tensor.nbytes limits.scatterOpBytes,
      "session all-to-all", !tensor.contiguous⟩
  else if policy.ncclAllows name = true ∧ capturing = false then
    .ok (nccl name "the group's cabling connects every pair of ranks")
  else do
    let inner ← planAllGather (.ofBytes tensor.nbytes) 0 limits policy.internal capturing
    if inner.backend ≠ .sircl then .ok (refuse name inner.reason)
    else
      .ok ⟨name, .sircl, .gatherPick, inner.ops, inner.piece, "all-gather of every rank's send buffer, then this rank's chunks",
        !tensor.contiguous⟩

def planAllToAll (tensor : TensorMeta) (limits : Option SessionLimits) (policy : Policy) (capturing : Bool) : Except PlanError Plan :=
  let name := Operation.allToAll
  if tensor.nbytes = 0 then .ok (empty name "empty tensor")
  else
    match limits with
    | none => .ok (withoutSession policy name "the group has no SIRCL session")
    | some limits =>
      if policy.prefersNccl name tensor.nbytes limits.scatterOpBytes capturing = true then
        .ok (nccl name
          "above the group's SIRCL all-to-all threshold on a group whose cabling connects every pair of ranks")
      else sessionAllToAll tensor limits policy capturing

/-- The plan of a send or a receive between two ranks. -/
def planPointToPoint (collective : Operation) (policy : Policy) (rank peer : ℕ) (p2p : Option P2PLimits) (capturing : Bool)
    (nbytes : ℕ) : Plan :=
  match p2p.filter fun limits => decide (peer ∈ limits.peers) with
  | some limits =>
    if capturing = true then
      refuse collective
        s!"point-to-point transfers to rank {peer} run on SIRCL's channels, which work outside CUDA graph capture only"
    else
      let method := if peer ∈ limits.relayed then Method.relayed else .direct
      ⟨collective, .sircl, method, 1, nbytes,
        s!"the group's point-to-point channel between ranks {rank} and {peer} ({method.text})", false⟩
  | none =>
    let missing := (p2p.map fun limits => limits.problem peer).getD "the group has no point-to-point channels (SIRCL_P2P_GROUPS)"
    if policy.ncclMode = .never then refuse collective s!"{missing}, and SIRCL_NCCL=never"
    else if policy.ncclPolicy = .none then refuse collective (s!"{missing}, and " ++ policy.forbidden collective)
    else if policy.ncclPolicy = .all ∨ policy.pairCabled rank peer = true then
      nccl collective s!"ranks {rank} and {peer} share a cable and {missing}"
    else refuse collective s!"ranks {rank} and {peer} share no cable, and {missing}"

end SparkRing.CollectivePlanner
