import SparkRing.CollectivePlanner

/-!
# The guard of NCCL and the dispatch of a group's calls

A placement fixes what NCCL may do on a group. Before a call planned for NCCL is handed to
it, the guard is asked for the plan's collective; a call NCCL may not run there fails
loudly instead of hanging.
-/

namespace SparkRing.GroupDispatch

open CollectivePlanner (TensorMeta SessionLimits Policy P2PLimits Plan PlanError NcclMode LargeMode even planAllReduce planAllGather planAllGatherv
  planReduceScatter planReduceScatterv planBytesGather planAllToAll planPointToPoint)
open GroupFabric (Operation NcclPolicy Layout GroupTopology RouteScope describeGroup ncclPolicyOf)

/-- Transfers between two ranks. -/
def pointToPoint : List Operation := [.send, .recv, .isend, .irecv, .batchIsendIrecv]

/-- A process group and what NCCL may do on it. -/
structure GuardedGroup where
  name : String
  /-- Global ranks in group order. -/
  ranks : List ℕ
  /-- What NCCL may do. -/
  policy : NcclPolicy
  /-- Why. -/
  reason : String
  /-- Two global ranks share a cable. -/
  cabled : ℕ → ℕ → Bool
  /-- How to let a refused call run. -/
  remedy : String

/-- NCCL may run an operation, between two global ranks when a pair is given. -/
def GuardedGroup.allows (group : GuardedGroup) (operation : Operation) (pair : Option (ℕ × ℕ)) : Bool :=
  if group.policy = .all then true
  else
    match pair.filter fun _ => decide (operation ∈ pointToPoint) with
    | some (a, b) => decide (group.policy = .ring) && group.cabled a b
    | none => group.policy.allows operation

/-- Why a call did not run. -/
inductive CallError
  /-- No plan was made. -/
  | plan (error : PlanError)
  /-- A dimension or a rank the call does not take. -/
  | argument
  /-- Neither backend may carry it. -/
  | dispatch (message : String)
  /-- NCCL would connect Sparks that share no cable. -/
  | acrossRelay (message : String)
  deriving DecidableEq

/-- Let an operation pass to NCCL, or fail. -/
def GuardedGroup.check (group : GuardedGroup) (operation : Operation) (pair : Option (ℕ × ℕ)) : Except CallError Unit :=
  if group.allows operation pair = true then .ok ()
  else
    let between := (pair.map fun ranks => s!" between global ranks {ranks.1} and {ranks.2}").getD ""
    let remedy := if group.remedy = "" then "" else s!" {group.remedy}"
    .error (.acrossRelay
      s!"NCCL {operation.text}{between} on group {group.name} (global ranks {group.ranks}) is refused: {group.reason}. NCCL cannot connect Sparks that share no cable, and SIRCL does not carry this call.{remedy} This is a configuration or dispatch error, not a transport failure to retry")

/-- The calls a group with a session carries for `torch.distributed`. -/
def carriedCalls : List String :=
  ["all_reduce (sum, max, min)", "broadcast", "all_gather", "all_gather_into_tensor", "reduce_scatter_tensor (sum)",
    "all_to_all_single (equal splits)"]

/-- How to let a call the policy refuses run. -/
def remedies (raw effective : NcclPolicy) (session : Bool) : String :=
  let ring :=
    if raw = .ring ∧ effective = .none then
      ["let NCCL's ring algorithm run on this cycle: SIRCL_NCCL=auto (the launchers' --nccl auto) with NCCL_ALGO=Ring and NCCL_SKIP_TREE_CONNECT=1"]
    else []
  let carry :=
    if session = true then
      "issue the call through vLLM's device communicator; on this group SIRCL also carries the torch.distributed calls " ++
        ", ".intercalate carriedCalls ++ " and refuses other direct torch.distributed calls"
    else
      "give the group a SIRCL session: tensor-parallel and decode-context-parallel groups get one through SIRCL_GROUPS, and a group whose ranks equal the tensor-parallel group's shares that group's session"
  "Remedies: " ++ "; or ".intercalate (ring ++ [carry]) ++ "."

/-- NCCL's own settings: whether they leave it its ring algorithm only, and how. -/
structure RingAlgorithm where
  /-- Tree connections are skipped and only the ring algorithm is left. -/
  enforced : Bool
  /-- The settings in words. -/
  detail : String
  deriving DecidableEq

/-- The policy after the operator's mode and NCCL's settings. -/
def effectivePolicy (policy : NcclPolicy) (reason : String) (mode : NcclMode) (algorithm : RingAlgorithm) : NcclPolicy × String :=
  if policy = .all ∧ mode ≠ .never then (policy, reason)
  else if mode = .never then (.none, "SIRCL_NCCL=never")
  else if policy = .ring then
    if algorithm.enforced = false then
      (.none, s!"{reason}; but {algorithm.detail}, so NCCL could build tree connections between Sparks that share no cable")
    else (policy, s!"{reason} ({algorithm.detail})")
  else (policy, reason)

/-- What an instance's adapters are configured with. -/
structure AdapterConfig where
  /-- The physical fabric. -/
  layout : Layout
  /-- Position of every global rank. -/
  positions : List ℤ
  /-- Kinds of groups with a session. -/
  groups : List String
  ncclMode : NcclMode
  /-- The operator's choice for large messages. -/
  large : LargeMode
  /-- The qualified limit of relays. -/
  maxRelays : ℕ
  /-- Which cables groups route over. -/
  routeScope : RouteScope
  deriving DecidableEq

/-- Position of a global rank. -/
def AdapterConfig.position (config : AdapterConfig) (rank : ℕ) : ℤ := config.positions.getD rank 0

/-- Two global ranks share a cable. -/
def AdapterConfig.cabled (config : AdapterConfig) (a b : ℕ) : Bool :=
  config.layout.cables.any fun cable => cable.joins (config.position a) (config.position b)

/-- Kinds of groups that may have a session. -/
def sessionKinds : List String := ["tp", "dcp"]

/-- Kinds of groups inside another. -/
def subgroupKinds : List String := ["dcp"]

/-- Lanes toward a peer. -/
def maxLanes : ℕ := 2

/-- The kind in a group's name. -/
def kindOf (name : String) : String := String.ofList (name.toList.takeWhile (· ≠ ':'))

/-- Where a group sits and what NCCL may do there. -/
structure GroupPlacement where
  name : String
  /-- Global ranks in group order. -/
  globalRanks : List ℕ
  /-- Its place on the fabric, for a group with a session. -/
  topology : Option GroupTopology
  /-- What NCCL may do. -/
  policy : NcclPolicy
  /-- Why. -/
  reason : String
  /-- The group gets a session. -/
  session : Bool
  /-- What the cabling alone allows. -/
  rawPolicy : NcclPolicy

/-- Positions of global ranks, unless one is not known. -/
def AdapterConfig.positionsOf (config : AdapterConfig) (ranks : List ℕ) : Except CallError (List ℤ) :=
  if ∀ rank ∈ ranks, rank < config.positions.length then .ok (ranks.map config.position) else .error .argument

/-- The place of a session's group. -/
def AdapterConfig.topologyOf (config : AdapterConfig) (name : String) (positions : List ℤ) (parentRanks : Option (List ℕ)) :
    Except CallError GroupTopology :=
  let place := fun parent =>
    (describeGroup config.layout positions parent maxLanes config.maxRelays config.routeScope).mapError CallError.dispatch
  if kindOf name ∈ subgroupKinds then
    match parentRanks with
    | none => .error (.dispatch s!"subgroup {name} needs its parent group's ranks")
    | some ranks => do
      let parent ← config.positionsOf ranks
      place (some parent)
  else place none

def GroupPlacement.of (name : String) (globalRanks : List ℕ) (config : AdapterConfig) (parentRanks : Option (List ℕ))
    (algorithm : RingAlgorithm) : Except CallError GroupPlacement := do
  if ¬∀ rank ∈ globalRanks, rank < config.positions.length then
    .error (.dispatch
      s!"group {name} has global ranks {globalRanks} beyond the {config.positions.length} positions SIRCL knows")
  else
    let positions := globalRanks.map config.position
    let session := decide (kindOf name ∈ config.groups ∧ kindOf name ∈ sessionKinds ∧ 1 < globalRanks.length)
    if session = true then
      let topology ← config.topologyOf name positions parentRanks
      let effective := effectivePolicy topology.ncclPolicy topology.ncclReason config.ncclMode algorithm
      .ok ⟨name, globalRanks, some topology, effective.1, effective.2, session, topology.ncclPolicy⟩
    else
      let raw ← (ncclPolicyOf config.layout positions).mapError CallError.dispatch
      let effective := effectivePolicy raw.1 raw.2 config.ncclMode algorithm
      .ok ⟨name, globalRanks, none, effective.1, effective.2, session, raw.1⟩

def GroupPlacement.guardEntry (placement : GroupPlacement) (config : AdapterConfig) : GuardedGroup where
  name := placement.name
  ranks := placement.globalRanks
  policy := placement.policy
  reason := placement.reason
  cabled := config.cabled
  remedy := if 1 < placement.globalRanks.length then remedies placement.rawPolicy placement.policy placement.session else ""

/-- One rank's view of one group. -/
structure GroupAdapter where
  config : AdapterConfig
  /-- Global ranks of the parent group. -/
  parentRanks : Option (List ℕ)
  /-- NCCL's own settings. -/
  algorithm : RingAlgorithm
  placement : GroupPlacement
  rank : ℕ
  /-- Limits of the group's session, its own or a shared one. -/
  limits : Option SessionLimits
  /-- Measured crossovers. -/
  ncclAbove : List (Operation × ℕ)
  channels : P2PLimits
  ncclAttached : Bool
  /-- It is a rank of the group. -/
  rank_lt : rank < placement.globalRanks.length
  placed : GroupPlacement.of placement.name placement.globalRanks config parentRanks algorithm = .ok placement

/-- A call of a group. -/
inductive GroupCall
  | allReduce (inp : TensorMeta)
  | allGather (inp : TensorMeta) (dim : ℤ)
  | allGatherv (inp : TensorMeta) (dim : ℤ) (sizes : Option (List ℕ))
  | allGathervList (inps : List TensorMeta) (dim : ℤ) (sizes : Option (List ℕ))
  | reduceScatter (inp : TensorMeta) (dim : ℤ)
  | reduceScatterv (inp : TensorMeta) (dim : ℤ) (sizes : Option (List ℕ))
  | gather (inp : TensorMeta)
  | broadcast (inp : TensorMeta)
  | allToAllSingle (inp : TensorMeta)
  | send (tensor : TensorMeta) (peer : ℕ)
  | recv (tensor : TensorMeta) (peer : ℕ)
  /-- Sends (`true`) and receives of one batch. -/
  | batchIsendIrecv (ops : List (Bool × TensorMeta × ℕ))
  deriving DecidableEq

namespace GroupAdapter

variable (adapter : GroupAdapter)

/-- Ranks of the group. -/
def world : ℕ := adapter.placement.globalRanks.length

/-- Global rank of a group rank. -/
def globalRank (rank : ℕ) : ℕ := adapter.placement.globalRanks.getD rank 0

/-- What the group puts into every plan. -/
def policy : Policy where
  topology := adapter.placement.topology
  ncclMode := adapter.config.ncclMode
  large := adapter.config.large
  ncclAbove := adapter.ncclAbove
  policyOverride := some adapter.placement.policy
  reason := adapter.placement.reason
  cabled := some fun a b => adapter.config.cabled (adapter.globalRank a) (adapter.globalRank b)

def refused (plan : Plan) : CallError :=
  .dispatch s!"SIRCL refuses {plan.collective.text} on {adapter.placement.name} (rank {adapter.rank}): {plan.reason}"

/-- Let a plan pass, or fail. -/
def settle (plan : Plan) : Except CallError Plan :=
  match plan.backend with
  | .refuse => .error (adapter.refused plan)
  | .sircl => .ok plan
  | .nccl => do
    (adapter.placement.guardEntry adapter.config).check plan.collective none
    if adapter.ncclAttached = true then .ok plan
    else
      .error (.dispatch s!"{plan.collective.text} on {adapter.placement.name} planned for NCCL, but no NCCL path is attached")

/-- Let a plan between two ranks pass, or fail. -/
def settleP2P (plan : Plan) (peer : ℕ) : Except CallError Plan :=
  match plan.backend with
  | .refuse => .error (adapter.refused plan)
  | .sircl => .ok plan
  | .nccl => do
    (adapter.placement.guardEntry adapter.config).check plan.collective (some (adapter.globalRank adapter.rank, adapter.globalRank peer))
    .ok plan

/-- Make a plan and let it pass. -/
def carry (planned : Except PlanError Plan) : Except CallError (List Plan) := do
  let plan ← planned.mapError CallError.plan
  let settled ← adapter.settle plan
  .ok [settled]

/-- The plan of a send or a receive. -/
def planP2P (collective : Operation) (peer : ℕ) (nbytes : ℕ) (capturing : Bool) : Plan :=
  planPointToPoint collective adapter.policy adapter.rank peer (some adapter.channels) capturing nbytes

/-- The plans of the transfers of a batch. -/
def batchPlans (ops : List (Bool × TensorMeta × ℕ)) (capturing : Bool) : List (Plan × ℕ) :=
  ops.map fun op => (adapter.planP2P (if op.1 then .send else .recv) op.2.2 op.2.1.nbytes capturing, op.2.2)

def transfer (collective : Operation) (tensor : TensorMeta) (peer : ℕ) (capturing : Bool) : Except CallError (List Plan) :=
  if adapter.world ≤ peer then .error .argument
  else do
    let settled ← adapter.settleP2P (adapter.planP2P collective peer tensor.nbytes capturing) peer
    .ok [settled]

/-- A batch of transfers: all on the channels, or all on NCCL. -/
def batch (ops : List (Bool × TensorMeta × ℕ)) (capturing : Bool) : Except CallError (List Plan) :=
  let plans := adapter.batchPlans ops capturing
  let name := s!"SIRCL refuses batch_isend_irecv on {adapter.placement.name} (rank {adapter.rank}): "
  if ops.any fun op => decide (adapter.world ≤ op.2.2) then .error .argument
  else
    match plans.find? fun plan => decide (plan.1.backend = .refuse) with
    | some plan => .error (.dispatch (name ++ plan.1.reason))
    | none =>
      if plans.all fun plan => decide (plan.1.backend = .sircl) then .ok (plans.map Prod.fst)
      else if plans.all fun plan => decide (plan.1.backend = .nccl) then
        plans.mapM fun plan => adapter.settleP2P plan.1 plan.2
      else .error (.dispatch (name ++ "the batch mixes pairs SIRCL's channels carry with pairs only NCCL carries"))

/-- The plans of a list of all-gathers, and the calls that follow them. -/
def gathervList (inps : List TensorMeta) (sizes : Option (List ℕ)) (capturing : Bool) : Except CallError (List Plan) := do
  let plans ← (inps.mapM fun inp => planAllGatherv inp sizes adapter.limits adapter.policy capturing).mapError CallError.plan
  if (plans.any fun plan => decide (plan.backend = .nccl)) ∧ (plans.all fun plan => decide (plan.backend ≠ .refuse)) then
    (adapter.placement.guardEntry adapter.config).check .allGather none
    .ok plans
  else plans.mapM adapter.settle

/-- Run a call: the plans that passed. -/
def dispatch (capturing : Bool) : GroupCall → Except CallError (List Plan)
  | .allReduce inp => adapter.carry (planAllReduce inp adapter.limits adapter.policy capturing)
  | .allGather inp dim => adapter.carry (planAllGather inp dim adapter.limits adapter.policy capturing)
  | .allGatherv inp dim sizes =>
    if dim ≠ 0 then .error .argument else adapter.carry (planAllGatherv inp sizes adapter.limits adapter.policy capturing)
  | .allGathervList inps dim sizes => if dim ≠ 0 then .error .argument else adapter.gathervList inps sizes capturing
  | .reduceScatter inp dim => adapter.carry (planReduceScatter inp dim adapter.limits adapter.policy capturing)
  | .reduceScatterv inp _ sizes => adapter.carry (planReduceScatterv inp sizes adapter.limits adapter.policy capturing)
  | .gather inp => adapter.carry (planBytesGather .gather inp adapter.limits adapter.policy capturing .gather)
  | .broadcast inp => adapter.carry (planBytesGather .broadcast inp adapter.limits adapter.policy capturing .broadcast)
  | .allToAllSingle inp => adapter.carry (planAllToAll inp adapter.limits adapter.policy capturing)
  | .send tensor peer => adapter.transfer .send tensor peer capturing
  | .recv tensor peer => adapter.transfer .recv tensor peer capturing
  | .batchIsendIrecv ops => adapter.batch ops capturing

end GroupAdapter

end SparkRing.GroupDispatch
