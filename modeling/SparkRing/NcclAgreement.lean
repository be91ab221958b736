import SparkRing.GroupCabling
import SparkRing.GroupDispatch
import SparkRing.NcclRequests
import SparkRing.RouteLanes

/-!
# The planner and the guard

A plan for NCCL is to connect only ranks that share a cable, and the guard, asked for the
plan's collective, is to let it pass. Under the policies of the group this holds for every
call but those whose plan carries another name than the operation it was admitted under.
-/

namespace SparkRing.GroupDispatch

open CollectivePlanner
open GroupFabric (Operation NcclPolicy Layout GroupTopology classify positionOf ringOperations)
open List (all_eq_true any_eq_true mem_map mem_singleton)
open Except (ok.inj)

variable {adapter : GroupAdapter} {call : GroupCall} {capturing : Bool} {operation name : Operation} {a b nbytes rank peer : ℕ}
  {algorithm : RingAlgorithm} {result : Except PlanError Plan} {reason : String} {mode : NcclMode} {raw : NcclPolicy}

/-- NCCL connects two ranks for a collective: any two under `all`, ring neighbours for a ring
operation under `ring`. -/
def Connects (policy : NcclPolicy) (operation : Operation) (n a b : ℕ) : Prop :=
  a < n ∧ b < n ∧ a ≠ b ∧ (policy = .ring → operation ∈ ringOperations → b = (a + 1) % n ∨ a = (b + 1) % n)

/-- The effective policy `all` is the cabling's. -/
theorem effectivePolicy_all (h : (effectivePolicy raw reason mode algorithm).1 = .all) : raw = .all := by
  unfold effectivePolicy at h
  split_ifs at h <;> first | exact h | cases h

/-- The effective policy `ring` is the cabling's. -/
theorem effectivePolicy_ring (h : (effectivePolicy raw reason mode algorithm).1 = .ring) : raw = .ring := by
  unfold effectivePolicy at h
  split_ifs at h <;> first | exact h | cases h

/-- The operator's mode `never` leaves no NCCL. -/
theorem effectivePolicy_never : (effectivePolicy raw reason .never algorithm).1 = .none := by
  simp [effectivePolicy]

/-- A renamed error keeps what succeeds. -/
theorem ok_of_mapError {ε ε' α : Type*} {f : ε → ε'} {result : Except ε α} {x : α} (h : result.mapError f = .ok x) : result = .ok x := by
  cases result with
  | error => cases h
  | ok => exact congrArg Except.ok (ok.inj h)

/-- A session's group is placed on the layout by its positions. -/
theorem AdapterConfig.topologyOf_spec {config : AdapterConfig} {name : String} {positions : List ℤ} {parentRanks : Option (List ℕ)}
    {topology : GroupTopology} (h : config.topologyOf name positions parentRanks = .ok topology) :
    topology.members = positions ∧ ∀ a b, topology.fabric.adjacent a b = true → config.layout.adjacent a b = true := by
  have hplace : ∀ parent, (GroupFabric.describeGroup config.layout positions parent maxLanes config.maxRelays config.routeScope).mapError
      CallError.dispatch = .ok topology → topology.members = positions ∧
        ∀ a b, topology.fabric.adjacent a b = true → config.layout.adjacent a b = true := by
    intro parent hparent
    obtain ⟨-, hmembers, -, hfabric⟩ := GroupFabric.describeGroup_spec (ok_of_mapError hparent)
    refine ⟨hmembers, fun a b hadjacent => ?_⟩
    obtain ⟨cable, hcable, hjoins⟩ := any_eq_true.mp hadjacent
    exact any_eq_true.mpr ⟨cable, GroupFabric.scopedFabric_subset hfabric hcable, hjoins⟩
  unfold AdapterConfig.topologyOf at h
  split_ifs at h with hkind
  · cases parentRanks with
    | none => cases h
    | some ranks =>
      cases hparent : config.positionsOf ranks with
      | error => simp [hparent, bind, Except.bind] at h
      | ok =>
        simp only [hparent, bind, Except.bind] at h
        exact hplace _ h
  · exact hplace _ h

/-- The cables behind a placement's policy. -/
theorem GroupAdapter.grounded (adapter : GroupAdapter) : ∃ (adjacent : ℤ → ℤ → Bool) (raw : NcclPolicy) (reason : String),
      (∀ a b, adjacent a b = true → adapter.config.layout.adjacent a b = true) ∧
      raw = classify adjacent (adapter.placement.globalRanks.map adapter.config.position) ∧
      adapter.placement.policy = (effectivePolicy raw reason adapter.config.ncclMode adapter.algorithm).1 := by
  have hplaced := adapter.placed
  unfold GroupPlacement.of at hplaced
  by_cases hknown : ∀ rank ∈ adapter.placement.globalRanks, rank < adapter.config.positions.length
  · rw [if_neg (not_not.mpr hknown)] at hplaced
    dsimp only at hplaced
    split at hplaced
    · cases htopology : adapter.config.topologyOf adapter.placement.name (adapter.placement.globalRanks.map adapter.config.position)
        adapter.parentRanks with
      | error error => simp [htopology, bind, Except.bind] at hplaced
      | ok topology =>
        simp only [htopology, bind, Except.bind] at hplaced
        obtain ⟨hmembers, hsubset⟩ := AdapterConfig.topologyOf_spec htopology
        refine ⟨topology.fabric.adjacent, topology.ncclPolicy, topology.ncclReason, hsubset, ?_, ?_⟩
        · rw [topology.ncclPolicy_eq, hmembers]
        · exact congrArg GroupPlacement.policy (ok.inj hplaced).symm
    · cases hraw : (GroupFabric.ncclPolicyOf adapter.config.layout (adapter.placement.globalRanks.map adapter.config.position)).mapError
        CallError.dispatch with
      | error error => simp [hraw, bind, Except.bind] at hplaced
      | ok raw =>
        simp only [hraw, bind, Except.bind] at hplaced
        refine ⟨adapter.config.layout.adjacent, raw.1, raw.2, fun _ _ h => h, ?_, ?_⟩
        · exact GroupFabric.ncclPolicyOf_eq (show _ = Except.ok (raw.1, raw.2) from ok_of_mapError hraw)
        · exact congrArg GroupPlacement.policy (ok.inj hplaced).symm
  · rw [if_pos hknown] at hplaced
    cases hplaced

theorem positionOf_map (h : rank < adapter.world) :
    positionOf (adapter.placement.globalRanks.map adapter.config.position) rank = adapter.config.position (adapter.globalRank rank) := by
  have hlength : rank < adapter.placement.globalRanks.length := h
  simp [positionOf, GroupAdapter.globalRank, hlength]

/-- Where a placement's policy lets an operation pass, the ranks it connects share cables. -/
theorem cabled_of_connects (hallows : adapter.placement.policy.allows operation = true)
    (h : Connects adapter.placement.policy operation adapter.world a b) :
    adapter.config.cabled (adapter.globalRank a) (adapter.globalRank b) = true := by
  obtain ⟨ha, hb, hab, hneighbours⟩ := h
  obtain ⟨adjacent, raw, reason, hsubset, hraw, hpolicy⟩ := adapter.grounded
  have hlength : (adapter.placement.globalRanks.map adapter.config.position).length = adapter.world := List.length_map _
  have hcabled : ∀ i j, i < adapter.world → j < adapter.world →
      adjacent (positionOf (adapter.placement.globalRanks.map adapter.config.position) i)
        (positionOf (adapter.placement.globalRanks.map adapter.config.position) j) = true →
      adapter.config.layout.adjacent (adapter.config.position (adapter.globalRank i)) (adapter.config.position (adapter.globalRank j)) = true := by
    intro i j hi hj hadjacent
    rw [positionOf_map hi, positionOf_map hj] at hadjacent
    exact hsubset _ _ hadjacent
  have hsymm := adapter.config.layout.adjacent_symm (adapter.config.position (adapter.globalRank b)) (adapter.config.position (adapter.globalRank a))
  change adapter.config.layout.adjacent _ _ = true
  cases heffective : adapter.placement.policy with
  | none =>
    rw [heffective] at hallows
    cases hallows
  | all =>
    have hall : classify adjacent (adapter.placement.globalRanks.map adapter.config.position) = .all := by
      rw [← hraw]
      exact effectivePolicy_all (hpolicy.symm.trans heffective)
    have hpairwise := List.pairwise_iff_getElem.mp (GroupFabric.classify_all hall)
    have hordered : ∀ i j, i < j → j < adapter.world →
        adjacent (positionOf (adapter.placement.globalRanks.map adapter.config.position) i)
          (positionOf (adapter.placement.globalRanks.map adapter.config.position) j) = true := by
      intro i j hij hj
      have hpair := hpairwise i j (hlength ▸ hij.trans hj) (hlength ▸ hj) hij
      have hi' : i < adapter.placement.globalRanks.length := hij.trans hj
      have hj' : j < adapter.placement.globalRanks.length := hj
      simpa [positionOf, hi', hj'] using hpair
    rcases Nat.lt_or_gt_of_ne hab with hlt | hlt
    · exact hcabled a b ha hb (hordered a b hlt hb)
    · rw [← hsymm]
      exact hcabled b a hb ha (hordered b a hlt ha)
  | ring =>
    rw [heffective] at hallows hneighbours
    have hring : classify adjacent (adapter.placement.globalRanks.map adapter.config.position) = .ring := by
      rw [← hraw]
      exact effectivePolicy_ring (hpolicy.symm.trans heffective)
    have hmany := GroupFabric.classify_ring_length hring
    rw [hlength] at hmany
    have hnext : ∀ i, i < adapter.world → adapter.config.layout.adjacent (adapter.config.position (adapter.globalRank i))
        (adapter.config.position (adapter.globalRank ((i + 1) % adapter.world))) = true := by
      intro i hi
      have hpair : (i, (i + 1) % adapter.world) ∈ GroupTopology.consecutive
          (adapter.placement.globalRanks.map adapter.config.position).length := by
        rw [hlength]
        exact mem_map.mpr ⟨i, List.mem_range.mpr (by rw [if_pos hmany]; exact hi), rfl⟩
      exact hcabled i _ hi (Nat.mod_lt _ (by omega)) (GroupFabric.classify_ring hring hpair)
    rcases hneighbours rfl (of_decide_eq_true hallows) with rfl | rfl
    · exact hnext a ha
    · rw [← hsymm]
      exact hnext b hb

/-- A call ended because NCCL would connect Sparks that share no cable. -/
def across {α : Type*} : Except CallError α → Bool
  | .error (.acrossRelay _) => true
  | _ => false

/-- The guard asked for a collective. -/
theorem across_check (group : GuardedGroup) (pair : Option (ℕ × ℕ)) :
    across (group.check operation pair) = !group.allows operation pair := by
  unfold GuardedGroup.check
  cases h : group.allows operation pair with
  | true | false => rfl

/-- The guard's entry follows the placement's policy. -/
theorem guardEntry_allows (placement : GroupPlacement) (config : AdapterConfig) :
    (placement.guardEntry config).allows operation none = placement.policy.allows operation := by
  unfold GuardedGroup.allows GroupPlacement.guardEntry
  cases placement.policy <;> rfl

/-- The planner admits to NCCL what the placement's policy does. -/
theorem ncclAllows_eq : adapter.policy.ncclAllows operation = adapter.placement.policy.allows operation := by
  obtain ⟨-, raw, reason, -, -, hpolicy⟩ := adapter.grounded
  cases hmode : adapter.config.ncclMode with
  | auto => simp [Policy.ncclAllows, Policy.ncclPolicy, GroupAdapter.policy, hmode]
  | never =>
    rw [hmode, effectivePolicy_never] at hpolicy
    simp [Policy.ncclAllows, GroupAdapter.policy, hmode, hpolicy, NcclPolicy.allows]

/-- Settling a plan asks the guard for the plan's collective. -/
theorem across_settle (adapter : GroupAdapter) (plan : Plan) :
    across (adapter.settle plan) = (decide (plan.backend = .nccl) && !adapter.placement.policy.allows plan.collective) := by
  unfold GroupAdapter.settle
  cases hbackend : plan.backend with
  | sircl | refuse => rfl
  | nccl =>
    rw [← guardEntry_allows adapter.placement adapter.config, ← across_check]
    cases hcheck : (adapter.placement.guardEntry adapter.config).check plan.collective none with
    | error error => cases error <;> rfl
    | ok =>
      dsimp only [bind, Except.bind]
      split <;> rfl

/-- A planned call ends at the guard exactly where its plan goes to NCCL under a name the
policy does not let pass. -/
theorem across_carry {planned : Except PlanError Plan} (hnamed : Named name planned) :
    across (adapter.carry planned) = (leaves planned && !adapter.placement.policy.allows name) := by
  cases planned with
  | error => rfl
  | ok plan =>
    rw [leaves, ← hnamed plan rfl, ← across_settle]
    change across (adapter.settle plan >>= fun settled => .ok [settled]) = _
    cases adapter.settle plan with
    | error error => cases error <;> rfl
    | ok => rfl

/-- A call admitted under its plan's own name passes the guard. -/
theorem carry_passes {planned : Except PlanError Plan} (hnamed : Named name planned)
    (hleaves : leaves planned = true → adapter.policy.ncclAllows name = true) : across (adapter.carry planned) = false := by
  rw [across_carry hnamed]
  cases hplanned : leaves planned with
  | false => rfl
  | true =>
    rw [← ncclAllows_eq, hleaves hplanned]
    rfl

/-- Under a policy that lets an operation pass but not the name of its plan, which only `ring`
does, the call ends at the guard. -/
theorem across_renamed {admitted : Operation} {planned : Except PlanError Plan} {asks : Bool}
    (hnamed : Named name planned) (hleaves : leaves planned = (adapter.policy.ncclAllows admitted && asks))
    (hname : name ∉ ringOperations) (hadmitted : admitted ∈ ringOperations) :
    across (adapter.carry planned) = (decide (adapter.placement.policy = .ring) && asks) := by
  rw [across_carry hnamed, hleaves, ncclAllows_eq]
  cases adapter.placement.policy with
  | all | none => simp [NcclPolicy.allows]
  | ring => simp [NcclPolicy.allows, hname, hadmitted]

variable {collective : Operation}

/-- A transfer planned for NCCL keeps its name; NCCL may connect the pair. -/
theorem planPointToPoint_nccl {policy : Policy} {p2p : Option P2PLimits}
    (h : (planPointToPoint collective policy rank peer p2p capturing nbytes).backend = .nccl) :
    (planPointToPoint collective policy rank peer p2p capturing nbytes).collective = collective ∧ policy.ncclPolicy ≠ .none ∧
      (policy.ncclPolicy = .all ∨ policy.pairCabled rank peer = true) := by
  unfold planPointToPoint at h ⊢
  split at h
  · split_ifs at h <;> cases h
  split_ifs at h with hmode hnone hpair
  · cases h
  · cases h
  · rw [if_neg hmode, if_neg hnone, if_pos hpair]
    exact ⟨rfl, hnone, hpair⟩
  · cases h

/-- A transfer planned for NCCL passes the guard. -/
theorem settleP2P_passes (adapter : GroupAdapter) (hcollective : collective ∈ pointToPoint) (peer nbytes : ℕ)
    (capturing : Bool) : across (adapter.settleP2P (adapter.planP2P collective peer nbytes capturing) peer) = false := by
  unfold GroupAdapter.settleP2P
  cases hbackend : (adapter.planP2P collective peer nbytes capturing).backend with
  | sircl | refuse => rfl
  | nccl =>
    obtain ⟨hname, hnone, hpair⟩ := planPointToPoint_nccl hbackend
    have hallows : (adapter.placement.guardEntry adapter.config).allows (adapter.planP2P collective peer nbytes capturing).collective
        (some (adapter.globalRank adapter.rank, adapter.globalRank peer)) = true := by
      rw [show (adapter.planP2P collective peer nbytes capturing).collective = collective from hname]
      unfold GuardedGroup.allows
      rcases hpair with hall | hcabled
      · rw [if_pos (show (adapter.placement.guardEntry adapter.config).policy = .all from hall)]
      split
      · rfl
      rename_i hall
      have hring : adapter.placement.policy = .ring := by
        cases heffective : adapter.placement.policy with
        | all => exact absurd heffective hall
        | ring => rfl
        | none => exact absurd heffective hnone
      have hcabled : adapter.config.cabled (adapter.globalRank adapter.rank) (adapter.globalRank peer) = true := hcabled
      simpa [hcollective, GroupPlacement.guardEntry, hring, Option.filter_some] using hcabled
    unfold GuardedGroup.check
    rw [if_pos hallows]
    rfl

/-- A list of items ends where its first failing item does. -/
theorem across_mapM_cons {α β : Type*} {f : α → Except CallError β} (item : α) (items : List α) :
    across ((item :: items).mapM f) = match f item with
      | .ok _ => across (items.mapM f)
      | .error error => across (.error error : Except CallError (List β)) := by
  rw [List.mapM_cons]
  cases f item with
  | error => rfl
  | ok =>
    cases items.mapM f with
    | error error => cases error <;> rfl
    | ok => rfl

/-- Items that all pass the guard pass it as a list. -/
theorem across_mapM {α β : Type*} {f : α → Except CallError β} {items : List α} (h : ∀ item ∈ items, across (f item) = false) :
    across (items.mapM f) = false := by
  induction items with
  | nil => rfl
  | cons item items ih =>
    have hitem := h item List.mem_cons_self
    rw [across_mapM_cons]
    cases hf : f item with
    | error error =>
      rw [hf] at hitem
      cases error <;> first | rfl | cases hitem
    | ok y => exact ih fun other hother => h other (List.mem_cons_of_mem item hother)

/-- A batch of transfers passes the guard. -/
theorem batch_passes (ops : List (Bool × TensorMeta × ℕ)) : across (adapter.batch ops capturing) = false := by
  unfold GroupAdapter.batch
  dsimp only
  split
  · rfl
  split
  · rfl
  split_ifs
  · rfl
  · refine across_mapM fun entry hentry => ?_
    obtain ⟨⟨sending, tensor, peer⟩, -, rfl⟩ := mem_map.mp hentry
    exact settleP2P_passes adapter (by cases sending <;> simp [pointToPoint]) peer tensor.nbytes capturing
  · rfl

theorem transfer_passes (hcollective : collective ∈ pointToPoint) (tensor : TensorMeta)
 : across (adapter.transfer collective tensor peer capturing) = false := by
  unfold GroupAdapter.transfer
  split
  · rfl
  have hpasses := settleP2P_passes adapter hcollective peer tensor.nbytes capturing
  cases hsettled : adapter.settleP2P (adapter.planP2P collective peer tensor.nbytes capturing) peer with
  | error error =>
    rw [hsettled] at hpasses
    cases error <;> first | rfl | cases hpasses
  | ok => rfl

/-- A list of gathers is planned apart: its sizes are alike, it holds a scalar, which is
refused, and before the first scalar a tensor that asks for NCCL; none is stuck. -/
def listRenamed (inps : List TensorMeta) (sizes : Option (List ℕ)) (limits : Option SessionLimits) (policy : Policy) (capturing : Bool) : Bool :=
  even sizes && (inps.all fun inp => !gatherStuck inp limits policy capturing) && (inps.any fun inp => decide (inp.shape = [])) &&
    (inps.find? fun inp => decide (inp.shape = []) || gatherAsks inp limits policy capturing).any fun inp => decide (inp.shape ≠ [])

section Lists

variable {sizes : Option (List ℕ)} (hring : adapter.placement.policy = .ring) (heven : even sizes = true)
include hring

theorem gather_admitted : adapter.policy.ncclAllows .allGather = true := by
  rw [ncclAllows_eq, hring]
  rfl

/-- Under `ring` a gather of given sizes settles only on the session. -/
theorem settle_gatherv {plan : Plan} (hname : plan.collective = .allGatherv) : if plan.backend = .sircl then adapter.settle plan = .ok plan
    else ∃ error, adapter.settle plan = .error error ∧ across (.error error : Except CallError Plan) = decide (plan.backend = .nccl) := by
  have hacross := across_settle adapter plan
  rw [hname, hring, show NcclPolicy.ring.allows .allGatherv = false from rfl] at hacross
  by_cases hsircl : plan.backend = .sircl
  · simp [GroupAdapter.settle, hsircl]
  rw [if_neg hsircl]
  cases hsettled : adapter.settle plan with
  | error error =>
    rw [hsettled] at hacross
    exact ⟨error, rfl, by simpa using hacross⟩
  | ok =>
    exfalso
    cases hbackend : plan.backend with
    | sircl => exact hsircl hbackend
    | refuse => simp [GroupAdapter.settle, hbackend] at hsettled
    | nccl =>
      rw [hsettled, hbackend] at hacross
      cases hacross

include heven

/-- The plans of a list of gathers of like sizes, none of which is stuck. -/
theorem plans_of_unstuck (inps : List TensorMeta)
    (hstuck : ∀ inp ∈ inps, gatherStuck inp adapter.limits adapter.policy capturing = false) :
    ∃ plans, (inps.mapM fun inp => planAllGatherv inp sizes adapter.limits adapter.policy capturing) = .ok plans ∧
      (plans.any fun plan => decide (plan.backend = .nccl)) = (inps.any fun inp => gatherAsks inp adapter.limits adapter.policy capturing) ∧
      (plans.all fun plan => decide (plan.backend ≠ .refuse)) = (inps.all fun inp => decide (inp.shape ≠ [])) ∧
      across (plans.mapM adapter.settle) =
        (inps.find? fun inp => decide (inp.shape = []) || gatherAsks inp adapter.limits adapter.policy capturing).any
          fun inp => decide (inp.shape ≠ []) := by
  have hallows := gather_admitted hring
  induction inps with
  | nil => exact ⟨[], rfl, rfl, rfl, rfl⟩
  | cons inp inps ih =>
    obtain ⟨plans, hplans, hany, hall, hacross⟩ := ih fun other hother => hstuck other (List.mem_cons_of_mem inp hother)
    have hcases := planAllGatherv_cases hallows inp sizes adapter.limits capturing
    have hleaves := leaves_planAllGatherv inp sizes adapter.limits adapter.policy capturing
    have hinp := hstuck inp List.mem_cons_self
    rw [gathervStuck, shardOf, if_pos heven, Option.all_some, if_neg (by simp [hinp])] at hcases
    rw [shardOf, if_pos heven, Option.any_some, hallows, Bool.true_and] at hleaves
    obtain ⟨plan, hplan, hrefuse⟩ := hcases
    rw [hplan, leaves] at hleaves
    have hrefuse : plan.backend = .refuse ↔ inp.shape = [] := hrefuse.trans (and_iff_right heven)
    have hname := named_planAllGatherv inp sizes adapter.limits adapter.policy capturing plan hplan
    refine ⟨plan :: plans, ?_, ?_, ?_, ?_⟩
    · rw [List.mapM_cons, hplan, hplans]
      rfl
    · rw [List.any_cons, List.any_cons, hany, hleaves]
    · rw [List.all_cons, List.all_cons, hall]
      simp [hrefuse]
    have hsettle := settle_gatherv hring hname
    rw [across_mapM_cons, List.find?_cons]
    cases hbackend : plan.backend with
    | sircl =>
      rw [if_pos hbackend] at hsettle
      have hasks : gatherAsks inp adapter.limits adapter.policy capturing = false := by rw [← hleaves, hbackend]; rfl
      have hshape : inp.shape ≠ [] := fun hshape => by cases hbackend.symm.trans (hrefuse.mpr hshape)
      rw [hsettle, hasks]
      simpa [hshape] using hacross
    | nccl | refuse =>
      rw [if_neg (by simp [hbackend])] at hsettle
      obtain ⟨error, herror, hends⟩ := hsettle
      cases error <;> simp_all [across]

end Lists

/-- A list of gathers ends at the guard exactly where it is planned apart under `ring`. -/
theorem across_gathervList (inps : List TensorMeta) : across (adapter.gathervList inps sizes capturing) =
      (decide (adapter.placement.policy = .ring) && listRenamed inps sizes adapter.limits adapter.policy capturing) := by
  unfold GroupAdapter.gathervList
  -- Plans of which none goes to NCCL all pass.
  have hkept : ∀ plans : List Plan, (∀ plan ∈ plans, plan.backend ≠ .nccl) → across (plans.mapM adapter.settle) = false := by
    intro plans hplans
    refine across_mapM fun plan hplan => ?_
    rw [across_settle, decide_eq_false (hplans plan hplan)]
    rfl
  -- The guard is asked for the gather itself where the whole list goes to NCCL.
  have hwhole : ∀ plans : List Plan, adapter.placement.policy.allows .allGather = true →
      across ((adapter.placement.guardEntry adapter.config).check .allGather none >>= fun _ => .ok plans) = false := by
    intro plans hallows
    unfold GuardedGroup.check
    rw [if_pos (by rw [guardEntry_allows]; exact hallows)]
    rfl
  cases hplans : inps.mapM fun inp => planAllGatherv inp sizes adapter.limits adapter.policy capturing with
  | error =>
    rw [show across _ = false from rfl]
    by_cases hring : adapter.placement.policy = .ring
    · cases heven : even sizes with
      | false => simp [listRenamed, heven]
      | true =>
        by_cases hstuck : ∀ inp ∈ inps, gatherStuck inp adapter.limits adapter.policy capturing = false
        · obtain ⟨plans, hok, -⟩ := plans_of_unstuck hring heven inps hstuck
          cases hplans.symm.trans hok
        have hall : (inps.all fun inp => !gatherStuck inp adapter.limits adapter.policy capturing) = false := by
          rw [Bool.eq_false_iff]
          intro hall
          exact hstuck fun inp hinp => by simpa using all_eq_true.mp hall inp hinp
        simp [listRenamed, hall]
    · rw [decide_eq_false hring, Bool.false_and]
  | ok plans =>
    obtain ⟨hitems, hsources⟩ := Routes.mem_of_mapM hplans
    change across (if _ then _ else _) = _
    cases hpolicy : adapter.placement.policy with
    | none =>
      have hno : ∀ plan ∈ plans, plan.backend ≠ .nccl := by
        intro plan hplan hnccl
        obtain ⟨inp, -, hinp⟩ := hsources plan hplan
        have hleaves := leaves_planAllGatherv inp sizes adapter.limits adapter.policy capturing
        rw [hinp, leaves, hnccl, ncclAllows_eq, hpolicy] at hleaves
        cases hleaves
      have hany : (plans.any fun plan => decide (plan.backend = .nccl)) = false := by simpa using hno
      rw [if_neg (by simp [hany]), hkept plans hno]
      rfl
    | all =>
      split_ifs
      · exact hwhole plans (by rw [hpolicy]; rfl)
      refine across_mapM fun plan _ => ?_
      rw [across_settle, hpolicy]
      simp [NcclPolicy.allows]
    | ring =>
      have hallows := gather_admitted hpolicy
      rw [decide_eq_true rfl, Bool.true_and]
      cases heven : even sizes with
      | false =>
        have hrefused : ∀ plan ∈ plans, plan.backend ≠ .refuse := by
          intro plan hplan hrefuse
          obtain ⟨inp, -, hinp⟩ := hsources plan hplan
          have hcases := planAllGatherv_cases hallows inp sizes adapter.limits capturing
          split_ifs at hcases
          · obtain ⟨error, herror⟩ := hcases
            cases hinp.symm.trans herror
          obtain ⟨other, hother, hiff⟩ := hcases
          obtain rfl := ok.inj (hinp.symm.trans hother)
          exact absurd (hiff.mp hrefuse).1 (by simp [heven])
        rw [show listRenamed inps sizes adapter.limits adapter.policy capturing = false by simp [listRenamed, heven]]
        split_ifs with hwholes
        · exact hwhole plans (by rw [hpolicy]; rfl)
        · refine hkept plans fun plan hplan hnccl => hwholes ⟨any_eq_true.mpr ⟨plan, hplan, by simp [hnccl]⟩, ?_⟩
          exact all_eq_true.mpr fun other hother => by simpa using hrefused other hother
      | true =>
        have hunstuck : ∀ inp ∈ inps, gatherStuck inp adapter.limits adapter.policy capturing = false := by
          intro inp hinp
          obtain ⟨plan, hplan⟩ := hitems inp hinp
          have hcases := planAllGatherv_cases hallows inp sizes adapter.limits capturing
          rw [gathervStuck, shardOf, if_pos heven, Option.all_some] at hcases
          split_ifs at hcases with hstuck
          · obtain ⟨error, herror⟩ := hcases
            cases hplan.symm.trans herror
          · exact Bool.eq_false_iff.mpr hstuck
        obtain ⟨same, hsame, hany, hall, hacross⟩ := plans_of_unstuck hpolicy heven inps hunstuck
        obtain rfl := ok.inj (hplans.symm.trans hsame)
        have hunstuck : (inps.all fun inp => !gatherStuck inp adapter.limits adapter.policy capturing) = true :=
          all_eq_true.mpr fun inp hinp => by simpa using hunstuck inp hinp
        unfold listRenamed
        rw [heven, hunstuck, Bool.true_and, Bool.true_and, ← hacross]
        cases hscalar : inps.any fun inp => decide (inp.shape = []) with
        | true =>
          have hrefuses : ¬(plans.all fun plan => decide (plan.backend ≠ .refuse)) = true := by
            rw [hall]
            obtain ⟨inp, hinp, hshape⟩ := any_eq_true.mp hscalar
            intro hshapes
            have hno := all_eq_true.mp hshapes inp hinp
            exact of_decide_eq_true hno (of_decide_eq_true hshape)
          rw [if_neg fun h => hrefuses h.2, Bool.true_and]
        | false =>
          have hshapes : (plans.all fun plan => decide (plan.backend ≠ .refuse)) = true := by
            rw [hall, all_eq_true]
            intro inp hinp
            have hno := List.any_eq_false.mp hscalar inp hinp
            simpa using hno
          split_ifs with hwholes
          · exact hwhole plans (by rw [hpolicy]; rfl)
          · refine hkept plans fun plan hplan hnccl => hwholes ⟨any_eq_true.mpr ⟨plan, hplan, by simp [hnccl]⟩, hshapes⟩

/-- The pair of a transfer. -/
def Between (rank peer n a b : ℕ) : Prop := a = rank ∧ b = peer ∧ rank < n ∧ peer < n ∧ rank ≠ peer

/-- The plans of a call, each with the pairs of ranks NCCL would connect for it. -/
def GroupAdapter.planned (adapter : GroupAdapter) (capturing : Bool) :
    GroupCall → List (Except PlanError Plan × (ℕ → ℕ → Prop))
  | .allReduce inp => [(planAllReduce inp adapter.limits adapter.policy capturing, Connects adapter.placement.policy .allReduce adapter.world)]
  | .allGather inp dim =>
    [(planAllGather inp dim adapter.limits adapter.policy capturing, Connects adapter.placement.policy .allGather adapter.world)]
  | .allGatherv inp _ sizes =>
    [(planAllGatherv inp sizes adapter.limits adapter.policy capturing, Connects adapter.placement.policy .allGather adapter.world)]
  | .allGathervList inps _ sizes => inps.map fun inp =>
    (planAllGatherv inp sizes adapter.limits adapter.policy capturing, Connects adapter.placement.policy .allGather adapter.world)
  | .reduceScatter inp dim =>
    [(planReduceScatter inp dim adapter.limits adapter.policy capturing, Connects adapter.placement.policy .reduceScatter adapter.world)]
  | .reduceScatterv inp _ sizes =>
    [(planReduceScatterv inp sizes adapter.limits adapter.policy capturing, Connects adapter.placement.policy .reduceScatter adapter.world)]
  | .gather inp =>
    [(planBytesGather .gather inp adapter.limits adapter.policy capturing .gather, Connects adapter.placement.policy .gather adapter.world)]
  | .broadcast inp =>
    [(planBytesGather .broadcast inp adapter.limits adapter.policy capturing .broadcast,
      Connects adapter.placement.policy .broadcast adapter.world)]
  | .allToAllSingle inp => [(planAllToAll inp adapter.limits adapter.policy capturing, Connects adapter.placement.policy .allToAll adapter.world)]
  | .send tensor peer => [(.ok (adapter.planP2P .send peer tensor.nbytes capturing), Between adapter.rank peer adapter.world)]
  | .recv tensor peer => [(.ok (adapter.planP2P .recv peer tensor.nbytes capturing), Between adapter.rank peer adapter.world)]
  | .batchIsendIrecv ops => ops.map fun op =>
    (.ok (adapter.planP2P (if op.1 then .send else .recv) op.2.2 op.2.1.nbytes capturing), Between adapter.rank op.2.2 adapter.world)

/-- The planner and the guard agree on a call. -/
structure Agreement (adapter : GroupAdapter) (capturing : Bool) (call : GroupCall) : Prop where
  /-- What is planned for NCCL connects only ranks that share a cable. -/
  cabled : ∀ entry ∈ adapter.planned capturing call, leaves entry.1 = true → ∀ a b, entry.2 a b →
    adapter.config.cabled (adapter.globalRank a) (adapter.globalRank b) = true
  /-- The call does not end at the guard. -/
  passes : across (adapter.dispatch capturing call) = false

/-- Calls whose plan for NCCL is called otherwise than the operation it was admitted under. -/
def renamed (adapter : GroupAdapter) (capturing : Bool) : GroupCall → Bool
  | .allGatherv inp dim sizes =>
    decide (dim = 0) && (shardOf inp sizes).any fun shard => gatherAsks shard adapter.limits adapter.policy capturing
  | .allGathervList inps dim sizes => decide (dim = 0) && listRenamed inps sizes adapter.limits adapter.policy capturing
  | .reduceScatterv inp _ sizes => scattervAsks inp sizes adapter.limits adapter.policy capturing
  | _ => false

/-- A collective admitted to NCCL connects ranks that share a cable. -/
theorem cabled_collective (hadmits : leaves result = true → adapter.policy.ncclAllows operation = true)
    (hleaves : leaves result = true) (h : Connects adapter.placement.policy operation adapter.world a b) :
    adapter.config.cabled (adapter.globalRank a) (adapter.globalRank b) = true :=
  cabled_of_connects (by rw [← ncclAllows_eq]; exact hadmits hleaves) h

/-- A transfer planned for NCCL is between ranks that share a cable. -/
theorem cabled_transfer {collective : Operation}
    (hleaves : leaves (.ok (adapter.planP2P collective peer nbytes capturing)) = true) (h : Between adapter.rank peer adapter.world a b) :
    adapter.config.cabled (adapter.globalRank a) (adapter.globalRank b) = true := by
  obtain ⟨rfl, rfl, hrank, hpeer, hne⟩ := h
  obtain ⟨-, -, hpair⟩ := planPointToPoint_nccl (of_decide_eq_true hleaves)
  rcases hpair with hall | hcabled
  · have hall : adapter.placement.policy = .all := hall
    have hconnects : Connects adapter.placement.policy .allToAll adapter.world adapter.rank _ :=
      ⟨hrank, hpeer, hne, fun hring => nomatch hall.symm.trans hring⟩
    exact cabled_of_connects (by rw [hall]; rfl) hconnects
  · exact hcabled

/-- The first of two tests that both hold. -/
theorem admits_of_and {x y : Bool} (h : leaves result = (x && y)) (hleaves : leaves result = true) : x = true := by
  rw [h, Bool.and_eq_true] at hleaves
  exact hleaves.1

/-- What is planned for NCCL connects only ranks that share a cable. -/
theorem planned_cabled : ∀ entry ∈ adapter.planned capturing call, leaves entry.1 = true → ∀ a b, entry.2 a b →
      adapter.config.cabled (adapter.globalRank a) (adapter.globalRank b) = true := by
  intro entry hentry hleaves a b h
  cases call with
  | allReduce =>
    obtain rfl := mem_singleton.mp hentry
    exact cabled_collective leaves_planAllReduce hleaves h
  | allGather =>
    obtain rfl := mem_singleton.mp hentry
    exact cabled_collective (admits_of_and (leaves_planAllGather ..)) hleaves h
  | allGatherv =>
    obtain rfl := mem_singleton.mp hentry
    exact cabled_collective (admits_of_and (leaves_planAllGatherv ..)) hleaves h
  | allGathervList =>
    obtain ⟨inp, -, rfl⟩ := mem_map.mp hentry
    exact cabled_collective (admits_of_and (leaves_planAllGatherv ..)) hleaves h
  | reduceScatter =>
    obtain rfl := mem_singleton.mp hentry
    exact cabled_collective (admits_of_and (leaves_planReduceScatter ..)) hleaves h
  | reduceScatterv =>
    obtain rfl := mem_singleton.mp hentry
    exact cabled_collective (admits_of_and (leaves_planReduceScatterv ..)) hleaves h
  | gather | broadcast =>
    obtain rfl := mem_singleton.mp hentry
    exact cabled_collective leaves_planBytesGather hleaves h
  | allToAllSingle =>
    obtain rfl := mem_singleton.mp hentry
    exact cabled_collective leaves_planAllToAll hleaves h
  | send | recv =>
    obtain rfl := mem_singleton.mp hentry
    exact cabled_transfer hleaves h
  | batchIsendIrecv =>
    obtain ⟨op, -, rfl⟩ := mem_map.mp hentry
    exact cabled_transfer hleaves h

/-- A call ends at the guard exactly where its plan was renamed under `ring`. -/
theorem across_dispatch :
    across (adapter.dispatch capturing call) = (decide (adapter.placement.policy = .ring) && renamed adapter capturing call) := by
  cases call with
  | allReduce => exact (carry_passes (named_planAllReduce _ _ _ _) leaves_planAllReduce).trans (Bool.and_false _).symm
  | allGather =>
    exact (carry_passes (named_planAllGather _ _ _ _ _) (admits_of_and (leaves_planAllGather ..))).trans (Bool.and_false _).symm
  | allGatherv inp dim sizes =>
    rw [GroupAdapter.dispatch, renamed]
    by_cases hdim : dim = 0
    · rw [if_neg (not_not.mpr hdim), decide_eq_true hdim, Bool.true_and]
      exact across_renamed (named_planAllGatherv _ _ _ _ _) (leaves_planAllGatherv ..) (by decide) (by decide)
    · simp [hdim, across]
  | allGathervList inps dim sizes =>
    rw [GroupAdapter.dispatch, renamed]
    by_cases hdim : dim = 0
    · rw [if_neg (not_not.mpr hdim), decide_eq_true hdim, Bool.true_and, across_gathervList]
    · simp [hdim, across]
  | reduceScatter =>
    exact (carry_passes (named_planReduceScatter _ _ _ _ _) (admits_of_and (leaves_planReduceScatter ..))).trans (Bool.and_false _).symm
  | reduceScatterv =>
    exact across_renamed (named_planReduceScatterv _ _ _ _ _) (leaves_planReduceScatterv ..) (by decide) (by decide)
  | gather | broadcast =>
    exact (carry_passes (named_planBytesGather _ _ _ _ _ _) leaves_planBytesGather).trans (Bool.and_false _).symm
  | allToAllSingle => exact (carry_passes (named_planAllToAll _ _ _ _) leaves_planAllToAll).trans (Bool.and_false _).symm
  | send tensor peer | recv tensor peer => exact (transfer_passes (by decide) tensor).trans (Bool.and_false _).symm
  | batchIsendIrecv ops => exact (batch_passes ops).trans (Bool.and_false _).symm

/-- The same group seen from another rank, with that rank's channels. -/
def GroupAdapter.onRank (adapter : GroupAdapter) (rank : Fin adapter.world) (channels : P2PLimits) : GroupAdapter :=
  { adapter with rank := rank, channels := channels, rank_lt := rank.isLt }

/-- On every rank alike the planner and the guard agree on a call exactly where it is not,
under `ring`, an uneven collective that is planned for NCCL under a name of its own. -/
theorem agreement_iff (adapter : GroupAdapter) (rank : Fin adapter.world) (channels : P2PLimits) (capturing : Bool) (call : GroupCall) :
    Agreement (adapter.onRank rank channels) capturing call ↔
      ¬(adapter.placement.policy = .ring ∧ renamed adapter capturing call = true) := by
  have hrenamed : renamed (adapter.onRank rank channels) capturing call = renamed adapter capturing call := by
    cases call <;> rfl
  rw [← hrenamed, show adapter.placement.policy = (adapter.onRank rank channels).placement.policy from rfl]
  constructor
  · rintro ⟨-, hpasses⟩ ⟨hring, hcall⟩
    rw [across_dispatch, decide_eq_true hring, hcall] at hpasses
    cases hpasses
  intro h
  refine ⟨planned_cabled, ?_⟩
  rw [across_dispatch, Bool.and_eq_false_iff, decide_eq_false_iff_not, ← Bool.not_eq_true]
  exact not_and_or.mp h

/-- Four Sparks in a ring, with NCCL's ring algorithm allowed. -/
def ringConfig : AdapterConfig where
  layout := .ring 4 (by decide)
  positions := [0, 1, 2, 3]
  groups := []
  ncclMode := .auto
  large := .auto
  maxRelays := 3
  routeScope := .group

/-- A group of all four without a session. -/
def ringPlacement : GroupPlacement where
  name := "ep"
  globalRanks := [0, 1, 2, 3]
  topology := none
  policy := .ring
  reason := "consecutive ranks share cables around the whole group; NCCL ring algorithm only (NCCL_ALGO=Ring and NCCL_SKIP_TREE_CONNECT=1)"
  session := false
  rawPolicy := .ring

set_option maxRecDepth 4000 in
/-- Its adapter on rank 0. -/
def ringAdapter : GroupAdapter where
  config := ringConfig
  parentRanks := none
  algorithm := ⟨true, "NCCL_ALGO=Ring and NCCL_SKIP_TREE_CONNECT=1"⟩
  placement := ringPlacement
  rank := 0
  limits := none
  ncclAbove := []
  channels := ⟨[], [], [], ""⟩
  ncclAttached := true
  rank_lt := by decide
  placed := by rfl

/-- An all-gather of shards of like sizes on a ring of four ends at the guard, though it was
planned for NCCL. -/
theorem ring_gatherv_refused : ¬∀ (adapter : GroupAdapter) (rank : Fin adapter.world) (channels : P2PLimits) (capturing : Bool)
    (call : GroupCall), Agreement (adapter.onRank rank channels) capturing call := by
  intro h
  have hpasses := (h ringAdapter ⟨0, by decide⟩ ⟨[], [], [], ""⟩ false (.allGatherv ⟨[8], "bfloat16", 2, true⟩ 0 none)).passes
  exact absurd hpasses (by decide +kernel)

end SparkRing.GroupDispatch
