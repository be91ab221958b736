import SparkRing.PlannerCapture

/-!
# Calls that ask for NCCL

Which calls are planned for NCCL, from the tensor, the session's limits and the group's
policy alone, and the name every plan carries.
-/

namespace SparkRing.CollectivePlanner

open Engine (pack)
open GroupFabric (Operation)
open Bool (eq_false_iff)

variable {tensor : TensorMeta} {dim : ℤ} {sizes : Option (List ℕ)} {limits : Option SessionLimits} {session : SessionLimits}
  {policy : Policy}
  {capturing : Bool} {name : Operation} {result second first : Except PlanError Plan} {plan : Plan}

/-- Nobody of the session carries a planned call. -/
def declined : Except PlanError Plan → Bool
  | .ok plan => decide (plan.backend ≠ .sircl)
  | .error _ => false

/-- A gather has no session op or prefers NCCL. -/
def gatherAsks (tensor : TensorMeta) (limits : Option SessionLimits) (policy : Policy) (capturing : Bool) : Bool :=
  decide (tensor.shape ≠ [] ∧ tensor.nbytes ≠ 0) &&
    match limits with
    | none => true
    | some session =>
      decide (session.gather = 0) || policy.prefersNccl .allGather tensor.nbytes session.gatherOpBytes capturing

/-- The session's reduce-scatter takes a tensor. -/
def scatterable (tensor : TensorMeta) (dim : ℤ) (session : SessionLimits) : Bool :=
  decide (tensor.dtype ∈ session.scatterDtypes ∧ tensor.nbytes / tensor.shape.getD (tensor.axis dim) 0 % pack = 0) &&
    ((stated session.scatterPiece).isSome || decide (session.scatterOpBytes ≠ 0))

/-- The session can reduce a tensor: it sums the type in ops that hold a whole element, or
gathers what ranks sum. -/
def reducible (tensor : TensorMeta) (session : SessionLimits) : Bool :=
  if tensor.dtype ∈ session.reduceDtypes then
    decide (ceil tensor.nbytes pack * pack ≤ session.dispatch) || (stated session.largePiece).isSome ||
      decide (pack ≤ session.dispatch / max pack tensor.itemsize * max pack tensor.itemsize / pack * pack)
  else decide (tensor.dtype ∈ exactLocalSumDtypes ∧ 0 < session.gather)

/-- A reduce-scatter has no session op or prefers NCCL. -/
def scatterAsks (tensor : TensorMeta) (dim : ℤ) (limits : Option SessionLimits) (policy : Policy) (capturing : Bool) : Bool :=
  decide (tensor.shape ≠ [] ∧ tensor.nbytes ≠ 0) &&
    match limits with
    | none => true
    | some session =>
      decide (tensor.shape.getD (tensor.axis dim) 0 % session.world = 0) &&
        (policy.prefersNccl .reduceScatter tensor.nbytes session.scatterOpBytes capturing ||
          !scatterable tensor dim session && !reducible tensor session)

/-- What prefers NCCL may run on it. -/
theorem Policy.ncclAllows_of_prefers {nbytes limit : ℕ} (h : policy.prefersNccl name nbytes limit capturing = true) :
    policy.ncclAllows name = true := by
  unfold Policy.prefersNccl at h
  split_ifs at h with hno
  by_contra hallows
  exact hno (.inr (.inr (by simpa using hallows)))

/-- A call without a session op goes to NCCL where that may run it. -/
theorem leaves_withoutSession (policy : Policy) (why : String) :
    leaves (.ok (withoutSession policy name why)) = policy.ncclAllows name := by
  unfold withoutSession
  cases h : policy.ncclAllows name with
  | true | false => rfl

/-- Of two plans neither is for NCCL. -/
theorem leaves_ite {c : Prop} [Decidable c] (hfirst : c → leaves first = false)
    (hsecond : leaves second = false) : leaves (if c then first else second) = false := by
  by_cases h : c
  · rw [if_pos h]
    exact hfirst h
  · rwa [if_neg h]

/-- A composed plan is not for NCCL unless its composition is. -/
theorem leaves_bind {f : Plan → Except PlanError Plan} (hf : ∀ plan, leaves (f plan) = false) : leaves (result >>= f) = false := by
  cases result with
  | error => rfl
  | ok inner => exact hf inner

/-- Where NCCL may not run a call, it is not preferred for it. -/
theorem Policy.prefersNccl_of_not (h : ¬policy.ncclAllows name = true) {nbytes limit : ℕ} :
    ¬policy.prefersNccl name nbytes limit capturing = true := fun hprefers => h (Policy.ncclAllows_of_prefers hprefers)

theorem splitGather_stays (tensor : TensorMeta) (outer inner : ℕ) (view : Method → Method) :
    leaves (splitGather tensor session outer inner view) = false ∧ declined (splitGather tensor session outer inner view) = false := by
  unfold splitGather
  dsimp only
  split
  · split
    · exact ⟨rfl, rfl⟩
    · exact ⟨rfl, rfl⟩
  split_ifs
  · exact ⟨rfl, rfl⟩
  · exact ⟨rfl, rfl⟩

variable (tensor dim sizes limits policy capturing) in
theorem leaves_planAllGather : leaves (planAllGather tensor dim limits policy capturing) =
      (policy.ncclAllows .allGather && gatherAsks tensor limits policy capturing) := by
  unfold planAllGather gatherAsks
  by_cases hshape : tensor.shape = []
  · simp [hshape, leaves, refuse]
  by_cases hbytes : tensor.nbytes = 0
  · simp [hshape, hbytes, leaves, empty]
  cases limits with
  | none => simp [hshape, hbytes, leaves_withoutSession]
  | some session =>
    by_cases hgather : session.gather = 0
    · simp [hshape, hbytes, hgather, leaves_withoutSession]
    cases hprefers : policy.prefersNccl .allGather tensor.nbytes session.gatherOpBytes capturing with
    | true =>
      have hallows := Policy.ncclAllows_of_prefers hprefers
      simp [hshape, hbytes, hgather, hprefers, hallows, leaves, nccl]
    | false =>
      by_cases hfits : tensor.nbytes ≤ session.gatherOpBytes
      · simp [hshape, hbytes, hgather, hprefers, hfits, leaves]
      · simp [hshape, hbytes, hgather, hprefers, hfits, splitGather_stays]

/-- A call without a session op is declined. -/
theorem declined_withoutSession (why : String) : declined (.ok (withoutSession policy name why)) = true := by
  unfold withoutSession
  split <;> rfl

/-- A composed gather of bytes is declined where the session does not gather. -/
theorem declined_flat (h : tensor.nbytes ≠ 0) (policy : Policy) (capturing : Bool) :
    declined (planAllGather ⟨[tensor.numel], tensor.dtype, tensor.itemsize, true⟩ 0 (some session) policy.internal capturing) =
      decide (session.gather = 0) := by
  have hbytes : TensorMeta.nbytes ⟨[tensor.numel], tensor.dtype, tensor.itemsize, true⟩ = tensor.nbytes := by
    simp [TensorMeta.nbytes, TensorMeta.numel]
  unfold planAllGather
  simp only [hbytes, List.cons_ne_nil, if_false, if_neg h, Policy.prefersNccl_internal, Bool.false_eq_true]
  by_cases hgather : session.gather = 0
  · rw [if_pos hgather, declined_withoutSession, decide_eq_true hgather]
  rw [if_neg hgather, decide_eq_false hgather]
  split
  · rfl
  · rw [(splitGather_stays ..).2]

/-- A composed all-reduce is declined where the session cannot reduce the tensor. -/
theorem declined_planAllReduce (h : tensor.nbytes ≠ 0) :
    declined (planAllReduce tensor (some session) policy.internal capturing) = !reducible tensor session := by
  unfold planAllReduce reducible
  by_cases hdtype : tensor.dtype ∈ session.reduceDtypes
  · by_cases hfits : ceil tensor.nbytes pack * pack ≤ session.dispatch
    · simp [h, hdtype, hfits, declined]
    simp only [if_neg h, hdtype, not_true_eq_false, if_false, if_true, hfits, false_and, Policy.prefersNccl_internal,
      Bool.false_eq_true, Policy.internal_large, reduceCtorEq, decide_false, Bool.false_or]
    unfold splitReduce
    cases stated session.largePiece with
    | some => rfl
    | none =>
      dsimp only
      split_ifs with hpiece
      · simp [declined, refuse, hpiece]
      · simpa [declined] using hpiece
  · simp only [if_neg h, hdtype, not_false_eq_true, if_true, if_false]
    unfold planUnsummed
    simp only [Policy.internal_large, ne_eq, not_true_eq_false, and_false, if_false, Policy.internal_internal]
    by_cases hexact : tensor.dtype ∈ exactLocalSumDtypes
    · rw [if_neg (not_not.mpr hexact)]
      have hflat : declined _ = decide (session.gather = 0) := declined_flat h policy capturing
      cases hgather : planAllGather ⟨[tensor.numel], tensor.dtype, tensor.itemsize, true⟩ 0 (some session) policy.internal capturing with
      | error =>
        rw [hgather] at hflat
        have hpos : session.gather ≠ 0 := by simpa [declined] using hflat
        simp [bind, Except.bind, declined, hexact, Nat.pos_of_ne_zero hpos]
      | ok gather =>
        rw [hgather] at hflat
        by_cases hsircl : gather.backend = .sircl
        · have hpos : session.gather ≠ 0 := by simpa [declined, hsircl] using hflat
          simp [bind, Except.bind, declined, hexact, hsircl, Nat.pos_of_ne_zero hpos]
        · have hzero : session.gather = 0 := by simpa [declined, hsircl] using hflat
          simp [bind, Except.bind, declined, hsircl, hzero, refuse]
    · simp [hexact, declined, refuse]

/-- A reduce-scatter that does not prefer NCCL is planned for it where the session takes
the tensor neither as it is nor reduced. -/
theorem leaves_sessionScatter (h : tensor.nbytes ≠ 0) : leaves (sessionScatter tensor dim session policy capturing) =
      (policy.ncclAllows .reduceScatter && (!scatterable tensor dim session && !reducible tensor session)) := by
  -- Neither of the session's own ways is taken.
  have hcomposed : leaves (do
      let reduce ← planAllReduce tensor (some session) policy.internal capturing
      if reduce.backend ≠ .sircl then
        if policy.ncclAllows .reduceScatter = true then .ok (nccl .reduceScatter ("SIRCL cannot reduce this tensor: " ++ reduce.reason))
        else .ok (refuse .reduceScatter reduce.reason)
      else
        .ok ⟨.reduceScatter, .sircl, .allreduceSlice, reduce.ops, reduce.piece, "all-reduce then this rank's chunk of it",
          reduce.contiguousCopy⟩) = (policy.ncclAllows .reduceScatter && !reducible tensor session) := by
    rw [← declined_planAllReduce h]
    cases planAllReduce tensor (some session) policy.internal capturing with
    | error => simp [bind, Except.bind, leaves, declined]
    | ok reduce =>
      by_cases hsircl : reduce.backend = .sircl
      · simp [bind, Except.bind, leaves, declined, hsircl]
      cases hallows : policy.ncclAllows .reduceScatter with
      | true => simp [bind, Except.bind, leaves, declined, hsircl, nccl]
      | false => simp [bind, Except.bind, leaves, declined, hsircl, refuse]
  unfold sessionScatter scatterable
  by_cases hprepared : tensor.dtype ∈ session.scatterDtypes ∧ tensor.nbytes / tensor.shape.getD (tensor.axis dim) 0 % pack = 0
  · by_cases hpiece : (stated session.scatterPiece).isSome = true
    · rw [if_pos ⟨hprepared, hpiece⟩, decide_eq_true hprepared, hpiece]
      simp [leaves]
    by_cases hop : session.scatterOpBytes ≠ 0
    · rw [if_neg (fun h => hpiece h.2), if_pos ⟨hprepared, hop⟩, decide_eq_true hprepared, decide_eq_true hop]
      simp [leaves]
    · rw [if_neg (fun h => hpiece h.2), if_neg (fun h => hop h.2), hcomposed, decide_eq_false hop, eq_false_iff.mpr hpiece]
      simp
  · rw [if_neg (fun h => hprepared h.1), if_neg (fun h => hprepared h.1), hcomposed, decide_eq_false hprepared]
    simp

variable (tensor dim sizes limits policy capturing) in
theorem leaves_planReduceScatter : leaves (planReduceScatter tensor dim limits policy capturing) =
      (policy.ncclAllows .reduceScatter && scatterAsks tensor dim limits policy capturing) := by
  unfold planReduceScatter scatterAsks
  by_cases hshape : tensor.shape = []
  · simp [hshape, leaves, refuse]
  cases limits with
  | none =>
    by_cases hbytes : tensor.nbytes = 0
    · simp [hshape, hbytes, leaves, empty]
    · simp [hshape, hbytes, leaves_withoutSession]
  | some session =>
    dsimp only
    rw [if_neg hshape]
    by_cases hextent : tensor.shape.getD (tensor.axis dim) 0 % session.world = 0
    · rw [if_neg (not_not.mpr hextent), decide_eq_true hextent]
      by_cases hbytes : tensor.nbytes = 0
      · simp [hbytes, leaves, empty]
      rw [if_neg hbytes]
      cases hprefers : policy.prefersNccl .reduceScatter tensor.nbytes session.scatterOpBytes capturing with
      | true =>
        have hallows := Policy.ncclAllows_of_prefers hprefers
        simp [hshape, hbytes, hallows, leaves, nccl]
      | false =>
        rw [if_neg Bool.false_ne_true, leaves_sessionScatter hbytes]
        simp [hshape, hbytes]
    · rw [if_pos hextent, decide_eq_false hextent]
      simp [unevenRefusal, leaves, refuse]

/-- The shard an all-gather of given sizes gathers: the longest of uneven ones. -/
def shardOf (tensor : TensorMeta) (sizes : Option (List ℕ)) : Option TensorMeta :=
  if even sizes = true then some tensor
  else (sizes.getD []).max?.map fun longest => ⟨longest :: tensor.shape.tail, tensor.dtype, tensor.itemsize, true⟩

variable (tensor dim sizes limits policy capturing) in
/-- Gathers of given sizes that are planned for NCCL. -/
theorem leaves_planAllGatherv : leaves (planAllGatherv tensor sizes limits policy capturing) =
      (policy.ncclAllows .allGather && (shardOf tensor sizes).any fun shard => gatherAsks shard limits policy capturing) := by
  unfold shardOf
  cases heven : even sizes with
  | true =>
    have hplan : planAllGatherv tensor sizes limits policy capturing =
        (planAllGather tensor 0 limits policy capturing).map fun inner => { inner with collective := .allGatherv } := by
      simp only [planAllGatherv, heven, if_true]
      cases planAllGather tensor 0 limits policy capturing <;> rfl
    rw [hplan]
    refine (leaves_map (f := fun inner : Plan => { inner with collective := .allGatherv }) (fun _ => rfl) _).trans ?_
    rw [leaves_planAllGather]
    simp
  | false =>
    cases hlongest : (sizes.getD []).max? with
    | none => simp [planAllGatherv, heven, hlongest, leaves]
    | some =>
      rw [planAllGatherv_uneven heven hlongest, leaves_map, leaves_planAllGather]
      · simp
      intro inner
      by_cases hsircl : inner.backend = .sircl
      · rw [if_neg (not_not.mpr hsircl), hsircl]
      · rw [if_pos hsircl]

/-- A reduce-scatter into shards of given sizes is planned for NCCL: uneven ones whenever
the call is eager and the operator did not choose the session. -/
def scattervAsks (tensor : TensorMeta) (sizes : Option (List ℕ)) (limits : Option SessionLimits) (policy : Policy) (capturing : Bool) : Bool :=
  if even sizes = true then scatterAsks tensor 0 limits policy capturing
  else !capturing && decide (policy.large ≠ .sircl)

variable (tensor dim sizes limits policy capturing) in
/-- Reduce-scatters into shards of given sizes that are planned for NCCL. -/
theorem leaves_planReduceScatterv : leaves (planReduceScatterv tensor sizes limits policy capturing) =
      (policy.ncclAllows .reduceScatter && scattervAsks tensor sizes limits policy capturing) := by
  unfold scattervAsks planReduceScatterv
  cases heven : even sizes with
  | true =>
    simp only [if_true]
    rw [← leaves_planReduceScatter]
    cases planReduceScatter tensor 0 limits policy capturing <;> rfl
  | false =>
    simp only [Bool.false_eq_true, if_false]
    have hreduce : leaves (do
        let reduce ← planAllReduce tensor limits policy.internal capturing
        if reduce.backend ≠ .sircl then .ok (refuse .reduceScatterv reduce.reason)
        else
          .ok ⟨.reduceScatterv, .sircl, .allreduceSlice, reduce.ops, reduce.piece,
            s!"uneven sizes {sizes.getD []}: all-reduce then this rank's rows", reduce.contiguousCopy⟩) = false :=
      leaves_bind fun _ => leaves_ite (fun _ => rfl) rfl
    by_cases hnccl : policy.ncclAllows .reduceScatter = true ∧ capturing = false ∧ policy.large ≠ .sircl
    · simp [hnccl, leaves, nccl]
    rw [if_neg hnccl, hreduce]
    cases hallows : policy.ncclAllows .reduceScatter with
    | false => rfl
    | true =>
      cases capturing with
      | true => rfl
      | false =>
        have hlarge : policy.large = .sircl := by
          by_contra hlarge
          exact hnccl ⟨hallows, rfl, hlarge⟩
        simp [hlarge]

/-- What is planned for NCCL may run on it: broadcasts and gathers. -/
theorem leaves_planBytesGather {collective ncclOperation : Operation}
    (h : leaves (planBytesGather collective tensor limits policy capturing ncclOperation) = true) : policy.ncclAllows ncclOperation = true := by
  by_contra hallows
  refine absurd h (eq_false_iff.mp ?_)
  refine leaves_ite (fun _ => rfl) (leaves_ite (fun hnccl => absurd hnccl.1 hallows) ?_)
  exact leaves_bind fun _ => leaves_ite (fun _ => rfl) rfl

/-- What is planned for NCCL may run on it: all-to-alls. -/
theorem leaves_planAllToAll (h : leaves (planAllToAll tensor limits policy capturing) = true) : policy.ncclAllows .allToAll = true := by
  by_contra hallows
  refine absurd h (eq_false_iff.mp ?_)
  refine leaves_ite (fun _ => rfl) ?_
  cases limits with
  | none => exact (leaves_withoutSession ..).trans (eq_false_iff.mpr hallows)
  | some =>
    refine leaves_ite (fun hprefers => absurd hprefers (Policy.prefersNccl_of_not hallows)) ?_
    refine leaves_ite (fun _ => rfl) (leaves_ite (fun _ => rfl) (leaves_ite (fun hnccl => absurd hnccl.1 hallows) ?_))
    exact leaves_bind fun _ => leaves_ite (fun _ => rfl) rfl

/-- What is planned for NCCL may run on it: all-reduces. -/
theorem leaves_planAllReduce (h : leaves (planAllReduce tensor limits policy capturing) = true) : policy.ncclAllows .allReduce = true := by
  by_contra hallows
  refine absurd h (eq_false_iff.mp ?_)
  refine leaves_ite (fun _ => rfl) ?_
  cases limits with
  | none => exact (leaves_withoutSession ..).trans (eq_false_iff.mpr hallows)
  | some =>
    refine leaves_ite (fun _ => ?_) (leaves_ite (fun _ => rfl) ?_)
    · refine leaves_ite (fun hnccl => absurd hnccl.1 hallows) (leaves_ite (fun _ => rfl) ?_)
      exact leaves_bind fun _ => leaves_ite (fun _ => rfl) rfl
    refine leaves_ite (fun hprefers => absurd hprefers (Policy.prefersNccl_of_not hallows)) (leaves_ite (fun _ => rfl) ?_)
    unfold splitReduce
    dsimp only
    split
    · rfl
    · split <;> rfl

/-- A plan carries the name of its call. -/
def Named (name : Operation) (result : Except PlanError Plan) : Prop := ∀ plan, result = .ok plan → plan.collective = name

/-- A plan without a session op carries its call's name. -/
theorem named_withoutSession (why : String) : Named name (.ok (withoutSession policy name why)) := by
  rintro plan ⟨⟩
  unfold withoutSession
  split <;> rfl

/-- A plan made carries its name. -/
theorem named_ok (h : plan.collective = name) : Named name (.ok plan) := by
  rintro _ ⟨⟩
  exact h

/-- Of two plans the one made carries the name. -/
theorem named_ite {c : Prop} [Decidable c] (hfirst : Named name first) (hsecond : Named name second) :
    Named name (if c then first else second) := by
  by_cases h : c
  · rwa [if_pos h]
  · rwa [if_neg h]

/-- A composed plan carries the name its composition gives it. -/
theorem named_bind {f : Plan → Except PlanError Plan} (hf : ∀ plan, Named name (f plan)) : Named name (result >>= f) := by
  cases result with
  | error => rintro plan ⟨⟩
  | ok inner => exact hf inner

variable (tensor dim sizes limits policy capturing)

/-- Gathers carry their name. -/
theorem named_planAllGather : Named .allGather (planAllGather tensor dim limits policy capturing) := by
  refine named_ite (named_ok rfl) (named_ite (named_ok rfl) ?_)
  cases limits with
  | none => exact named_withoutSession _
  | some =>
    refine named_ite (named_withoutSession _) (named_ite (named_ok rfl) (named_ite (named_ok rfl) ?_))
    unfold splitGather
    dsimp only
    split
    · split
      · rintro plan ⟨⟩
      · exact named_ok rfl
    · exact named_ite (named_ok rfl) (named_ok rfl)

/-- All-reduces carry their name. -/
theorem named_planAllReduce : Named .allReduce (planAllReduce tensor limits policy capturing) := by
  refine named_ite (named_ok rfl) ?_
  cases limits with
  | none => exact named_withoutSession _
  | some =>
    refine named_ite ?_ (named_ite (named_ok rfl) (named_ite (named_ok rfl) (named_ite (named_ok rfl) (named_ok ?_))))
    · exact named_ite (named_ok rfl) (named_ite (named_ok rfl) (named_bind fun _ => named_ite (named_ok rfl) (named_ok rfl)))
    unfold splitReduce
    dsimp only
    split
    · rfl
    · split <;> rfl

/-- Reduce-scatters carry their name. -/
theorem named_planReduceScatter : Named .reduceScatter (planReduceScatter tensor dim limits policy capturing) := by
  refine named_ite (named_ok rfl) ?_
  cases limits with
  | none => exact named_ite (named_ok rfl) (named_withoutSession _)
  | some =>
    refine named_ite (named_ok rfl) (named_ite (named_ok rfl) (named_ite (named_ok rfl) ?_))
    refine named_ite (named_ok rfl) (named_ite (named_ok rfl) (named_bind fun _ => ?_))
    exact named_ite (named_ite (named_ok rfl) (named_ok rfl)) (named_ok rfl)

/-- Gathers of shards of given sizes carry their name. -/
theorem named_planAllGatherv : Named .allGatherv (planAllGatherv tensor sizes limits policy capturing) := by
  refine named_ite (named_bind fun _ => named_ok rfl) ?_
  split
  · rintro plan ⟨⟩
  · exact named_bind fun _ => named_ite (named_ok rfl) (named_ok rfl)

/-- Reduce-scatters into shards of given sizes carry their name. -/
theorem named_planReduceScatterv : Named .reduceScatterv (planReduceScatterv tensor sizes limits policy capturing) := by
  refine named_ite (named_bind fun _ => named_ok rfl) (named_ite (named_ok rfl) (named_bind fun _ => ?_))
  exact named_ite (named_ok rfl) (named_ok rfl)

/-- Broadcasts and gathers carry their name. -/
theorem named_planBytesGather (collective ncclOperation : Operation) (tensor : TensorMeta) (limits : Option SessionLimits) (policy : Policy)
    (capturing : Bool) : Named collective (planBytesGather collective tensor limits policy capturing ncclOperation) := by
  refine named_ite (named_ok rfl) (named_ite (named_ok rfl) (named_bind fun _ => ?_))
  exact named_ite (named_ok rfl) (named_ok rfl)

/-- All-to-alls carry their name. -/
theorem named_planAllToAll : Named .allToAll (planAllToAll tensor limits policy capturing) := by
  refine named_ite (named_ok rfl) ?_
  cases limits with
  | none => exact named_withoutSession _
  | some =>
    refine named_ite (named_ok rfl) ?_
    refine named_ite (named_ok rfl) (named_ite (named_ok rfl) (named_ite (named_ok rfl) (named_bind fun _ => ?_)))
    exact named_ite (named_ok rfl) (named_ok rfl)

variable {tensor dim sizes limits policy capturing}

/-- A gather is to be cut into pieces that are no whole packs. -/
def gatherStuck (tensor : TensorMeta) (limits : Option SessionLimits) (policy : Policy) (capturing : Bool) : Bool :=
  decide (tensor.shape ≠ [] ∧ tensor.nbytes ≠ 0) && !gatherAsks tensor limits policy capturing &&
    limits.any fun session => decide (session.gatherOpBytes < tensor.nbytes) &&
      (stated session.gatherPiece).any fun piece => decide (piece < pack ∨ piece % pack ≠ 0)

/-- A split gather fails exactly on a piece that is no whole packs. -/
theorem splitGather_cases (tensor : TensorMeta) (session : SessionLimits) (outer inner : ℕ) (view : Method → Method) :
    if ((stated session.gatherPiece).any fun piece => decide (piece < pack ∨ piece % pack ≠ 0)) = true
    then ∃ error, splitGather tensor session outer inner view = .error error
    else ∃ plan, splitGather tensor session outer inner view = .ok plan ∧ plan.backend = .sircl := by
  unfold splitGather
  cases hpiece : stated session.gatherPiece with
  | none =>
    dsimp only [Option.any_none]
    rw [if_neg Bool.false_ne_true]
    split_ifs
    · exact ⟨_, rfl, rfl⟩
    · exact ⟨_, rfl, rfl⟩
  | some piece =>
    dsimp only [Option.any_some]
    unfold RelayPieces.Session.gatherPlan
    by_cases hbad : piece < pack ∨ piece % pack ≠ 0
    · rw [if_pos (decide_eq_true hbad), if_pos hbad]
      exact ⟨_, rfl⟩
    rw [if_neg (by simpa using hbad), if_neg hbad]
    split_ifs
    · exact ⟨_, rfl, rfl⟩
    · exact ⟨_, rfl, rfl⟩
    · exact ⟨_, rfl, rfl⟩

/-- Where NCCL may run gathers, a gather fails where it is stuck, is refused where the tensor
is a scalar, and is planned otherwise. -/
theorem planAllGather_cases (hallows : policy.ncclAllows .allGather = true) (tensor : TensorMeta) (dim : ℤ)
    (limits : Option SessionLimits) (capturing : Bool) :
    if gatherStuck tensor limits policy capturing = true then ∃ error, planAllGather tensor dim limits policy capturing = .error error
    else ∃ plan, planAllGather tensor dim limits policy capturing = .ok plan ∧ (plan.backend = .refuse ↔ tensor.shape = []) := by
  unfold planAllGather gatherStuck gatherAsks
  by_cases hshape : tensor.shape = []
  · simp [hshape, refuse]
  by_cases hbytes : tensor.nbytes = 0
  · simp [hshape, hbytes, empty]
  rw [decide_eq_true ⟨hshape, hbytes⟩, if_neg hshape, if_neg hbytes]
  cases limits with
  | none => simp [hshape, withoutSession, hallows, nccl]
  | some session =>
    dsimp only
    by_cases hgather : session.gather = 0
    · simp [hshape, hgather, withoutSession, hallows, nccl]
    by_cases hprefers : policy.prefersNccl .allGather tensor.nbytes session.gatherOpBytes capturing = true
    · simp [hshape, hgather, hprefers, nccl]
    by_cases hfits : tensor.nbytes ≤ session.gatherOpBytes
    · simp [hshape, hgather, hprefers, hfits]
    rw [if_neg hgather, if_neg hprefers, if_neg hfits]
    have hsplit := splitGather_cases tensor session (tensor.shape.take (tensor.axis dim)).prod
      (tensor.shape.drop (tensor.axis dim)).prod fun method => if tensor.dtype ∈ byteViewDtypes then Method.bytes method else method
    by_cases hbad : ((stated session.gatherPiece).any fun piece => decide (piece < pack ∨ piece % pack ≠ 0)) = true
    · rw [if_pos hbad] at hsplit
      rw [if_pos (by rw [Option.any_some, hbad]; simp [hgather, hprefers, Nat.not_le.mp hfits])]
      exact hsplit
    rw [if_neg hbad] at hsplit
    rw [if_neg (by rw [Option.any_some, eq_false_iff.mpr hbad]; simp)]
    obtain ⟨plan, hplan, hsircl⟩ := hsplit
    exact ⟨plan, hplan, by simp [hsircl, hshape]⟩

/-- A gather of shards of given sizes fails: there are no sizes, or it is stuck. -/
def gathervStuck (tensor : TensorMeta) (sizes : Option (List ℕ)) (limits : Option SessionLimits) (policy : Policy) (capturing : Bool) : Bool :=
  (shardOf tensor sizes).all fun shard => gatherStuck shard limits policy capturing

/-- Where NCCL may run gathers, one of given sizes fails where it is stuck, is refused where
the sizes are alike and the tensor is a scalar, and is planned otherwise. -/
theorem planAllGatherv_cases (hallows : policy.ncclAllows .allGather = true) (tensor : TensorMeta) (sizes : Option (List ℕ))
    (limits : Option SessionLimits) (capturing : Bool) : if gathervStuck tensor sizes limits policy capturing = true
    then ∃ error, planAllGatherv tensor sizes limits policy capturing = .error error
    else ∃ plan, planAllGatherv tensor sizes limits policy capturing = .ok plan ∧
      (plan.backend = .refuse ↔ even sizes = true ∧ tensor.shape = []) := by
  unfold gathervStuck shardOf
  by_cases heven : even sizes = true
  · have hgather := planAllGather_cases hallows tensor 0 limits capturing
    rw [if_pos heven, Option.all_some]
    unfold planAllGatherv
    rw [if_pos heven]
    split_ifs at hgather ⊢ with hstuck
    · obtain ⟨error, herror⟩ := hgather
      exact ⟨error, by rw [herror]; rfl⟩
    obtain ⟨plan, hplan, hrefuse⟩ := hgather
    exact ⟨{ plan with collective := .allGatherv }, by rw [hplan]; rfl, by simp [hrefuse, heven]⟩
  · have huneven : even sizes = false := eq_false_iff.mpr heven
    rw [if_neg heven]
    cases hlongest : (sizes.getD []).max? with
    | none =>
      exact ⟨.noSizes, by simp [planAllGatherv, huneven, hlongest]⟩
    | some longest =>
      rw [Option.map_some, Option.all_some, planAllGatherv_uneven huneven hlongest]
      have hgather := planAllGather_cases hallows ⟨longest :: tensor.shape.tail, tensor.dtype, tensor.itemsize, true⟩ 0 limits capturing
      by_cases hstuck : gatherStuck ⟨longest :: tensor.shape.tail, tensor.dtype, tensor.itemsize, true⟩ limits policy capturing = true
      · rw [if_pos hstuck] at hgather ⊢
        obtain ⟨error, herror⟩ := hgather
        exact ⟨error, by rw [herror]; rfl⟩
      rw [if_neg hstuck] at hgather ⊢
      obtain ⟨plan, hplan, hrefuse⟩ := hgather
      have hkept : plan.backend ≠ .refuse := fun hno => List.cons_ne_nil _ _ (hrefuse.mp hno)
      refine ⟨_, by rw [hplan]; rfl, iff_of_false ?_ fun h => heven h.1⟩
      by_cases hsircl : plan.backend = .sircl
      · simp [hsircl]
      dsimp only
      rw [if_pos hsircl]
      exact hkept

end SparkRing.CollectivePlanner
