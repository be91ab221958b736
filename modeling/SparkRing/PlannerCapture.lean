import SparkRing.CollectivePlanner

/-!
# Captured calls stay on the session

A graph replays the transport it was captured with, so a captured call is to stay on the
session wherever the session can carry it: wherever the policy of composed ops, which
never prefers NCCL, would.
-/

namespace SparkRing.CollectivePlanner

open Engine (pack)
open GroupFabric (Operation)
open TensorMeta (nbytes numel ofBytes)

variable {tensor : TensorMeta} {dim : ℤ} {limits : Option SessionLimits} {session : SessionLimits} {policy : Policy}
  {capturing : Bool} {f : Plan → Plan}

/-- The session carries a planned call. -/
def carried : Except PlanError Plan → Bool
  | .ok plan => decide (plan.backend = .sircl)
  | .error _ => false

/-- A planned call goes to NCCL. -/
def leaves : Except PlanError Plan → Bool
  | .ok plan => decide (plan.backend = .nccl)
  | .error _ => false

/-- The collectives with a plan. -/
inductive Call
  | allReduce
  | allGather (dim : ℤ)
  | reduceScatter (dim : ℤ)
  | allGatherv (sizes : Option (List ℕ))
  | reduceScatterv (sizes : Option (List ℕ))
  | bytesGather (collective ncclOperation : Operation)
  | allToAll
  deriving DecidableEq

def Call.plan (call : Call) (tensor : TensorMeta) (limits : Option SessionLimits) (policy : Policy) (capturing : Bool) :
    Except PlanError Plan :=
  match call with
  | .allReduce => planAllReduce tensor limits policy capturing
  | .allGather dim => planAllGather tensor dim limits policy capturing
  | .reduceScatter dim => planReduceScatter tensor dim limits policy capturing
  | .allGatherv sizes => planAllGatherv tensor sizes limits policy capturing
  | .reduceScatterv sizes => planReduceScatterv tensor sizes limits policy capturing
  | .bytesGather collective ncclOperation => planBytesGather collective tensor limits policy capturing ncclOperation
  | .allToAll => planAllToAll tensor limits policy capturing

/-- What capture does to the plans of a call. -/
structure CaptureLaw (plan : Policy → Bool → Except PlanError Plan) (policy : Policy) : Prop where
  /-- What the session carries under the policy of composed ops it carries when captured. -/
  stays : ∀ capturing, carried (plan policy.internal capturing) = true → carried (plan policy true) = true
  /-- Capture changes a plan only where the eager one goes to NCCL or was to go there. -/
  differs : plan policy true = plan policy false ∨ leaves (plan policy false) = true ∨
    plan policy false = .ok (largeRefusal policy)

/-- The law where no plan is refused for its size. -/
structure Steady (plan : Policy → Bool → Except PlanError Plan) (policy : Policy) : Prop where
  /-- What the session carries under the policy of composed ops it carries when captured. -/
  stays : ∀ capturing, carried (plan policy.internal capturing) = true → carried (plan policy true) = true
  /-- Capture changes a plan only where the eager one goes to NCCL. -/
  differs : plan policy true = plan policy false ∨ leaves (plan policy false) = true

theorem Steady.law {plan : Policy → Bool → Except PlanError Plan} (h : Steady plan policy) : CaptureLaw plan policy := { h with
  differs := h.differs.imp_right .inl }

/-- A change that keeps who carries a call keeps what the session carries. -/
theorem carried_map (hf : ∀ plan, (f plan).backend = plan.backend) (result : Except PlanError Plan) :
    carried (result.map f) = carried result := by
  cases result with
  | error => rfl
  | ok => simp [Except.map, carried, hf]

/-- A change that keeps who carries a call keeps what goes to NCCL. -/
theorem leaves_map (hf : ∀ plan, (f plan).backend = plan.backend) (result : Except PlanError Plan) :
    leaves (result.map f) = leaves result := by
  cases result with
  | error => rfl
  | ok => simp [Except.map, leaves, hf]

/-- A collective composed of one other is as steady as that one. -/
theorem Steady.map {plan composed : Policy → Bool → Except PlanError Plan} (h : Steady plan policy) (f : Plan → Plan)
    (hf : ∀ plan, (f plan).backend = plan.backend) (hcomposed : ∀ policy capturing, composed policy capturing = (plan policy capturing).map f) :
    Steady composed policy where
  stays := fun capturing hcarried => by
    rw [hcomposed, carried_map hf] at hcarried ⊢
    exact h.stays capturing hcarried
  differs := by
    rw [hcomposed, hcomposed, leaves_map hf]
    exact h.differs.imp_left fun heq => by rw [heq]

/-- A captured call never prefers NCCL. -/
@[simp] theorem Policy.prefersNccl_capturing (policy : Policy) (name : Operation) (nbytes limit : ℕ) :
    policy.prefersNccl name nbytes limit true = false := by
  simp [Policy.prefersNccl]

/-- A session op of a composed collective never prefers NCCL. -/
@[simp] theorem Policy.prefersNccl_internal (policy : Policy) (name : Operation) (nbytes limit : ℕ) (capturing : Bool) :
    policy.internal.prefersNccl name nbytes limit capturing = false := by
  simp [Policy.prefersNccl, Policy.internal]

/-- The policy of composed ops is its own. -/
@[simp] theorem Policy.internal_internal (policy : Policy) : policy.internal.internal = policy.internal := rfl

/-- Composed ops leave large messages to the session. -/
@[simp] theorem Policy.internal_large (policy : Policy) : policy.internal.large = .sircl := rfl

/-- Without a session nothing is carried. -/
@[simp] theorem carried_withoutSession (name : Operation) (why : String) :
    carried (.ok (withoutSession policy name why)) = false := by
  unfold withoutSession
  split <;> rfl

@[simp] theorem carried_refuse (name : Operation) (why : String) : carried (.ok (refuse name why)) = false := rfl

/-- Where the session gathers, a captured plan is the one of composed ops. -/
theorem planAllGather_internal (h : carried (planAllGather tensor dim limits policy.internal capturing) = true) :
    planAllGather tensor dim limits policy true = planAllGather tensor dim limits policy.internal capturing := by
  cases limits with
  | none =>
    unfold planAllGather at h ⊢
    by_cases hshape : tensor.shape = []
    · simp [hshape] at h
    by_cases hbytes : tensor.nbytes = 0
    · simp only [if_neg hshape, if_pos hbytes]
    · simp [hshape, hbytes] at h
  | some session =>
    unfold planAllGather at h ⊢
    by_cases hgather : session.gather = 0
    · by_cases hshape : tensor.shape = []
      · simp [hshape] at h
      by_cases hbytes : tensor.nbytes = 0
      · simp only [if_neg hshape, if_pos hbytes]
      · simp [hshape, hbytes, hgather] at h
    · simp [hgather]

/-- Plans of composed gathers do not see capture. -/
theorem planAllGather_internal_capturing (capturing : Bool) :
    planAllGather tensor dim limits policy.internal capturing = planAllGather tensor dim limits policy.internal true := by
  unfold planAllGather
  simp

/-- Capture changes the plan of a gather only where the eager one goes to NCCL. -/
theorem planAllGather_differs : planAllGather tensor dim limits policy true = planAllGather tensor dim limits policy false ∨
      leaves (planAllGather tensor dim limits policy false) = true := by
  cases limits with
  | none => exact .inl rfl
  | some session =>
    cases hprefers : policy.prefersNccl .allGather tensor.nbytes session.gatherOpBytes false with
    | false =>
      left
      simp [planAllGather, hprefers]
    | true =>
      unfold planAllGather
      by_cases hshape : tensor.shape = []
      · simp [hshape]
      by_cases hbytes : tensor.nbytes = 0
      · simp [hbytes]
      by_cases hgather : session.gather = 0
      · simp [hgather]
      · right
        simp [hshape, hbytes, hgather, hprefers, leaves, nccl]

/-- Captured gathers stay on the session. -/
theorem steady_allGather (tensor : TensorMeta) (dim : ℤ) (limits : Option SessionLimits) :
    Steady (planAllGather tensor dim limits) policy where
  stays := fun _ h => by rwa [planAllGather_internal h]
  differs := planAllGather_differs

/-- An uneven gather is a gather of padded shards. -/
theorem planAllGatherv_uneven {sizes : Option (List ℕ)} {longest : ℕ} (heven : even sizes = false)
    (hlongest : (sizes.getD []).max? = some longest) (policy : Policy) (capturing : Bool) :
    planAllGatherv tensor sizes limits policy capturing =
      (planAllGather ⟨longest :: tensor.shape.tail, tensor.dtype, tensor.itemsize, true⟩ 0 limits policy capturing).map
        fun inner =>
          if inner.backend ≠ .sircl then { inner with collective := .allGatherv }
          else ⟨.allGatherv, .sircl, .paddedTo inner.method, inner.ops, inner.piece,
            s!"uneven sizes {sizes.getD []} padded to {longest}", true⟩ := by
  simp only [planAllGatherv, heven, Bool.false_eq_true, if_false, hlongest]
  cases planAllGather ⟨longest :: tensor.shape.tail, tensor.dtype, tensor.itemsize, true⟩ 0 limits policy capturing with
  | error => rfl
  | ok inner =>
    by_cases hsircl : inner.backend = .sircl
    · simp [bind, Except.bind, Except.map, hsircl]
    · simp [bind, Except.bind, Except.map, hsircl]

/-- Captured gathers of shards of given sizes stay on the session. -/
theorem steady_allGatherv (sizes : Option (List ℕ)) : Steady (planAllGatherv tensor sizes limits) policy := by
  cases heven : even sizes with
  | true =>
    refine (steady_allGather tensor 0 limits).map (fun inner => { inner with collective := .allGatherv })
      (fun _ => rfl) fun policy capturing => ?_
    simp only [planAllGatherv, heven, if_true]
    cases planAllGather tensor 0 limits policy capturing <;> rfl
  | false =>
    cases hlongest : (sizes.getD []).max? with
    | none =>
      constructor
      · intro capturing h
        simp [planAllGatherv, heven, hlongest, carried] at h
      · simp [planAllGatherv, heven, hlongest]
    | some =>
      refine (steady_allGather _ 0 limits).map _ (fun inner => ?_) (planAllGatherv_uneven heven hlongest)
      by_cases hsircl : inner.backend = .sircl
      · rw [if_neg (not_not.mpr hsircl), hsircl]
      · rw [if_pos hsircl]

/-- Plans of composed all-reduces do not see capture. -/
theorem planAllReduce_internal_capturing (capturing : Bool) :
    planAllReduce tensor limits policy.internal capturing = planAllReduce tensor limits policy.internal true := by
  cases limits with
  | none => rfl
  | some =>
    unfold planAllReduce planUnsummed
    simp [planAllGather_internal_capturing capturing]

/-- A captured all-reduce that goes to NCCL although the session could carry it: of a type
the session does not sum, where its bytes can be gathered and summed on every rank. -/
def Diverted (tensor : TensorMeta) (limits : Option SessionLimits) (policy : Policy) : Prop :=
  tensor.nbytes ≠ 0 ∧ policy.ncclAllows .allReduce = true ∧ policy.large ≠ .sircl ∧ tensor.dtype ∈ exactLocalSumDtypes ∧
    ∃ session, limits = some session ∧ tensor.dtype ∉ session.reduceDtypes ∧ 0 < session.gather ∧
      (tensor.nbytes ≤ session.gatherOpBytes ∨ ∀ piece, stated session.gatherPiece = some piece → pack ≤ piece ∧ piece % pack = 0)

/-- A gather that is split is carried, unless the session's piece is none. -/
theorem carried_splitGather (outer inner : ℕ) (view : Method → Method) : carried (splitGather tensor session outer inner view) = true ↔
      ∀ piece, stated session.gatherPiece = some piece → pack ≤ piece ∧ piece % pack = 0 := by
  unfold splitGather
  cases hpiece : stated session.gatherPiece with
  | none =>
    refine iff_of_true ?_ (by simp)
    dsimp only
    split <;> rfl
  | some piece =>
    unfold RelayPieces.Session.gatherPlan
    by_cases hbad : piece < pack ∨ piece % pack ≠ 0
    · simp only [if_pos hbad, carried, Option.some.injEq, forall_eq']
      refine iff_of_false Bool.false_ne_true fun hgood => ?_
      omega
    have hgood : pack ≤ piece ∧ piece % pack = 0 := by omega
    refine iff_of_true ?_ fun other hother => Option.some.inj hother ▸ hgood
    dsimp only
    split_ifs <;> rfl

/-- The bytes of a flattened tensor are carried where the session gathers them at once or
cuts them into whole packs. -/
theorem carried_flat (h : tensor.nbytes ≠ 0) (hgather : 0 < session.gather) :
    carried (planAllGather ⟨[tensor.numel], tensor.dtype, tensor.itemsize, true⟩ 0 (some session) policy.internal capturing) = true ↔
      (tensor.nbytes ≤ session.gatherOpBytes ∨ ∀ piece, stated session.gatherPiece = some piece → pack ≤ piece ∧ piece % pack = 0) := by
  have hbytes : nbytes ⟨[tensor.numel], tensor.dtype, tensor.itemsize, true⟩ = tensor.nbytes := by
    simp [nbytes, numel]
  unfold planAllGather
  simp only [hbytes, List.cons_ne_nil, if_false, if_neg h, if_neg hgather.ne', Policy.prefersNccl_internal, Bool.false_eq_true]
  by_cases hfits : tensor.nbytes ≤ session.gatherOpBytes
  · simp [hfits, carried]
  · rw [if_neg hfits, carried_splitGather]
    simp [hfits]

/-- Without a gather nothing is composed of one. -/
theorem carried_flat_disabled (h : tensor.nbytes ≠ 0) (hgather : session.gather = 0) :
    carried (planAllGather ⟨[tensor.numel], tensor.dtype, tensor.itemsize, true⟩ 0 (some session) policy.internal capturing) = false := by
  have hbytes : nbytes ⟨[tensor.numel], tensor.dtype, tensor.itemsize, true⟩ = tensor.nbytes := by
    simp [nbytes, numel]
  simp [planAllGather, hbytes, h, hgather]

/-- What the session carries of a type it does not sum. -/
theorem carried_unsummed : carried (planUnsummed tensor session policy.internal capturing) = true ↔ tensor.dtype ∈ exactLocalSumDtypes ∧
      carried (planAllGather ⟨[tensor.numel], tensor.dtype, tensor.itemsize, true⟩ 0 (some session) policy.internal capturing) = true := by
  unfold planUnsummed
  simp only [Policy.internal_large, ne_eq, not_true_eq_false, and_false, if_false, Policy.internal_internal]
  by_cases hexact : tensor.dtype ∈ exactLocalSumDtypes
  · rw [if_neg (not_not.mpr hexact)]
    cases planAllGather ⟨[tensor.numel], tensor.dtype, tensor.itemsize, true⟩ 0 (some session) policy.internal capturing with
    | error => simp [bind, Except.bind, carried]
    | ok gather =>
      by_cases hsircl : gather.backend = .sircl
      · simp [bind, Except.bind, carried, hsircl, hexact]
      · simp [bind, Except.bind, carried, hsircl, refuse]
  · simp [hexact]

/-- Where an unsummed type does not go to NCCL, its plan is that of composed ops. -/
theorem planUnsummed_internal (h : ¬(policy.ncclAllows .allReduce = true ∧ policy.large ≠ .sircl))
    (hcarried : carried (planUnsummed tensor session policy.internal capturing) = true) :
    planUnsummed tensor session policy true = planUnsummed tensor session policy.internal capturing := by
  have hexact := (carried_unsummed.mp hcarried).1
  unfold planUnsummed
  simp [h, hexact, planAllGather_internal_capturing capturing]

/-- Capture does not change the plan of an unsummed type. -/
theorem planUnsummed_capturing : planUnsummed tensor session policy true = planUnsummed tensor session policy false := by
  unfold planUnsummed
  rw [planAllGather_internal_capturing false]

/-- Captured all-reduces of a type the session sums stay on it. -/
theorem captureLaw_summed (hdtype : tensor.dtype ∈ session.reduceDtypes) : CaptureLaw (planAllReduce tensor (some session)) policy := by
  by_cases hbytes : tensor.nbytes = 0
  · exact ⟨fun _ _ => by simp [planAllReduce, hbytes, empty, carried], .inl (by simp [planAllReduce, hbytes])⟩
  have hinternal : ∀ capturing, planAllReduce tensor (some session) policy true =
      planAllReduce tensor (some session) policy.internal capturing := by
    intro capturing
    simp [planAllReduce, hbytes, hdtype]
  refine ⟨fun capturing h => by rwa [hinternal capturing], ?_⟩
  unfold planAllReduce
  cases hprefers : policy.prefersNccl .allReduce tensor.nbytes session.dispatch false with
  | true => simp [hbytes, hdtype, hprefers, leaves, nccl]
  | false =>
    by_cases hlarge : policy.large = .nccl
    · by_cases hfits : ceil tensor.nbytes pack * pack ≤ session.dispatch
      · simp [hbytes, hdtype, hfits, hprefers]
      · simp [hbytes, hdtype, hfits, hprefers, hlarge]
    · simp [hbytes, hdtype, hprefers, hlarge]

/-- Captured all-reduces stay on the session unless they are diverted, and only then. -/
theorem captureLaw_allReduce_iff : CaptureLaw (planAllReduce tensor limits) policy ↔ ¬Diverted tensor limits policy := by
  cases limits with
  | none =>
    refine iff_of_true ⟨fun capturing h => ?_, .inl rfl⟩ fun ⟨_, _, _, _, session, hsession, _⟩ => nomatch hsession
    by_cases hbytes : tensor.nbytes = 0
    · simp [planAllReduce, hbytes, empty, carried]
    · simp [planAllReduce, hbytes] at h
  | some session =>
    by_cases hdtype : tensor.dtype ∈ session.reduceDtypes
    · refine iff_of_true (captureLaw_summed hdtype) fun ⟨_, _, _, _, other, hother, hout, _⟩ => ?_
      obtain rfl := Option.some.inj hother
      exact hout hdtype
    by_cases hbytes : tensor.nbytes = 0
    · refine iff_of_true ⟨fun _ _ => by simp [planAllReduce, hbytes, empty, carried], .inl (by simp [planAllReduce, hbytes])⟩ ?_
      exact fun h => h.1 hbytes
    have hplan : ∀ policy capturing, planAllReduce tensor (some session) policy capturing =
        planUnsummed tensor session policy capturing := by
      intro policy capturing
      simp [planAllReduce, hbytes, hdtype]
    by_cases hnccl : policy.ncclAllows .allReduce = true ∧ policy.large ≠ .sircl
    · have hdiverted : carried (planUnsummed tensor session policy true) = false := by
        simp [planUnsummed, hnccl, nccl, carried]
      constructor
      · rintro hlaw ⟨-, -, -, hexact, other, hother, -, hgather, hpieces⟩
        obtain rfl := Option.some.inj hother
        have hstays := hlaw.stays true (by
          rw [hplan, carried_unsummed, carried_flat hbytes hgather]
          exact ⟨hexact, hpieces⟩)
        rw [hplan, hdiverted] at hstays
        cases hstays
      intro hnot
      refine ⟨fun capturing h => ?_, .inl (by rw [hplan, hplan, planUnsummed_capturing])⟩
      rw [hplan, carried_unsummed] at h
      by_cases hgather : session.gather = 0
      · rw [carried_flat_disabled hbytes hgather] at h
        exact absurd h.2 Bool.false_ne_true
      have hgather := Nat.pos_of_ne_zero hgather
      rw [carried_flat hbytes hgather] at h
      exact absurd ⟨hbytes, hnccl.1, hnccl.2, h.1, session, rfl, hdtype, hgather, h.2⟩ hnot
    · refine iff_of_true ⟨fun capturing h => ?_, .inl (by rw [hplan, hplan, planUnsummed_capturing])⟩ ?_
      · rw [hplan] at h ⊢
        rwa [planUnsummed_internal hnccl h]
      · exact fun h => hnccl ⟨h.2.1, h.2.2.1⟩

/-- Where the session scatters, a captured plan is the one of composed ops. -/
theorem sessionScatter_internal (h : carried (sessionScatter tensor dim session policy.internal capturing) = true) :
    sessionScatter tensor dim session policy true = sessionScatter tensor dim session policy.internal capturing := by
  unfold sessionScatter at h ⊢
  simp only [Policy.internal_internal, planAllReduce_internal_capturing capturing] at h ⊢
  cases hreduce : planAllReduce tensor (some session) policy.internal true with
  | error => rfl
  | ok reduce =>
    by_cases hsircl : reduce.backend = .sircl
    · simp [bind, Except.bind, hsircl]
    rw [hreduce] at h
    dsimp only [bind, Except.bind] at h ⊢
    split_ifs at h ⊢ <;> first | rfl | cases h

/-- Captured reduce-scatters stay on the session. -/
theorem steady_reduceScatter (tensor : TensorMeta) (dim : ℤ) (limits : Option SessionLimits) :
    Steady (planReduceScatter tensor dim limits) policy := by
  cases limits with
  | none =>
    refine ⟨fun capturing h => ?_, .inl rfl⟩
    unfold planReduceScatter at h ⊢
    by_cases hshape : tensor.shape = []
    · simp [hshape] at h
    by_cases hbytes : tensor.nbytes = 0
    · simp [hshape, hbytes, empty, carried]
    · simp [hshape, hbytes] at h
  | some session =>
    have hscatter : sessionScatter tensor dim session policy true = sessionScatter tensor dim session policy false := by
      unfold sessionScatter
      rw [planAllReduce_internal_capturing false]
    unfold planReduceScatter
    constructor
    · intro capturing h
      simp only [Policy.prefersNccl_internal, Policy.prefersNccl_capturing, Bool.false_eq_true, if_false] at h ⊢
      by_cases hshape : tensor.shape = []
      · simp [hshape] at h
      by_cases hextent : tensor.shape.getD (tensor.axis dim) 0 % session.world ≠ 0
      · rw [if_neg hshape, if_pos hextent] at h
        cases h
      by_cases hbytes : tensor.nbytes = 0
      · rw [if_neg hshape, if_neg hextent, if_pos hbytes]
        rfl
      · rw [if_neg hshape, if_neg hextent, if_neg hbytes] at h ⊢
        rwa [sessionScatter_internal h]
    · cases hprefers : policy.prefersNccl .reduceScatter tensor.nbytes session.scatterOpBytes false with
      | false => exact .inl (by simp [hscatter, hprefers])
      | true =>
        by_cases hshape : tensor.shape = []
        · simp [hshape]
        by_cases hextent : tensor.shape.getD (tensor.axis dim) 0 % session.world ≠ 0
        · simp only [if_neg hshape, if_pos hextent, true_or]
        by_cases hbytes : tensor.nbytes = 0
        · simp [hbytes]
        right
        simp only [if_neg hshape, if_neg hextent, if_neg hbytes, hprefers, if_true]
        rfl

/-- Captured reduce-scatters into shards of given sizes stay on the session. -/
theorem steady_reduceScatterv (sizes : Option (List ℕ)) : Steady (planReduceScatterv tensor sizes limits) policy := by
  cases heven : even sizes with
  | true =>
    refine (steady_reduceScatter tensor 0 limits).map (fun inner => { inner with collective := .reduceScatterv })
      (fun _ => rfl) fun policy capturing => ?_
    simp only [planReduceScatterv, heven, if_true]
    cases planReduceScatter tensor 0 limits policy capturing <;> rfl
  | false =>
    unfold planReduceScatterv
    simp only [heven, Bool.false_eq_true, if_false]
    constructor
    · intro capturing h
      simpa [planAllReduce_internal_capturing capturing] using h
    by_cases hnccl : policy.ncclAllows .reduceScatter = true ∧ policy.large ≠ .sircl
    · right
      simp [hnccl, leaves, nccl]
    left
    have heager : ¬(policy.ncclAllows .reduceScatter = true ∧ false = false ∧ policy.large ≠ .sircl) := fun h => hnccl ⟨h.1, h.2.2⟩
    rw [if_neg heager, if_neg (fun h => nomatch h.2.1), planAllReduce_internal_capturing false]

/-- Without a session the bytes of a tensor are gathered nowhere. -/
theorem carried_ofBytes_none (h : tensor.nbytes ≠ 0) (policy : Policy) (capturing : Bool) :
    carried (planAllGather (.ofBytes tensor.nbytes) 0 none policy capturing) = false := by
  have hbytes : (ofBytes tensor.nbytes).nbytes = tensor.nbytes := by
    simp [nbytes, numel, ofBytes]
  unfold planAllGather
  rw [if_neg (by simp [ofBytes]), hbytes, if_neg h]
  simp

/-- Captured broadcasts and gathers stay on the session. -/
theorem steady_bytesGather (collective ncclOperation : Operation) :
    Steady (fun policy capturing => planBytesGather collective tensor limits policy capturing ncclOperation) policy := by
  by_cases hbytes : tensor.nbytes = 0
  · exact ⟨fun _ _ => by simp [planBytesGather, hbytes, empty, carried], .inl (by simp [planBytesGather, hbytes])⟩
  unfold planBytesGather
  simp only [if_neg hbytes]
  cases limits with
  | none =>
    constructor
    · intro capturing h
      have hgather := carried_ofBytes_none hbytes policy.internal capturing
      by_cases hinternal : policy.internal.ncclAllows ncclOperation = true
      · simp [hinternal, nccl, carried] at h
      simp only [hinternal, Bool.false_eq_true, false_and, if_false, Policy.internal_internal] at h
      cases hinner : planAllGather (.ofBytes tensor.nbytes) 0 none policy.internal capturing with
      | error => simp [hinner, bind, Except.bind, carried] at h
      | ok inner =>
        have hsircl : inner.backend ≠ .sircl := by simpa [hinner, carried] using hgather
        simp [hinner, bind, Except.bind, hsircl] at h
    · left
      rw [planAllGather_internal_capturing false]
      simp
  | some session =>
    constructor
    · intro capturing h
      simpa [planAllGather_internal_capturing capturing] using h
    by_cases hnccl : policy.ncclAllows ncclOperation = true ∧ policy.large ≠ .sircl
    · right
      simp [hnccl, leaves, nccl]
    left
    have heager : ¬(policy.ncclAllows ncclOperation = true ∧ (some session = none ∨ (false = false ∧ policy.large ≠ .sircl))) :=
      fun h => hnccl ⟨h.1, (h.2.resolve_left nofun).2⟩
    rw [if_neg heager, if_neg (fun h => nomatch h.2), planAllGather_internal_capturing false]

/-- Captured all-to-alls stay on the session. -/
theorem steady_allToAll : Steady (planAllToAll tensor limits) policy := by
  by_cases hbytes : tensor.nbytes = 0
  · exact ⟨fun _ _ => by simp [planAllToAll, hbytes, empty, carried], .inl (by simp [planAllToAll, hbytes])⟩
  cases limits with
  | none =>
    refine ⟨fun capturing h => ?_, .inl rfl⟩
    simp [planAllToAll, hbytes] at h
  | some session =>
    unfold planAllToAll
    simp only [if_neg hbytes]
    constructor
    · intro capturing h
      simp only [Policy.prefersNccl_internal, Policy.prefersNccl_capturing, Bool.false_eq_true, if_false] at h ⊢
      unfold sessionAllToAll at h ⊢
      simp only [planAllGather_internal_capturing capturing, Policy.internal_internal, Bool.true_eq_false, and_false,
        if_false] at h ⊢
      split_ifs at h ⊢
      · rfl
      · rfl
      · cases h
      · exact h
    · cases hprefers : policy.prefersNccl .allToAll tensor.nbytes session.scatterOpBytes false with
      | true =>
        right
        simp [leaves, nccl]
      | false =>
        unfold sessionAllToAll
        simp only [planAllGather_internal_capturing false, Policy.prefersNccl_capturing, Bool.true_eq_false, and_false,
          Bool.false_eq_true, if_false]
        split_ifs
        · exact .inl rfl
        · exact .inl rfl
        · exact .inr rfl
        · exact .inl rfl

/-- A captured call stays on the session wherever the session can carry it, and capture
changes a plan only where the eager one goes to NCCL or was to go there, exactly when the
call is no all-reduce that is diverted. -/
theorem capture_law_iff (call : Call) (tensor : TensorMeta) (limits : Option SessionLimits) (policy : Policy) :
    CaptureLaw (call.plan tensor limits) policy ↔ ¬(call = .allReduce ∧ Diverted tensor limits policy) := by
  cases call with
  | allReduce =>
    rw [show Call.allReduce.plan tensor limits = planAllReduce tensor limits from rfl, captureLaw_allReduce_iff]
    simp
  | allGather dim => exact iff_of_true (steady_allGather tensor dim limits).law nofun
  | reduceScatter dim => exact iff_of_true (steady_reduceScatter tensor dim limits).law nofun
  | allGatherv sizes => exact iff_of_true (steady_allGatherv sizes).law nofun
  | reduceScatterv sizes => exact iff_of_true (steady_reduceScatterv sizes).law nofun
  | bytesGather collective ncclOperation =>
    exact iff_of_true (steady_bytesGather collective ncclOperation).law nofun
  | allToAll => exact iff_of_true steady_allToAll.law nofun

theorem ceil_mul {a b : ℕ} (hb : 0 < b) : a ≤ ceil a b * b ∧ (a ≠ 0 → (ceil a b - 1) * b < a) := by
  have hdiv := Nat.div_add_mod (a + b - 1) b
  have hmod := Nat.mod_lt (a + b - 1) hb
  rw [Nat.mul_comm] at hdiv
  refine ⟨by rw [ceil]; omega, fun ha => ?_⟩
  rw [Nat.sub_mul, ceil]
  omega

/-- An all-reduce that stays on the session is cut into ops that hold the tensor, none of them in vain; an op of its own
cutting is whole packs within the dispatch ceiling. -/
theorem planAllReduce_fits {plan : Plan} (hdtype : tensor.dtype ∈ session.reduceDtypes)
    (h : planAllReduce tensor (some session) policy capturing = .ok plan) (hsircl : plan.backend = .sircl) :
    tensor.nbytes ≤ plan.ops * plan.piece ∧ (tensor.nbytes ≠ 0 → (plan.ops - 1) * plan.piece < ceil tensor.nbytes pack * pack) ∧
      (plan.method ≠ .large → plan.piece ≤ session.dispatch ∧ plan.piece % pack = 0) := by
  have hpack : 0 < pack := by decide
  obtain ⟨hpadded, -⟩ := ceil_mul (a := tensor.nbytes) hpack
  unfold planAllReduce at h
  dsimp only at h
  rw [if_neg (not_not.mpr hdtype)] at h
  split at h
  · rename_i hzero
    obtain rfl := Except.ok.inj h
    simp [empty, hzero]
  split at h
  · rename_i hdirect
    obtain rfl := Except.ok.inj h
    refine ⟨by simpa using hpadded, fun hne => ?_, fun _ => ⟨hdirect.1, Nat.mul_mod_left _ _⟩⟩
    rw [Nat.sub_self, Nat.zero_mul]
    exact (Nat.pos_of_ne_zero hne).trans_le hpadded
  split_ifs at h
  · obtain rfl := Except.ok.inj h
    cases hsircl
  · obtain rfl := Except.ok.inj h
    cases hsircl
  · obtain rfl := Except.ok.inj h
    unfold splitReduce at hsircl ⊢
    dsimp only at hsircl ⊢
    split
    · rename_i large hstated
      have hlarge : 0 < large := of_decide_eq_true (Option.filter_eq_some_iff.mp hstated).2
      obtain ⟨hhold, hneeded⟩ := ceil_mul (a := tensor.nbytes) hlarge
      exact ⟨hhold, fun hne => (hneeded hne).trans_le hpadded, fun hmethod => absurd rfl hmethod⟩
    · rename_i hstated
      rw [hstated] at hsircl
      dsimp only at hsircl
      split_ifs at hsircl ⊢ with hpiece
      · cases hsircl
      obtain ⟨hhold, hneeded⟩ := ceil_mul (a := ceil tensor.nbytes pack * pack) (hpack.trans_le (not_lt.mp hpiece))
      refine ⟨hpadded.trans hhold, fun hne => hneeded (by omega), fun _ => ⟨?_, Nat.mul_mod_left _ _⟩⟩
      exact (Nat.div_mul_le_self _ _).trans (Nat.div_mul_le_self _ _)
/-- Limits of a session of two ranks that sums `bfloat16`. -/
def pairLimits : SessionLimits where
  world := 2
  capacity := 65536
  dispatch := 65536
  gather := 65536
  reduceDtypes := ["bfloat16"]
  scatterDtypes := []
  allToAll := false
  perPeerOpBytes := none
  scatterOpOverride := none
  largePiece := none
  gatherPiece := none
  scatterPiece := none
  world_pos := Nat.two_pos

/-- The policy of a pair of Sparks with the operator's choice `auto`. -/
def pairPolicy : Policy := { topology := none, policyOverride := some .all }

/-- A captured all-reduce above the ceiling is cut. -/
theorem planAllReduce_fits_cut : ∃ plan, planAllReduce ⟨[100000], "bfloat16", 2, true⟩ (some pairLimits) pairPolicy true = .ok plan ∧
    200000 ≤ plan.ops * plan.piece := by
  obtain ⟨plan, hplan, hsircl⟩ : ∃ plan, planAllReduce ⟨[100000], "bfloat16", 2, true⟩ (some pairLimits) pairPolicy true = .ok plan ∧
    plan.backend = .sircl := ⟨_, rfl, rfl⟩
  exact ⟨plan, hplan, (planAllReduce_fits (by decide) hplan hsircl).1⟩

/-- A captured all-reduce of four 32-bit integers goes to NCCL, though the session could
gather and sum them. -/
theorem capture_law_fails : ¬∀ call tensor limits policy, CaptureLaw (Call.plan call tensor limits) policy := by
  intro h
  have hstays := (h .allReduce ⟨[4], "int32", 4, true⟩ (some pairLimits) pairPolicy).stays true (by decide +kernel)
  exact absurd hstays (by decide +kernel)

end SparkRing.CollectivePlanner
