import SparkRing.EngineTiles
import SparkRing.SirclPlans

/-!
# libsircl and SIRCL plan the same ops

The plan of a large reduction and the link op of an all-gather as the C library states them,
and their equality with the Python runtime's for one set of agreed settings. The library's
one-way reduce of a pair has no counterpart there and stands apart.
-/

namespace SparkRing.Engine

open Sircl (ringPrefix)

/-- The kernels take pack counts of 31 bits. -/
def packsFit (bytes : ℕ) : Bool := bytes / pack ≤ 2 ^ 31 - 1

/-- The link op of a large reduction. -/
inductive LargePlan
  | pieces
  | ring (bytes : ℕ)
  | chain (bytes : ℕ)
deriving DecidableEq, Repr

/-- The link op of a reduction whose body is `body` bytes (`sccl_large_reduce_plan`). -/
def largeReducePlan (body world : ℕ) (ringSchedule linkOn chain : Bool) : LargePlan :=
  if body = 0 ∨ world < 2 then .pieces
  else if ringSchedule then
    let ringBytes := body / (pack * world) * pack * world
    if linkOn = false ∨ ringBytes = 0 ∨ 2 ^ 31 ≤ ringBytes / world then .pieces else .ring ringBytes
  else if chain = false ∨ packsFit body = false then .pieces
  else .chain body

/-- The link op of an all-gather. -/
inductive LinkKind
  | ringGather
  | linkGather
deriving DecidableEq, Repr

/-- Which call reduces. -/
inductive Reduction
  | allReduce
  | reduce
deriving DecidableEq, Repr

/-- An op of a reduction as it is launched. -/
inductive ReduceOp
  | exchange (nbytes : ℕ)
  | ring (nbytes : ℕ)
  | chain (nbytes : ℕ)
  | piece (algorithm : Algorithm) (offset nbytes : ℕ)
  | tail (algorithm : Algorithm) (offset nbytes : ℕ)
deriving DecidableEq, Repr

namespace Settings

variable (s : Settings) {world : ℕ} {inp : Sircl.Session.Tensor} {dim : ℤ}

/-- The schedule as it runs for a collective of `nbytes`. -/
def effectiveSchedule (schedule : Schedule) (nbytes : ℕ) (collective : Collective) : Schedule :=
  if schedule = .ring ∧ (s.links.ringOn = false ∨ nbytes < s.schedules.ringMins collective) then .auto else schedule

/-- The link op that an all-gather of `shard` bytes per rank runs as. -/
def gatherLinkKind (shard : ℕ) : Option LinkKind :=
  let output := shard * s.world % word
  if s.linkOn = false ∨ shard = 0 ∨ shard % pack ≠ 0 ∨ 2 ^ 31 ≤ output then none
  else
    let schedule := s.effectiveSchedule s.schedules.gather output .gather
    if schedule = .ring then some .ringGather
    else if schedule = .pieces then none
    else if schedule = .chain ∨ s.schedules.chainMins .gather ≤ output then some .linkGather
    else none

/-- Two ranks exchange directly; `exchangeFn`: the exchange kernel is loaded. -/
def pairExchangeOk (exchangeFn : Bool) (chunk : ℕ) : Bool :=
  decide (s.world = 2) && exchangeFn && decide (s.gatherLinkKind chunk = some .ringGather)

def opAlgorithm (nbytes : ℕ) : Algorithm :=
  match s.sizes.algorithm with
  | some algorithm => algorithm
  | none => if nbytes ≤ s.sizes.oneshotMax then .oneshot else .twoshot

/-- The link op of a message whose body is `body` bytes. -/
def linkPlan (nbytes body : ℕ) : LargePlan :=
  if body ≠ 0 ∧ s.schedules.large ≠ .pieces then
    let schedule := s.effectiveSchedule s.schedules.large nbytes .reduce
    largeReducePlan body s.world (decide (schedule = .ring)) s.linkOn
      (s.chainOn && decide (schedule = .chain ∨ s.schedules.chainMins .reduce ≤ body))
  else .pieces

/-- The ops of a float sum of `nbytes` over two ranks or more (`reduce_into`), within `fuel`
tests of the piece loop. -/
def reduceInto (exchangeFn : Bool) (call : Reduction) (nbytes fuel : ℕ) : Option (List ReduceOp) :=
  if nbytes = 0 then some []
  else if call = .reduce ∧ nbytes % pack = 0 ∧ s.pairExchangeOk exchangeFn nbytes then some [.exchange nbytes]
  else
    let body := nbytes / pack * pack
    let tail := nbytes - body
    let link : List ReduceOp × ℕ :=
      match s.linkPlan nbytes body with
      | .pieces => ([], 0)
      | .ring bytes => ([.ring bytes], bytes)
      | .chain bytes => ([.chain bytes], bytes)
    match TileLoop.columns word body s.sizes.largePiece fuel link.2 with
    | none => none
    | some offsets =>
      some (link.1 ++
        offsets.map (fun offset =>
          let piece := if body - offset < s.sizes.largePiece then body - offset else s.sizes.largePiece
          .piece (s.opAlgorithm piece) offset piece) ++
        if tail ≠ 0 then [.tail (s.opAlgorithm pack) body tail] else [])

end Settings

/-- The library's algorithm under SIRCL's name. -/
def Algorithm.sircl : Algorithm → Sircl.Algorithm
  | .oneshot => .oneshot
  | .twoshot => .twoshot

/-- A library op under SIRCL's name; the exchange has none. -/
def ReduceOp.sircl : ReduceOp → Option Sircl.Session.Op
  | .exchange _ => none
  | .ring nbytes => some (.ring nbytes)
  | .chain nbytes => some (.chain nbytes)
  | .piece algorithm offset nbytes => some (.piece algorithm.sircl offset nbytes)
  | .tail algorithm offset nbytes => some (.tail algorithm.sircl offset nbytes)

/-- The library's settings and the session's say the same: schedules, minimums, what is
available, sizes and the one-shot limit; the session has the library's two algorithms, a
gather capacity and every Spark of its fabric. -/
structure Same (s : Settings) (session : Sircl.Session) : Prop where
  world : session.worldSize = s.world
  large : session.largeSchedule = s.schedules.large
  gather : session.gatherSchedule = s.schedules.gather
  ring : session.ringAvailable = (s.links.ringOn && s.linkOn)
  link : session.linkAvailable = s.linkOn
  chain : session.chainAvailable = s.chainOn
  chainMins : session.chainMins = s.schedules.chainMins
  ringMins : session.ringMins = s.schedules.ringMins
  piece : session.largePieceBytes = s.sizes.largePiece
  oneshotMax : session.oneshotMaxBytes = s.sizes.oneshotMax
  algorithm : session.algorithm = s.sizes.algorithm.map Algorithm.sircl
  large_twoshot : session.largeAlgorithm = .twoshot
  twoshot : session.available .twoshot = true
  no_swing : session.swingAboveBytes = 0
  capacity : session.maxGatherBytes ≠ 0
  whole : session.subsetRing = false

variable {s : Settings} {session : Sircl.Session} {nbytes body : ℕ} {collective : Collective} {schedule : Schedule}

/-- Where the session has the same ring, schedules run the same; a ring schedule is only
accepted with its links loaded. -/
theorem Same.schedule_eq (same : Same s session) (hlinked : schedule = .ring → s.linkOn = true) :
    session.schedule schedule nbytes collective = s.effectiveSchedule schedule nbytes collective := by
  unfold Sircl.Session.schedule Settings.effectiveSchedule
  rw [same.whole, same.ring, same.ringMins, if_neg (by decide)]
  by_cases hring : schedule = .ring
  · rw [hlinked hring, Bool.and_true]
  · rw [if_neg (fun h => hring h.1), if_neg (fun h => hring h.1)]

/-- An accepted ring schedule has its links. -/
theorem Settings.Accepted.linked (h : s.Accepted) (hworld : 2 ≤ s.world)
    (hring : s.schedules.large = .ring ∨ s.schedules.gather = .ring) : s.linkOn = true := by
  rw [h.linkOn]
  rcases hring with hlarge | hgather
  · simp [hlarge, Nat.lt_of_lt_of_le Nat.one_lt_two hworld]
  · simp [hgather, Nat.lt_of_lt_of_le Nat.one_lt_two hworld]

/-- The two choose one algorithm for a size. -/
theorem Same.algorithm_eq (same : Same s session) : session.selectAlgorithm nbytes = (s.opAlgorithm nbytes).sircl := by
  unfold Sircl.Session.selectAlgorithm Settings.opAlgorithm
  rw [same.algorithm, same.oneshotMax, same.large_twoshot, same.twoshot, same.no_swing]
  cases s.sizes.algorithm with
  | some => rfl
  | none =>
    by_cases hle : nbytes ≤ s.sizes.oneshotMax
    · rw [if_pos (Or.inl hle), if_pos hle]
      rfl
    · rw [if_neg (by simp [hle]), if_neg (by simp), if_neg hle]
      rfl

/-- The two write the ring's prefix differently. -/
theorem ringPrefix_eq : ringPrefix body world = body / (pack * world) * pack * world := by
  rw [ringPrefix, Nat.mul_comm world pack, Nat.mul_assoc, Nat.mul_assoc, Nat.mul_comm world pack]

/-- The link op of SIRCL's plan. -/
def sirclPlan (aligned world : ℕ) (chainFrom ringFrom : Option ℕ) : LargePlan :=
  match ringFrom with
  | some least =>
    if Sircl.ringPrefix aligned world ≠ 0 ∧ least ≤ Sircl.ringPrefix aligned world then .ring (Sircl.ringPrefix aligned world)
    else .pieces
  | none =>
    match chainFrom with
    | some least => if aligned ≠ 0 ∧ least ≤ aligned then .chain aligned else .pieces
    | none => .pieces

/-- The link op as a piece of SIRCL's plan, and where the other pieces start. -/
def LargePlan.sircl : LargePlan → List Sircl.ReducePiece × ℕ
  | .pieces => ([], 0)
  | .ring bytes => ([{ offset := 0, nbytes := bytes, ring := true }], bytes)
  | .chain bytes => ([{ offset := 0, nbytes := bytes, chain := true }], bytes)

/-- SIRCL's plan is its link op, the pieces after it and the tail; a ring is asked for only
where no chain is. -/
theorem reducePlan_eq {total piece : ℕ} {chainFrom ringFrom : Option ℕ} (hpiece : pack ≤ piece)
    (hpacks : piece % pack = 0) (hworld : 2 ≤ world) (honce : ringFrom.isSome → chainFrom = none) :
    Sircl.reducePlan total piece chainFrom ringFrom world =
      let aligned := total / pack * pack
      let link := (sirclPlan aligned world chainFrom ringFrom).sircl
      .ok (link.1 ++
        (TileLoop.range link.2 aligned piece).map (fun offset => { offset, nbytes := min piece (aligned - offset) }) ++
        if aligned < total then [{ offset := aligned, nbytes := total - aligned, padded := true }] else []) := by
  unfold Sircl.reducePlan sirclPlan
  rw [if_neg (by omega), if_neg (by omega)]
  cases ringFrom with
  | some least =>
    rw [honce rfl]
    by_cases hring : ringPrefix (total / pack * pack) world ≠ 0 ∧ least ≤ ringPrefix (total / pack * pack) world
    · simp only [if_pos hring, LargePlan.sircl, ne_eq, reduceCtorEq, not_false_eq_true, if_true, List.append_nil]
    · simp only [if_neg hring, LargePlan.sircl, ne_eq, not_true, if_false, List.append_nil]
  | none =>
    cases chainFrom with
    | none => simp only [LargePlan.sircl, ne_eq, not_true, if_false, List.append_nil]
    | some least =>
      by_cases hchain : total / pack * pack ≠ 0 ∧ least ≤ total / pack * pack
      · simp only [LargePlan.sircl, ne_eq, reduceCtorEq, not_true, not_false_eq_true, if_true,
          if_false, List.nil_append, hchain.1, hchain.2, and_self]
      · simp only [if_neg hchain, LargePlan.sircl, ne_eq, true_and, not_true, if_false, List.append_nil]

/-- A ring prefix is whole groups: it is empty or holds one. -/
theorem group_le_ringPrefix (h : ringPrefix body world ≠ 0) : pack * world ≤ ringPrefix body world := by
  have hquotient : body / (pack * world) ≠ 0 := by
    intro hzero
    rw [ringPrefix_eq, hzero, Nat.zero_mul, Nat.zero_mul] at h
    exact h rfl
  rw [ringPrefix_eq, Nat.mul_assoc]
  exact Nat.le_mul_of_pos_left _ (Nat.pos_of_ne_zero hquotient)

/-- The chain and ring bounds that a session hands to its plan. -/
def chainBound (session : Sircl.Session) (schedule : Schedule) : Option ℕ :=
  if schedule = .ring then none
  else if session.chainAvailable ∧ schedule ≠ .pieces then
    some (if schedule = .chain then pack else max pack (session.chainMins .reduce))
  else none

section

variable (same : Same s session) (haccepted : s.Accepted) (hworld : 2 ≤ s.world)

include same haccepted hworld

/-- The library's link op is the one of SIRCL's plan, where the ring's chunk and the body fit
the kernels' arguments. -/
theorem Same.linkPlan_eq (hbody : body % pack = 0) (hchunk : ringPrefix body s.world / s.world < 2 ^ 31) (hfit : packsFit body = true) :
    s.linkPlan nbytes body = sirclPlan body s.world (chainBound session (s.effectiveSchedule s.schedules.large nbytes .reduce))
        (if s.effectiveSchedule s.schedules.large nbytes .reduce = .ring then some (pack * s.world) else none) := by
  unfold Settings.linkPlan
  rcases Nat.eq_zero_or_pos body with hzero | hpos
  · subst hzero
    have hgroups : ringPrefix 0 s.world = 0 := by simp [ringPrefix]
    rw [if_neg (by simp)]
    unfold sirclPlan
    rw [hgroups]
    split
    · rw [if_neg (by simp)]
    split
    · rw [if_neg (by simp)]
    · rfl
  · by_cases hpieces : s.schedules.large = .pieces
    · have hsame : s.effectiveSchedule s.schedules.large nbytes .reduce = .pieces := by
        rw [hpieces]
        rfl
      rw [if_neg (by simp [hpieces]), hsame]
      simp [sirclPlan, chainBound]
    rw [if_pos ⟨hpos.ne', hpieces⟩]
    unfold largeReducePlan
    rw [if_neg (by omega)]
    by_cases hring : s.effectiveSchedule s.schedules.large nbytes .reduce = .ring
    · have hlarge : s.schedules.large = .ring := by
        unfold Settings.effectiveSchedule at hring
        split_ifs at hring with hfallback
        exact hring
      have hlinked := haccepted.linked hworld (Or.inl hlarge)
      rw [hring, decide_eq_true rfl, if_pos rfl, if_pos rfl, hlinked, ← ringPrefix_eq]
      unfold sirclPlan
      dsimp only
      by_cases hempty : ringPrefix body s.world = 0
      · rw [if_pos (by simp [hempty]), if_neg (by simp [hempty])]
      · rw [if_neg (by simpa [hempty] using hchunk), if_pos ⟨hempty, group_le_ringPrefix hempty⟩]
    · have hsome : s.effectiveSchedule s.schedules.large nbytes .reduce ≠ .pieces := by
        unfold Settings.effectiveSchedule
        split_ifs
        · decide
        · exact hpieces
      have hbound : chainBound session (s.effectiveSchedule s.schedules.large nbytes .reduce) =
          if s.chainOn then
            some (if s.effectiveSchedule s.schedules.large nbytes .reduce = .chain then pack
              else max pack (s.schedules.chainMins .reduce))
          else none := by
        unfold chainBound
        rw [if_neg hring, same.chain, same.chainMins]
        cases s.chainOn with
        | false => rw [if_neg (by simp), if_neg (by decide)]
        | true => rw [if_pos ⟨rfl, hsome⟩, if_pos rfl]
      rw [decide_eq_false hring, if_neg (by decide), if_neg hring, hbound]
      unfold sirclPlan
      cases s.chainOn with
      | false => rfl
      | true =>
        have hleast : pack ≤ body := Nat.le_of_dvd hpos (Nat.dvd_of_mod_eq_zero hbody)
        rw [if_pos rfl]
        dsimp only
        by_cases hchain : s.effectiveSchedule s.schedules.large nbytes .reduce = .chain
        · rw [hchain, if_pos rfl, if_neg (by simp [hfit]), if_pos ⟨hpos.ne', hleast⟩]
        rw [if_neg hchain]
        by_cases hmin : s.schedules.chainMins .reduce ≤ body
        · rw [if_neg (by simp [hfit, hmin]), if_pos ⟨hpos.ne', Nat.max_le.mpr ⟨hleast, hmin⟩⟩]
        · rw [if_pos (by simp [hchain, hmin]), if_neg (by simp [hmin])]

/-- The session's plan is its link op, the pieces and the tail, with the library's link op. -/
theorem Same.largeReducePlan_eq
    (hchunk : ringPrefix (nbytes / pack * pack) s.world / s.world < 2 ^ 31)
    (hfit : packsFit (nbytes / pack * pack) = true) :
    session.largeReducePlan nbytes =
      let aligned := nbytes / pack * pack
      let link := (s.linkPlan nbytes aligned).sircl
      .ok (link.1 ++
        (TileLoop.range link.2 aligned s.sizes.largePiece).map
          (fun offset => { offset, nbytes := min s.sizes.largePiece (aligned - offset) }) ++
        if aligned < nbytes then [{ offset := aligned, nbytes := nbytes - aligned, padded := true }] else []) := by
  have hschedule : session.schedule session.largeSchedule nbytes .reduce =
      s.effectiveSchedule s.schedules.large nbytes .reduce := by
    rw [same.large]
    exact same.schedule_eq fun hring => haccepted.linked hworld (Or.inl hring)
  have hbody : nbytes / pack * pack % pack = 0 := Nat.mul_mod_left _ _
  unfold Sircl.Session.largeReducePlan
  dsimp only
  rw [hschedule, same.piece, same.world, reducePlan_eq haccepted.sizes.piece_pos haccepted.sizes.piece_packs hworld,
    same.linkPlan_eq haccepted hworld hbody hchunk hfit]
  · rfl
  intro hring
  by_cases hsome : s.effectiveSchedule s.schedules.large nbytes .reduce = .ring
  · exact if_pos hsome
  · rw [if_neg hsome] at hring
    cases hring

/-- A reduction of the library launches, in the same order, the ops that the session's
all-reduce launches. -/
theorem Same.reduceInto_eq {exchangeFn : Bool}
    {call : Reduction} (hcall : ¬(call = .reduce ∧ nbytes % pack = 0 ∧ s.pairExchangeOk exchangeFn nbytes = true))
    (hchunk : ringPrefix (nbytes / pack * pack) s.world / s.world < 2 ^ 31) (hfit : packsFit (nbytes / pack * pack) = true) :
    ∃ ops plan, s.reduceInto exchangeFn call nbytes (nbytes + 1) = some ops ∧ session.allReduceLarge nbytes = .ok plan ∧
      ops.map ReduceOp.sircl = plan.map some := by
  have hplan := same.largeReducePlan_eq haccepted hworld hchunk hfit
  have hpiece : 0 < s.sizes.largePiece := Nat.lt_of_lt_of_le (by decide) haccepted.sizes.piece_pos
  have hroom : nbytes / pack * pack + s.sizes.largePiece ≤ word := by
    have hlt := haccepted.sizes.piece_lt
    have hbody : nbytes / pack * pack / pack ≤ 2 ^ 31 - 1 := by simpa [packsFit] using hfit
    unfold word pack at *
    omega
  have hle : nbytes / pack * pack ≤ nbytes := Nat.div_mul_le_self _ _
  unfold Sircl.Session.allReduceLarge Settings.reduceInto
  rw [hplan]
  dsimp only
  rcases Nat.eq_zero_or_pos nbytes with hzero | hpos
  · subst hzero
    refine ⟨_, _, if_pos rfl, rfl, ?_⟩
    have hlink : (s.linkPlan 0 (0 / pack * pack)).sircl = ([], 0) := by
      rfl
    rw [hlink]
    simp [TileLoop.range_nil hpiece]
  rw [if_neg hpos.ne', if_neg hcall]
  have hlink : (match s.linkPlan nbytes (nbytes / pack * pack) with
      | .pieces => (([] : List ReduceOp), 0)
      | .ring bytes => ([.ring bytes], bytes)
      | .chain bytes => ([.chain bytes], bytes)).2 = (s.linkPlan nbytes (nbytes / pack * pack)).sircl.2 := by
    cases s.linkPlan nbytes (nbytes / pack * pack) <;> rfl
  rw [hlink, TileLoop.columns_eq_range hpiece hroom _ _ (by omega)]
  refine ⟨_, _, rfl, rfl, ?_⟩
  simp only [List.map_append, List.map_map]
  congr 1
  · congr 1
    · cases s.linkPlan nbytes (nbytes / pack * pack) <;> rfl
    refine List.map_congr_left fun offset _ => ?_
    have hmin : (if nbytes / pack * pack - offset < s.sizes.largePiece then nbytes / pack * pack - offset
        else s.sizes.largePiece) = min s.sizes.largePiece (nbytes / pack * pack - offset) := by
      split_ifs <;> omega
    show some (Sircl.Session.Op.piece _ _ _) = some (session.opOf _)
    rw [hmin]
    simp only [Sircl.Session.opOf, Bool.false_eq_true, if_false, same.algorithm_eq]
  · by_cases htail : nbytes / pack * pack < nbytes
    · rw [if_pos (by omega), if_pos htail]
      show [some (Sircl.Session.Op.tail _ _ _)] = [some (session.opOf _)]
      simp only [Sircl.Session.opOf, Bool.false_eq_true, if_false, if_true, same.algorithm_eq]
    · rw [if_neg (by omega), if_neg htail]
      rfl

omit same haccepted hworld in
/-- A shard of one piece of the output has the shape of both. -/
theorem Same.gatherShape_iff (same : Same s session) (hshape : inp.shape ≠ []) (houter : inp.outer dim = 1) :
    session.gatherShape inp dim = false ↔ inp.bytes = 0 ∨ inp.bytes % pack ≠ 0 ∨ 2 ^ 31 ≤ inp.bytes * s.world := by
  unfold Sircl.Session.gatherShape
  rw [if_neg (by simp [same.capacity, hshape]), same.world]
  simp only [Bool.not_eq_false', decide_eq_true_eq, houter, ne_eq, not_true, false_or]

/-- The library gathers over a ring for exactly the shards for which the session does, and over
the chain likewise. -/
theorem Same.gatherLinkKind_iff (hshape : inp.shape ≠ []) (houter : inp.outer dim = 1) (hword : inp.bytes * s.world < word) :
    (s.gatherLinkKind inp.bytes = some .ringGather ↔ session.gatherUsesRing inp dim = true) ∧
      (s.gatherLinkKind inp.bytes = some .linkGather ↔ session.gatherUsesChain inp dim = true) := by
  have hschedule : session.schedule session.gatherSchedule (inp.bytes * session.worldSize) .gather =
      s.effectiveSchedule s.schedules.gather (inp.bytes * s.world) .gather := by
    rw [same.gather, same.world]
    exact same.schedule_eq fun hring => haccepted.linked hworld (Or.inr hring)
  have hkind := same.gatherShape_iff hshape houter
  unfold Settings.gatherLinkKind Sircl.Session.gatherUsesRing Sircl.Session.gatherUsesChain
  rw [hschedule, same.whole, if_neg (by simp : ¬(false = true ∧ _)), same.link, same.chainMins, Nat.mod_eq_of_lt hword,
    same.world]
  by_cases hrefused : session.gatherShape inp dim = false
  · have hnone := hkind.mp hrefused
    rw [if_pos (Or.inr hnone), if_pos hrefused, if_pos (Or.inr hrefused)]
    simp
  have hshard := (not_congr hkind).mp hrefused
  rw [if_neg hrefused]
  cases hlink : s.linkOn with
  | false =>
    -- a ring schedule has its links, so neither runs without them
    have hnot : s.effectiveSchedule s.schedules.gather (inp.bytes * s.world) .gather ≠ .ring := by
      intro hring
      unfold Settings.effectiveSchedule at hring
      split_ifs at hring
      rw [haccepted.linked hworld (Or.inr hring)] at hlink
      cases hlink
    simp [hnot]
  | true =>
    have hshaped : ¬(true = false ∨ session.gatherShape inp dim = false) := by simpa using hrefused
    rw [if_neg (by simpa using hshard), if_neg hshaped]
    cases s.effectiveSchedule s.schedules.gather (inp.bytes * s.world) .gather with
    | ring | pieces | chain | auto => simp

/-- For equal settings of an accepted record, a float sum launches the session's all-reduce ops
in the same order wherever the ring's chunk and the body fit the kernels' arguments (a reduce
of a pair as one exchange apart), and every all-gather whose shards land in one piece takes
the same link op. -/
theorem large_ops_agree :
    (∀ exchangeFn call nbytes, ¬(call = .reduce ∧ nbytes % pack = 0 ∧ s.pairExchangeOk exchangeFn nbytes = true) →
      Sircl.ringPrefix (nbytes / pack * pack) s.world / s.world < 2 ^ 31 → packsFit (nbytes / pack * pack) = true →
      ∃ ops plan, s.reduceInto exchangeFn call nbytes (nbytes + 1) = some ops ∧ session.allReduceLarge nbytes = .ok plan ∧
        ops.map ReduceOp.sircl = plan.map some) ∧
    (∀ (inp : Sircl.Session.Tensor) dim, inp.shape ≠ [] → inp.outer dim = 1 → inp.bytes * s.world < word →
      (s.gatherLinkKind inp.bytes = some .ringGather ↔ session.gatherUsesRing inp dim = true) ∧
        (s.gatherLinkKind inp.bytes = some .linkGather ↔ session.gatherUsesChain inp dim = true)) :=
  ⟨fun _ _ _ hcall hchunk hfit => same.reduceInto_eq haccepted hworld hcall hchunk hfit,
    fun _ _ hshape houter hword => same.gatherLinkKind_iff haccepted hworld hshape houter hword⟩

end

/-- The session of a record's settings. -/
def sessionOf (s : Settings) : Sircl.Session where
  worldSize := s.world
  largeSchedule := s.schedules.large
  gatherSchedule := s.schedules.gather
  ringAvailable := s.links.ringOn && s.linkOn
  linkAvailable := s.linkOn
  chainAvailable := s.chainOn
  ring_links := fun h => (Bool.and_eq_true_iff.mp h).2
  chainMins := s.schedules.chainMins
  ringMins := s.schedules.ringMins
  largePieceBytes := s.sizes.largePiece
  maxGatherBytes := mib
  subsetRing := false
  algorithm := s.sizes.algorithm.map Algorithm.sircl
  largeAlgorithm := .twoshot
  oneshotMaxBytes := s.sizes.oneshotMax
  swingAboveBytes := 0
  available := fun _ => true

theorem same_sessionOf : Same s (sessionOf s) where
  world := rfl
  large := rfl
  gather := rfl
  ring := rfl
  link := rfl
  chain := rfl
  chainMins := rfl
  ringMins := rfl
  piece := rfl
  oneshotMax := rfl
  algorithm := rfl
  large_twoshot := rfl
  twoshot := rfl
  no_swing := rfl
  capacity := by
    show mib ≠ 0
    decide
  whole := rfl

/-- The default pair reduces 5 MiB and a tail as its session does, and gathers shards of 1 MiB over the ring. -/
theorem default_pair_agrees : ∃ s, readSettings (fun _ => none) 2 false = .ok s ∧
    (∃ ops plan, s.reduceInto true .allReduce (5 * mib + 40) (5 * mib + 41) = some ops ∧
      (sessionOf s).allReduceLarge (5 * mib + 40) = .ok plan ∧ ops.map ReduceOp.sircl = plan.map some) ∧
    (s.gatherLinkKind mib = some .ringGather ↔ (sessionOf s).gatherUsesRing ⟨[mib], 1⟩ 0 = true) := by
  obtain ⟨s, hread, hworld⟩ : ∃ s, readSettings (fun _ => none) 2 false = .ok s ∧ s.world = 2 :=
    exists_of_read (by decide +kernel)
  have hboth := large_ops_agree same_sessionOf (readSettings_accepted hread).1 (by omega)
  have hreduce := hboth.1 true .allReduce (5 * mib + 40) (by simp) (by rw [hworld]; decide) (by decide)
  have hgather := (hboth.2 ⟨[mib], 1⟩ 0 (by simp) (by decide) (by rw [hworld]; decide)).1
  exact ⟨s, hread, hreduce, hgather⟩

/-- Where the two differ: the reduce of a pair is one exchange and not the all-reduce's ring op;
a session that runs Swing above a size, one without a gather capacity and one of some of the
fabric's ranks have no counterpart in the library. -/
theorem plans_differ :
    (∃ s, readSettings (fun _ => none) 2 false = .ok s ∧ Same s (sessionOf s) ∧
      s.reduceInto true .reduce (2 * mib) 10 = some [.exchange (2 * mib)] ∧
      ((sessionOf s).allReduceLarge (2 * mib)).toOption = some [.ring (2 * mib)] ∧
      s.gatherLinkKind mib = some .ringGather ∧
      ({ sessionOf s with maxGatherBytes := 0 } : Sircl.Session).gatherUsesRing ⟨[mib], 1⟩ 0 = false) ∧
    (∃ s, readSettings (fun name => if name = "SIRCL_GATHER_SCHEDULE" then some "auto" else none) 4 false = .ok s ∧
      s.reduceInto true .allReduce (2 * mib) 10 = some [.piece .twoshot 0 (2 * mib)] ∧
      (({ sessionOf s with swingAboveBytes := mib } : Sircl.Session).allReduceLarge (2 * mib)).toOption =
        some [.piece .swing 0 (2 * mib)] ∧
      s.gatherLinkKind (2 * mib) = some .linkGather ∧
      ({ sessionOf s with subsetRing := true } : Sircl.Session).gatherUsesChain ⟨[2 * mib], 1⟩ 0 = false) := by
  constructor
  · obtain ⟨s, hread, hview⟩ : ∃ s, readSettings (fun _ => none) 2 false = .ok s ∧
        (s.reduceInto true .reduce (2 * mib) 10, ((sessionOf s).allReduceLarge (2 * mib)).toOption, s.gatherLinkKind mib,
          ({ sessionOf s with maxGatherBytes := 0 } : Sircl.Session).gatherUsesRing ⟨[mib], 1⟩ 0) =
        (some [.exchange (2 * mib)], some [.ring (2 * mib)], some .ringGather, false) :=
      exists_of_read (by decide +kernel)
    simp only [Prod.mk.injEq] at hview
    exact ⟨s, hread, same_sessionOf, hview⟩
  obtain ⟨s, hread, hview⟩ : ∃ s,
      readSettings (fun name => if name = "SIRCL_GATHER_SCHEDULE" then some "auto" else none) 4 false = .ok s ∧
      (s.reduceInto true .allReduce (2 * mib) 10,
        (({ sessionOf s with swingAboveBytes := mib } : Sircl.Session).allReduceLarge (2 * mib)).toOption,
        s.gatherLinkKind (2 * mib),
        ({ sessionOf s with subsetRing := true } : Sircl.Session).gatherUsesChain ⟨[2 * mib], 1⟩ 0) =
      (some [.piece .twoshot 0 (2 * mib)], some [.piece .swing 0 (2 * mib)], some .linkGather, false) :=
    exists_of_read (by decide +kernel)
  simp only [Prod.mk.injEq] at hview
  exact ⟨s, hread, hview⟩

end SparkRing.Engine
