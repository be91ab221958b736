import SparkRing.OrderedDict
import SparkRing.RoutePairing

/-!
# Setup agreement

Every rank compares all ranks' setup records and connects only if no reason speaks
against it. The comparison runs over the fields of rank 0's record. So it is complete,
and the same whichever rank is rank 0, exactly where ranks that all pass the comparison
with one rank's record have no other fields than that rank.
-/

namespace SparkRing.SetupAgreement

open Routes OrderedDict

/-- A value of a setup record; `False` is the number zero. -/
inductive Value (α : Type)
  | none
  | number (n : ℤ)
  | other (x : α)
  deriving DecidableEq

/-- What a rank contributes: its error, and its setup record. -/
structure Status (α : Type) where
  error : Option String
  /-- Every field of the record that is not rank-local. -/
  fields : Dict String (Value α)
  laneCounts : Option (List (Value α))
  routeMap : Option RouteMap

/-- A reason why construction must fail. -/
inductive Failure (α : Type)
  | error (rank : ℕ) (text : String)
  | subsetRing (rank : ℕ)
  /-- Fields with rank 0's value and the rank's. -/
  | configuration (rank : ℕ) (differing : List (String × Value α × Value α))
  | laneCounts (rank : ℕ) (counts : List (Value α)) (lanes : Value α)
  | pairing (text : String)

/-- Problems with the class of one lane, where no layout is known. -/
def classProblems (roles : Roles) (routeMaps : List RouteMap) (rank peer lane : ℕ) (device : String) :
    Except String (List String) :=
  match routeMaps[peer]? with
  | none => .error "list index out of range"
  | some theirs =>
    match theirs.get? rank with
    | none => .error s!"{rank}"
    | some devices =>
      match devices[lane]? with
      | none => .error "tuple index out of range"
      | some theirsDevice =>
        match roles.roleOf noMapping device, roles.roleOf noMapping theirsDevice with
        | some mine, some theirs =>
          if mine.secondary = theirs.secondary then .ok []
          else
            let function := if mine.secondary then "secondary" else "primary"
            .ok [s!"lane {lane} of rank {rank} toward rank {peer} uses a {function} function and rank {peer}'s lane {lane} does not"]
        | _, _ => .ok []

/-- Problems with the lanes of a group. -/
def checkLanes (roles : Roles) (layout : Option Layout) (routeMaps : List RouteMap) : Except String (List String) :=
  match layout with
  | some layout => checkComplementary roles noMapping layout routeMaps
  | none => do
    let problems ← routeMaps.zipIdx.mapM fun entry => entry.1.items.mapM fun item => item.2.zipIdx.mapM fun device =>
      classProblems roles routeMaps entry.2 item.1 device.2 device.1
    .ok problems.flatten.flatten.flatten

variable {α : Type} [DecidableEq α]

/-- A field, or what stands for one that is absent. -/
def field (get : String → Option (Value α)) (key : String) (absent : Value α) : Value α := (get key).getD absent

/-- The lane counts that a rank must have. -/
def expected (world : ℕ) (lanes : Value α) (rank : ℕ) : List (Value α) :=
  (List.range world).map fun peer => if peer = rank then .number 0 else lanes

/-- A failure of each rank that has one. -/
def failuresOf (statuses : List (Status α)) (failure : ℕ → Status α → Option (Failure α)) : List (Failure α) :=
  statuses.zipIdx.filterMap fun (status, rank) => failure rank status

/-- How the ranks' settings differ from a reference. -/
def disagreements (statuses : List (Status α)) (reference : Dict String (Value α)) : List (Failure α) :=
  let subsetRing := field reference.get? "subset_ring" (.number 0)
  let lanes := field reference.get? "lane_count" .none
  failuresOf statuses (fun rank status =>
    if field status.fields.get? "subset_ring" (.number 0) ≠ subsetRing then some (.subsetRing rank) else none) ++
  failuresOf statuses (fun rank status =>
    let differing := reference.items.filterMap fun (key, value) =>
      if field status.fields.get? key .none ≠ value then some (key, value, field status.fields.get? key .none) else none
    if differing ≠ [] then some (.configuration rank differing) else none) ++
  failuresOf statuses fun rank status =>
    let counts := status.laneCounts.getD []
    if counts ≠ expected statuses.length lanes rank then some (.laneCounts rank counts lanes) else none

/-- The route maps of a group. -/
def routeMaps (statuses : List (Status α)) : List RouteMap := statuses.map fun status => status.routeMap.getD ⟨[], .nil⟩

/-- Every reason why construction must fail. -/
def agreementFailures (roles : Roles) (statuses : List (Status α)) (layout : Option Layout) :
    Except String (List (Failure α)) :=
  let errors := failuresOf statuses fun rank status => status.error.map (.error rank)
  if errors ≠ [] then .ok errors
  else
    match statuses[0]? with
    | none => .error "list index out of range"
    | some reference =>
      let failures := disagreements statuses reference.fields
      if failures ≠ [] then .ok failures
      else if ∀ status ∈ statuses, status.routeMap.isSome then do
        let problems ← checkLanes roles layout (routeMaps statuses)
        .ok (problems.map .pairing)
      else .error "'route_map'"

/-- A rank of a group of some size passes the comparison with a reference. -/
structure Fits (world : ℕ) (reference : String → Option (Value α)) (rank : ℕ) (status : Status α) : Prop where
  error : status.error = none
  subsetRing : field status.fields.get? "subset_ring" (.number 0) = field reference "subset_ring" (.number 0)
  fields : ∀ key value, reference key = some value → field status.fields.get? key .none = value
  laneCounts : status.laneCounts.getD [] = expected world (field reference "lane_count" .none) rank
  routeMap : status.routeMap.isSome

/-- A group passes all checks with a reference. -/
structure Agrees (roles : Roles) (statuses : List (Status α)) (layout : Option Layout)
    (reference : String → Option (Value α)) : Prop where
  ranks : ∀ rank status, statuses[rank]? = some status → Fits statuses.length reference rank status
  paired : checkLanes roles layout (routeMaps statuses) = .ok []

variable {roles : Roles} {statuses : List (Status α)} {layout : Option Layout}

omit [DecidableEq α] in
theorem failuresOf_nil {failure : ℕ → Status α → Option (Failure α)} :
    failuresOf statuses failure = [] ↔ ∀ rank status, statuses[rank]? = some status → failure rank status = none := by
  simp only [failuresOf, List.filterMap_eq_nil_iff, Prod.forall, List.mk_mem_zipIdx_iff_getElem?]
  exact forall_comm

/-- A stage that reports nothing leaves the result to the next. -/
theorem stage_iff {ε β : Type*} {failures : List β} {rest : Except ε (List β)} :
    (if failures ≠ [] then .ok failures else rest) = .ok [] ↔ failures = [] ∧ rest = .ok [] := by
  by_cases h : failures = [] <;> simp [h]

/-- Construction goes on exactly where the group passes all checks with rank 0's fields. -/
theorem accepted_iff : agreementFailures roles statuses layout = .ok [] ↔
    ∃ reference, statuses[0]? = some reference ∧ Agrees roles statuses layout reference.fields.get? := by
  rw [agreementFailures, stage_iff]
  cases statuses[0]? with
  | none => simp
  | some reference =>
    simp only [stage_iff, Option.some.injEq, exists_eq_left']
    have hlanes : (if ∀ status ∈ statuses, status.routeMap.isSome then do
          let problems ← checkLanes roles layout (routeMaps statuses)
          .ok (problems.map .pairing)
        else .error "'route_map'" : Except String (List (Failure α))) = .ok [] ↔
        (∀ status ∈ statuses, status.routeMap.isSome) ∧ checkLanes roles layout (routeMaps statuses) = .ok [] := by
      by_cases hmaps : ∀ status ∈ statuses, status.routeMap.isSome
      · rw [if_pos hmaps, and_iff_right hmaps]
        cases checkLanes roles layout (routeMaps statuses) <;> simp [bind, Except.bind]
      · simp [hmaps]
    rw [hlanes]
    simp only [disagreements, List.append_eq_nil_iff, failuresOf_nil, ite_eq_right_iff, reduceCtorEq, imp_false, not_not,
      List.filterMap_eq_nil_iff, Prod.forall, Option.map_eq_none_iff, ← Dict.get?_eq_some_iff]
    constructor
    · rintro ⟨herror, ⟨⟨hring, hfields⟩, hcounts⟩, hmap, hpaired⟩
      exact ⟨fun rank status h => ⟨herror rank status h, hring rank status h, fun key value hkey =>
        hfields rank status h key value hkey, hcounts rank status h, hmap status (List.mem_of_getElem? h)⟩, hpaired⟩
    · rintro ⟨hranks, hpaired⟩
      exact ⟨fun rank status h => (hranks rank status h).error, ⟨⟨fun rank status h => (hranks rank status h).subsetRing,
        fun rank status h => (hranks rank status h).fields⟩, fun rank status h => (hranks rank status h).laneCounts⟩,
        fun status hmem => (List.getElem?_of_mem hmem).elim fun rank h => (hranks rank status h).routeMap, hpaired⟩

section Renumbered

variable {π : Equiv.Perm ℕ} {β γ : Type*} {R : β → γ → Prop} {l : List β} {l' : List γ}

/-- Lists whose elements at corresponding ranks are related. -/
def Renumbers (π : Equiv.Perm ℕ) (R : β → γ → Prop) (l : List β) (l' : List γ) : Prop :=
  ∀ rank : ℕ, Option.Rel R l[rank]? l'[π rank]?

/-- What holds of every element holds of every renumbered one. -/
theorem Renumbers.forall_iff (h : Renumbers π R l l') {P : ℕ → β → Prop} {P' : ℕ → γ → Prop}
    (hP : ∀ rank x y, R x y → (P' (π rank) y ↔ P rank x)) :
    (∀ rank y, l'[rank]? = some y → P' rank y) ↔ ∀ rank x, l[rank]? = some x → P rank x := by
  rw [← π.forall_congr_right]
  refine forall_congr' fun rank => ?_
  have hrel := h rank
  revert hrel
  cases l[rank]? <;> cases l'[π rank]? <;> rintro (hrel | hrel)
  · simp
  · simpa using hP _ _ _ hrel

theorem Renumbers.lt_iff (h : Renumbers π R l l') (rank : ℕ) : π rank < l'.length ↔ rank < l.length := by
  have hrel := h rank
  rw [← not_iff_not, not_lt, not_lt, ← List.getElem?_eq_none_iff, ← List.getElem?_eq_none_iff]
  revert hrel
  cases l[rank]? <;> cases l'[π rank]? <;> rintro (hrel | hrel) <;> simp

/-- Every renumbered element is one of the elements. -/
theorem Renumbers.exists_mem (h : Renumbers π R l l') {y : γ} (hy : y ∈ l') : ∃ x ∈ l, R x y := by
  obtain ⟨rank, hrank⟩ := List.getElem?_of_mem hy
  have hrel := h (π.symm rank)
  rw [Equiv.apply_symm_apply, hrank] at hrel
  cases hx : l[π.symm rank]? with
  | none => rw [hx] at hrel; cases hrel
  | some x =>
    rw [hx, Option.rel_some_some] at hrel
    exact ⟨x, List.mem_of_getElem? hx, hrel⟩

/-- Route maps whose peers are renumbered. -/
def MapRenumbered (π : Equiv.Perm ℕ) (map map' : RouteMap) : Prop := ∀ peer, map'.get? (π peer) = map.get? peer

/-- A status whose lane counts and route map are renumbered. -/
structure StatusRenumbered (π : Equiv.Perm ℕ) (status status' : Status α) : Prop where
  error : status'.error = status.error
  fields : status'.fields = status.fields
  laneCounts : ∀ rank, (status'.laneCounts.getD [])[π rank]? = (status.laneCounts.getD [])[rank]?
  routeMap : Option.Rel (MapRenumbered π) status.routeMap status'.routeMap

/-- A layout whose positions are renumbered. -/
def LayoutRenumbered (π : Equiv.Perm ℕ) (layout layout' : Layout) : Prop :=
  layout'.fabric = layout.fabric ∧ ∀ rank : ℕ, layout'.positions[π rank]? = layout.positions[rank]?

variable {maps maps' : List RouteMap} {rank peer lane : ℕ} {device : String}

theorem Renumbers.lanesPass (hmaps : Renumbers π (MapRenumbered π) maps maps')
    {f f' : ℕ → ℕ → ℕ → String → Except String (List String)}
    (hf : ∀ rank peer lane device, f' (π rank) (π peer) lane device = .ok [] ↔ f rank peer lane device = .ok []) :
    LanesPass maps' f' ↔ LanesPass maps f := by
  refine hmaps.forall_iff fun rank map map' hsame => ?_
  rw [← π.forall_congr_right]
  simp only [hsame _, hf]

theorem laneProblems_renumbered (hmaps : Renumbers π (MapRenumbered π) maps maps') {layout layout' : Layout}
    (hlayout : LayoutRenumbered π layout layout') :
    laneProblems roles noMapping layout' maps' (π rank) (π peer) lane device = .ok [] ↔
      laneProblems roles noMapping layout maps rank peer lane device = .ok [] := by
  unfold laneProblems
  rw [hlayout.1, hlayout.2, hlayout.2]
  have hrel := hmaps peer
  revert hrel
  cases maps[peer]? <;> cases maps'[π peer]? <;> rintro (hsame | hsame)
  · simp
  next theirs theirs' =>
    dsimp only [bind, Except.bind]
    rw [hsame rank]
    repeat' split
    all_goals simp

theorem classProblems_renumbered (hmaps : Renumbers π (MapRenumbered π) maps maps') :
    classProblems roles maps' (π rank) (π peer) lane device = .ok [] ↔
      classProblems roles maps rank peer lane device = .ok [] := by
  unfold classProblems
  have hrel := hmaps peer
  revert hrel
  cases maps[peer]? <;> cases maps'[π peer]? <;> rintro (hsame | hsame)
  · simp
  next theirs theirs' =>
    dsimp only
    rw [hsame rank]
    repeat' split
    all_goals simp

/-- A group whose ranks are renumbered, in its statuses and its layout. -/
structure GroupRenumbered (π : Equiv.Perm ℕ) (statuses statuses' : List (Status α)) (layout layout' : Option Layout) :
    Prop where
  statuses : Renumbers π (StatusRenumbered π) statuses statuses'
  layout : Option.Rel (LayoutRenumbered π) layout layout'

omit [DecidableEq α] in
theorem expected_iff {counts : List (Value α)} {world : ℕ} {lanes : Value α} :
    counts = expected world lanes rank ↔
      ∀ peer, counts[peer]? = if peer < world then some (if peer = rank then .number 0 else lanes) else none := by
  simp only [List.ext_getElem?_iff, expected, List.getElem?_map]
  refine forall_congr' fun peer => ?_
  by_cases h : peer < world
  · rw [if_pos h, List.getElem?_range h, Option.map_some]
  · have hnone : (List.range world)[peer]? = none := by simpa using h
    rw [if_neg h, hnone, Option.map_none]

variable {statuses' : List (Status α)} {layout' : Option Layout} {reference : String → Option (Value α)}

omit [DecidableEq α] in
theorem GroupRenumbered.routeMaps (h : GroupRenumbered π statuses statuses' layout layout') :
    Renumbers π (MapRenumbered π) (routeMaps statuses) (routeMaps statuses') := by
  intro rank
  have hrel := h.statuses rank
  simp only [SetupAgreement.routeMaps, List.getElem?_map]
  revert hrel
  cases statuses[rank]? <;> cases statuses'[π rank]? <;> rintro (hrel | hrel)
  · exact .none
  next status status' =>
    refine .some ?_
    dsimp only
    have hmap := hrel.routeMap
    revert hmap
    cases status.routeMap <;> cases status'.routeMap <;> rintro (hmap | hmap)
    · exact fun _ => rfl
    · exact hmap

omit [DecidableEq α] in
/-- Renumbered ranks pass where the ranks do, with the same reference. -/
theorem GroupRenumbered.agrees (h : GroupRenumbered π statuses statuses' layout layout') :
    Agrees roles statuses' layout' reference ↔ Agrees roles statuses layout reference := by
  have hranks : (∀ rank status, statuses'[rank]? = some status → Fits statuses'.length reference rank status) ↔
      ∀ rank status, statuses[rank]? = some status → Fits statuses.length reference rank status := by
    refine h.statuses.forall_iff fun rank status status' hsame => ?_
    have hcounts : status'.laneCounts.getD [] = expected statuses'.length (field reference "lane_count" .none) (π rank) ↔
        status.laneCounts.getD [] = expected statuses.length (field reference "lane_count" .none) rank := by
      rw [expected_iff, expected_iff, ← π.forall_congr_right]
      simp only [hsame.laneCounts, h.statuses.lt_iff, π.injective.eq_iff]
    have hmap : status'.routeMap.isSome = status.routeMap.isSome := by
      have hmap := hsame.routeMap
      revert hmap
      cases status.routeMap <;> cases status'.routeMap <;> rintro (hmap | hmap) <;> rfl
    constructor
    · rintro ⟨h1, h2, h3, h4, h5⟩
      exact ⟨hsame.error ▸ h1, hsame.fields ▸ h2, hsame.fields ▸ h3, hcounts.mp h4, hmap ▸ h5⟩
    · rintro ⟨h1, h2, h3, h4, h5⟩
      exact ⟨hsame.error ▸ h1, hsame.fields ▸ h2, hsame.fields ▸ h3, hcounts.mpr h4, hmap ▸ h5⟩
  have hpaired : checkLanes roles layout' (SetupAgreement.routeMaps statuses') = .ok [] ↔
      checkLanes roles layout (SetupAgreement.routeMaps statuses) = .ok [] := by
    have hlayout := h.layout
    revert hlayout
    cases layout <;> cases layout' <;> rintro (hlayout | hlayout)
    · exact (lanesPass_iff fun _ _ => .rfl).trans
        ((h.routeMaps.lanesPass fun _ _ _ _ => classProblems_renumbered h.routeMaps).trans (lanesPass_iff fun _ _ => .rfl).symm)
    · exact checkComplementary_iff.trans ((h.routeMaps.lanesPass fun _ _ _ _ =>
        laneProblems_renumbered h.routeMaps hlayout).trans checkComplementary_iff.symm)
  exact ⟨fun ⟨h1, h2⟩ => ⟨hranks.mp h1, hpaired.mp h2⟩, fun ⟨h1, h2⟩ => ⟨hranks.mpr h1, hpaired.mpr h2⟩⟩

/-- Setup that goes on found no error, and any two ranks agree on every field that either has. -/
def Complete (roles : Roles) (statuses : List (Status α)) (layout : Option Layout) : Prop :=
  agreementFailures roles statuses layout = .ok [] → (∀ s ∈ statuses, s.error = none) ∧
    ∀ s ∈ statuses, ∀ t ∈ statuses, ∀ key, s.fields.get? key = t.fields.get? key

/-- Whether setup goes on does not depend on the numbers of the ranks. -/
def Symmetric (roles : Roles) (statuses : List (Status α)) (layout : Option Layout) : Prop :=
  ∀ (π : Equiv.Perm ℕ) (statuses' : List (Status α)) (layout' : Option Layout),
    GroupRenumbered π statuses statuses' layout layout' →
      (agreementFailures roles statuses' layout' = .ok [] ↔ agreementFailures roles statuses layout = .ok [])

/-- Ranks that all pass the comparison with one rank have the fields of that rank and no others. -/
def SameFields (roles : Roles) (statuses : List (Status α)) (layout : Option Layout) : Prop :=
  ∀ s ∈ statuses, Agrees roles statuses layout s.fields.get? → ∀ t ∈ statuses, ∀ key,
    (t.fields.get? key).isSome = (s.fields.get? key).isSome

omit [DecidableEq α] in
/-- Ranks with the same fields that pass the comparison have the same values. -/
theorem SameFields.get?_eq (h : SameFields roles statuses layout) {s t : Status α} (hs : s ∈ statuses)
    (hagrees : Agrees roles statuses layout s.fields.get?) (ht : t ∈ statuses) : t.fields.get? = s.fields.get? := by
  funext key
  have hsame := h s hs hagrees t ht key
  obtain ⟨rank, hrank⟩ := List.getElem?_of_mem ht
  cases hvalue : s.fields.get? key with
  | none => simpa [hvalue] using hsame
  | some value =>
    have hfield := (hagrees.ranks rank t hrank).fields key value hvalue
    rw [hvalue, Option.isSome_some, Option.isSome_iff_exists] at hsame
    obtain ⟨other, hother⟩ := hsame
    rw [field, hother, Option.getD_some] at hfield
    rw [hother, hfield]

/-- Under the same fields, setup goes on where the comparison with some rank does, however the ranks are numbered. -/
theorem SameFields.accepted_iff (h : SameFields roles statuses layout)
    (hsame : GroupRenumbered π statuses statuses' layout layout') :
    agreementFailures roles statuses' layout' = .ok [] ↔ ∃ s ∈ statuses, Agrees roles statuses layout s.fields.get? := by
  rw [SetupAgreement.accepted_iff]
  constructor
  · rintro ⟨s', hs', hagrees⟩
    obtain ⟨s, hs, hrel⟩ := hsame.statuses.exists_mem (List.mem_of_getElem? hs')
    exact ⟨s, hs, hsame.agrees.mp (hrel.fields ▸ hagrees)⟩
  · rintro ⟨s, hs, hagrees⟩
    have hlt := (hsame.statuses.lt_iff _).mpr (List.length_pos_of_mem hs)
    have hfirst : statuses'[0]? = some _ := List.getElem?_eq_getElem (Nat.zero_lt_of_lt hlt)
    obtain ⟨t, ht, hrel⟩ := hsame.statuses.exists_mem (List.mem_of_getElem? hfirst)
    refine ⟨_, hfirst, hsame.agrees.mpr ?_⟩
    rw [hrel.fields, h.get?_eq hs hagrees ht]
    exact hagrees

/-- Two elements of a list change places. -/
theorem exists_swapped {i : ℕ} (hi : i < l.length) :
    ∃ swapped : List β, swapped.Perm l ∧ ∀ rank : ℕ, swapped[Equiv.swap 0 i rank]? = l[rank]? := by
  have hzero : 0 < l.length := by omega
  refine ⟨(l.set 0 l[i]).set i l[0], List.set_set_perm hzero hi, fun rank => ?_⟩
  simp only [Equiv.swap_apply_def, List.getElem?_set, List.length_set]
  grind

theorem exists_mapRenumbered (map : RouteMap) : ∃ map', MapRenumbered π map map' := by
  refine ⟨⟨map.items.map fun entry => (π entry.1, entry.2), ?_⟩, fun peer => Option.ext fun devices => ?_⟩
  · have hnodup := map.distinct.map π.injective
    rwa [List.map_map] at hnodup ⊢
  · rw [PeerTable.get?_eq_some, PeerTable.get?_eq_some]
    simp

omit [DecidableEq α] in
/-- The ranks of a group that passes the comparison can be renumbered so that any of them is rank 0. -/
theorem Agrees.exists_renumbered (h : Agrees roles statuses layout reference) {i : ℕ} (hi : i < statuses.length)
    (hplaced : ∀ l ∈ layout, l.positions.length = statuses.length) :
    ∃ statuses' layout', GroupRenumbered (Equiv.swap 0 i) statuses statuses' layout layout' := by
  have hstatus : ∀ status ∈ statuses, ∃ status', StatusRenumbered (Equiv.swap 0 i) status status' := by
    intro status hmem
    obtain ⟨rank, hrank⟩ := List.getElem?_of_mem hmem
    have hlength : i < (status.laneCounts.getD []).length := by
      rwa [(h.ranks rank status hrank).laneCounts, expected, List.length_map, List.length_range]
    obtain ⟨counts, -, hcounts⟩ := exists_swapped hlength
    obtain ⟨map, hmap⟩ : ∃ map', Option.Rel (MapRenumbered (Equiv.swap 0 i)) status.routeMap map' := by
      cases status.routeMap with
      | none => exact ⟨none, .none⟩
      | some map => exact (exists_mapRenumbered map).elim fun map' hmap => ⟨some map', .some hmap⟩
    exact ⟨⟨status.error, status.fields, some counts, map⟩, rfl, rfl, hcounts, hmap⟩
  have hlayout : ∃ layout', Option.Rel (LayoutRenumbered (Equiv.swap 0 i)) layout layout' := by
    cases layout with
    | none => exact ⟨none, .none⟩
    | some l =>
      obtain ⟨positions, hperm, hpositions⟩ := exists_swapped ((hplaced l rfl).symm ▸ hi)
      exact ⟨some ⟨l.fabric, positions, hperm.nodup_iff.mpr l.distinct, fun p hp => l.known p (hperm.mem_iff.mp hp)⟩,
        .some ⟨rfl, hpositions⟩⟩
  obtain ⟨swapped, hperm, hswapped⟩ := exists_swapped hi
  have : Nonempty (Status α) := ⟨statuses[i]⟩
  choose! renumber hrenumber using hstatus
  obtain ⟨layout', hlayout⟩ := hlayout
  refine ⟨swapped.map renumber, layout', fun rank => ?_, hlayout⟩
  rw [List.getElem?_map, hswapped]
  cases hstatus : statuses[rank]? with
  | none => exact .none
  | some status => exact .some (hrenumber status (List.mem_of_getElem? hstatus))

end Renumbered

/-- Agreement is complete and symmetric exactly where ranks that all pass the comparison with one rank have its fields. -/
theorem agreement_complete_iff (roles : Roles) (statuses : List (Status α)) (layout : Option Layout)
    (hplaced : ∀ l ∈ layout, l.positions.length = statuses.length) :
    Complete roles statuses layout ∧ Symmetric roles statuses layout ↔ SameFields roles statuses layout := by
  constructor
  · rintro ⟨hcomplete, hsymmetric⟩ s hs hagrees t ht key
    obtain ⟨i, hi⟩ := List.getElem?_of_mem hs
    obtain ⟨statuses', layout', hsame⟩ := hagrees.exists_renumbered (List.getElem?_eq_some_iff.mp hi).1 hplaced
    have hfirst := hsame.statuses i
    rw [hi, Equiv.swap_apply_right] at hfirst
    cases hzero : statuses'[0]? with
    | none => rw [hzero] at hfirst; cases hfirst
    | some s' =>
      rw [hzero, Option.rel_some_some] at hfirst
      have haccepted := (hsymmetric _ statuses' layout' hsame).mp (accepted_iff.mpr
        ⟨s', hzero, hsame.agrees.mpr (hfirst.fields ▸ hagrees)⟩)
      rw [(hcomplete haccepted).2 t ht s hs key]
  · intro h
    have haccepted : agreementFailures roles statuses layout = .ok [] ↔
        ∃ s ∈ statuses, Agrees roles statuses layout s.fields.get? := by
      rw [accepted_iff]
      refine ⟨fun ⟨s, hs, hagrees⟩ => ⟨s, List.mem_of_getElem? hs, hagrees⟩, ?_⟩
      rintro ⟨s, hs, hagrees⟩
      have hfirst : statuses[0]? = some _ := List.getElem?_eq_getElem (List.length_pos_of_mem hs)
      exact ⟨_, hfirst, (h.get?_eq hs hagrees (List.mem_of_getElem? hfirst)).symm ▸ hagrees⟩
    refine ⟨fun hok => ?_, fun π statuses' layout' hsame => (h.accepted_iff hsame).trans haccepted.symm⟩
    obtain ⟨s, hs, hagrees⟩ := haccepted.mp hok
    refine ⟨fun t ht => ?_, fun t ht u hu key => ?_⟩
    · obtain ⟨rank, hrank⟩ := List.getElem?_of_mem ht
      exact (hagrees.ranks rank t hrank).error
    · rw [h.get?_eq hs hagrees ht, h.get?_eq hs hagrees hu]

/-- One of two ranks with a primary lane to each other and the given fields. -/
def paired (rank : Bool) (fields : Dict String (Value Unit)) : Status Unit where
  error := none
  fields := fields
  laneCounts := some (if rank then [.number 1, .number 0] else [.number 0, .number 1])
  routeMap := some ⟨[(if rank then 0 else 1, ["rocep1s0f0"])], List.nodup_singleton _⟩

/-- Ranks with the same fields agree in full, whichever is rank 0. -/
theorem agreement_complete_paired :
    let statuses := [false, true].map fun rank => paired rank ⟨[("lane_count", .number 1)], List.nodup_singleton _⟩
    Complete Roles.default statuses none ∧ Symmetric Roles.default statuses none := by
  refine (agreement_complete_iff Roles.default _ none nofun).mpr fun s hs _ t ht key => ?_
  obtain ⟨rank, -, rfl⟩ := List.mem_map.mp hs
  obtain ⟨other, -, rfl⟩ := List.mem_map.mp ht
  rfl

/-- Rank 1 has a field that rank 0 has not, and setup goes on. -/
theorem hidden_field_accepted : ¬Complete Roles.default
    [paired false ⟨[("lane_count", .number 1)], List.nodup_singleton _⟩,
      paired true ⟨[("lane_count", .number 1), ("ring_stagger", .number 2)], by decide⟩] none := by
  intro h
  have hfields := (h (by rfl)).2 _ List.mem_cons_self _ (List.mem_cons_of_mem _ List.mem_cons_self) "ring_stagger"
  cases hfields

end SparkRing.SetupAgreement
