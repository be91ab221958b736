import Mathlib.Algebra.Order.BigOperators.Group.List
import Mathlib.Algebra.Order.Ring.Nat
import Mathlib.Data.List.Dedup
import Mathlib.Data.List.GetD
import Mathlib.Order.Basic

/-!
# Relay hairpin queues and the windows of the lanes through them

A lane toward a peer that is not its cable neighbor crosses relays, each through
one hairpin queue. The windows of a rank's lanes, the chain of cable neighbors
and the ring that closes it follow from the queues of every lane of the group.
How a lane's queues follow from the cables is not modelled here: a lane has the
list of queues it crosses, or none when its walk does not reach the peer.
-/

namespace SparkRing.RelayQueues

/-- A relay queue: relay position, secondary function, egress port. -/
abbrev Key := ℕ × Bool × ℕ

/-- A lane of the group: rank, peer, lane. -/
abbrev Lane := ℕ × ℕ × ℕ

/-- The agreed route maps of a group, as far as relays are concerned. -/
structure Routes where
  /-- Ranks of the group. -/
  world : ℕ
  /-- Lanes toward every peer. -/
  lanes : ℕ
  /-- Queues a lane crosses, in order; `none` when its device has no role or its
  walk does not reach the peer. -/
  queues : ℕ → ℕ → ℕ → Option (List Key)

/-- A lane that reaches its peer over one cable. -/
def Routes.direct (routes : Routes) (rank peer lane : ℕ) : Prop := routes.queues rank peer lane = some []

instance (routes : Routes) (rank peer lane : ℕ) : Decidable (routes.direct rank peer lane) :=
  inferInstanceAs (Decidable (_ = _))

/-- Queues of a lane, none for a lane that does not reach its peer. -/
def Routes.keys (routes : Routes) (lane : Lane) : List Key :=
  (routes.queues lane.1 lane.2.1 lane.2.2).getD []

/-- Lanes of the group, in the order of the route maps. -/
def Routes.all (routes : Routes) : List Lane :=
  (List.range routes.world).flatMap fun rank =>
    ((List.range routes.world).filter (· ≠ rank)).flatMap fun peer =>
      (List.range routes.lanes).map fun lane => (rank, peer, lane)

/-- Lanes of `lanes` through one queue, once for each time they cross it. -/
def members (routes : Routes) (lanes : List Lane) (key : Key) : List Lane :=
  lanes.flatMap fun lane => ((routes.keys lane).filter (· = key)).map fun _ => lane

/-- Lanes through a relay queue of the group. -/
def relayQueues (routes : Routes) (key : Key) : List Lane := members routes routes.all key

/-- Most lanes that share a queue of one lane. -/
def load (routes : Routes) (lane : Lane) : ℕ :=
  ((routes.keys lane).map fun key => (relayQueues routes key).length).foldl max 0

/-- Bytes of a hairpin queue that lanes may fill: three quarters of it. -/
def allowance (queueBytes : ℕ) : ℕ := 3 * queueBytes / 4

/-- Forward window of every lane of `rank`, 0 for a direct lane; `none` where the
settings are refused. -/
def forwardWindows (routes : Routes) (rank maxWindow chunk queueBytes : ℕ) : Option (ℕ → ℕ → ℕ) :=
  if maxWindow = 0 then some fun _ _ => 0
  else if chunk = 0 ∨ chunk % 16 ≠ 0 ∨ maxWindow < chunk then none
  else some fun peer lane =>
    let sharing := load routes (rank, peer, lane)
    if sharing = 0 then 0
    else max chunk (min maxWindow (allowance queueBytes / sharing) / chunk * chunk)

/-- Every lane between two ranks is direct, in both directions. -/
def directPair (routes : Routes) (a b : ℕ) : Bool :=
  routes.lanes ≠ 0 && (List.range routes.lanes).all fun lane =>
    decide (routes.direct a b lane) && decide (routes.direct b a lane)

/-- The check of a chain order: consecutive ranks are joined by direct lanes. -/
def directChain (routes : Routes) (order : List ℕ) : Bool :=
  (order.zip order.tail).all fun pair => directPair routes pair.1 pair.2

/-- Chain neighbor upstream of the rank at `index`. -/
def chainPrev (order : List ℕ) (index : ℕ) : Option ℕ :=
  if 0 < index ∧ index < order.length then some (order.getD (index - 1) 0) else none

/-- Chain neighbor downstream of the rank at `index`. -/
def chainNext (order : List ℕ) (index : ℕ) : Option ℕ :=
  if index + 1 < order.length then some (order.getD (index + 1) 0) else none

/-- Ring neighbor upstream of the rank at `index`. -/
def ringPrev (order : List ℕ) (index : ℕ) : ℕ := order.getD ((index + order.length - 1) % order.length) 0

/-- Ring neighbor downstream of the rank at `index`. -/
def ringNext (order : List ℕ) (index : ℕ) : ℕ := order.getD ((index + 1) % order.length) 0

/-- Lanes of the ring that closes a chain order. -/
def ringLanes (routes : Routes) (order : List ℕ) : List Lane :=
  (List.range order.length).flatMap fun i =>
    let rank := order.getD i 0
    if ringNext order i = rank then []
    else (List.range routes.lanes).map fun lane => (rank, ringNext order i, lane)

/-- Lanes of the ring through a relay queue. -/
def ringQueues (routes : Routes) (order : List ℕ) (key : Key) : List Lane :=
  members routes (ringLanes routes order) key

/-- Queues that carry a ring lane, each once. -/
def ringKeys (routes : Routes) (order : List ℕ) : List Key :=
  ((ringLanes routes order).flatMap routes.keys).dedup

/-- Why the ring over an order cannot run. -/
inductive RingProblem where
  /-- A relay queue carries several ring lanes. -/
  | shared (key : Key) (lanes : List Lane)
  /-- A relay queue holds less than one chunk. -/
  | small (queueBytes chunk : ℕ)

/-- Window of the ring's lanes through relays, 0 when every ring edge is a cable,
and why the ring cannot run. -/
def ringWindow (routes : Routes) (order : List ℕ) (chunk queueBytes : ℕ) : ℕ × List RingProblem :=
  let keys := ringKeys routes order
  let shared := (keys.filter fun key => 1 < (ringQueues routes order key).length).map fun key =>
    RingProblem.shared key (ringQueues routes order key)
  if keys = [] then (0, shared)
  else
    let window := allowance queueBytes / chunk * chunk
    (window, if window < chunk then shared ++ [.small queueBytes chunk] else shared)

/-- A rank's place on the ring. -/
structure Ring where
  /-- Its upstream neighbor. -/
  prev : ℕ
  /-- Its downstream neighbor. -/
  next : ℕ
  /-- Bytes its lanes toward `next` keep unacknowledged, 0 over a cable. -/
  window : ℕ

/-- The ring of the rank at `index` of a chain order, if the ring can run. -/
def planRing (routes : Routes) (order : List ℕ) (index chunk queueBytes : ℕ) : Option Ring :=
  let planned := ringWindow routes order chunk queueBytes
  if planned.2.isEmpty then
    let rank := order.getD index 0
    let relayed := (ringKeys routes order).any fun key =>
      (ringQueues routes order key).any fun lane => lane.1 = rank
    some
      { prev := ringPrev order index
        next := ringNext order index
        window := if relayed then planned.1 else 0 }
  else none

variable {routes : Routes} {index chunk rank peer : ℕ}

theorem load_of_keys_nil {lane : Lane} (h : routes.keys lane = []) : load routes lane = 0 := by
  simp [load, h]

/-- A lane without relay queues has no forward window. -/
theorem forwardWindows_of_keys_nil {maxWindow queueBytes : ℕ}
    {windows : ℕ → ℕ → ℕ} (hw : forwardWindows routes rank maxWindow chunk queueBytes = some windows)
    {lane : ℕ} (h : routes.keys (rank, peer, lane) = []) : windows peer lane = 0 := by
  unfold forwardWindows at hw
  split at hw
  · cases hw
    rfl
  split at hw
  · cases hw
  · cases hw
    simp [load_of_keys_nil h]

/-- Lanes of a list through a queue. -/
theorem mem_members {lanes : List Lane} {key : Key} {lane : Lane} :
    lane ∈ members routes lanes key ↔ lane ∈ lanes ∧ key ∈ routes.keys lane := by
  simp only [members, List.mem_flatMap, List.mem_map, List.mem_filter, decide_eq_true_eq]
  constructor
  · rintro ⟨found, hlane, other, ⟨hkey, rfl⟩, rfl⟩
    exact ⟨hlane, hkey⟩
  · rintro ⟨hlane, hkey⟩
    exact ⟨lane, hlane, key, ⟨hkey, rfl⟩, rfl⟩

/-- Lanes through a queue are lanes of the group that count it in their load. -/
theorem mem_relayQueues {key : Key} {lane : Lane} (h : lane ∈ relayQueues routes key) :
    lane.1 < routes.world ∧ (relayQueues routes key).length ≤ load routes lane := by
  obtain ⟨hall, hkey⟩ := mem_members.mp h
  obtain ⟨rank, hrank, hpeers⟩ := List.mem_flatMap.mp hall
  obtain ⟨peer, -, hlanes⟩ := List.mem_flatMap.mp hpeers
  obtain ⟨lane, -, rfl⟩ := List.mem_map.mp hlanes
  refine ⟨List.mem_range.mp hrank, ?_⟩
  have hmem := List.mem_map_of_mem (f := fun key => (relayQueues routes key).length) hkey
  rw [load, List.foldl_max_eq_max (List.ne_nil_of_mem hmem)]
  exact le_max_of_le_right (List.le_max_of_mem hmem)

/-- The windows of the lanes through a relay queue fill no more than the queue's share unless one chunk of each lane
already does. -/
theorem relay_windows_fit {maxWindow queueBytes : ℕ} {windows : ℕ → ℕ → ℕ → ℕ} (hpos : 0 < maxWindow)
    (hw : ∀ rank < routes.world, forwardWindows routes rank maxWindow chunk queueBytes = some (windows rank)) (key : Key) :
    ((relayQueues routes key).map fun lane => windows lane.1 lane.2.1 lane.2.2).sum ≤ allowance queueBytes ↔
      (relayQueues routes key).length * chunk ≤ allowance queueBytes := by
  have hwindow : ∀ lane ∈ relayQueues routes key, chunk ≤ windows lane.1 lane.2.1 lane.2.2 ∧
      windows lane.1 lane.2.1 lane.2.2 ≤ max chunk (allowance queueBytes / (relayQueues routes key).length) := by
    intro lane hlane
    obtain ⟨hrank, hload⟩ := mem_relayQueues hlane
    have hn := List.length_pos_of_mem hlane
    have hrow := hw lane.1 hrank
    rw [forwardWindows, if_neg hpos.ne'] at hrow
    rw [← Option.some.inj (Option.ite_none_left_eq_some.mp hrow).2]
    dsimp only
    rw [if_neg (hn.trans_le hload).ne']
    refine ⟨le_max_left _ _, max_le_max le_rfl ((Nat.div_mul_le_self _ _).trans ((min_le_right _ _).trans ?_))⟩
    exact Nat.div_le_div_left hload hn
  constructor
  · intro hsum
    refine le_trans ?_ hsum
    have hlow := List.card_nsmul_le_sum ((relayQueues routes key).map fun lane => windows lane.1 lane.2.1 lane.2.2) chunk
      (List.forall_mem_map.mpr fun lane hlane => (hwindow lane hlane).1)
    rwa [List.length_map] at hlow
  · intro hchunks
    rcases Nat.eq_zero_or_pos (relayQueues routes key).length with hnone | hn
    · rw [List.length_eq_zero_iff.mp hnone]
      exact Nat.zero_le _
    have hshare : chunk ≤ allowance queueBytes / (relayQueues routes key).length := by
      rwa [Nat.le_div_iff_mul_le hn, Nat.mul_comm]
    have hhigh := List.sum_le_card_nsmul ((relayQueues routes key).map fun lane => windows lane.1 lane.2.1 lane.2.2) _
      (List.forall_mem_map.mpr fun lane hlane => (hwindow lane hlane).2)
    rw [List.length_map, max_eq_right hshare] at hhigh
    exact hhigh.trans (Nat.mul_div_le _ _)

/-- Rank 0 reaches its two peers through one relay queue. -/
def sharedRelay : Routes := ⟨3, 1, fun rank _ _ => some (if rank = 0 then [(1, false, 1)] else [])⟩

theorem relay_windows_fit_shared : ∃ windows : ℕ → ℕ → ℕ → ℕ, (∀ rank, forwardWindows sharedRelay rank 262144 65536 262144 = some (windows rank)) ∧
    ((relayQueues sharedRelay (1, false, 1)).map fun lane => windows lane.1 lane.2.1 lane.2.2).sum ≤ allowance 262144 := by
  obtain ⟨windows, hw⟩ := Classical.axiomOfChoice fun rank => (⟨_, rfl⟩ : ∃ windows, forwardWindows sharedRelay rank 262144 65536 262144 = some windows)
  exact ⟨windows, hw, (relay_windows_fit (by decide) (fun rank _ => hw rank) _).mpr (by decide)⟩

theorem keys_of_direct {lane : ℕ} (h : routes.direct rank peer lane) : routes.keys (rank, peer, lane) = [] := by
  have hq : routes.queues rank peer lane = some [] := h
  simp [Routes.keys, hq]

variable {order : List ℕ}

/-- Neighbors in an accepted chain order are joined by direct lanes. -/
theorem directPair_of_directChain (h : directChain routes order = true) {i : ℕ} (hi : i + 1 < order.length) :
    directPair routes (order.getD i 0) (order.getD (i + 1) 0) = true := by
  have hz : i < (order.zip order.tail).length := by
    simp only [List.length_zip, List.length_tail]
    omega
  have hmem := List.all_eq_true.mp h _ (List.getElem_mem hz)
  simp only [List.getElem_zip, List.getElem_tail] at hmem
  rwa [List.getD_eq_getElem _ _ (by omega), List.getD_eq_getElem _ _ hi]

theorem directPair_lane {a b lane : ℕ} (h : directPair routes a b = true)
    (hl : lane < routes.lanes) : routes.direct a b lane ∧ routes.direct b a lane := by
  simp only [directPair, Bool.and_eq_true, List.all_eq_true, List.mem_range, decide_eq_true_eq] at h
  exact h.2 lane hl

/-- A lane toward a neighbor in an accepted chain order crosses no relay queue. -/
theorem keys_of_chainNeighbor (h : directChain routes order = true) (peer : ℕ)
    (hp : chainPrev order index = some peer ∨ chainNext order index = some peer) (lane : ℕ)
    (hl : lane < routes.lanes) : routes.keys (order.getD index 0, peer, lane) = [] := by
  rcases hp with hp | hp
  · obtain ⟨hpos, hpeer⟩ := Option.ite_none_right_eq_some.mp hp
    obtain rfl := Option.some.inj hpeer
    obtain ⟨i, rfl⟩ := Nat.exists_eq_succ_of_ne_zero (Nat.pos_iff_ne_zero.mp hpos.1)
    exact keys_of_direct (directPair_lane (directPair_of_directChain h hpos.2) hl).2
  obtain ⟨hlt, hpeer⟩ := Option.ite_none_right_eq_some.mp hp
  obtain rfl := Option.some.inj hpeer
  exact keys_of_direct (directPair_lane (directPair_of_directChain h hlt) hl).1

/-- A ring lane of `rank` through relays gives the rank a window. -/
theorem keys_of_planRing {queueBytes : ℕ} {ring : Ring}
    (h : planRing routes order index chunk queueBytes = some ring) (hi : index < order.length)
    (hc : 0 < chunk) (hw : ring.window = 0) (hne : ringNext order index ≠ order.getD index 0) (lane : ℕ)
    (hl : lane < routes.lanes) : routes.keys (order.getD index 0, ring.next, lane) = [] := by
  unfold planRing at h
  dsimp only at h
  obtain ⟨hok, rfl⟩ := Option.ite_some_none_eq_some.mp h
  by_contra hkeys
  obtain ⟨key, hkey⟩ := List.exists_mem_of_ne_nil _ hkeys
  have hlane : (order.getD index 0, ringNext order index, lane) ∈
      ringLanes routes order := by
    refine List.mem_flatMap.mpr ⟨index, List.mem_range.mpr hi, ?_⟩
    rw [if_neg hne]
    exact List.mem_map.mpr ⟨lane, List.mem_range.mpr hl, rfl⟩
  have hring : key ∈ ringKeys routes order :=
    List.mem_dedup.mpr (List.mem_flatMap.mpr ⟨_, hlane, hkey⟩)
  have hmember : (order.getD index 0, ringNext order index, lane) ∈
      ringQueues routes order key := by
    refine List.mem_flatMap.mpr ⟨_, hlane, ?_⟩
    exact List.mem_map.mpr ⟨key, List.mem_filter.mpr ⟨hkey, by simp⟩, rfl⟩
  have hrelayed : ((ringKeys routes order).any fun key =>
      (ringQueues routes order key).any fun lane => lane.1 = order.getD index 0) = true :=
    List.any_eq_true.mpr ⟨key, hring, List.any_eq_true.mpr ⟨_, hmember, by simp⟩⟩
  rw [if_pos hrelayed] at hw
  have hne' : ringKeys routes order ≠ [] := List.ne_nil_of_mem hring
  unfold ringWindow at hok hw
  rw [if_neg hne'] at hok hw
  dsimp only at hok hw
  rw [hw, if_pos hc] at hok
  simp at hok

/-- Where a ring runs, a relay queue carries at most one of its lanes, whose window fits the queue's share and holds a chunk. -/
theorem ring_windows_fit {queueBytes : ℕ} {ring : Ring} (h : planRing routes order index chunk queueBytes = some ring) (key : Key) :
    (ringQueues routes order key).length ≤ 1 ∧ ring.window ≤ allowance queueBytes ∧
      ∀ lane ∈ ringQueues routes order key, lane.1 = order.getD index 0 → chunk ≤ ring.window := by
  have hkeys : ∀ lane ∈ ringQueues routes order key, key ∈ ringKeys routes order := by
    intro lane hlane
    obtain ⟨hring, hkey⟩ := mem_members.mp hlane
    exact List.mem_dedup.mpr (List.mem_flatMap.mpr ⟨lane, hring, hkey⟩)
  unfold planRing at h
  dsimp only at h
  obtain ⟨hok, rfl⟩ := Option.ite_some_none_eq_some.mp h
  rw [List.isEmpty_iff] at hok
  unfold ringWindow at hok ⊢
  dsimp only at hok ⊢
  by_cases hnone : ringKeys routes order = []
  · rw [hnone] at hkeys
    rw [List.eq_nil_iff_forall_not_mem.mpr fun lane hlane => List.not_mem_nil (hkeys lane hlane)]
    simp [hnone]
  rw [if_neg hnone] at hok ⊢
  dsimp only at hok ⊢
  split_ifs at hok with hsmall
  · exact absurd (List.append_eq_nil_iff.mp hok).2 (List.cons_ne_nil _ _)
  rw [List.map_eq_nil_iff, List.filter_eq_nil_iff] at hok
  refine ⟨?_, ?_, fun lane hlane hrank => ?_⟩
  · by_contra hmany
    obtain ⟨lane, hlane⟩ := List.exists_mem_of_length_pos (by omega : 0 < (ringQueues routes order key).length)
    exact hok key (hkeys lane hlane) (decide_eq_true (not_le.mp hmany))
  · split_ifs
    · exact Nat.div_mul_le_self _ _
    · exact Nat.zero_le _
  · rw [if_pos (List.any_eq_true.mpr ⟨key, hkeys lane hlane, List.any_eq_true.mpr ⟨lane, hlane, decide_eq_true hrank⟩⟩)]
    exact not_lt.mp hsmall

/-- Rank 0 reaches its ring neighbor through a relay. -/
theorem ring_windows_fit_relayed : ∃ ring, planRing sharedRelay [0, 1, 2] 0 65536 262144 = some ring ∧ 65536 ≤ ring.window := by
  obtain ⟨ring, hring⟩ : ∃ ring, planRing sharedRelay [0, 1, 2] 0 65536 262144 = some ring := ⟨_, rfl⟩
  exact ⟨ring, hring, (ring_windows_fit hring (1, false, 1)).2.2 (0, 1, 0) (by decide) rfl⟩

end SparkRing.RelayQueues
