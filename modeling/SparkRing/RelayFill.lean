import SparkRing.DoubleQuotients
import SparkRing.GroupFabric
import SparkRing.RouteLanes

/-!
# How full relay queues get

A lane through a relay waits in the queue of the port and the function it leaves the relay
through. The relay-load factor counts the lanes of the busiest queue, and the per-peer size of
an op is chosen so that they fill three quarters of it. A lane's stripe is a whole number of
packs: where the packs of a peer do not divide by two lanes, the first lane carries one more.
-/

namespace SparkRing.GroupFabric

open RelayPieces (double)
open Routes (Port)
open List (mem_cons_self mem_filter mem_map mem_singleton)

/-- Bytes of a relay's queue. -/
def HAIRPIN_QUEUE_BYTES : ℕ := 512 * 1024

/-- Share of a queue that may be filled. -/
def RELAY_FILL_LIMIT : ℚ := 3 / 4

/-- Per-peer sizes that were measured drop-free, by the relay-load factor. -/
def MEASURED_PER_PEER_BYTES : List (ℚ × ℕ) := [(3, 131072), (1, 262144)]

/-- Lanes of a peer. -/
def MAX_LANES : ℕ := 2

/-- First pack and packs of a lane when packs go over some lanes. -/
def stripe (count lanes lane : ℕ) : Except String (ℕ × ℕ) :=
  if ¬(1 ≤ lanes ∧ lanes ≤ MAX_LANES) ∨ lanes ≤ lane then .error s!"stripe of {count} packs, lane {lane} of {lanes}"
  else .ok (lane * (count / lanes) + min lane (count % lanes), count / lanes + if lane < count % lanes then 1 else 0)

/-- A queue of a relay: its position, the port a lane leaves it through and the function. -/
abbrev Hairpin := ℤ × Port × FunctionClass

/-- The queues that a lane crosses. -/
def Lane.hairpins (lane : Lane) : Except String (List Hairpin) :=
  (lane.relays.zip lane.cables.tail).mapM fun entry => (entry.2.portAt entry.1).map fun port => (entry.1, port, lane.functionClass)

namespace GroupTopology

variable (topology : GroupTopology)

def groupLanes : List Lane := (rankPairs topology.members.length).flatMap fun pair => topology.lanes pair.1 pair.2

def crossings : Except String (List (Hairpin × Lane)) := do
  let each ← topology.groupLanes.mapM fun lane => lane.hairpins.map fun queues => queues.map fun queue => (queue, lane)
  .ok each.flatten

/-- Lanes through a queue. -/
def count (crossings : List (Hairpin × Lane)) (queue : Hairpin) : ℕ := crossings.countP fun crossing => crossing.1 = queue

/-- Lanes through the busiest queue over the lane count. -/
def relayFactor : Except String ℚ := do
  let crossings ← topology.crossings
  .ok (double (((crossings.map fun crossing => count crossings crossing.1).foldl max 0 : ℕ) / topology.laneCount))

/-- Per-peer bytes of one op for a relay-load factor. -/
def factorBytes (f : ℚ) : Option ℕ :=
  if f = 0 then none
  else
    let rule := ⌊double (HAIRPIN_QUEUE_BYTES * RELAY_FILL_LIMIT / f)⌋.toNat / 16 * 16
    match MEASURED_PER_PEER_BYTES.lookup f with
    | some measured => some (min rule measured)
    | none => some rule

/-- Largest per-peer bytes of one gather or scatter op; none where no lane crosses a relay. -/
def perPeerOpBytes (override : Option ℕ) : Except String (Option ℕ) :=
  match override with
  | some bytes => .ok (some bytes)
  | none => topology.relayFactor.map factorBytes

/-- Bytes that a lane carries when its rank sends its peer some bytes. -/
def laneBytes (bytes : ℕ) (lane : Lane) : ℕ :=
  match stripe (bytes / 16) topology.laneCount lane.index with
  | .ok (_, packs) => 16 * packs
  | .error _ => 0

/-- Bytes in a queue when every rank sends every peer some bytes. -/
def fill (crossings : List (Hairpin × Lane)) (bytes : ℕ) (queue : Hairpin) : ℕ :=
  ((crossings.filter fun crossing => crossing.1 = queue).map fun crossing => topology.laneBytes bytes crossing.2).sum

/-- An op of the chosen size keeps every relay queue within its share. -/
def FillsWithin : Prop := ∃ crossings size, topology.crossings = .ok crossings ∧ topology.perPeerOpBytes none = .ok size ∧
  ∀ bytes, size = some bytes → ∀ queue, (topology.fill crossings bytes queue : ℚ) ≤ RELAY_FILL_LIMIT * HAIRPIN_QUEUE_BYTES

/-- Most lanes through one queue, among some queues. -/
def busiest (among : Hairpin → Bool) : ℕ :=
  match topology.crossings with
  | .ok crossings => ((crossings.filter fun crossing => among crossing.1).map fun crossing => count crossings crossing.1).foldl max 0
  | .error _ => 0

end GroupTopology

section

variable {fabric : Fabric} {node destination origin : ℤ} {path steps : List Step} {lane : Lane}

/-- Steps that follow one another over the cables of a fabric. -/
def Fabric.Walk (fabric : Fabric) : ℤ → List Step → Prop
  | _, [] => True
  | node, step :: rest => step ∈ fabric.links node ∧ fabric.Walk step.dst rest

theorem Fabric.walk_of_extend {distance : BreadthFirst.Distances ℤ} {n : ℕ} (h : path ∈ fabric.extend destination distance n node steps) :
    ∃ rest, path = steps ++ rest ∧ fabric.Walk node rest := by
  induction n generalizing node steps with
  | zero =>
    rw [Fabric.extend] at h
    split at h
    · rw [mem_singleton] at h
      exact ⟨[], by rw [h, List.append_nil], trivial⟩
    · cases h
  | succ n ih =>
    rw [Fabric.extend] at h
    split at h
    · rw [mem_singleton] at h
      exact ⟨[], by rw [h, List.append_nil], trivial⟩
    obtain ⟨step, hstep, hpath⟩ := List.mem_flatMap.mp h
    split at hpath
    · obtain ⟨rest, hrest, hwalk⟩ := ih hpath
      exact ⟨step :: rest, by rw [hrest, List.append_assoc, List.singleton_append], hstep, hwalk⟩
    · cases hpath

theorem Fabric.walk_of_shortest (h : path ∈ fabric.shortestPaths origin destination) : fabric.Walk origin path := by
  unfold Fabric.shortestPaths at h
  split at h
  · cases h
  split at h
  · cases h
  obtain ⟨rest, hrest, hwalk⟩ := Fabric.walk_of_extend h
  rw [hrest]
  exact hwalk

/-- A step leaves its position over a port of its cable. -/
theorem Fabric.portAt_of_link {step : Step} (h : step ∈ fabric.links node) : ∃ port, step.cable.portAt node = .ok port := by
  obtain ⟨cable, -, hstep⟩ := List.mem_flatMap.mp h
  unfold Cable.portAt
  rcases List.mem_append.mp hstep with hfirst | hsecond
  · split at hfirst
    next ha =>
      cases mem_singleton.mp hfirst
      exact ⟨_, if_pos ha⟩
    · cases hfirst
  split at hsecond
  next hb =>
    cases mem_singleton.mp hsecond
    by_cases ha : cable.a = node
    · exact ⟨_, if_pos ha⟩
    · exact ⟨_, by rw [if_neg ha, if_pos hb]⟩
  · cases hsecond

/-- Behind its first step a walk enters every relay over a cable of that relay. -/
theorem Fabric.Walk.relays {step : Step} {rest : List Step} (h : fabric.Walk node (step :: rest)) :
    ∀ entry ∈ (((step :: rest).map Step.dst).dropLast).zip (rest.map Step.cable), ∃ port, entry.2.portAt entry.1 = .ok port := by
  induction rest generalizing node step with
  | nil =>
    intro entry hentry
    cases hentry
  | cons next rest ih =>
    intro entry hentry
    rcases List.mem_cons.mp hentry with rfl | hlater
    · exact Fabric.portAt_of_link h.2.1
    · exact ih h.2 entry hlater

/-- A lane whose queues are known: the first is of the primary functions, the second of the secondary. -/
structure LaneOk (laneCount : ℕ) (lane : Lane) : Prop where
  /-- A group has one or two lanes. -/
  lanes : laneCount = 1 ∨ laneCount = 2
  /-- It is one of them. -/
  index_lt : lane.index < laneCount
  primary : lane.functionClass = .primary ↔ lane.index = 0
  hairpins : ∃ queues, lane.hairpins = .ok queues ∧ ∀ queue ∈ queues, queue.2.2 = lane.functionClass

theorem hairpins_of_walk {peer index : ℕ} {functionClass : FunctionClass} (hwalk : fabric.Walk origin path)
    (h : laneOver peer index path functionClass = .ok lane) : lane.index = index ∧ lane.functionClass = functionClass ∧
      ∃ queues, lane.hairpins = .ok queues ∧ ∀ queue ∈ queues, queue.2.2 = lane.functionClass := by
  unfold laneOver at h
  cases path with
  | nil => cases h
  | cons =>
    cases h
    refine ⟨rfl, rfl, Routes.exists_mapM fun entry hentry => ?_⟩
    obtain ⟨port, hport⟩ := hwalk.relays entry hentry
    exact ⟨(entry.1, port, functionClass), by rw [hport]; rfl, rfl⟩

theorem chosenPaths_spec {chosen : List (List Step × FunctionClass)} (h : chosenPaths fabric origin destination = .ok chosen) :
    ∃ first second, chosen = [(first, .primary), (second, .secondary)] ∧ fabric.Walk origin first ∧ fabric.Walk origin second := by
  unfold chosenPaths at h
  have hwalk : ∀ path ∈ fabric.shortestPaths origin destination, fabric.Walk origin path := fun path => Fabric.walk_of_shortest
  split at h
  · cases h
  next path hpaths =>
    cases h
    rw [hpaths] at hwalk
    exact ⟨path, path, rfl, hwalk _ mem_cons_self, hwalk _ mem_cons_self⟩
  next first second hpaths =>
    rw [hpaths] at hwalk
    split at h
    next a b ha hb =>
      cases h
      have hmemA : a ∈ [first, second].filter (isA origin destination) := ha ▸ mem_cons_self
      have hmemB : b ∈ [first, second].filter fun path => !isA origin destination path := hb ▸ mem_cons_self
      exact ⟨a, b, rfl, hwalk _ (mem_filter.mp hmemA).1, hwalk _ (mem_filter.mp hmemB).1⟩
    · cases h
  · cases h

theorem laneOk_of_lanesToward {members : List ℤ} {rank peer laneCount : ℕ} {lanes : List Lane}
    (h : lanesToward fabric members rank peer laneCount = .ok lanes) (hlane : lane ∈ lanes) : LaneOk laneCount lane := by
  unfold lanesToward at h
  split at h
  · cases h
  next hcount =>
    have hlanes : laneCount = 1 ∨ laneCount = 2 := by omega
    split at h
    next origin destination _ _ =>
      cases hchosen : chosenPaths fabric origin destination with
      | error =>
        rw [hchosen] at h
        cases h
      | ok =>
        rw [hchosen] at h
        obtain ⟨first, second, rfl, hfirst, hsecond⟩ := chosenPaths_spec hchosen
        obtain ⟨entry, hentry, hover⟩ := (Routes.mem_of_mapM h).2 lane hlane
        have hcases : entry = ((first, .primary), 0) ∨ entry = ((second, .secondary), 1) ∧ laneCount = 2 := by
          rcases hlanes with rfl | rfl
          · exact .inl (mem_singleton.mp hentry)
          rcases List.mem_cons.mp hentry with hhead | hrest
          · exact .inl hhead
          · exact .inr ⟨mem_singleton.mp hrest, rfl⟩
        rcases hcases with rfl | ⟨rfl, htwo⟩
        · obtain ⟨hindex, hclass, hqueues⟩ := hairpins_of_walk hfirst hover
          exact ⟨hlanes, by omega, by simp [hindex, hclass], hqueues⟩
        · obtain ⟨hindex, hclass, hqueues⟩ := hairpins_of_walk hsecond hover
          exact ⟨hlanes, by omega, by simp [hindex, hclass], hqueues⟩
    · cases h

end

namespace GroupTopology

variable {topology : GroupTopology} {crossings : List (Hairpin × Lane)} {packs : ℕ} {queue : Hairpin}

/-- Lanes at the queues they cross. -/
def AllOk (laneCount : ℕ) (crossings : List (Hairpin × Lane)) : Prop :=
  ∀ crossing ∈ crossings, LaneOk laneCount crossing.2 ∧ crossing.1.2.2 = crossing.2.functionClass

theorem crossings_ok : ∃ crossings, topology.crossings = .ok crossings ∧ AllOk topology.laneCount crossings := by
  have hlane : ∀ lane ∈ topology.groupLanes, LaneOk topology.laneCount lane := by
    intro lane hlane
    obtain ⟨pair, -, hmem⟩ := List.mem_flatMap.mp hlane
    unfold lanes at hmem
    split at hmem
    next lanes hlanes => exact laneOk_of_lanesToward hlanes hmem
    · cases hmem
  obtain ⟨each, heach, hok⟩ := Routes.exists_mapM (f := fun lane : Lane => lane.hairpins.map fun queues => queues.map fun queue => (queue, lane))
    (P := AllOk topology.laneCount) fun lane hmem => by
      obtain ⟨queues, hqueues, hclass⟩ := (hlane lane hmem).hairpins
      refine ⟨queues.map fun queue => (queue, lane), by rw [hqueues]; rfl, fun crossing hcrossing => ?_⟩
      obtain ⟨queue, hqueue, rfl⟩ := mem_map.mp hcrossing
      exact ⟨hlane lane hmem, hclass queue hqueue⟩
  refine ⟨each.flatten, by rw [crossings, heach]; rfl, fun crossing hcrossing => ?_⟩
  obtain ⟨queues, hqueues, hmem⟩ := List.mem_flatten.mp hcrossing
  exact hok queues hqueues crossing hmem

theorem foldl_max_spec (l : List ℕ) (n : ℕ) : n ≤ l.foldl max n ∧ (∀ x ∈ l, x ≤ l.foldl max n) ∧ (l.foldl max n = n ∨ l.foldl max n ∈ l) := by
  induction l generalizing n with
  | nil => exact ⟨le_refl n, fun x hx => absurd hx List.not_mem_nil, .inl rfl⟩
  | cons a l ih =>
    obtain ⟨hle, hall, hmem⟩ := ih (max n a)
    rw [List.foldl_cons]
    refine ⟨(le_max_left n a).trans hle, List.forall_mem_cons.mpr ⟨(le_max_right n a).trans hle, hall⟩, ?_⟩
    rcases hmem with hmem | hmem
    · rcases max_choice n a with hmax | hmax
      · exact .inl (hmem.trans hmax)
      · exact .inr (by rw [hmem, hmax]; exact mem_cons_self)
    · exact .inr (List.mem_cons_of_mem a hmem)

/-- The busiest queue among some bounds them, and is one of them. -/
theorem busiest_spec (h : topology.crossings = .ok crossings) (among : Hairpin → Bool) :
    (∀ queue, among queue → count crossings queue ≤ topology.busiest among) ∧
      (topology.busiest among = 0 ∨ ∃ queue, among queue ∧ count crossings queue = topology.busiest among ∧
        ∃ crossing ∈ crossings, crossing.1 = queue) := by
  rw [busiest, h]
  obtain ⟨-, hall, hmem⟩ := foldl_max_spec ((crossings.filter fun crossing => among crossing.1).map fun crossing => count crossings crossing.1) 0
  refine ⟨fun queue hqueue => ?_, hmem.imp id fun hmem => ?_⟩
  · by_cases hcount : count crossings queue = 0
    · rw [hcount]
      exact Nat.zero_le _
    obtain ⟨crossing, hcrossing, hsame⟩ := List.countP_pos_iff.mp (Nat.pos_of_ne_zero hcount)
    have heq : crossing.1 = queue := of_decide_eq_true hsame
    exact hall _ (mem_map.mpr ⟨crossing, mem_filter.mpr ⟨hcrossing, by rw [heq]; exact hqueue⟩, by rw [heq]⟩)
  obtain ⟨crossing, hcrossing, heq⟩ := mem_map.mp hmem
  obtain ⟨hcrossing, hamong⟩ := mem_filter.mp hcrossing
  exact ⟨crossing.1, hamong, heq, crossing, hcrossing, rfl⟩

def packsOf (packs laneCount index : ℕ) : ℕ := packs / laneCount + if index < packs % laneCount then 1 else 0

theorem laneBytes_eq {lane : Lane} (h : LaneOk topology.laneCount lane) :
    topology.laneBytes (16 * packs) lane = 16 * packsOf packs topology.laneCount lane.index := by
  rw [laneBytes, Nat.mul_div_cancel_left _ (by norm_num), stripe, if_neg (by have := h.lanes; have := h.index_lt; rw [MAX_LANES]; omega)]
  rfl

/-- Every lane in a queue carries the same. -/
theorem fill_eq (hok : AllOk topology.laneCount crossings) : topology.fill crossings (16 * packs) queue =
    count crossings queue * (16 * packsOf packs topology.laneCount (if queue.2.2 = .primary then 0 else 1)) := by
  rw [fill, List.sum_eq_card_nsmul _ (16 * packsOf packs topology.laneCount (if queue.2.2 = .primary then 0 else 1)),
    List.length_map, count, List.countP_eq_length_filter, nsmul_eq_mul, Nat.cast_id]
  intro bytes hbytes
  obtain ⟨crossing, hcrossing, rfl⟩ := mem_map.mp hbytes
  obtain ⟨hmem, hsame⟩ := mem_filter.mp hcrossing
  obtain ⟨hlane, hclass⟩ := hok crossing hmem
  rw [laneBytes_eq hlane, ← of_decide_eq_true hsame, hclass]
  congr 2
  have := hlane.lanes
  have := hlane.index_lt
  split
  next hprimary => exact hlane.primary.mp hprimary
  next hsecondary =>
    have hne : crossing.2.index ≠ 0 := fun hzero => hsecondary (hlane.primary.mpr hzero)
    omega

/-- Packs that the rule gives a peer, by the lanes of the busiest queue. -/
def rulePacks (laneCount busiest : ℕ) : ℕ := 24576 * laneCount / busiest

theorem relayFactor_eq (h : topology.crossings = .ok crossings) :
    topology.relayFactor = .ok (double (topology.busiest (fun _ => true) / topology.laneCount)) := by
  have hall : (crossings.filter fun _ => true) = crossings := List.filter_eq_self.mpr fun _ _ => rfl
  rw [relayFactor, h, busiest, h]
  dsimp only
  rw [hall]
  rfl

/-- The bytes by the rule are whole packs; rounding does not change them. -/
theorem rule_eq {laneCount c : ℕ} (hlanes : laneCount = 1 ∨ laneCount = 2) (hc : 0 < c) :
    ⌊double (HAIRPIN_QUEUE_BYTES * RELAY_FILL_LIMIT / double (c / laneCount))⌋.toNat / 16 = rulePacks laneCount c := by
  have hqueue : (HAIRPIN_QUEUE_BYTES * RELAY_FILL_LIMIT : ℚ) = 393216 := by
    rw [HAIRPIN_QUEUE_BYTES, RELAY_FILL_LIMIT]
    norm_num
  have hcast : (0 : ℚ) < c := by exact_mod_cast hc
  have hcount : (0 : ℚ) < laneCount := by
    rcases hlanes with rfl | rfl
    · norm_num
    · norm_num
  rw [hqueue]
  by_cases hsmall : c < 2 ^ 53
  · have hexact : double (c / laneCount) = c / laneCount := by
      rcases hlanes with rfl | rfl
      · simpa using RelayPieces.double_half hc hsmall 0
      · simpa using RelayPieces.double_half hc hsmall 1
    have hquotient : (393216 / (c / laneCount) : ℚ) = (393216 * laneCount : ℕ) / c := by
      push_cast
      field_simp
    rw [hexact, hquotient, RelayPieces.floor_double_div (by omega) (by omega) hc, Int.toNat_natCast, Nat.div_div_eq_div_mul,
      Nat.mul_comm c 16, ← Nat.div_div_eq_div_mul, rulePacks]
    congr 1
    omega
  · have hlarge : (2 ^ 52 : ℚ) ≤ c / laneCount := by
      have hle : (2 ^ 53 : ℚ) ≤ c := by exact_mod_cast Nat.not_lt.mp hsmall
      have htwo : (laneCount : ℚ) ≤ 2 := by exact_mod_cast (by omega : laneCount ≤ 2)
      rw [le_div_iff₀ hcount]
      linarith
    have hfactor : (2 ^ 51 : ℚ) < double (c / laneCount) := by
      have hround := RelayPieces.lt_double (div_pos hcast hcount)
      linarith
    have hquotient : (393216 / double (c / laneCount) : ℚ) ≤ 1 / 2 := by
      rw [div_le_iff₀ (by linarith)]
      linarith
    have hzero : ⌊double (393216 / double (c / laneCount))⌋ < 1 := by
      have hround := RelayPieces.double_le (div_pos (by norm_num : (0 : ℚ) < 393216) ((by norm_num : (0 : ℚ) < 2 ^ 51).trans hfactor))
      rw [Int.floor_lt, Int.cast_one]
      linarith
    have hnone : rulePacks laneCount c = 0 := Nat.div_eq_of_lt (by omega)
    omega

/-- The bytes of a factor are those of the rule, or an even number of packs below an even number of the rule. -/
theorem factorBytes_packs {f : ℚ} {rule : ℕ} (hf : f ≠ 0)
    (hrule : ⌊double (HAIRPIN_QUEUE_BYTES * RELAY_FILL_LIMIT / f)⌋.toNat / 16 = rule) :
    ∃ packs, factorBytes f = some (16 * packs) ∧ packs ≤ rule ∧ (packs = rule ∨ Even packs ∧ Even rule) := by
  have hmeasured : ∀ m : ℕ, 0 < m → f = m → rule = 393216 / m / 16 := by
    intro m hm heq
    have hqueue : (HAIRPIN_QUEUE_BYTES * RELAY_FILL_LIMIT / f : ℚ) = (393216 : ℕ) / m := by
      rw [heq, HAIRPIN_QUEUE_BYTES, RELAY_FILL_LIMIT]
      norm_num
    rw [← hrule, hqueue, RelayPieces.floor_double_div (by norm_num) (by norm_num) hm, Int.toNat_natCast]
  rw [factorBytes, if_neg hf]
  dsimp only
  rw [hrule, MEASURED_PER_PEER_BYTES]
  by_cases hthree : f = 3
  · have hpacks : rule = 8192 := hmeasured 3 (by norm_num) (by exact_mod_cast hthree)
    rw [hthree, hpacks]
    exact ⟨8192, rfl, le_refl _, .inl rfl⟩
  by_cases hone : f = 1
  · have hpacks : rule = 24576 := hmeasured 1 (by norm_num) (by exact_mod_cast hone)
    rw [hone, hpacks]
    exact ⟨16384, rfl, by norm_num, .inr ⟨by decide, by decide⟩⟩
  have hnone : List.lookup f [((3 : ℚ), 131072), (1, 262144)] = none := by
    rw [List.lookup_cons, beq_eq_false_iff_ne.mpr hthree, List.lookup_cons, beq_eq_false_iff_ne.mpr hone]
    rfl
  rw [hnone]
  exact ⟨rule, by rw [Nat.mul_comm], le_refl _, .inl rfl⟩

/-- The size is none where nothing is relayed. -/
theorem perPeerOpBytes_zero (h : topology.crossings = .ok crossings) (hzero : topology.busiest (fun _ => true) = 0) :
    topology.perPeerOpBytes none = .ok none := by
  have hdouble : double 0 = 0 := RelayPieces.double_of_places (n := 0) (by simp)
  rw [perPeerOpBytes, relayFactor_eq h, hzero, Nat.cast_zero, zero_div, hdouble]
  rfl

theorem perPeerOpBytes_packs (h : topology.crossings = .ok crossings) (hlanes : topology.laneCount = 1 ∨ topology.laneCount = 2)
    (hpos : 0 < topology.busiest fun _ => true) : ∃ packs, topology.perPeerOpBytes none = .ok (some (16 * packs)) ∧
      packs ≤ rulePacks topology.laneCount (topology.busiest fun _ => true) ∧
      (packs = rulePacks topology.laneCount (topology.busiest fun _ => true) ∨
        Even packs ∧ Even (rulePacks topology.laneCount (topology.busiest fun _ => true))) := by
  have hfactor : double ((topology.busiest fun _ => true : ℕ) / topology.laneCount) ≠ 0 := by
    have hquotient : (0 : ℚ) < (topology.busiest fun _ => true : ℕ) / topology.laneCount :=
      div_pos (by exact_mod_cast hpos) (by exact_mod_cast (by omega : 0 < topology.laneCount))
    have hround := RelayPieces.lt_double hquotient
    intro hzero
    linarith
  obtain ⟨packs, hbytes, hpacks⟩ := factorBytes_packs hfactor (rule_eq hlanes hpos)
  exact ⟨packs, by rw [perPeerOpBytes, relayFactor_eq h, Except.map, hbytes], hpacks⟩

/-- Bytes that fit in the share of a queue. -/
theorem within_iff {bytes : ℕ} : (bytes : ℚ) ≤ RELAY_FILL_LIMIT * HAIRPIN_QUEUE_BYTES ↔ bytes ≤ 393216 := by
  have hlimit : RELAY_FILL_LIMIT * HAIRPIN_QUEUE_BYTES = (393216 : ℕ) := by
    rw [HAIRPIN_QUEUE_BYTES, RELAY_FILL_LIMIT]
    norm_num
  rw [hlimit, Nat.cast_le]

/-- Every lane's packs fit in a share for the lanes of the busiest queue. -/
theorem fits {laneCount c packs count : ℕ} (hpacks : packs ≤ rulePacks laneCount c) (hcount : count ≤ c) {each : ℕ}
    (heach : each * laneCount ≤ packs) (hpos : 0 < laneCount) : count * (16 * each) ≤ 393216 := by
  have hrule : c * rulePacks laneCount c ≤ 24576 * laneCount := Nat.mul_div_le _ _
  have hshare : count * each * laneCount ≤ 24576 * laneCount :=
    calc count * each * laneCount = count * (each * laneCount) := Nat.mul_assoc _ _ _
      _ ≤ c * rulePacks laneCount c := Nat.mul_le_mul hcount (heach.trans hpacks)
      _ ≤ 24576 * laneCount := hrule
  have hone : count * each ≤ 24576 := Nat.le_of_mul_le_mul_right hshare hpos
  calc count * (16 * each) = 16 * (count * each) := by ring
    _ ≤ 393216 := by omega

/-- The first of two lanes carries one pack more of an odd number, and too much where its lanes fill a queue. -/
theorem not_fillsWithin (h : topology.crossings = .ok crossings) (hok : AllOk topology.laneCount crossings) (htwo : topology.laneCount = 2)
    (hodd : ¬Even (49152 / topology.busiest fun _ => true))
    (hmore : 49152 < (topology.busiest fun queue => queue.2.2 = .primary) * (49152 / (topology.busiest fun _ => true) + 1)) :
    ¬topology.FillsWithin := by
  rintro ⟨found, size, hfound, hsize, hfill⟩
  cases h.symm.trans hfound
  have hpos : 0 < topology.busiest fun _ => true := by
    rw [Nat.pos_iff_ne_zero]
    intro hzero
    rw [hzero] at hodd
    exact hodd (by decide)
  obtain ⟨packs, hpacks, -, hrule⟩ := perPeerOpBytes_packs h (.inr htwo) hpos
  rw [htwo] at hrule
  have hexact : packs = 49152 / topology.busiest fun _ => true := hrule.resolve_right fun heven => hodd heven.2
  obtain ⟨-, hzero | ⟨queue, hprimary, hcount, -⟩⟩ := busiest_spec h fun queue => queue.2.2 = .primary
  · rw [hzero, Nat.zero_mul] at hmore
    omega
  cases hsize.symm.trans hpacks
  have hbytes := within_iff.mp (hfill _ rfl queue)
  rw [fill_eq hok, if_pos (of_decide_eq_true hprimary), htwo, hcount, packsOf] at hbytes
  rw [← hexact, Nat.not_even_iff_odd] at hodd
  obtain ⟨half, hhalf⟩ := hodd
  rw [← hexact] at hmore
  have heach : packs / 2 + (if 0 < packs % 2 then 1 else 0) = half + 1 := by
    rw [if_pos (by omega)]
    omega
  rw [heach] at hbytes
  have htwice : (topology.busiest fun queue => queue.2.2 = .primary) * (packs + 1) =
      2 * ((topology.busiest fun queue => queue.2.2 = .primary) * (half + 1)) := by
    rw [hhalf]
    ring
  have hsixteen : (topology.busiest fun queue => queue.2.2 = .primary) * (16 * (half + 1)) =
      16 * ((topology.busiest fun queue => queue.2.2 = .primary) * (half + 1)) := by ring
  omega

/-- Ops of the relay-safe size keep every queue within its share unless the packs of a peer are odd and the first lanes
of some queue carry the odd one too often. -/
theorem fillsWithin_iff (topology : GroupTopology) : topology.FillsWithin ↔ topology.laneCount = 1 ∨
    Even (49152 / topology.busiest fun _ => true) ∨
    (topology.busiest fun queue => queue.2.2 = .primary) * (49152 / (topology.busiest fun _ => true) + 1) ≤ 49152 := by
  obtain ⟨crossings, hcrossings, hok⟩ := crossings_ok
  obtain ⟨hmost, hattained⟩ := busiest_spec hcrossings fun _ => true
  obtain ⟨hprimary, -⟩ := busiest_spec hcrossings fun queue => queue.2.2 = .primary
  rcases hattained with hzero | ⟨_, -, hcount, crossing, hcrossing, rfl⟩
  · rw [hzero]
    exact ⟨fun _ => .inr (.inl (by decide)), fun _ => ⟨crossings, none, hcrossings, perPeerOpBytes_zero hcrossings hzero, fun _ hno => nomatch hno⟩⟩
  have hlanes := (hok crossing hcrossing).1.lanes
  have hpos : 0 < topology.busiest fun _ => true := by
    rw [← hcount]
    exact List.countP_pos_iff.mpr ⟨crossing, hcrossing, decide_eq_true rfl⟩
  constructor
  · intro hfills
    by_contra hno
    simp only [not_or, not_le] at hno
    exact not_fillsWithin hcrossings hok (hlanes.resolve_left hno.1) hno.2.1 hno.2.2 hfills
  intro hcond
  obtain ⟨packs, hpacks, hle, hrule⟩ := perPeerOpBytes_packs hcrossings hlanes hpos
  refine ⟨crossings, _, hcrossings, hpacks, fun bytes hbytes queue => ?_⟩
  cases hbytes
  rw [within_iff, fill_eq hok]
  by_cases hshare : packsOf packs topology.laneCount (if queue.2.2 = .primary then 0 else 1) * topology.laneCount ≤ packs
  · exact fits hle (hmost queue rfl) hshare (by omega)
  -- only the first of two lanes carries more than its part, of an odd number of packs
  rw [packsOf] at hshare ⊢
  have htwo : topology.laneCount = 2 := by
    refine hlanes.resolve_left fun hone => hshare ?_
    rw [hone, Nat.mod_one]
    simp
  rw [htwo] at hshare hrule hcond hle ⊢
  have hclass : queue.2.2 = .primary := by
    by_contra hsecondary
    rw [if_neg hsecondary, if_neg (by omega)] at hshare
    omega
  have hodd : ¬Even packs := by
    intro heven
    rw [if_neg (by rw [Nat.even_iff.mp heven]; exact Nat.not_lt_zero _)] at hshare
    omega
  have hexact : packs = rulePacks 2 (topology.busiest fun _ => true) := hrule.resolve_right fun heven => hodd heven.1
  rcases hcond with hone | heven | hfits
  · omega
  · exact absurd (hexact ▸ heven : Even packs) hodd
  have hcount' : count crossings queue ≤ topology.busiest fun queue => queue.2.2 = .primary := hprimary queue (decide_eq_true hclass)
  have hbound : count crossings queue * (packs + 1) ≤ 49152 := by
    rw [hexact]
    exact (Nat.mul_le_mul_right _ hcount').trans hfits
  obtain ⟨half, hhalf⟩ := Nat.not_even_iff_odd.mp hodd
  rw [if_pos hclass, if_pos (by omega), show packs / 2 + 1 = half + 1 by omega]
  have htwice : count crossings queue * (packs + 1) = 2 * (count crossings queue * (half + 1)) := by
    rw [hhalf]
    ring
  have hsixteen : count crossings queue * (16 * (half + 1)) = 16 * (count crossings queue * (half + 1)) := by ring
  omega

/-- Seven Sparks in a row, with lanes through five relays allowed: nine lanes meet in a queue, and nine odd packs overfill it. -/
theorem row_of_seven_overfills : ¬∀ layout members parent laneCount maxRelays scope topology,
    describeGroup layout members parent laneCount maxRelays scope = .ok topology → topology.FillsWithin := by
  have hcounts : (match describeGroup (.path 7 (by norm_num)) [0, 1, 2, 3, 4, 5, 6] none 2 5 .group with
      | .ok topology => decide (topology.laneCount = 2) && decide ((topology.busiest fun _ => true) = 9) &&
        decide ((topology.busiest fun queue => queue.2.2 = .primary) = 9)
      | .error _ => false) = true := by decide +kernel
  intro hall
  cases hgroup : describeGroup (.path 7 (by norm_num)) [0, 1, 2, 3, 4, 5, 6] none 2 5 .group with
  | error =>
    rw [hgroup] at hcounts
    cases hcounts
  | ok =>
    rw [hgroup] at hcounts
    simp only [Bool.and_eq_true, decide_eq_true_eq] at hcounts
    obtain ⟨⟨htwo, hbusiest⟩, hprimary⟩ := hcounts
    obtain ⟨crossings, hcrossings, hok⟩ := crossings_ok
    refine not_fillsWithin hcrossings hok htwo ?_ ?_ (hall _ _ _ _ _ _ _ hgroup)
    · rw [hbusiest]
      decide
    · rw [hbusiest, hprimary]
      norm_num

end GroupTopology

end SparkRing.GroupFabric
