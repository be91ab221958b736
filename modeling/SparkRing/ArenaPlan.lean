import SparkRing.SwingPlan
import SparkRing.PostingWindows

/-!
# Arena operations and what their phases write

A one-shot op writes the whole message to every peer; a two-shot or scatter op
writes chunk `p` to peer `p`, and a two-shot op then its own chunk to every peer;
a described op writes the range of a descriptor to one peer in every phase. The
progress thread decides from the op word and the descriptor what a phase writes;
a kernel waits for what the plan of its op says. Both follow one exchange.
-/

namespace SparkRing.ArenaPlan

open PhasedExchange SwingPlan
open PostingWindows (laneSplit)

theorem two_le_two : 2 ≤ 2 := le_rfl

theorem two_le_sixteen : 2 ≤ 16 := by decide

/-- How an op is posted. -/
inductive OpCode
  /-- One phase to every peer. -/
  | oneshot
  /-- Chunk scatter, then the reduced own chunk. -/
  | twoshot
  /-- Phases described by descriptors. -/
  | described
  /-- The chunk scatter only. -/
  | scatter
  deriving DecidableEq, Repr

/-- Op code in the upper bits of an op word. -/
def OpCode.value : OpCode → ℕ
  | oneshot => 0
  | twoshot => 1
  | described => 2
  | scatter => 3

/-- Op code read from an op word. -/
def OpCode.ofValue : ℕ → OpCode
  | 0 => oneshot
  | 1 => twoshot
  | 2 => described
  | _ => scatter

/-- Bit of the op code in an op word. -/
def opShift : ℕ := 30

def packBytes : ℕ := 16

/-- Send and receive slots. -/
def slots : ℕ := 2

/-- Phases of a described op. -/
def maxPhases : ℕ := 8

/-- One arena op. -/
structure Op where
  /-- How it is posted. -/
  code : OpCode
  /-- Bytes of its message. -/
  nbytes : ℕ
  deriving DecidableEq, Repr

/-- The op word a kernel writes. -/
def Op.word (op : Op) : ℕ := op.code.value * 2 ^ opShift + op.nbytes

/-- The op a progress thread reads. -/
def decodeOpWord (word : ℕ) : Op := ⟨OpCode.ofValue (word / 2 ^ opShift), word % 2 ^ opShift⟩

theorem decodeOpWord_word {op : Op} (h : op.nbytes < 2 ^ opShift) : decodeOpWord op.word = op := by
  have hdiv : op.word / 2 ^ opShift = op.code.value := by
    rw [Op.word, Nat.add_comm, Nat.add_mul_div_right _ _ (by decide), Nat.div_eq_of_lt h, Nat.zero_add]
  have hmod : op.word % 2 ^ opShift = op.nbytes := by
    rw [Op.word, Nat.add_comm, Nat.add_mul_mod_self_right, Nat.mod_eq_of_lt h]
  rw [decodeOpWord, hdiv, hmod]
  rcases op with ⟨code, nbytes⟩
  cases code <;> rfl

/-- A session's arena. -/
structure Config where
  /-- Ranks. -/
  world : ℕ
  /-- Lanes toward every peer. -/
  laneCount : ℕ
  slotBytes : ℕ
  /-- A session has 2 to 16 ranks. -/
  world_ge : 2 ≤ world
  /-- A session has 2 to 16 ranks. -/
  world_le : world ≤ 16
  /-- Every peer has a lane. -/
  laneCount_pos : 0 < laneCount

/-- Chunk `chunk` of `packs` packs over `world` ranks: first pack and count. -/
def chunkRange (packs world chunk : ℕ) : ℕ × ℕ :=
  (chunk * packs / world, (chunk + 1) * packs / world - chunk * packs / world)

/-- Flag line of a namespace, source, slot and lane. -/
def flagLine (c : Config) (ns source slot lane : ℕ) : ℕ :=
  ns * c.world * slots * c.laneCount + (source * slots + slot) * c.laneCount + lane

/-- One lane's part of a phase: packs to a peer, then the flag. -/
structure Stripe where
  /-- The peer written to. -/
  peer : ℕ
  lane : ℕ
  /-- First pack still to write. -/
  first : ℕ
  /-- Packs still to write. -/
  count : ℕ
  /-- Flag namespace. -/
  ns : ℕ
  deriving DecidableEq, Repr

variable (c : Config) {r k p j : ℕ} {d : Option Descriptor}

/-- The stripe of a lane of packs `[first, first + count)` to a peer. -/
def stripe (peer first count ns lane : ℕ) : Stripe :=
  ⟨peer, lane, first + (laneSplit count c.laneCount lane).1, (laneSplit count c.laneCount lane).2, ns⟩

/-- Packs `[first, first + count)` to a peer, striped over its lanes. -/
def postRange (peer first count ns : ℕ) : List Stripe :=
  (List.range c.laneCount).map (stripe c peer first count ns)

/-- The other ranks. -/
def peersOf (rank : ℕ) : List ℕ := (List.range c.world).filter (· ≠ rank)

/-- Payloads are positive multiples of a pack up to the slot size. -/
def checkPayload (nbytes : ℕ) : Bool := nbytes ≠ 0 && nbytes % packBytes = 0 && nbytes ≤ c.slotBytes

/-- What a one-shot op posts. -/
def postOneshot (rank nbytes : ℕ) : Option (List Stripe) :=
  if checkPayload c nbytes then
    some ((peersOf c rank).flatMap fun p => postRange c p 0 (nbytes / packBytes) 0)
  else none

/-- What a phase of a two-shot or scatter op posts: chunk `p` to peer `p`, or the own
chunk to every peer. -/
def postChunks (rank nbytes phase : ℕ) : Option (List Stripe) :=
  if checkPayload c nbytes then
    some ((peersOf c rank).flatMap fun p =>
      let (first, count) := chunkRange (nbytes / packBytes) c.world (if phase = 0 then p else rank)
      postRange c p first count phase)
  else none

/-- First pack of a chunk position; the position after the last is the end of the
message. -/
def positionPack (packs position : ℕ) : ℕ :=
  if position = c.world then packs else (chunkRange packs c.world position).1

/-- What a phase of a described op posts: the chunk range of its descriptor to its
peer. -/
def postDescribed (rank nbytes : ℕ) (descriptor : Option Descriptor) : Option (List Stripe) :=
  match descriptor with
  | none => none
  | some d =>
    if checkPayload c nbytes ∧ d.first ≤ d.last ∧ d.last ≤ c.world ∧ d.peer < c.world ∧ d.peer ≠ rank then
      let packs := nbytes / packBytes
      let lo := (chunkRange packs c.world d.first).1
      some (postRange c d.peer lo (positionPack c packs d.last - lo) d.ns)
    else none

/-- Phases an op word admits. -/
def opPhases : OpCode → ℕ
  | .twoshot => 2
  | .described => maxPhases
  | _ => 1

def postFirstPhase (rank : ℕ) (op : Op) (descriptor : Option Descriptor) : Option (List Stripe) :=
  match op.code with
  | .oneshot => postOneshot c rank op.nbytes
  | .twoshot | .scatter => postChunks c rank op.nbytes 0
  | .described => postDescribed c rank op.nbytes descriptor

def postLaterPhase (rank : ℕ) (op : Op) (k : ℕ) (descriptor : Option Descriptor) : Option (List Stripe) :=
  if opPhases op.code ≤ k then none
  else if op.code = .twoshot then postChunks c rank op.nbytes 1
  else postDescribed c rank op.nbytes descriptor

def phases (op : Op) : ℕ :=
  match op.code with
  | .twoshot => 2
  | .described => phaseCount c.world
  | _ => 1

/-- Peers a rank writes to and waits for in a phase. -/
def peers (op : Op) (rank k : ℕ) : List ℕ :=
  match op.code with
  | .described => [swingPeer c.world rank (stepOf c.world k)]
  | _ => peersOf c rank

/-- Flag namespace of a phase. -/
def ns (op : Op) (k : ℕ) : ℕ :=
  match op.code with
  | .described => namespaceOf c.world k
  | _ => k

/-- First pack and count of what a rank writes to a peer in a phase. -/
def range (op : Op) (rank k peer : ℕ) : ℕ × ℕ :=
  let packs := op.nbytes / packBytes
  match op.code with
  | .oneshot => (0, packs)
  | .described =>
    let lo := (chunkRange packs c.world (positions c.world rank k).1).1
    (lo, positionPack c packs (positions c.world rank k).2 - lo)
  | _ => chunkRange packs c.world (if k = 0 then peer else rank)

/-- The descriptor a kernel writes before it rings a phase. -/
def descriptor (rank k : ℕ) : Option Descriptor := swingPhase c.world rank k

/-- The stripes of a phase. -/
def stripes (op : Op) (rank k : ℕ) : List Stripe :=
  (peers c op rank k).flatMap fun p => postRange c p (range c op rank k p).1 (range c op rank k p).2 (ns c op k)

/-- Ops a session admits: a payload that fits the slot and its word, and described
ops in groups that have a Swing schedule. -/
structure Op.Admitted (c : Config) (op : Op) : Prop where
  /-- The payload fits a slot. -/
  payload : checkPayload c op.nbytes = true
  /-- The byte count fits the op word. -/
  word : op.nbytes < 2 ^ opShift
  /-- Described ops run in power-of-two groups. -/
  group : op.code = .described → c.world ∈ groups

/-- An agreed sequence of ops, numbered from 1. -/
structure Program (c : Config) where
  /-- The op of a sequence number. -/
  op : ℕ → Op
  admitted : ∀ n, (op n).Admitted c

variable {c}

theorem mem_peersOf : p ∈ peersOf c r ↔ p < c.world ∧ p ≠ r := by
  simp [peersOf]

/-- Chunks end where the next begins. -/
theorem chunkRange_end (packs world chunk : ℕ) :
    (chunkRange packs world chunk).1 + (chunkRange packs world chunk).2 = (chunk + 1) * packs / world := by
  have hle : chunk * packs / world ≤ (chunk + 1) * packs / world :=
    Nat.div_le_div_right (Nat.mul_le_mul_right _ (by omega))
  simp only [chunkRange]
  omega

/-- Different chunks hold different packs. -/
theorem chunkRange_disjoint (packs world : ℕ) {i : ℕ} (h : i < j) :
    (chunkRange packs world i).1 + (chunkRange packs world i).2 ≤ (chunkRange packs world j).1 := by
  rw [chunkRange_end]
  exact Nat.div_le_div_right (Nat.mul_le_mul_right _ (by omega))

theorem positionPack_eq (packs position : ℕ) : positionPack c packs position = position * packs / c.world := by
  have hw := c.world_ge
  rw [positionPack]
  split
  case isTrue h => rw [h, Nat.mul_div_cancel_left _ (by omega)]
  case isFalse => rfl

/-- Where a described phase's packs end. -/
theorem described_end {op : Op} (hcode : op.code = .described) (hw : c.world ∈ groups) (hr : r < c.world) (hk : k < phaseCount c.world) :
    (range c op r k p).1 + (range c op r k p).2 = (positions c.world r k).2 * (op.nbytes / packBytes) / c.world := by
  have hle := (swingPhase_eq _ hw r hr k hk).2.1
  have hdiv : (positions c.world r k).1 * (op.nbytes / packBytes) / c.world ≤
      (positions c.world r k).2 * (op.nbytes / packBytes) / c.world :=
    Nat.div_le_div_right (Nat.mul_le_mul_right _ hle)
  simp only [range, hcode, chunkRange, positionPack_eq]
  omega

/-- Lower positions end before higher ones begin. -/
theorem described_disjoint {op : Op} (hcode : op.code = .described) (hw : c.world ∈ groups) (hr : r < c.world) (hk : k < phaseCount c.world)
    (h : (positions c.world r k).2 ≤ (positions c.world r j).1) : (range c op r k p).1 + (range c op r k p).2 ≤ (range c op r j p).1 := by
  rw [described_end hcode hw hr hk]
  simp only [range, hcode, chunkRange]
  exact Nat.div_le_div_right (Nat.mul_le_mul_right _ h)

/-- The exchange of a described op. -/
def swingSchedule (op : Op) (hcode : op.code = .described) (hw : c.world ∈ groups) : Schedule c.world where
  phases := phaseCount c.world
  peers r k := [swingPeer c.world r (stepOf c.world k)]
  ns := namespaceOf c.world
  range := range c op
  phases_pos := by
    have h := (phaseCount_le _ hw).1
    simp only [phaseCount]
    omega
  peers_ne r _ k _ := by simp
  peers_lt r hr k hk p hp := by
    rw [List.mem_singleton] at hp
    exact hp ▸ (swingPeer_symm _ hw r hr k hk).1
  peers_irrefl r hr k hk hp := by
    rw [List.mem_singleton] at hp
    exact (swingPeer_symm _ hw r hr k hk).2.1 hp.symm
  peers_symm r hr k hk p hp := by
    rw [List.mem_singleton] at hp
    subst hp
    simp [(swingPeer_symm _ hw r hr k hk).2.2]
  peers_nodup r _ k _ := by simp
  ns_inj r hr k hk j hj p hpk hpj hns := by
    rw [List.mem_singleton] at hpk hpj
    rcases swingPeer_inj _ hw r hr k hk j hj (hpk.symm.trans hpj) with h | h
    · exact h
    · simp only [namespaceOf, phaseCount] at hns h
      split at hns <;> split at hns <;> omega
  ns_lt k _ := by
    simp only [namespaceOf]
    split <;> omega
  disjoint r hr k hk j hj p hpk hpj hne := by
    rw [List.mem_singleton] at hpk hpj
    rcases swingPeer_inj _ hw r hr k hk j hj (hpk.symm.trans hpj) with h | h
    · exact absurd h hne
    rcases Nat.lt_or_ge k (steps c.world) with hlt | hge
    · have hj' : j = phaseCount c.world - 1 - k := by omega
      have hd := positions_disjoint _ hw r hr k hlt
      rw [← hj'] at hd
      rcases hd with hd | hd
      · exact .inl (described_disjoint hcode hw hr hk hd)
      · exact .inr (described_disjoint hcode hw hr hj hd)
    have hjlt : j < steps c.world := by
      simp only [phaseCount] at h
      omega
    have hk' : k = phaseCount c.world - 1 - j := by omega
    have hd := positions_disjoint _ hw r hr j hjlt
    rw [← hk'] at hd
    rcases hd with hd | hd
    · exact .inr (described_disjoint hcode hw hr hj hd)
    · exact .inl (described_disjoint hcode hw hr hk hd)
  full r hr q hq := by
    refine heard_mono ?_ (swing_full _ hw r hr q hq)
    simp only [phaseCount]
    omega

theorem heard_peersOf {q : ℕ} (hq : q < c.world) : q ∈ heard (fun r _ => peersOf c r) 0 1 r := by
  simp only [heard, List.mem_append, List.mem_singleton, List.mem_flatMap, mem_peersOf]
  rcases Nat.decEq q r with hne | heq
  · exact .inr ⟨q, ⟨hq, hne⟩, rfl⟩
  · exact .inl heq

/-- The exchange of an op whose phases go to every peer. -/
def peersSchedule (op : Op) (n : ℕ) (hpos : 0 < n) (hn : n ≤ 2)
    (hdisjoint : ∀ r p, p ≠ r → ∀ k < n, ∀ j < n, k ≠ j →
      (range c op r k p).1 + (range c op r k p).2 ≤ (range c op r j p).1 ∨
        (range c op r j p).1 + (range c op r j p).2 ≤ (range c op r k p).1) : Schedule c.world where
  phases := n
  peers r _ := peersOf c r
  ns k := k
  range := range c op
  phases_pos := hpos
  peers_ne r _ _ _ := by
    have hw := c.world_ge
    refine List.ne_nil_of_mem (mem_peersOf.mpr (?_ : (if r = 0 then 1 else 0) < c.world ∧ _))
    split <;> omega
  peers_lt r _ _ _ p hp := (mem_peersOf.mp hp).1
  peers_irrefl r _ _ _ hp := (mem_peersOf.mp hp).2 rfl
  peers_symm r hr _ _ p hp := mem_peersOf.mpr ⟨hr, (mem_peersOf.mp hp).2.symm⟩
  peers_nodup r _ _ _ := List.nodup_range.filter _
  ns_inj _ _ _ _ _ _ _ _ _ h := h
  ns_lt k hk := by omega
  disjoint r _ k hk j hj p hp _ hne := hdisjoint r p (mem_peersOf.mp hp).2 k hk j hj hne
  full r _ q hq := heard_mono (by omega) (heard_peersOf hq)

/-- The exchange of an admitted op. -/
def schedule (op : Op) (h : op.Admitted c) : Schedule c.world :=
  match hcode : op.code with
  | .described => swingSchedule op hcode (h.group hcode)
  | .twoshot => peersSchedule op 2 Nat.two_pos (by decide) (by
      intro r p hpr k hk j hj hne
      have hchunks : ∀ a b, a ≠ b → (chunkRange (op.nbytes / packBytes) c.world a).1 +
          (chunkRange (op.nbytes / packBytes) c.world a).2 ≤ (chunkRange (op.nbytes / packBytes) c.world b).1 ∨
          (chunkRange (op.nbytes / packBytes) c.world b).1 +
          (chunkRange (op.nbytes / packBytes) c.world b).2 ≤ (chunkRange (op.nbytes / packBytes) c.world a).1 := by
        intro a b hab
        rcases Nat.lt_or_gt_of_ne hab with hlt | hgt
        · exact .inl (chunkRange_disjoint _ _ hlt)
        · exact .inr (chunkRange_disjoint _ _ hgt)
      simp only [range, hcode]
      refine hchunks _ _ ?_
      split <;> split <;> omega)
  | .oneshot => peersSchedule op 1 Nat.one_pos (by decide) (by omega)
  | .scatter => peersSchedule op 1 Nat.one_pos (by decide) (by omega)

variable {op : Op} (h : op.Admitted c)

@[simp] theorem schedule_phases : (schedule op h).phases = phases c op := by
  unfold schedule phases
  split <;> rename_i hcode <;> simp only [hcode] <;> rfl

@[simp] theorem schedule_peers : (schedule op h).peers = peers c op := by
  funext r k
  unfold schedule peers
  split <;> rename_i hcode <;> simp only [hcode] <;> rfl

@[simp] theorem schedule_ns : (schedule op h).ns = ns c op := by
  funext k
  unfold schedule ns
  split <;> rename_i hcode <;> simp only [hcode] <;> rfl

@[simp] theorem schedule_range : (schedule op h).range = range c op := by
  unfold schedule
  split <;> rfl

include h in
/-- With the op's descriptor, the progress thread posts the first phase of the plan. -/
theorem postFirstPhase_eq (hr : r < c.world) (hd : op.code = .described → d = descriptor c r 0) :
    postFirstPhase c r op d = some (stripes c op r 0) := by
  cases hcode : op.code with
  | oneshot => simp [postFirstPhase, hcode, postOneshot, h.payload, stripes, peers, range, ns]
  | twoshot | scatter => simp [postFirstPhase, hcode, postChunks, h.payload, stripes, peers, range, ns]
  | described =>
    have hw := h.group hcode
    have hpos : 0 < phaseCount c.world := by
      have := (phaseCount_le _ hw).1
      simp only [phaseCount]
      omega
    obtain ⟨hphase, hle, hlast⟩ := swingPhase_eq _ hw r hr 0 hpos
    have hpeer := swingPeer_symm _ hw r hr 0 hpos
    simp only [postFirstPhase, hcode, postDescribed, hd hcode, descriptor, hphase]
    rw [if_pos ⟨h.payload, hle, hlast, hpeer.1, hpeer.2.1⟩]
    simp [stripes, peers, range, ns, hcode]

include h in
/-- With the op's descriptor, the progress thread posts a later phase of the plan. -/
theorem postLaterPhase_eq (hr : r < c.world) (hk : k < phases c op) (hk1 : 0 < k) (hd : op.code = .described → d = descriptor c r k) :
    postLaterPhase c r op k d = some (stripes c op r k) := by
  cases hcode : op.code with
  | oneshot | scatter => simp only [phases, hcode] at hk; omega
  | twoshot =>
    simp only [phases, hcode] at hk
    have hk' : k = 1 := by omega
    subst hk'
    simp [postLaterPhase, hcode, opPhases, postChunks, h.payload, stripes, peers, range, ns]
  | described =>
    have hw := h.group hcode
    simp only [phases, hcode] at hk
    obtain ⟨hphase, hle, hlast⟩ := swingPhase_eq _ hw r hr k hk
    have hpeer := swingPeer_symm _ hw r hr k hk
    have hmax : ¬maxPhases ≤ k := by
      have := (phaseCount_le _ hw).2
      simp only [maxPhases]
      omega
    simp only [postLaterPhase, hcode, opPhases, if_neg hmax, postDescribed, hd hcode, descriptor, hphase,
      reduceCtorEq, if_false]
    rw [if_pos ⟨h.payload, hle, hlast, hpeer.1, hpeer.2.1⟩]
    simp [stripes, peers, range, ns, hcode]

end SparkRing.ArenaPlan
