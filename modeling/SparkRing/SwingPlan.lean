import SparkRing.PhasedExchange
import Mathlib.Data.List.Lattice
import Mathlib.Algebra.Order.Ring.Nat

/-!
# The Swing schedule

A power-of-two group of 2 to 16 ranks exchanges halves of the message with
partners at ring offsets 1, -1, 3, -5, sign flipped for odd ranks, and then runs
the same steps in reverse. Chunk positions are ordered so that every step moves
one contiguous range of positions to one peer.
-/

namespace SparkRing.SwingPlan

open PhasedExchange

/-- Group sizes with a Swing schedule. -/
def groups : List ℕ := [2, 4, 8, 16]

/-- Steps of the reduce-scatter of a power-of-two group. -/
def steps (world : ℕ) : ℕ := Nat.log2 world

/-- Offset of a step's partner: 1, -1, 3, -5. -/
def swingOffset (step : ℕ) : ℤ := (1 - (-2) ^ (step + 1)) / 3

/-- Partner of a rank at a step. -/
def swingPeer (world rank step : ℕ) : ℕ :=
  ((if rank % 2 = 0 then (rank : ℤ) + swingOffset step else rank - swingOffset step) % world).toNat

/-- Ranks reached from a rank by `n` more steps from a step on. -/
def reach (world : ℕ) : ℕ → ℕ → ℕ → List ℕ
  | 0, rank, _ => [rank]
  | n + 1, rank, step =>
    reach world n rank (step + 1) ∪ reach world n (swingPeer world rank step) (step + 1)

/-- Lowest of some ranks or positions. -/
def lowest (ranks : List ℕ) : ℕ := ranks.foldl min (ranks.headD 0)

/-- Depth-first walk over the reach sets, the two children of a step ordered by
their lowest rank. -/
def walk (world : ℕ) : ℕ → ℕ → ℕ → List ℕ
  | 0, rank, _ => [rank]
  | n + 1, rank, step =>
    let mine := lowest (reach world n rank (step + 1))
    let theirs := lowest (reach world n (swingPeer world rank step) (step + 1))
    if mine ≤ theirs then walk world n mine (step + 1) ++ walk world n theirs (step + 1)
    else walk world n theirs (step + 1) ++ walk world n mine (step + 1)

/-- Owner rank of every chunk position. -/
def swingChunkOwners (world : ℕ) : List ℕ := walk world (steps world) 0 0

/-- One phase of a described op: chunk positions `[first, last)` to `peer`. -/
structure Descriptor where
  /-- First chunk position. -/
  first : ℕ
  /-- Chunk position after the last. -/
  last : ℕ
  /-- The peer written to. -/
  peer : ℕ
  /-- Flag namespace. -/
  ns : ℕ
  deriving DecidableEq, Repr

/-- Positions of some ranks, when they are contiguous. -/
def span (world : ℕ) (ranks : List ℕ) : Option (ℕ × ℕ) :=
  let places := ranks.map fun r => (swingChunkOwners world).idxOf r
  let first := lowest places
  if ∀ i < places.length, first + i ∈ places then some (first, first + places.length) else none

/-- Network phases of one op. -/
def phaseCount (world : ℕ) : ℕ := 2 * steps world

/-- Step of a phase: the steps in order, then in reverse. -/
def stepOf (world k : ℕ) : ℕ := if k < steps world then k else 2 * steps world - 1 - k

/-- Namespace of a phase: 0 for the reduce-scatter, 1 for the all-gather. -/
def namespaceOf (world k : ℕ) : ℕ := if k < steps world then 0 else 1

/-- Phase `k` of a rank: in the reduce-scatter the positions the partner answers
for, in the all-gather the rank's own. -/
def swingPhase (world rank k : ℕ) : Option Descriptor :=
  let step := stepOf world k
  let peer := swingPeer world rank step
  let kept := if k < steps world then peer else rank
  (span world (reach world (steps world - (step + 1)) kept (step + 1))).map fun (first, last) =>
    ⟨first, last, peer, namespaceOf world k⟩

/-- The chunk positions of a phase. -/
def positions (world rank k : ℕ) : ℕ × ℕ :=
  match swingPhase world rank k with
  | some d => (d.first, d.last)
  | none => (0, 0)

/-- Every phase has a descriptor of positions of the group. -/
theorem swingPhase_eq : ∀ world ∈ groups, ∀ r < world, ∀ k < phaseCount world,
    swingPhase world r k = some ⟨(positions world r k).1, (positions world r k).2,
      swingPeer world r (stepOf world k), namespaceOf world k⟩ ∧
      (positions world r k).1 ≤ (positions world r k).2 ∧ (positions world r k).2 ≤ world := by
  decide +kernel

/-- The partner of a rank's partner is the rank, and no rank is its own partner. -/
theorem swingPeer_symm : ∀ world ∈ groups, ∀ r < world, ∀ k < phaseCount world,
    swingPeer world r (stepOf world k) < world ∧ swingPeer world r (stepOf world k) ≠ r ∧
      swingPeer world (swingPeer world r (stepOf world k)) (stepOf world k) = r := by
  decide +kernel

/-- A rank has the same partner only at a step and its reverse. -/
theorem swingPeer_inj : ∀ world ∈ groups, ∀ r < world, ∀ k < phaseCount world, ∀ j < phaseCount world,
    swingPeer world r (stepOf world k) = swingPeer world r (stepOf world j) → k = j ∨ k + j + 1 = phaseCount world := by
  decide +kernel

/-- A step and its reverse write different positions to the partner. -/
theorem positions_disjoint : ∀ world ∈ groups, ∀ r < world, ∀ k < steps world,
    (positions world r k).2 ≤ (positions world r (phaseCount world - 1 - k)).1 ∨
      (positions world r (phaseCount world - 1 - k)).2 ≤ (positions world r k).1 := by
  decide +kernel

/-- The reduce-scatter alone reaches every rank. -/
theorem swing_full : ∀ world ∈ groups, ∀ r < world, ∀ q < world,
    q ∈ heard (fun r k => [swingPeer world r (stepOf world k)]) 0 (steps world) r := by
  decide +kernel

/-- There are two to eight phases, half of them of the reduce-scatter. -/
theorem phaseCount_le : ∀ world ∈ groups, 0 < steps world ∧ phaseCount world ≤ 8 := by decide

end SparkRing.SwingPlan
