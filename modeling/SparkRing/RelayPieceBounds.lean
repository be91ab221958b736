import SparkRing.ChannelItems
import SparkRing.RelayPieces

/-!
# Which pieces stay relay-safe

A phase sends a peer the whole message of a one-shot op, a chunk of it for a two-shot op, and a
part of one chunk for a scatter op. The op sizes of a session with relays bound the chunks, the
gathers and the scatters by its relay-safe size; a piece that is chosen one-shot is not bounded
by them.
-/

namespace SparkRing.RelayPieces

open Engine (pack)
open Sircl (Algorithm)
open SessionLocks (RunMode Settings)
open PostingWindows (laneSplit)
open ArenaPlan (postRange chunkRange peersOf)
open List (mem_map not_mem_nil)
open Nat (mod_self mul_mod_left zero_le)
open ArenaPlan (checkPayload opPhases packBytes postChunks postFirstPhase postLaterPhase postOneshot stripe)
open Except (ok.inj)

variable {session : Session} {op : ArenaPlan.Op}
  {safe rank peer phase packs world size suspended nbytes total chunk : ℕ} (c : ArenaPlan.Config) {plan : List Sircl.ReducePiece}
  {piece : Sircl.ReducePiece} {mode : RunMode}

namespace Session

end Session

namespace Session

section

variable (h : session.relaySafeBytes = some safe)

include h

end

end Session

/-- The steps of a counted range. -/
theorem mem_range {start stop step offset : ℕ} (hstep : 0 < step) (h : offset ∈ TileLoop.range start stop step) :
    (∃ k, offset = start + step * k) ∧ offset < stop := by
  obtain ⟨k, hk, rfl⟩ := List.mem_range'.mp h
  refine ⟨⟨k, rfl⟩, ?_⟩
  have hdiv : step * ((stop - start + step - 1) / step) ≤ stop - start + step - 1 := Nat.mul_div_le _ _
  have hsucc : step * (k + 1) ≤ step * ((stop - start + step - 1) / step) := Nat.mul_le_mul_left step hk
  rw [Nat.mul_succ] at hsucc
  omega

/-- The op of the links at the front of a plan, and where the pieces start. -/
inductive Linked (world : ℕ) : List Sircl.ReducePiece → ℕ → Prop
  | none : Linked world [] 0
  | ring (nbytes : ℕ) : nbytes % (world * pack) = 0 → Linked world [{ offset := 0, nbytes, ring := true }] nbytes
  | chain (nbytes : ℕ) : Linked world [{ offset := 0, nbytes, chain := true }] nbytes

theorem Linked.item {world start : ℕ} {linked : List Sircl.ReducePiece} (h : Linked world linked start) :
    ∀ item ∈ linked, (item.chain || item.ring) = true ∧ item.padded = false ∧ (item.ring = true → item.nbytes % (world * pack) = 0) := by
  cases h with
  | none => exact List.forall_mem_nil _
  | ring nbytes hgroups => exact List.forall_mem_singleton.mpr ⟨rfl, rfl, fun _ => hgroups⟩
  | chain => exact List.forall_mem_singleton.mpr ⟨rfl, rfl, nofun⟩

/-- A plan is its ring or chain op, pieces from a whole pack on, and the padded tail. -/
theorem reducePlan_eq {world : ℕ} {chainFrom ringFrom : Option ℕ}
    (h : Sircl.reducePlan total size chainFrom ringFrom world = .ok plan) :
    pack ≤ size ∧ size % pack = 0 ∧ ∃ linked start, Linked world linked start ∧ start % pack = 0 ∧ start ≤ total / pack * pack ∧
      plan = linked ++
        (TileLoop.range start (total / pack * pack) size).map (fun offset =>
          ({ offset, nbytes := min size (total / pack * pack - offset) } : Sircl.ReducePiece)) ++
        if total / pack * pack < total then [{ offset := total / pack * pack, nbytes := total - total / pack * pack, padded := true }] else [] := by
  unfold Sircl.reducePlan at h
  split at h
  · cases h
  split at h
  · cases h
  refine ⟨by omega, by omega, ?_⟩
  have hpack : total / pack * pack % pack = 0 := mul_mod_left _ _
  generalize total / pack * pack = aligned at *
  have hprefix : Sircl.ringPrefix aligned world % (world * pack) = 0 ∧ Sircl.ringPrefix aligned world % pack = 0 ∧
      Sircl.ringPrefix aligned world ≤ aligned := by
    rw [Sircl.ringPrefix]
    refine ⟨?_, mul_mod_left _ _, ?_⟩
    · rw [Nat.mul_assoc]
      exact mul_mod_left _ _
    · rw [Nat.mul_assoc]
      exact Nat.div_mul_le_self _ _
  by_cases hring : ∃ least, ringFrom = some least ∧ Sircl.ringPrefix aligned world ≠ 0 ∧ least ≤ Sircl.ringPrefix aligned world
  · obtain ⟨least, rfl, hlong⟩ := hring
    refine ⟨_, _, .ring _ hprefix.1, hprefix.2.1, hprefix.2.2, (ok.inj h).symm.trans ?_⟩
    cases chainFrom <;> simp [hlong]
  have hshort : ∀ least, ringFrom = some least →
      ¬(Sircl.ringPrefix aligned world ≠ 0 ∧ least ≤ Sircl.ringPrefix aligned world) := fun least heq hlong => hring ⟨least, heq, hlong⟩
  by_cases hchain : ∃ least, chainFrom = some least ∧ aligned ≠ 0 ∧ least ≤ aligned
  · obtain ⟨least, rfl, hlong⟩ := hchain
    refine ⟨_, _, .chain aligned, hpack, le_rfl, (ok.inj h).symm.trans ?_⟩
    cases ringFrom with
    | none => simp [hlong]
    | some first => simp [if_neg (hshort first rfl), hlong]
  have hnone : ∀ least, chainFrom = some least → ¬(aligned ≠ 0 ∧ least ≤ aligned) := fun least heq hlong => hchain ⟨least, heq, hlong⟩
  refine ⟨_, _, .none, rfl, zero_le _, (ok.inj h).symm.trans ?_⟩
  cases ringFrom with
  | none =>
    cases chainFrom with
    | none => simp
    | some least => simp [if_neg (hnone least rfl)]
  | some first =>
    cases chainFrom with
    | none => simp [if_neg (hshort first rfl)]
    | some least => simp [if_neg (hshort first rfl), if_neg (hnone least rfl)]

/-- A piece of a plan that is no ring or chain op is the padded tail, or whole packs within the op
size. -/
theorem reducePlan_piece {world : ℕ} {chainFrom ringFrom : Option ℕ}
    (h : Sircl.reducePlan total size chainFrom ringFrom world = .ok plan) (hpiece : piece ∈ plan)
    (hlinks : (piece.chain || piece.ring) = false) :
    piece.padded = true ∨ piece.padded = false ∧ piece.nbytes % pack = 0 ∧ 0 < piece.nbytes ∧ piece.nbytes ≤ size := by
  obtain ⟨hsize, hpacks, linked, start, hlinked, hstart, -, rfl⟩ := reducePlan_eq h
  rcases List.mem_append.mp hpiece with hpiece | htail
  · rcases List.mem_append.mp hpiece with hin | hpiece
    · rw [(hlinked.item piece hin).1] at hlinks
      cases hlinks
    obtain ⟨offset, hoffset, rfl⟩ := mem_map.mp hpiece
    obtain ⟨⟨k, hk⟩, hlt⟩ := mem_range ((by decide : 0 < pack).trans_le hsize) hoffset
    have haligned : total / pack * pack % pack = 0 := mul_mod_left _ _
    have hsteps : size * k % pack = 0 := by rw [Nat.mul_mod, hpacks, Nat.zero_mul, Nat.zero_mod]
    generalize total / pack * pack = aligned at *
    generalize size * k = steps at *
    rw [show pack = 16 from rfl] at *
    refine Or.inr ⟨rfl, ?_, ?_, min_le_left _ _⟩
    · change min size (aligned - offset) % 16 = 0
      omega
    · change 0 < min size (aligned - offset)
      omega
  · split_ifs at htail with hmore
    · exact Or.inl (by rw [List.mem_singleton.mp htail])
    · exact absurd htail not_mem_nil

namespace Session

/-- A tile of an all-gather is within the op size, and so is what pads it. -/
theorem gatherPlan_tile {outer inner : ℕ} {plan : List GatherTile} (h : gatherPlan outer inner size = .ok plan) {tile : GatherTile}
    (htile : tile ∈ plan) : tile.nbytes ≤ size ∧ padded tile.nbytes ≤ size := by
  have hpadded : ∀ {nbytes : ℕ}, size % pack = 0 → nbytes ≤ size → nbytes ≤ size ∧ padded nbytes ≤ size := by
    intro nbytes hpacks hle
    refine ⟨hle, ?_⟩
    unfold padded
    rw [show pack = 16 from rfl] at *
    omega
  unfold gatherPlan at h
  by_cases hbad : size < pack ∨ size % pack ≠ 0
  · rw [if_pos hbad] at h
    cases h
  rw [if_neg hbad] at h
  rw [not_or, not_not] at hbad
  split at h
  · obtain rfl := ok.inj h
    exact absurd htile not_mem_nil
  split_ifs at h with hrows
  · obtain rfl := ok.inj h
    obtain ⟨row, _, rfl⟩ := mem_map.mp htile
    exact hpadded hbad.2 ((Nat.mul_le_mul_right inner (min_le_left _ _)).trans (Nat.div_mul_le_self size inner))
  obtain rfl := ok.inj h
  obtain ⟨row, _, hcols⟩ := List.mem_flatMap.mp htile
  obtain ⟨col, _, rfl⟩ := mem_map.mp hcols
  exact hpadded hbad.2 ((Nat.one_mul _).trans_le (min_le_left _ _))

/-- A capped piece is within the cap. -/
theorem capPiece_le {piece cap : ℕ} (h : capPiece piece (some cap) = .ok size) : size ≤ cap := by
  unfold capPiece at h
  dsimp only at h
  split at h
  case isTrue hle => exact (ok.inj h).symm.trans_le hle
  case isFalse =>
  split at h
  · cases h
  exact (ok.inj h).symm.trans_le (Nat.div_mul_le_self cap pack)

/-- A part of a chunk is within the piece. -/
theorem scatterPlan_part {plan : List (ℕ × ℕ)} (h : scatterPlan chunk size = .ok plan) {part : ℕ × ℕ} (hpart : part ∈ plan) :
    part.2 ≤ size := by
  unfold scatterPlan at h
  split at h
  · cases h
  split at h
  · cases h
  obtain rfl := ok.inj h
  obtain ⟨offset, _, rfl⟩ := mem_map.mp hpart
  exact min_le_left _ _

variable {settings : Settings}

section

variable (hsafe : session.relaySafeBytes = some safe)

include hsafe

end

end Session

/-- Settings without chains and rings. -/
def lineSettings : Settings where
  largeBlocks := 64
  blocks := 16
  largeSchedule := .pieces
  gatherSchedule := .pieces
  scatterSchedule := .pieces
  ringMins := fun _ => 0
  chainMins := fun _ => 0
  linkChunks := fun _ => none
  chainChunkBytes := 65536
  ringStagger := 0
  ringGatherStagger := 0
  opBlocks := fun _ _ => none

/-- The middle rank of a line relays between its ends. -/
def lineRoutes : RelayQueues.Routes where
  world := 3
  lanes := 1
  queues := fun rank peer _ => if rank = 1 ∨ peer = 1 then some [] else some [(1, false, if rank = 0 then 1 else 0)]

/-- A line of three without forward windows that is set to one-shot all-reduces. -/
def line : Session where
  worldSize := 3
  subsetRing := false
  counterBlocks := 256
  maxSize := 2 ^ 20
  ringAvailable := false
  linkAvailable := false
  chainAvailable := false
  chainSlotBytes := 0
  linkSlotBytes := 0
  linkSlots := 0
  available := fun algorithm => algorithm != .swing
  chainBlocksEnv := false
  linkBlocksEnv := fun _ => false
  builtin := false
  configured := lineSettings
  tableDecide := fun _ _ _ => none
  routes := lineRoutes
  maxGatherBytes := 2 ^ 20
  piece := 2 ^ 22
  forwardWindowBytes := 0
  hairpinQueueBytes := 524288
  algorithm := some .oneshot
  oneshotMaxBytes := 65536
  world_eq := rfl
  world_ge := by decide
  world_le := by decide
  lanes_pos := by decide
  piece_ge := by decide
  piece_packs := by decide
  piece_word := by decide
  gather_packs := by decide
  queue_ge := by decide
  ring_links := nofun
  available_eq := fun algorithm => by cases algorithm <;> decide +kernel
  algorithm_available := fun algorithm h => by cases h; rfl

end SparkRing.RelayPieces
