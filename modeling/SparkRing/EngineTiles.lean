import Mathlib.Tactic.Ring
import SparkRing.EngineSettings
import SparkRing.TileLoop

/-!
# The tile loops of a libsircl engine

Every collective that does not run as one link op splits its bytes into tiles, and each loop
advances by a tile of its own: a quotient of agreed settings rounded down to whole packs. The
tiles of a share (the all-to-all kernel's, and the reduce-scatter's) divide the large piece by
the ranks, so they vanish below one pack for each rank; no check of the settings excludes that.
-/

namespace SparkRing.Engine

/-- Values of a 64-bit word. -/
def word : ℕ := 2 ^ 64

/-- Bytes of every rank's data in one all-gather op. -/
def gatherTile (s : Settings) : ℕ :=
  (if s.sizes.largePiece < s.sizes.slotBytes then s.sizes.largePiece else s.sizes.slotBytes) / pack * pack

/-- Bytes of every rank's chunk in one all-to-all op. -/
def scatterTile (s : Settings) : ℕ := gatherTile s / s.world / pack * pack

/-- The reduce-scatter's own tile: its `world` pieces fit one slot and the large piece. -/
def reduceScatterTile (s : Settings) : ℕ :=
  (if s.sizes.largePiece < s.sizes.slotBytes then s.sizes.largePiece else s.sizes.slotBytes) / s.world / pack * pack

/-- The broadcast's own tile: an all-gather of it fits one slot. -/
def broadcastTile (s : Settings) : ℕ :=
  let room := s.sizes.slotBytes / s.world / pack * pack
  if room < s.sizes.largePiece then room else s.sizes.largePiece / pack * pack

/-- Bytes padded to whole packs. -/
def padded (bytes : ℕ) : ℕ := (bytes + pack - 1) / pack * pack

/-- Bytes of an all-gather op over a tile. -/
def gatherOp (bytes : ℕ) : ℕ := bytes / pack * pack

/-- Bytes of a scatter op: a piece for every rank. -/
def scatterOp (s : Settings) (bytes : ℕ) : ℕ := bytes / pack * s.world * pack

/-- The loops over tiles; `aligned`: the buffers allow an op to read and write them directly
when the sizes are whole packs. -/
inductive Loop
  /-- `sccl_engine_allgather`, over a rank's shard. -/
  | allgather (shard : ℕ) (aligned : Bool)
  /-- `sccl_engine_gather`, over a rank's shard. -/
  | gather (shard : ℕ) (aligned : Bool)
  /-- `fold_reduce`, over the message. -/
  | foldReduce (bytes : ℕ)
  /-- `fold_scatter`, over a rank's chunk. -/
  | foldScatter (chunk : ℕ)
  /-- `sccl_engine_reducescatter`, over a rank's chunk. -/
  | reduceScatter (chunk : ℕ) (aligned : Bool)
  /-- `scatter_link`, over a rank's chunk. -/
  | scatterLink (chunk : ℕ)
  /-- `reduce_into`, over the body of the message that its link op left. -/
  | reduce (start body : ℕ)
  /-- `sccl_engine_broadcast`, over the root's bytes. -/
  | broadcast (bytes : ℕ)
  /-- `sccl_engine_alltoall`, over a rank's chunk. -/
  | alltoall (chunk : ℕ) (aligned : Bool)
  /-- `sccl_engine_scatter`, over a rank's chunk. -/
  | scatter (chunk : ℕ)
  /-- `p2p_exchange`, over the larger of the two sizes. -/
  | p2pExchange (sent received : ℕ)

namespace Loop

/-- The first column. -/
def start : Loop → ℕ
  | reduce start _ => start
  | _ => 0

/-- The bytes that the columns cover. -/
def total : Loop → ℕ
  | allgather shard _ | gather shard _ => shard
  | foldReduce bytes | broadcast bytes => bytes
  | foldScatter chunk | reduceScatter chunk _ | scatterLink chunk | alltoall chunk _ | scatter chunk => chunk
  | reduce _ body => body
  | p2pExchange sent received => if sent > received then sent else received

/-- The tile by which the columns advance. -/
def tile (s : Settings) : Loop → ℕ
  | allgather .. | gather .. | foldReduce .. => gatherTile s
  | foldScatter .. | alltoall .. | scatter .. | p2pExchange .. => scatterTile s
  | reduceScatter .. => reduceScatterTile s
  | scatterLink .. => s.links.tile
  | reduce .. => s.sizes.largePiece
  | broadcast .. => broadcastTile s

/-- The loops whose op carries a piece of the large piece for every rank. -/
def Shares : Loop → Prop
  | foldScatter .. | alltoall .. | scatter .. | p2pExchange .. | reduceScatter .. => True
  | _ => False

/-- The bytes of one iteration. -/
def piece (s : Settings) (loop : Loop) (column : ℕ) : ℕ :=
  if loop.total - column < loop.tile s then loop.total - column else loop.tile s

/-- The bytes of the op that one iteration launches. -/
def launched (s : Settings) (loop : Loop) (column : ℕ) : ℕ :=
  let piece := loop.piece s column
  match loop with
  | allgather shard aligned | gather shard aligned =>
    gatherOp (if aligned ∧ shard % pack = 0 then piece else padded piece)
  | foldReduce _ | broadcast _ => gatherOp (padded piece)
  | foldScatter _ | scatter _ | p2pExchange .. => scatterOp s (padded piece)
  | reduceScatter chunk aligned | alltoall chunk aligned =>
    scatterOp s (if aligned ∧ chunk % pack = 0 then piece else padded piece)
  | scatterLink _ | reduce .. => piece

/-- What the callers of a loop have checked: sizes are words, a shard or a chunk of every rank
is one too, a link op's chunk is whole packs, and the body and the link op's prefix of it are. -/
def Called (s : Settings) : Loop → Prop
  | allgather bytes _ | gather bytes _ | foldScatter bytes | reduceScatter bytes _ | alltoall bytes _ | scatter bytes
  | broadcast bytes => bytes * s.world < word
  | scatterLink chunk => chunk * s.world < word ∧ chunk % pack = 0
  | foldReduce bytes => bytes < word
  | reduce start body => start ≤ body ∧ start % pack = 0 ∧ body % pack = 0 ∧ body < word
  | p2pExchange sent received => sent < word ∧ received < word

/-- The last column of the loop is followed by a word. -/
def Fits (s : Settings) (loop : Loop) : Prop := TileLoop.Fits word loop.start loop.total (loop.tile s)

/-- Every iteration moves forward and launches an op that carries something, and the loop ends. -/
structure Proceeds (s : Settings) (loop : Loop) : Prop where
  advances : TileLoop.Advances word loop.start loop.total (loop.tile s)
  ends : TileLoop.Ends word loop.start loop.total (loop.tile s)
  launches : ∀ column, TileLoop.Reached word loop.start loop.total (loop.tile s) column → 0 < loop.launched s column

end Loop

variable {s : Settings} {loop : Loop} {bytes column : ℕ}

theorem Settings.Accepted.gatherTile_eq (h : s.Accepted) : gatherTile s = s.sizes.largePiece := by
  have hle := h.sizes.piece_le_slot
  have hpacks := h.sizes.piece_packs
  have hpiece : (if s.sizes.largePiece < s.sizes.slotBytes then s.sizes.largePiece else s.sizes.slotBytes) =
      s.sizes.largePiece := by
    by_cases hlt : s.sizes.largePiece < s.sizes.slotBytes
    · exact if_pos hlt
    · rw [if_neg hlt]
      omega
  rw [gatherTile, hpiece]
  unfold pack at *
  omega

/-- The reduce-scatter's own tile is the all-to-all kernel's. -/
theorem Settings.Accepted.reduceScatterTile_eq (h : s.Accepted) : reduceScatterTile s = scatterTile s := by
  have hgather := h.gatherTile_eq
  have hle := h.sizes.piece_le_slot
  rw [scatterTile, hgather, reduceScatterTile]
  split_ifs with hlt
  · rfl
  · rw [Nat.le_antisymm (Nat.le_of_not_lt hlt) hle]

/-- A share of the large piece is positive exactly when the piece holds a pack for each rank. -/
theorem Settings.Accepted.scatterTile_pos_iff (h : s.Accepted) (hworld : 0 < s.world) :
    0 < scatterTile s ↔ pack * s.world ≤ s.sizes.largePiece := by
  rw [scatterTile, h.gatherTile_eq, Nat.div_div_eq_div_mul, Nat.mul_pos_iff_of_pos_right (by decide),
    Nat.div_pos_iff, Nat.mul_comm]
  have hpos : 0 < pack * s.world := Nat.mul_pos (by decide) hworld
  constructor
  · rintro ⟨_, hle⟩
    exact hle
  · exact fun hle => ⟨hpos, hle⟩

/-- A slot holds a pack for each rank. -/
theorem Settings.Accepted.broadcastTile_pos (h : s.Accepted) (hworld : 0 < s.world) (hmax : s.world ≤ maxWorld) : 0 < broadcastTile s := by
  have hpiece := h.sizes.piece_pos
  have hroom : pack ≤ s.sizes.slotBytes / s.world := by
    rw [Nat.le_div_iff_mul_le hworld]
    have hslot := h.sizes.slot_pos
    unfold slotAlignment pack maxWorld at *
    omega
  unfold broadcastTile
  by_cases hlt : s.sizes.slotBytes / s.world / pack * pack < s.sizes.largePiece
  · rw [if_pos hlt]
    unfold pack at *
    omega
  rw [if_neg hlt]
  unfold pack at *
  omega

/-- The tile of a loop is positive exactly when, for a loop of shares, the large piece holds a
pack for each rank. -/
theorem Loop.tile_pos_iff (loop : Loop) (h : s.Accepted) (hworld : 0 < s.world) (hmax : s.world ≤ maxWorld) :
    0 < loop.tile s ↔ (loop.Shares → pack * s.world ≤ s.sizes.largePiece) := by
  have hpiece : 0 < s.sizes.largePiece := Nat.lt_of_lt_of_le (by decide) h.sizes.piece_pos
  have hlink : 0 < s.links.tile := Nat.lt_of_lt_of_le (by decide) h.links.tile_pos
  have hbroadcast := h.broadcastTile_pos hworld hmax
  have hgather := h.gatherTile_eq
  have hshare := h.scatterTile_pos_iff hworld
  have hown := h.reduceScatterTile_eq
  cases loop <;> simp only [Loop.tile, Loop.Shares, hgather, hown, hshare, forall_const, hpiece, hlink, hbroadcast,
    IsEmpty.forall_iff]

/-- Every tile is whole packs, of less than half a word. -/
theorem Loop.tile_packs (loop : Loop) (h : s.Accepted) : loop.tile s % pack = 0 ∧ loop.tile s ≤ 2 ^ 30 := by
  have hpacks := h.sizes.piece_packs
  have hlt := h.sizes.piece_lt
  have hlink := h.links.tile_packs
  have hlinkLe := h.links.tile_le
  have hgather := h.gatherTile_eq
  have hshare : scatterTile s % pack = 0 ∧ scatterTile s ≤ 2 ^ 30 := by
    rw [scatterTile, hgather]
    have hdiv := Nat.div_le_self s.sizes.largePiece s.world
    unfold pack at *
    omega
  have hroom : broadcastTile s % pack = 0 ∧ broadcastTile s ≤ 2 ^ 30 := by
    unfold broadcastTile
    by_cases hless : s.sizes.slotBytes / s.world / pack * pack < s.sizes.largePiece
    · rw [if_pos hless]
      unfold pack at *
      omega
    rw [if_neg hless]
    unfold pack at *
    omega
  cases loop <;> simp only [Loop.tile, hgather, h.reduceScatterTile_eq] <;> omega

/-- Padding something gives whole packs of something. -/
theorem padded_pos (h : 0 < bytes) : 0 < padded bytes ∧ padded bytes % pack = 0 := by
  unfold padded pack
  omega

theorem gatherOp_pos (h : 0 < bytes) (hpacks : bytes % pack = 0) : 0 < gatherOp bytes := by
  unfold gatherOp pack at *
  omega

theorem scatterOp_pos (hworld : 0 < s.world) (h : 0 < bytes) (hpacks : bytes % pack = 0) : 0 < scatterOp s bytes := by
  have hpos : 0 < bytes / pack := by
    unfold pack at *
    omega
  exact Nat.mul_pos (Nat.mul_pos hpos hworld) (by decide)

/-- Bytes that go out directly are whole packs, and others are padded to them. -/
theorem direct_or_padded (direct : Prop) [Decidable direct] (h : 0 < bytes) (hdirect : direct → bytes % pack = 0) :
    0 < (if direct then bytes else padded bytes) ∧ (if direct then bytes else padded bytes) % pack = 0 := by
  split_ifs with hd
  · exact ⟨h, hdirect hd⟩
  · exact padded_pos h

/-- An iteration has something to carry. -/
theorem Loop.piece_pos (htile : 0 < loop.tile s) (hlt : column < loop.total) : 0 < loop.piece s column := by
  unfold Loop.piece
  split_ifs <;> omega

/-- What is left of whole packs at a column of whole packs, and a tile, are whole packs. -/
theorem Loop.piece_packs (h : s.Accepted) (htotal : loop.total % pack = 0) (hcolumn : column % pack = 0) :
    loop.piece s column % pack = 0 := by
  have htile := (Loop.tile_packs loop h).1
  unfold Loop.piece
  unfold pack at *
  split_ifs <;> omega

/-- An iteration at a column of whole packs launches an op that carries something. -/
theorem Loop.launched_pos (h : s.Accepted) (hworld : 0 < s.world) (htile : 0 < loop.tile s) (hlt : column < loop.total)
    (hcolumn : column % pack = 0) : 0 < loop.launched s column := by
  have hpiece := Loop.piece_pos htile hlt
  have hpacks : loop.total % pack = 0 → loop.piece s column % pack = 0 := fun htotal => piece_packs h htotal hcolumn
  have hpadded := padded_pos hpiece
  cases loop with
  | allgather shard aligned | gather shard aligned =>
    have hdirect := direct_or_padded (aligned = true ∧ shard % pack = 0) hpiece fun hd => hpacks hd.2
    exact gatherOp_pos hdirect.1 hdirect.2
  | foldReduce | broadcast => exact gatherOp_pos hpadded.1 hpadded.2
  | foldScatter | scatter | p2pExchange => exact scatterOp_pos hworld hpadded.1 hpadded.2
  | reduceScatter chunk aligned | alltoall chunk aligned =>
    have hdirect := direct_or_padded (aligned = true ∧ chunk % pack = 0) hpiece fun hd => hpacks hd.2
    exact scatterOp_pos hworld hdirect.1 hdirect.2
  | scatterLink | reduce => exact hpiece

/-- Every loop starts at whole packs, below a word. -/
theorem Loop.Called.bounds (h : loop.Called s) (hworld : 0 < s.world) : loop.start % pack = 0 ∧ loop.total ≤ word := by
  have hshare : ∀ bytes, bytes * s.world < word → bytes ≤ word := fun bytes hlt =>
    (Nat.le_mul_of_pos_right bytes hworld).trans hlt.le
  cases loop with
  | reduce => exact ⟨h.2.1, h.2.2.2.le⟩
  | foldReduce => exact ⟨rfl, Nat.le_of_lt h⟩
  | scatterLink => exact ⟨rfl, hshare _ h.1⟩
  | p2pExchange sent received =>
    refine ⟨rfl, ?_⟩
    have hsent := h.1
    have hreceived := h.2
    show (if sent > received then sent else received) ≤ word
    split_ifs <;> omega
  | allgather bytes aligned | gather bytes aligned | foldScatter bytes | reduceScatter bytes aligned | broadcast bytes
  | alltoall | scatter => exact ⟨rfl, hshare _ h⟩

/-- A called loop proceeds exactly when, if it runs at all, its tile is positive (for a loop of
shares: the large piece holds a pack for each rank) and its last column is followed by a word. -/
theorem tile_loop_proceeds_iff {env : Environment} {world : ℕ} {relayed : Bool}
    (hread : readSettings env world relayed = .ok s) (hworld : 2 ≤ world) (hmax : world ≤ maxWorld)
    (hcalled : loop.Called s) :
    loop.Proceeds s ↔
      (loop.start < loop.total → (loop.Shares → pack * world ≤ s.sizes.largePiece) ∧ loop.Fits s) := by
  obtain ⟨haccepted, rfl⟩ := readSettings_accepted hread
  have hpos : 0 < s.world := by omega
  have hbounds := hcalled.bounds hpos
  have htile := Loop.tile_packs loop haccepted
  have hword : loop.tile s < word := Nat.lt_of_le_of_lt htile.2 (by decide)
  have hpositive := Loop.tile_pos_iff loop haccepted hpos hmax
  constructor
  · intro hproceeds hruns
    have hboth := (TileLoop.advances_iff hruns hbounds.2 hword).mp hproceeds.advances
    exact ⟨hpositive.mp hboth.1, hboth.2⟩
  intro hcondition
  rcases Nat.lt_or_ge loop.start loop.total with hruns | hidle
  · obtain ⟨hshares, hfits⟩ := hcondition hruns
    have htilePos := hpositive.mpr hshares
    have hadvances := (TileLoop.advances_iff hruns hbounds.2 hword).mpr ⟨htilePos, hfits⟩
    refine ⟨hadvances, hadvances.ends, fun column hreached => ?_⟩
    obtain ⟨k, hk, _⟩ := hreached.multiple hfits
    have hpacks : column % pack = 0 := by
      rw [hk, Nat.add_mod, Nat.mul_mod, hbounds.1, htile.1, Nat.mul_zero, Nat.zero_mod, Nat.add_zero, Nat.zero_mod]
    exact Loop.launched_pos haccepted hpos htilePos hreached.lt hpacks
  have hadvances : TileLoop.Advances word loop.start loop.total (loop.tile s) := TileLoop.advances_of_le hidle
  refine ⟨hadvances, hadvances.ends, fun column hreached => ?_⟩
  have hnone := TileLoop.reached_none hidle hreached
  exact hnone.elim

/-- A record that is read and what it holds. -/
theorem exists_of_read {α : Type} {env : Environment} {world : ℕ} {relayed : Bool} {view : Settings → α} {value : α}
    (h : (readSettings env world relayed).toOption.map view = some value) :
    ∃ s, readSettings env world relayed = .ok s ∧ view s = value := by
  cases hread : readSettings env world relayed with
  | error =>
    rw [hread] at h
    cases h
  | ok s =>
    rw [hread] at h
    exact ⟨s, rfl, Option.some.inj h⟩

/-- With the defaults, an all-to-all of four ranks over any alignment proceeds. -/
theorem default_alltoall_proceeds :
    ∃ s, readSettings (fun _ => none) 4 false = .ok s ∧ (Loop.alltoall 100 false).Proceeds s := by
  obtain ⟨s, hread, hview⟩ : ∃ s, readSettings (fun _ => none) 4 false = .ok s ∧
      (s.world, s.sizes.largePiece, scatterTile s) = (4, 4 * mib, mib) := exists_of_read (by decide +kernel)
  simp only [Prod.mk.injEq] at hview
  obtain ⟨hworld, hpiece, htile⟩ := hview
  have hcalled : (Loop.alltoall 100 false).Called s := by
    show 100 * s.world < word
    rw [hworld]
    decide
  have hshares : pack * 4 ≤ s.sizes.largePiece := by
    rw [hpiece]
    decide
  have hfits : (Loop.alltoall 100 false).Fits s := by
    show TileLoop.Fits word 0 100 (scatterTile s)
    rw [htile]
    decide
  exact ⟨s, hread, (tile_loop_proceeds_iff hread (by decide) (by decide) hcalled).mpr fun _ => ⟨fun _ => hshares, hfits⟩⟩

/-- With large pieces of 16 bytes three ranks are accepted, and their all-to-all of 16 bytes
for each rank launches ops of no bytes at the first column forever. -/
theorem small_piece_stalls :
    ∃ env s, readSettings env 3 false = .ok s ∧ (Loop.alltoall 16 true).Called s ∧
      (∀ n, TileLoop.columnAt word (Loop.alltoall 16 true).start ((Loop.alltoall 16 true).tile s) n = 0) ∧
      (Loop.alltoall 16 true).launched s 0 = 0 ∧ ¬(Loop.alltoall 16 true).Proceeds s := by
  obtain ⟨s, hread, hview⟩ : ∃ s,
      readSettings (fun name => if name = "SIRCL_LARGE_PIECE_BYTES" then some "16" else none) 3 false = .ok s ∧
      (s.world, scatterTile s, (Loop.alltoall 16 true).launched s 0) = (3, 0, 0) := exists_of_read (by decide +kernel)
  simp only [Prod.mk.injEq] at hview
  obtain ⟨hworld, htile, hlaunched⟩ := hview
  have htile : (Loop.alltoall 16 true).tile s = 0 := htile
  refine ⟨_, s, hread, ?_, ?_, hlaunched, ?_⟩
  · show 16 * s.world < word
    rw [hworld]
    decide
  · intro n
    rw [htile]
    exact TileLoop.columnAt_zero (by decide)
  intro hproceeds
  have hforward := hproceeds.advances 0 (.start (by decide))
  rw [htile] at hforward
  exact absurd hforward (by decide)

end SparkRing.Engine
