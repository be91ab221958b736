import SparkRing.RelayPieceBounds

/-!
# Message plans are partitions

The pieces of an all-reduce, the tiles of an all-gather and the parts of a scatter name ranges of
bytes. Read in the order of the plan, the ranges of a message are the whole message: nothing is
left out, nothing is carried twice and nothing is out of order.
-/

namespace SparkRing.RelayPieces.Session

open Engine (pack)
open Sircl (ReducePiece reducePlan)
open Except (ok.inj)

variable {total size world outer inner : ℕ}

/-- What a plan of an all-reduce promises. -/
structure ReducePartition (total size world : ℕ) (plan : List ReducePiece) : Prop where
  /-- In order, without a gap and without an overlap. -/
  covers : plan.flatMap (fun piece => List.range' piece.offset piece.nbytes) = List.range total
  /-- At most one op of the links. -/
  linked : (plan.filter fun piece => piece.chain || piece.ring).length ≤ 1
  pieces : ∀ piece ∈ plan, (piece.chain || piece.ring) = false → piece.padded = false →
    0 < piece.nbytes ∧ piece.nbytes % pack = 0 ∧ piece.nbytes ≤ size
  ring : ∀ piece ∈ plan, piece.ring = true → piece.nbytes % (world * pack) = 0
  whole : ∀ piece ∈ plan.dropLast, piece.padded = false
  tail : ∀ piece ∈ plan, piece.padded = true → piece.nbytes < pack

/-- A plan of an all-reduce is a partition of the message. -/
theorem reducePlan_partition {chainFrom ringFrom : Option ℕ} {plan : List ReducePiece}
    (h : reducePlan total size chainFrom ringFrom world = .ok plan) : ReducePartition total size world plan := by
  obtain ⟨hsize, _, linked, start, hlinked, _, haligned, rfl⟩ := reducePlan_eq h
  have hpos : 0 < size := (by decide : 0 < pack).trans_le hsize
  have hle : total / pack * pack ≤ total := Nat.div_mul_le_self total pack
  have hlt : total - total / pack * pack < pack := by
    rw [show pack = 16 from rfl]
    omega
  generalize total / pack * pack = aligned at *
  generalize hmiddle : (TileLoop.range start aligned size).map
    (fun offset => ({ offset, nbytes := min size (aligned - offset) } : ReducePiece)) = middle at *
  generalize htail : (if aligned < total then [({ offset := aligned, nbytes := total - aligned, padded := true } : ReducePiece)] else []) =
    tail at *
  have hplain : ∀ piece ∈ middle, (piece.chain || piece.ring) = false ∧ piece.ring = false ∧ piece.padded = false := by
    rw [← hmiddle]
    exact List.forall_mem_map.mpr fun _ _ => ⟨rfl, rfl, rfl⟩
  have hlast : ∀ piece ∈ tail, (piece.chain || piece.ring) = false ∧ piece.ring = false ∧ piece.nbytes = total - aligned := by
    intro piece hmem
    rw [← htail] at hmem
    rw [List.mem_singleton.mp (List.mem_ite_nil_right.mp hmem).2]
    exact ⟨rfl, rfl, rfl⟩
  have hwhole : ∀ piece ∈ linked ++ middle, piece.padded = false := fun piece hmem =>
    (List.mem_append.mp hmem).elim (fun hin => (hlinked.item piece hin).2.1) fun hin => (hplain piece hin).2.2
  constructor
  · have hfront : linked.flatMap (fun piece => List.range' piece.offset piece.nbytes) = List.range' 0 start := by
      cases hlinked <;> simp
    have hmiddle : middle.flatMap (fun piece => List.range' piece.offset piece.nbytes) = List.range' start (aligned - start) := by
      rw [← hmiddle, List.flatMap_map]
      simpa using TileLoop.flatMap_range hpos 0 start aligned
    have htail : tail.flatMap (fun piece => List.range' piece.offset piece.nbytes) = List.range' aligned (total - aligned) := by
      rw [← htail]
      by_cases hmore : aligned < total
      · simp [hmore]
      · simp [hmore, Nat.sub_eq_zero_of_le (Nat.le_of_not_lt hmore)]
    rw [List.flatMap_append, List.flatMap_append, hfront, hmiddle, htail, List.range_eq_range']
    have hfirst := List.range'_append_1 (s := 0) (m := start) (n := aligned - start)
    have hall := List.range'_append_1 (s := 0) (m := aligned) (n := total - aligned)
    rw [Nat.zero_add] at hfirst hall
    rw [hfirst, show start + (aligned - start) = aligned by omega, hall, show aligned + (total - aligned) = total by omega]
  · have hnone : ∀ l : List ReducePiece, (∀ piece ∈ l, (piece.chain || piece.ring) = false) →
        (l.filter fun piece => piece.chain || piece.ring) = [] := fun l hl =>
      List.filter_eq_nil_iff.mpr fun piece hmem => by rw [hl piece hmem]; exact Bool.false_ne_true
    rw [List.filter_append, List.filter_append, hnone middle fun piece hmem => (hplain piece hmem).1,
      hnone tail fun piece hmem => (hlast piece hmem).1, List.append_nil, List.append_nil]
    refine (List.length_filter_le _ _).trans ?_
    cases hlinked <;> simp
  · intro piece hmem hlinks hpadded
    rcases reducePlan_piece h hmem hlinks with htrue | ⟨_, hpacks, hsome, hfits⟩
    · rw [htrue] at hpadded
      cases hpadded
    · exact ⟨hsome, hpacks, hfits⟩
  · intro piece hmem hring
    rcases List.mem_append.mp hmem with hmem | hmem
    · rcases List.mem_append.mp hmem with hmem | hmem
      · exact (hlinked.item piece hmem).2.2 hring
      · rw [(hplain piece hmem).2.1] at hring
        cases hring
    · rw [(hlast piece hmem).2.1] at hring
      cases hring
  · intro piece hmem
    rw [← htail] at hmem
    split_ifs at hmem with hmore
    · rw [List.dropLast_concat] at hmem
      exact hwhole piece hmem
    · rw [List.append_nil] at hmem
      exact hwhole piece (List.dropLast_subset _ hmem)
  · intro piece hmem hpadded
    rcases List.mem_append.mp hmem with hmem | hmem
    · rw [hwhole piece hmem] at hpadded
      cases hpadded
    · rw [(hlast piece hmem).2.2]
      exact hlt

/-- The first byte of a tile in the contiguous shard. -/
def GatherTile.sourceOffset (inner : ℕ) (tile : GatherTile) : ℕ := tile.row * inner + tile.col

/-- The first byte of a tile of `source` in the gathered output. -/
def GatherTile.outputOffset (inner world source : ℕ) (tile : GatherTile) : ℕ :=
  tile.row * world * inner + source * inner + tile.col

/-- The bytes of a tile whose first one is `first`, in rows that are `pitch` bytes apart. -/
def GatherTile.bytes (tile : GatherTile) (first pitch : ℕ) : List ℕ :=
  (List.range tile.rows).flatMap fun row => List.range' (first + row * pitch) tile.cols

/-- What a plan of an all-gather promises. -/
structure GatherPartition (outer inner size : ℕ) (plan : List GatherTile) : Prop where
  /-- Every byte of the shard is read once, in order. -/
  reads : plan.flatMap (fun tile => tile.bytes (tile.sourceOffset inner) inner) = List.range (outer * inner)
  /-- Row `row` of a shard is written at its place among the rows of the output, in order. -/
  writes : ∀ world source, plan.flatMap (fun tile => tile.bytes (tile.outputOffset inner world source) (world * inner)) =
    (List.range outer).flatMap fun row => List.range' ((row * world + source) * inner) inner
  /-- No byte of the output is written twice, by one source or by two. -/
  once : ∀ world, ((List.range world).flatMap fun source =>
    plan.flatMap fun tile => tile.bytes (tile.outputOffset inner world source) (world * inner)).Nodup
  fits : ∀ tile ∈ plan, tile.nbytes ≤ size

/-- The tiles of a shard write its rows, in order. -/
theorem writes_rows {plan : List GatherTile} (h : gatherPlan outer inner size = .ok plan) (world source : ℕ) :
    plan.flatMap (fun tile => tile.bytes (tile.outputOffset inner world source) (world * inner)) =
      (List.range outer).flatMap fun row => List.range' ((row * world + source) * inner) inner := by
  have hplace : ∀ row r col, row * world * inner + source * inner + col + r * (world * inner) =
      ((row + r) * world + source) * inner + col := by
    intro row r col
    ring
  unfold gatherPlan at h
  split at h
  · cases h
  have hsize : 0 < size := (by decide : 0 < pack).trans_le (by omega)
  by_cases hempty : outer = 0 ∨ inner = 0
  · rw [if_pos hempty] at h
    obtain rfl := ok.inj h
    rcases hempty with rfl | rfl <;> simp
  rw [if_neg hempty] at h
  rw [not_or] at hempty
  split_ifs at h with hrows
  · obtain rfl := ok.inj h
    have hstep : 0 < size / inner := Nat.div_pos hrows (by omega)
    rw [List.flatMap_map, List.range_eq_range', show List.range' 0 outer = _ from (TileLoop.flatMap_range hstep 0 0 outer).symm, List.flatMap_assoc]
    refine List.flatMap_congr fun row _ => ?_
    simp only [GatherTile.bytes, GatherTile.outputOffset, hplace]
    rw [Nat.zero_add, List.range'_eq_map_range (s := row), List.flatMap_map]
    rfl
  obtain rfl := ok.inj h
  rw [List.flatMap_assoc]
  refine List.flatMap_congr fun row _ => ?_
  rw [List.flatMap_map]
  simp only [GatherTile.bytes, GatherTile.outputOffset, hplace, List.range_one, List.flatMap_singleton, Nat.add_zero]
  exact (TileLoop.flatMap_range hsize _ 0 inner).trans (by rw [Nat.add_zero, Nat.sub_zero])

/-- A plan of an all-gather is a partition of the shard and of every source's place. -/
theorem gatherPlan_partition {plan : List GatherTile} (h : gatherPlan outer inner size = .ok plan) :
    GatherPartition outer inner size plan := by
  constructor
  · have hreads := writes_rows h 1 0
    simp only [GatherTile.outputOffset, Nat.mul_one, Nat.zero_mul, Nat.one_mul, Nat.add_zero] at hreads
    rw [show (fun tile : GatherTile => tile.bytes (tile.sourceOffset inner) inner) =
      fun tile => tile.bytes (tile.row * inner + tile.col) inner from rfl, hreads]
    clear hreads h
    induction outer with
    | zero => simp
    | succ outer ih =>
      rw [List.range_succ, List.flatMap_append, ih, List.flatMap_singleton, Nat.succ_mul, List.range_eq_range', List.range_eq_range']
      simpa using List.range'_append_1 (s := 0) (m := outer * inner) (n := inner)
  · exact writes_rows h
  · intro world
    simp only [writes_rows h]
    -- a byte of the output tells its row, and the row its source
    have hrow : ∀ {row byte : ℕ}, byte ∈ List.range' (row * inner) inner → byte / inner = row := by
      intro row byte hmem
      rw [List.mem_range'_1] at hmem
      exact Nat.div_eq_of_lt_le hmem.1 (by rw [Nat.succ_mul]; exact hmem.2)
    refine List.nodup_flatMap.mpr ⟨fun source _ => List.nodup_flatMap.mpr ⟨fun row _ => List.nodup_range', ?_⟩, ?_⟩
    · refine List.nodup_range.imp fun hne => List.disjoint_left.mpr fun byte hmem hmem' => hne ?_
      have hsame := (hrow hmem).symm.trans (hrow hmem')
      exact Nat.eq_of_mul_eq_mul_right (Nat.zero_lt_of_lt (List.mem_range.mp ‹_›)) (Nat.add_right_cancel hsame)
    refine List.nodup_range.imp_of_mem fun hsource hsource' hne => List.disjoint_left.mpr fun byte hmem hmem' => hne ?_
    obtain ⟨row, _, hin⟩ := List.mem_flatMap.mp hmem
    obtain ⟨row', _, hin'⟩ := List.mem_flatMap.mp hmem'
    have hmod := congrArg (· % world) ((hrow hin).symm.trans (hrow hin'))
    rw [List.mem_range] at hsource hsource'
    rwa [Nat.mul_add_mod_self_right, Nat.mul_add_mod_self_right, Nat.mod_eq_of_lt hsource, Nat.mod_eq_of_lt hsource'] at hmod
  · exact fun tile hmem => (gatherPlan_tile h hmem).1

/-- The geometry of a scatter input whose message must fit `capacity` where one is given. -/
def scatterGeometryWithin (totalBytes world : ℕ) (capacity chunkBytes srcStrideBytes : Option ℕ) : Option (ℕ × ℕ) :=
  (scatterGeometry totalBytes world chunkBytes srcStrideBytes).filter fun geometry =>
    capacity.all fun capacity => decide (world * geometry.1 ≤ capacity)

/-- What a plan of a scatter promises. -/
structure ScatterPartition (totalBytes world chunk stride opBytes : ℕ) (plan : List (ℕ × ℕ)) : Prop where
  /-- Every byte of every chunk of the input is carried once, in order. -/
  covers : ∀ index, plan.flatMap (fun part => List.range' (index * stride + part.1) part.2) = List.range' (index * stride) chunk
  /-- The chunks are parts of the input, and no two of them share a byte. -/
  inside : ∀ index < world, index * stride + chunk ≤ totalBytes
  apart : chunk ≤ stride
  fits : ∀ part ∈ plan, world * part.2 ≤ opBytes

/-- A capped piece is whole packs of the piece. -/
theorem capPiece_packs {piece capped : ℕ} {cap : Option ℕ} (h : capPiece piece cap = .ok capped) (hpiece : pack ≤ piece ∧ piece % pack = 0) :
    pack ≤ capped ∧ capped % pack = 0 ∧ capped ≤ piece := by
  unfold capPiece at h
  cases cap with
  | none =>
    obtain rfl := ok.inj h
    exact ⟨hpiece.1, hpiece.2, le_rfl⟩
  | some cap =>
    dsimp only at h
    split at h
    · obtain rfl := ok.inj h
      exact ⟨hpiece.1, hpiece.2, le_rfl⟩
    split at h
    · cases h
    obtain rfl := ok.inj h
    exact ⟨by omega, Nat.mul_mod_left _ _, (Nat.div_mul_le_self _ _).trans (by omega)⟩

/-- The parts of an accepted scatter are a partition of every chunk. -/
theorem scatterPlan_partition {totalBytes opBytes chunk stride limit piece : ℕ} {capacity chunkBytes srcStrideBytes relaySafe : Option ℕ}
    (hgeometry : scatterGeometryWithin totalBytes world capacity chunkBytes srcStrideBytes = some (chunk, stride))
    (hlimit : opPeerBytes opBytes world = .ok limit) (hpiece : scatterPieceBytes chunk relaySafe (some limit) = .ok piece) :
    ∃ plan, scatterPlan chunk piece = .ok plan ∧ ScatterPartition totalBytes world chunk stride opBytes plan := by
  obtain ⟨hgeometry, _⟩ := Option.filter_eq_some_iff.mp hgeometry
  unfold scatterGeometry at hgeometry
  obtain ⟨hsmall, hgeometry⟩ := Option.ite_none_left_eq_some.mp hgeometry
  obtain ⟨_, hchecks⟩ := Option.filter_eq_some_iff.mp hgeometry
  rw [Bool.not_eq_true', decide_eq_false_iff_not] at hchecks
  simp only [not_or, not_not, Nat.not_lt] at hchecks
  obtain ⟨hchunk, hpacks, _, hstride, hroom⟩ := hchecks
  have hwhole : pack ≤ chunk ∧ chunk % pack = 0 := ⟨Nat.le_of_dvd (by omega) (Nat.dvd_of_mod_eq_zero hpacks), hpacks⟩
  unfold scatterPieceBytes at hpiece
  cases hlimited : capPiece chunk (some limit) with
  | error => rw [hlimited] at hpiece; cases hpiece
  | ok =>
    rw [hlimited] at hpiece
    obtain ⟨hleast, hpieces, hle⟩ := capPiece_packs hpiece (by have := capPiece_packs hlimited hwhole; exact ⟨this.1, this.2.1⟩)
    have hop : world * piece ≤ opBytes := by
      unfold opPeerBytes at hlimit
      by_cases hsmall : opBytes / world / pack * pack < pack
      · dsimp only at hlimit
        rw [if_pos hsmall] at hlimit
        cases hlimit
      dsimp only at hlimit
      rw [if_neg hsmall] at hlimit
      calc world * piece ≤ world * (opBytes / world) :=
            Nat.mul_le_mul_left _ (hle.trans ((capPiece_le hlimited).trans ((ok.inj hlimit).symm.trans_le (Nat.div_mul_le_self _ _))))
        _ ≤ opBytes := Nat.mul_div_le _ _
    have hplan : scatterPlan chunk piece = .ok ((TileLoop.range 0 chunk piece).map fun offset => (offset, min piece (chunk - offset))) := by
      rw [scatterPlan, if_neg (by omega), if_neg (by omega)]
    refine ⟨_, hplan, fun index => ?_, fun index hindex => ?_, hstride, fun part hpart => ?_⟩
    · rw [List.flatMap_map]
      exact TileLoop.flatMap_range ((by decide : 0 < pack).trans_le hleast) _ 0 chunk
    · exact (Nat.add_le_add_right (Nat.mul_le_mul_right _ (by omega)) _).trans hroom
    · exact (Nat.mul_le_mul_left _ (scatterPlan_part hplan hpart)).trans hop

/-- Accepted plans are exact partitions of their messages. -/
theorem plans_partition :
    (∀ total size chainFrom ringFrom world plan, reducePlan total size chainFrom ringFrom world = .ok plan →
      ReducePartition total size world plan) ∧
    (∀ outer inner size plan, gatherPlan outer inner size = .ok plan → GatherPartition outer inner size plan) ∧
    ∀ totalBytes world capacity chunkBytes srcStrideBytes chunk stride opBytes limit relaySafe piece,
      scatterGeometryWithin totalBytes world capacity chunkBytes srcStrideBytes = some (chunk, stride) →
      opPeerBytes opBytes world = .ok limit → scatterPieceBytes chunk relaySafe (some limit) = .ok piece →
      ∃ plan, scatterPlan chunk piece = .ok plan ∧ ScatterPartition totalBytes world chunk stride opBytes plan :=
  ⟨fun _ _ _ _ _ _ h => reducePlan_partition h, fun _ _ _ _ h => gatherPlan_partition h,
    fun _ _ _ _ _ _ _ _ _ _ _ hgeometry hlimit hpiece => scatterPlan_partition hgeometry hlimit hpiece⟩

end SparkRing.RelayPieces.Session
