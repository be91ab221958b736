import Mathlib.Tactic.NormNum

/-!
# The settings of a libsircl engine

What `read_settings` and `link_settings` read from the environment for the sizes, schedules
and minimums of the collectives, the checks they make on the way, and the bounds that every
accepted record keeps.
-/

namespace SparkRing.Engine

/-- Bytes of a pack. -/
def pack : ℕ := 16

/-- Slots are whole multiples of this many bytes. -/
def slotAlignment : ℕ := 4096

/-- Ranks of a communicator at most. -/
def maxWorld : ℕ := 8

/-- Piece counters of the link kernels. -/
def linkPieceCounters : ℕ := 65536

def mib : ℕ := 2 ^ 20

/-- The process environment. -/
abbrev Environment := String → Option String

/-- A variable of the library; its own variables are also read under their earlier names. -/
def scclEnv (env : Environment) (name : String) : Option String :=
  match env name with
  | some value => some value
  | none =>
    if name.toList.take 9 ≠ "LIBSIRCL_".toList then none
    else if name = "LIBSIRCL_NCCL_API_VERSION" then env "SIRCL_NCCLAPI_VERSION_CODE"
    else env ("SIRCL_CCL_" ++ String.ofList (name.toList.drop 9))

/-- A variable that is set to something: unset and empty are alike. -/
def settingOf (env : Environment) (name : String) : Option String :=
  (scclEnv env name).filter (· ≠ "")

/-- Digits as a number; `none` where another character stands or 64 bits do not hold it. -/
def digitsValue (text : String) : Option ℕ :=
  if text.toList ≠ [] ∧ text.toList.all Char.isDigit then
    let value := text.toList.foldl (fun value digit => value * 10 + (digit.toNat - '0'.toNat)) 0
    if value < 2 ^ 64 then some value else none
  else none

/-- A check that fails with a message. -/
def require (c : Prop) [Decidable c] (message : String) : Except String Unit :=
  if c then .ok () else .error message

/-- A number of the environment between two bounds, or the fallback where it is unset. -/
def envU64 (env : Environment) (name : String) (fallback lo hi : ℕ) : Except String ℕ :=
  match settingOf env name with
  | none => .ok fallback
  | some text =>
    match digitsValue text with
    | none => .error s!"{name}={text} must be an integer from {lo} to {hi}"
    | some value =>
      if value < lo ∨ hi < value then .error s!"{name}={text} must be an integer from {lo} to {hi}" else .ok value

def roundUp (value unit : ℕ) : ℕ := (value + unit - 1) / unit * unit

/-- How a large collective is scheduled. -/
inductive Schedule
  | pieces
  | chain
  | auto
  | ring
deriving DecidableEq, Repr

/-- The collectives with minimums and pieces of their own. -/
inductive Collective
  | reduce
  | gather
  | scatter
deriving DecidableEq, Repr

/-- The kernels of a reduction op. -/
inductive Algorithm
  | oneshot
  | twoshot
deriving DecidableEq, Repr

/-- The sizes of the arena's ops. -/
structure Sizes where
  capacity : ℕ
  largePiece : ℕ
  slotBytes : ℕ
  oneshotMax : ℕ
  threads : ℕ
  /-- `none` chooses by size. -/
  algorithm : Option Algorithm

/-- The schedules and their minimums. -/
structure Schedules where
  large : Schedule
  gather : Schedule
  scatter : Schedule
  chainMins : Collective → ℕ
  ringMins : Collective → ℕ
  pairPlan : Bool

/-- The geometry of the link collectives. -/
structure Links where
  slots : ℕ
  slotBytes : ℕ
  chunk : Collective → ℕ
  tile : ℕ
  ringOn : Bool

/-- A communicator's settings. -/
structure Settings where
  world : ℕ
  sizes : Sizes
  schedules : Schedules
  links : Links
  linkOn : Bool
  chainOn : Bool

/-- The algorithm variable. -/
def algorithmSetting (env : Environment) : Except String (Option Algorithm) :=
  match settingOf env "SIRCL_ALLREDUCE_ALGORITHM" with
  | none => .ok none
  | some text =>
    if text = "auto" then .ok none
    else if text = "oneshot" then .ok (some .oneshot)
    else if text = "twoshot" then .ok (some .twoshot)
    else .error s!"SIRCL_ALLREDUCE_ALGORITHM={text}: one of auto, oneshot, twoshot"

/-- The first part of `read_settings`. -/
def readSizes (env : Environment) : Except String Sizes := do
  let capacity ← envU64 env "LIBSIRCL_MAX_SIZE" (2 * mib) pack (2 ^ 29)
  require (capacity % pack = 0) "LIBSIRCL_MAX_SIZE must be a multiple of 16 bytes"
  let pieceDefault := if capacity > 4 * mib then capacity else 4 * mib
  let largePiece ← envU64 env "SIRCL_LARGE_PIECE_BYTES" pieceDefault pack (2 ^ 30 - 1)
  require (largePiece % pack = 0) "SIRCL_LARGE_PIECE_BYTES must be a multiple of 16 bytes"
  let oneshotMax ← envU64 env "SIRCL_ONESHOT_MAX_BYTES" 131072 0 (2 ^ 30)
  let threads ← envU64 env "SIRCL_THREADS" 512 32 1024
  require (threads % 32 = 0) "SIRCL_THREADS must be a multiple of 32 between 32 and 1024"
  let algorithm ← algorithmSetting env
  return {
    capacity
    largePiece
    slotBytes := roundUp (if capacity > largePiece then capacity else largePiece) slotAlignment
    oneshotMax
    threads
    algorithm }

/-- A schedule variable: pieces where it is unset. -/
def scheduleSetting (env : Environment) (name : String) : Except String Schedule :=
  match settingOf env name with
  | none => .ok .pieces
  | some text =>
    if text = "pieces" then .ok .pieces
    else if text = "chain" then .ok .chain
    else if text = "auto" then .ok .auto
    else if text = "ring" then .ok .ring
    else .error s!"{name}={text}: one of pieces, chain, auto, ring"

/-- The minimums of the collectives: the defaults, or the variable's value for each of them. -/
def minimumSetting (env : Environment) (name : String) (defaults : Collective → ℕ) :
    Except String (Collective → ℕ) :=
  match settingOf env name with
  | none => .ok defaults
  | some _ => do
    let value ← envU64 env name 0 0 (2 ^ 63 - 1)
    return fun _ => value

/-- The chain minimums where the environment sets none. -/
def defaultChainMins : Collective → ℕ
  | .reduce => 8 * mib
  | .gather => 8 * mib
  | .scatter => 4 * mib

/-- The ring minimums where the environment sets none. -/
def defaultRingMins : Collective → ℕ
  | .reduce => 4 * mib
  | .gather => 8 * mib
  | .scatter => 4 * mib

/-- The ring minimums of a pair. -/
def pairRingMins : Collective → ℕ
  | .reduce => 2 * mib
  | .gather => 2 * mib
  | .scatter => 4 * mib

/-- Threads a link kernel needs. -/
def linkMinThreads : ℕ := 64

/-- The schedules of `read_settings`, with the plan of a pair that sets none. -/
def readSchedules (env : Environment) (world threads : ℕ) (relayed : Bool) : Except String Schedules := do
  let large ← scheduleSetting env "SIRCL_LARGE_SCHEDULE"
  let gather ← scheduleSetting env "SIRCL_GATHER_SCHEDULE"
  let scatter ← scheduleSetting env "SIRCL_SCATTER_SCHEDULE"
  let chainMins ← minimumSetting env "SIRCL_CHAIN_MIN_BYTES" defaultChainMins
  let ringMins ← minimumSetting env "SIRCL_RING_MIN_BYTES" defaultRingMins
  if (settingOf env "SIRCL_LARGE_SCHEDULE").isNone ∧ world = 2 ∧ linkMinThreads ≤ threads then
    if (settingOf env "LIBSIRCL_RING_WINDOW").isSome ∨ relayed = false then
      return {
        large := .ring
        gather := if (settingOf env "SIRCL_GATHER_SCHEDULE").isNone then .ring else gather
        scatter := if (settingOf env "SIRCL_SCATTER_SCHEDULE").isNone then .ring else scatter
        -- below its ring minimum a reduce-scatter keeps the pieces, not the chain
        chainMins := fun collective =>
          if (settingOf env "SIRCL_CHAIN_MIN_BYTES").isNone ∧ collective = .scatter then 4 * mib else chainMins collective
        ringMins := if (settingOf env "SIRCL_RING_MIN_BYTES").isNone then pairRingMins else ringMins
        pairPlan := true }
    else
      return { large := .auto, gather, scatter, chainMins, ringMins, pairPlan := false }
  else
    return { large, gather, scatter, chainMins, ringMins, pairPlan := false }

/-- The piece of one collective: its own variable's, else the session's. -/
def linkChunk (slotBytes configured session : ℕ) (name : String) : Except String ℕ := do
  let piece := if configured ≠ 0 then configured else session
  require (pack ≤ piece ∧ piece % pack = 0 ∧ piece ≤ slotBytes)
    s!"{name} of {piece} bytes must be a multiple of 16 up to the link slot of {slotBytes} bytes"
  return piece

/-- The link collectives' settings. -/
def linkSettings (env : Environment) (world : ℕ) (pairPlan : Bool) : Except String Links := do
  let slots ← envU64 env "SIRCL_LINK_SLOTS" (min (max (2 * world) 8) 32) 2 32
  let session ← envU64 env "SIRCL_LINK_CHUNK_BYTES" 0 0 (2 ^ 31)
  let reduce ← envU64 env "SIRCL_REDUCE_LINK_CHUNK_BYTES" 0 0 (2 ^ 31)
  let gather ← envU64 env "SIRCL_GATHER_LINK_CHUNK_BYTES" 0 0 (2 ^ 31)
  let scatter ← envU64 env "SIRCL_SCATTER_LINK_CHUNK_BYTES" 0 0 (2 ^ 31)
  let wanted := roundUp (max (max (max session reduce) gather) scatter) slotAlignment
  let autoSlot := if wanted > 512 * 2 ^ 10 ∧ wanted ≤ mib then wanted else 512 * 2 ^ 10
  let slotBytes ← envU64 env "SIRCL_LINK_SLOT_BYTES" autoSlot slotAlignment (2 ^ 31)
  require (slotBytes % slotAlignment = 0) "SIRCL_LINK_SLOT_BYTES must be a multiple of 4096 bytes"
  let sessionPiece := if session = 0 then min (512 * 2 ^ 10) slotBytes else session
  let reduceChunk ← linkChunk slotBytes reduce sessionPiece
    (if reduce ≠ 0 then "SIRCL_REDUCE_LINK_CHUNK_BYTES" else "SIRCL_LINK_CHUNK_BYTES")
  let gatherChunk ← linkChunk slotBytes gather sessionPiece
    (if gather ≠ 0 then "SIRCL_GATHER_LINK_CHUNK_BYTES" else "SIRCL_LINK_CHUNK_BYTES")
  let scatterChunk ← linkChunk slotBytes scatter sessionPiece
    (if scatter ≠ 0 then "SIRCL_SCATTER_LINK_CHUNK_BYTES" else "SIRCL_LINK_CHUNK_BYTES")
  let tile ← envU64 env "LIBSIRCL_LINK_TILE_BYTES" (16 * mib) pack (2 ^ 30)
  require (tile % pack = 0 ∧ (tile + scatterChunk - 1) / scatterChunk ≤ linkPieceCounters)
    "LIBSIRCL_LINK_TILE_BYTES must be a multiple of 16 of at most 65536 reduce-scatter pieces"
  return {
    slots
    slotBytes
    chunk := fun
      | .reduce => reduceChunk
      | .gather => gatherChunk
      | .scatter => scatterChunk
    tile
    ringOn := (settingOf env "LIBSIRCL_RING_WINDOW").isSome || pairPlan }

/-- The settings of a communicator of `world` ranks; `relayed`: the other rank of a pair is
reached through relays. -/
def readSettings (env : Environment) (world : ℕ) (relayed : Bool) : Except String Settings := do
  let sizes ← readSizes env
  let schedules ← readSchedules env world sizes.threads relayed
  let links := decide (schedules.gather ≠ .pieces ∨ schedules.scatter ≠ .pieces ∨ schedules.large = .ring)
  require ((schedules.large ≠ .pieces ∨ links) → linkMinThreads ≤ sizes.threads)
    "the chain and link schedules need at least 64 threads per block (SIRCL_THREADS)"
  let geometry ← linkSettings env world schedules.pairPlan
  require (geometry.ringOn ∨ (schedules.large ≠ .ring ∧ schedules.gather ≠ .ring ∧ schedules.scatter ≠ .ring))
    "a ring schedule needs the ring plan of the layout: LIBSIRCL_RING_WINDOW on every rank (tools/site_routes.py prints it when the ring can run)"
  return {
    world
    sizes
    schedules
    links := geometry
    linkOn := decide (1 < world) && links
    chainOn := decide (1 < world ∧ schedules.large ≠ .pieces) }

/-- What every accepted record keeps of its sizes. -/
structure Sizes.Accepted (sizes : Sizes) : Prop where
  piece_pos : pack ≤ sizes.largePiece
  piece_packs : sizes.largePiece % pack = 0
  piece_lt : sizes.largePiece < 2 ^ 30
  slot : sizes.slotBytes = roundUp (max sizes.capacity sizes.largePiece) slotAlignment
  capacity_le : sizes.capacity ≤ 2 ^ 29

/-- What every accepted record keeps of its link geometry. -/
structure Links.Accepted (links : Links) : Prop where
  tile_pos : pack ≤ links.tile
  tile_packs : links.tile % pack = 0
  tile_le : links.tile ≤ 2 ^ 30

variable {α β : Type} {env : Environment} {name message : String} {fallback lo hi value world : ℕ} {c : Prop} [Decidable c] {sizes : Sizes}

/-- A step of reading that succeeds has read a value that the rest accepts. -/
theorem bind_ok {x : Except String α} {f : α → Except String β} {b : β} (h : x >>= f = .ok b) : ∃ a, x = .ok a ∧ f a = .ok b := by
  cases x with
  | error => cases h
  | ok a => exact ⟨a, rfl, h⟩

/-- A check that passes holds. -/
theorem require_ok {u : Unit} (h : require c message = .ok u) : c := by
  unfold require at h
  by_cases hc : c
  · exact hc
  · rw [if_neg hc] at h
    cases h

/-- A number that is read lies between the bounds, or is the fallback. -/
theorem envU64_ok (h : envU64 env name fallback lo hi = .ok value) : value = fallback ∨ (lo ≤ value ∧ value ≤ hi) := by
  unfold envU64 at h
  cases hset : settingOf env name with
  | none =>
    rw [hset] at h
    cases h
    exact Or.inl rfl
  | some text =>
    rw [hset] at h
    dsimp only at h
    cases hdigits : digitsValue text with
    | none =>
      rw [hdigits] at h
      cases h
    | some read =>
      rw [hdigits] at h
      dsimp only at h
      split at h
      · cases h
      cases h
      right
      omega

theorem readSizes_accepted (h : readSizes env = .ok sizes) : sizes.Accepted := by
  obtain ⟨capacity, hcapacity, h⟩ := bind_ok h
  obtain ⟨_, hcapacityPacks, h⟩ := bind_ok h
  obtain ⟨piece, hpiece, h⟩ := bind_ok h
  obtain ⟨_, hpacks, h⟩ := bind_ok h
  obtain ⟨oneshotMax, _, h⟩ := bind_ok h
  obtain ⟨threads, _, h⟩ := bind_ok h
  obtain ⟨_, _, h⟩ := bind_ok h
  obtain ⟨algorithm, _, h⟩ := bind_ok h
  cases h
  have hcapacityBound := envU64_ok hcapacity
  have hbound := envU64_ok hpiece
  have hle : capacity ≤ 2 ^ 29 := by
    unfold mib at hcapacityBound
    omega
  refine ⟨?_, require_ok hpacks, ?_, ?_, hle⟩
  · show pack ≤ piece
    unfold mib pack at *
    split_ifs at hbound <;> omega
  · show piece < 2 ^ 30
    unfold mib pack at *
    split_ifs at hbound <;> omega
  show roundUp (if capacity > piece then capacity else piece) slotAlignment = _
  congr 1
  rcases Nat.lt_or_ge piece capacity with hlt | hge
  · rw [if_pos hlt, Nat.max_eq_left hlt.le]
  · rw [if_neg (Nat.not_lt_of_le hge), Nat.max_eq_right hge]

theorem linkSettings_accepted {pairPlan : Bool} {links : Links} (h : linkSettings env world pairPlan = .ok links) : links.Accepted := by
  obtain ⟨_, _, h⟩ := bind_ok h
  obtain ⟨_, _, h⟩ := bind_ok h
  obtain ⟨_, _, h⟩ := bind_ok h
  obtain ⟨_, _, h⟩ := bind_ok h
  obtain ⟨_, _, h⟩ := bind_ok h
  obtain ⟨_, _, h⟩ := bind_ok h
  obtain ⟨_, _, h⟩ := bind_ok h
  obtain ⟨_, _, h⟩ := bind_ok h
  obtain ⟨_, _, h⟩ := bind_ok h
  obtain ⟨_, _, h⟩ := bind_ok h
  obtain ⟨tile, htile, h⟩ := bind_ok h
  obtain ⟨_, hpacks, h⟩ := bind_ok h
  cases h
  have hbound := envU64_ok htile
  refine ⟨?_, (require_ok hpacks).1, ?_⟩
  · show pack ≤ tile
    unfold mib pack at *
    omega
  show tile ≤ 2 ^ 30
  unfold mib at hbound
  omega

/-- What every accepted record keeps: the bounds that its parts were checked for, and the
switches that follow from its schedules. -/
structure Settings.Accepted (s : Settings) : Prop where
  sizes : s.sizes.Accepted
  links : s.links.Accepted
  linkOn : s.linkOn = (decide (1 < s.world) &&
    decide (s.schedules.gather ≠ .pieces ∨ s.schedules.scatter ≠ .pieces ∨ s.schedules.large = .ring))
  chainOn : s.chainOn = decide (1 < s.world ∧ s.schedules.large ≠ .pieces)
  ringOn : s.links.ringOn = true ∨
    (s.schedules.large ≠ .ring ∧ s.schedules.gather ≠ .ring ∧ s.schedules.scatter ≠ .ring)

/-- Every record that `read_settings` returns is accepted, for the communicator's ranks. -/
theorem readSettings_accepted {relayed : Bool} {s : Settings} (h : readSettings env world relayed = .ok s) :
    s.Accepted ∧ s.world = world := by
  obtain ⟨sizes, hsizes, h⟩ := bind_ok h
  obtain ⟨schedules, hschedules, h⟩ := bind_ok h
  obtain ⟨_, _, h⟩ := bind_ok h
  obtain ⟨links, hlinks, h⟩ := bind_ok h
  obtain ⟨_, hring, h⟩ := bind_ok h
  cases h
  exact ⟨⟨readSizes_accepted hsizes, linkSettings_accepted hlinks, rfl, rfl, require_ok hring⟩, rfl⟩

/-- An accepted slot holds a page at least. -/
theorem Sizes.Accepted.slot_pos (h : sizes.Accepted) : slotAlignment ≤ sizes.slotBytes := by
  have hpiece := h.piece_pos
  rw [h.slot]
  unfold roundUp slotAlignment pack at *
  omega

/-- An accepted slot holds the large piece. -/
theorem Sizes.Accepted.piece_le_slot (h : sizes.Accepted) : sizes.largePiece ≤ sizes.slotBytes := by
  rw [h.slot]
  unfold roundUp slotAlignment
  omega

end SparkRing.Engine
