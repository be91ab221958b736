import SparkRing.TransitionSystem
import SparkRing.RelayQueues
import SparkRing.SendQueue

/-!
# What a progress thread posts, and when

Arena writes, chain chunks, link items and credits of one rank share its queue
pairs. Each of them has its own admission test: a direct lane write waits for
credit, a windowed stripe goes out in chunks that fit its window, its flag needs
credit only, a chain chunk or a link item needs credit on every lane of its peer,
a ring link through relays keeps its own window, and a credit needs credit on the
first lane. Which of them is posted next, and what the flags of a peer prove, is
left open.
-/

namespace SparkRing.PostingWindows

open SendQueue RelayQueues

/-- Chunk of a ring link's stripe toward a peer through relays. -/
def linkWindowChunk : ℕ := 32768

/-- Smallest part of a chunk that is posted when the window lacks room for all of it. -/
def fwdMinPiece : ℕ := 4096

/-- Stripe of lane `lane` among `lanes` lanes of `packs` packs: first pack and count. -/
def laneSplit (packs lanes lane : ℕ) : ℕ × ℕ :=
  let base := packs / lanes
  let rest := packs % lanes
  (lane * base + (if lane < rest then lane else rest), base + if lane < rest then 1 else 0)

/-- How one rank's progress thread is configured. -/
structure Config where
  /-- Lanes toward every peer. -/
  laneCount : ℕ
  /-- Device of a lane toward a peer; its queue pair is that device's toward the peer. -/
  laneDevice : ℕ → ℕ → ℕ
  /-- Forward window of a lane toward a peer, 0 for none. -/
  fwdWindow : ℕ → ℕ → ℕ
  /-- Chunk of a windowed stripe. -/
  fwdChunk : ℕ
  /-- Chain neighbor upstream. -/
  prev : Option ℕ
  /-- Chain neighbor downstream. -/
  next : Option ℕ
  /-- Ring neighbor upstream. -/
  ringPrev : Option ℕ
  /-- Ring neighbor downstream. -/
  ringNext : Option ℕ
  /-- Window of the lanes toward the ring neighbor downstream, 0 over a cable. -/
  ringWindow : ℕ
  distinct : ∀ peer, ∀ l < laneCount, ∀ m < laneCount, laneDevice peer l = laneDevice peer m → l = m
  /-- Lanes toward a chain neighbor have no forward window. -/
  chainDirect : ∀ peer, prev = some peer ∨ next = some peer → ∀ lane < laneCount, fwdWindow peer lane = 0
  ringDirect : ringWindow = 0 → ∀ peer, ringNext = some peer → ∀ lane < laneCount, fwdWindow peer lane = 0

/-- The configuration a session plans for the rank at `index` of its chain order:
forward windows, the chain when every lane between neighbors is direct, and the
ring when no relay queue carries two of its lanes; `none` where a setting is
refused. -/
def Config.plan (routes : Routes) (order : List ℕ) (index maxWindow fwdChunk queueBytes : ℕ)
    (laneDevice : ℕ → ℕ → ℕ)
    (distinct : ∀ peer, ∀ l < routes.lanes, ∀ m < routes.lanes,
      laneDevice peer l = laneDevice peer m → l = m)
    (hindex : index < order.length) (hring : RelayQueues.ringNext order index ≠ order.getD index 0) : Option Config :=
  match hwindows : forwardWindows routes (order.getD index 0) maxWindow fwdChunk queueBytes with
  | none => none
  | some windows =>
    if hchain : directChain routes order = true then
      let prev := chainPrev order index
      let next := chainNext order index
      have chainDirect := fun peer hpeer lane hl =>
        forwardWindows_of_keys_nil hwindows (keys_of_chainNeighbor hchain peer hpeer lane hl)
      match hplan : planRing routes order index linkWindowChunk queueBytes with
      | none =>
        some ⟨routes.lanes, laneDevice, windows, fwdChunk, prev, next, none, none, 0, distinct, chainDirect,
          by simp⟩
      | some ring =>
        have ringDirect := fun hwindow lane hl =>
          forwardWindows_of_keys_nil hwindows (keys_of_planRing hplan hindex (by decide) hwindow hring lane hl)
        some ⟨routes.lanes, laneDevice, windows, fwdChunk, prev, next, some ring.prev, some ring.next,
          ring.window, distinct, chainDirect, fun hwindow _ hpeer => Option.some.inj hpeer ▸ ringDirect hwindow⟩
    else
      some ⟨routes.lanes, laneDevice, windows, fwdChunk, none, none, none, none, 0, distinct, by simp, by simp⟩

/-- A chain stream's downstream neighbor. -/
def Config.chainOut (c : Config) : ℕ → Option ℕ
  | 0 | 3 => c.next
  | 1 | 2 => c.prev
  | _ => none

/-- A chain stream's upstream neighbor. -/
def Config.chainIn (c : Config) : ℕ → Option ℕ
  | 0 | 3 => c.prev
  | 1 | 2 => c.next
  | _ => none

/-- A link's downstream neighbor. -/
def Config.linkOut (c : Config) : ℕ → Option ℕ
  | 0 => c.next
  | 1 => c.prev
  | 2 | 3 => c.ringNext
  | _ => none

/-- A link's upstream neighbor. -/
def Config.linkIn (c : Config) : ℕ → Option ℕ
  | 0 => c.prev
  | 1 => c.next
  | 2 | 3 => c.ringPrev
  | _ => none

/-- A link toward a peer through relays. -/
def Config.windowed (c : Config) (link : ℕ) : Bool :=
  2 ≤ link && (c.linkOut link).isSome && c.ringWindow != 0

/-- A stripe on a lane with a forward window. -/
structure Stream where
  peer : ℕ
  lane : ℕ
  /-- The op. -/
  seq : ℕ
  /-- Its flag namespace is 1. -/
  ns1 : Bool
  /-- Bytes of the stripe. -/
  length : ℕ
  /-- Bytes posted. -/
  done : ℕ
  flagPosted : Bool

/-- A lane write that goes out as one payload and its flag, and waits for credit. -/
structure LaneWrite where
  peer : ℕ
  lane : ℕ
  /-- The op. -/
  seq : ℕ
  /-- Its flag namespace is 1. -/
  ns1 : Bool
  /-- Bytes of the stripe. -/
  bytes : ℕ

/-- The queue pairs and what the thread is posting. -/
structure Thread where
  /-- Queue pair of a device toward a peer. -/
  queue : ℕ → ℕ → Queue
  /-- Windowed stripes of the phase. -/
  streams : List Stream
  waiting : Option LaneWrite

/-- Nothing posted. -/
def initial : Thread := ⟨fun _ _ => .empty, [], none⟩

/-- Queue pair of a lane. -/
def Thread.lane (s : Thread) (c : Config) (peer lane : ℕ) : Queue := s.queue (c.laneDevice peer lane) peer

/-- Replace a queue pair. -/
def Thread.setQueue (s : Thread) (device peer : ℕ) (q : Queue) : Thread :=
  { s with queue := Function.update s.queue device (Function.update (s.queue device) peer q) }

/-- Post a signaled work request on a lane. -/
def Thread.post (s : Thread) (c : Config) (peer lane : ℕ) (e : Entry) : Thread :=
  s.setQueue (c.laneDevice peer lane) peer ((s.lane c peer lane).ackPush e)

/-- A lane's queue pair has credit. -/
def Thread.hasCredit (s : Thread) (c : Config) (peer lane : ℕ) : Bool :=
  (s.lane c peer lane).entries.count < credit - 1

/-- The first `lanes` lanes toward a peer have credit. -/
def Thread.chainRoom (s : Thread) (c : Config) (peer lanes : ℕ) : Bool :=
  (List.range lanes).all fun lane => s.hasCredit c peer lane

/-- The entry of a payload write and its flag. -/
def payloadEntry (bytes : ℕ) : Entry :=
  { bytes := bytes + 4, payload := bytes, requests := if bytes = 0 then 1 else 2 }

/-- The entry of a flag or credit word. -/
def wordEntry : Entry := { bytes := 4, payload := 0, requests := 1 }

/-- The entry of a chunk that goes out alone. -/
def chunkEntry (bytes : ℕ) : Entry := { bytes := bytes, payload := bytes, requests := 1 }

/-- An entry of an arena write. -/
def Entry.arena (e : Entry) (seq : ℕ) (ns1 : Bool) : Entry :=
  { e with mark := { arena := true, ns1 := ns1 }, seq := seq }

/-- Write a chunk or an item downstream: its stripe and flag on every lane. -/
def Thread.postItem (s : Thread) (c : Config) (peer bytes : ℕ) : Thread :=
  (List.range c.laneCount).foldl
    (fun s lane => s.post c peer lane (payloadEntry ((laneSplit (bytes / 16) c.laneCount lane).2 * 16))) s

/-- The delivery proof of a peer, on every queue pair toward it once. -/
def Thread.fwdProve (s : Thread) (c : Config) (peer : ℕ) (newest0 newest1 : Option ℕ) (phase1 : Bool) :
    Thread :=
  (List.range c.laneCount).foldl
    (fun s lane =>
      if 0 < lane ∧ c.laneDevice peer lane = c.laneDevice peer 0 then s
      else s.setQueue (c.laneDevice peer lane) peer ((s.lane c peer lane).prove newest0 newest1 phase1)) s

/-- Bytes of the next chunk of a windowed stripe; `none` when its window has no
room worth using. -/
def Thread.streamBytes (s : Thread) (c : Config) (stream : Stream) : Option ℕ :=
  let window := c.fwdWindow stream.peer stream.lane
  let unacked := (s.lane c stream.peer stream.lane).unacked
  let bytes := min (stream.length - stream.done) c.fwdChunk
  if window < unacked + bytes then
    let room := if unacked < window then (window - unacked) / 16 * 16 else 0
    if room < fwdMinPiece then none else some room
  else some bytes

/-- What the thread does next. -/
inductive Event where
  /-- The newest flags of a peer prove writes delivered. -/
  | prove (peer : ℕ) (newest0 newest1 : Option ℕ) (phase1 : Bool)
  /-- A completion of a queue pair is polled. -/
  | complete (device peer : ℕ)
  /-- A lane's stripe of an arena phase: windowed, or about to go out at once. -/
  | laneWrite (write : LaneWrite)
  /-- The lane write that waited for credit goes out. -/
  | postLaneWrite
  /-- The next chunk of a windowed stripe. -/
  | streamChunk (i : ℕ)
  /-- The flag of a windowed stripe. -/
  | streamFlag (i : ℕ)
  /-- The phase's windowed stripes are all posted. -/
  | streamsDone
  | chainChunk (stream bytes : ℕ)
  | chainCredit (stream : ℕ)
  /-- A link item toward a peer over cables. -/
  | linkItem (link bytes : ℕ)
  /-- A chunk of a link item's stripe on one lane through relays. -/
  | linkChunk (link lane bytes : ℕ)
  /-- The flag of a link item on one lane through relays. -/
  | linkFlag (link lane : ℕ)
  | linkCredit (link : ℕ)

/-- A lane's stripe of an arena phase: posted in chunks when its lane has a window
it does not fit. -/
def Thread.laneWrite (s : Thread) (c : Config) (w : LaneWrite) : Thread :=
  let window := c.fwdWindow w.peer w.lane
  let unacked := (s.lane c w.peer w.lane).unacked
  if window ≠ 0 ∧ (c.fwdChunk < w.bytes ∨ window < unacked + w.bytes + 4) then
    { s with streams := s.streams ++ [⟨w.peer, w.lane, w.seq, w.ns1, w.bytes, 0, false⟩] }
  else { s with waiting := some w }

/-- One step of the thread. While a lane write waits for credit the thread only
polls completions. -/
def step (c : Config) (s : Thread) (e : Event) : Option Thread :=
  match e, s.waiting with
  | .complete device peer, _ => some (s.setQueue device peer (s.queue device peer).ackPop)
  | .postLaneWrite, some w =>
    if s.hasCredit c w.peer w.lane then
      some { s.post c w.peer w.lane (Entry.arena (payloadEntry w.bytes) w.seq w.ns1) with waiting := none }
    else none
  | _, some _ => none
  | .postLaneWrite, none => none
  | .prove peer newest0 newest1 phase1, none => some (s.fwdProve c peer newest0 newest1 phase1)
  | .laneWrite w, none =>
    if w.lane < c.laneCount ∧ w.bytes % 16 = 0 ∧ w.bytes < 2 ^ 32 then some (s.laneWrite c w) else none
  | .streamChunk i, none =>
    (s.streams[i]?).bind fun stream =>
      if stream.flagPosted = false ∧ stream.done < stream.length ∧
          s.hasCredit c stream.peer stream.lane then
        (s.streamBytes c stream).map fun bytes =>
          { s.post c stream.peer stream.lane (Entry.arena (chunkEntry bytes) stream.seq stream.ns1) with
            streams := s.streams.set i { stream with done := stream.done + bytes } }
      else none
  | .streamFlag i, none =>
    (s.streams[i]?).bind fun stream =>
      if stream.flagPosted = false ∧ stream.done = stream.length ∧
          s.hasCredit c stream.peer stream.lane then
        some { s.post c stream.peer stream.lane (Entry.arena wordEntry stream.seq stream.ns1) with
          streams := s.streams.set i { stream with flagPosted := true } }
      else none
  | .streamsDone, none => if s.streams.all Stream.flagPosted then some { s with streams := [] } else none
  | .chainChunk stream bytes, none =>
    (c.chainOut stream).bind fun peer =>
      if s.chainRoom c peer c.laneCount ∧ bytes < 2 ^ 32 then some (s.postItem c peer bytes) else none
  | .chainCredit stream, none =>
    (c.chainIn stream).bind fun peer =>
      if s.chainRoom c peer 1 then some (s.post c peer 0 wordEntry) else none
  | .linkItem link bytes, none =>
    (c.linkOut link).bind fun peer =>
      if c.windowed link = false ∧ s.chainRoom c peer c.laneCount ∧ bytes < 2 ^ 32 then
        some (s.postItem c peer bytes)
      else none
  | .linkChunk link lane bytes, none =>
    (c.linkOut link).bind fun peer =>
      if c.windowed link ∧ lane < c.laneCount ∧ bytes ≤ linkWindowChunk ∧ s.hasCredit c peer lane ∧
          (s.lane c peer lane).unacked + bytes ≤ c.ringWindow then
        some (s.post c peer lane (chunkEntry bytes))
      else none
  | .linkFlag link lane, none =>
    (c.linkOut link).bind fun peer =>
      if c.windowed link ∧ lane < c.laneCount ∧ s.hasCredit c peer lane then
        some (s.post c peer lane wordEntry)
      else none
  | .linkCredit link, none =>
    (c.linkIn link).bind fun peer =>
      if s.chainRoom c peer 1 then some (s.post c peer 0 wordEntry) else none

end SparkRing.PostingWindows
