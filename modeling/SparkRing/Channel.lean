import SparkRing.ChannelAcks
import SparkRing.ChannelItems

/-!
# Point-to-point channels of two ranks

Two ranks have a channel in either direction. Send launches stage items in the slots of
the sending rank, its progress thread writes them into the slots of the receiving rank,
receive launches copy them out, and the receiving rank's progress thread returns the count
of items released as credits. Data, header and flags of a lane and the credits of the
opposite channel share a queue pair, which delivers and completes its writes in order.
Words are 32 bits wide: the counters of the model run without bound and are compared as
the words are.
-/

namespace SparkRing.Channel

open SequenceWord Function

/-- Smallest write of a windowed stripe when the window has room for less than a chunk. -/
def minWindowPiece : ℕ := 4096

/-- The forward windows that a table sets; without a table there is none, and a table with
a chunk or a window outside its bounds is refused. -/
def setWindows (lanes : ℕ) (table : Option (ℕ → ℕ)) (chunk : ℕ) : Option (ℕ → ℕ) :=
  match table with
  | none => some fun _ => 0
  | some window =>
    if chunk < 16 ∨ chunk % 16 ≠ 0 then none
    else if ∃ l < lanes, window l ≠ 0 ∧ (window l < chunk ∨ inflight - 8 < window l / chunk) then none
    else some window

/-- Geometry of the channels of two ranks and the settings of both. -/
structure Config where
  /-- Lanes of a channel, each a queue pair of its own. -/
  lanes : ℕ
  /-- Slots of a channel on either end. -/
  slots : ℕ
  slotBytes : ℕ
  /-- Blocks of a rank's launches. -/
  blocks : Bool → ℕ
  /-- Forward windows of a rank's lanes, 0 for none. -/
  window : Bool → ℕ → ℕ
  /-- Chunk of a rank's windowed stripes. -/
  chunk : Bool → ℕ
  /-- A channel has one or two lanes. -/
  lanesValid : 1 ≤ lanes ∧ lanes ≤ 2
  /-- A channel has a power of two of 2 to 32 slots. -/
  slotsValid : 2 ≤ slots ∧ slots ≤ 32 ∧ slots &&& (slots - 1) = 0
  /-- Slot bytes are a positive multiple of 4096 up to 2^29. -/
  slotBytesValid : 0 < slotBytes ∧ slotBytes % 4096 = 0 ∧ slotBytes ≤ 2 ^ 29
  /-- A launch has 1 to 64 blocks. -/
  blocksValid : ∀ r, 1 ≤ blocks r ∧ blocks r ≤ 64
  /-- The windows were accepted. -/
  windowsValid : ∀ r, ∃ table, setWindows lanes table (chunk r) = some (window r)

def Config.index (C : Config) (item : ℕ) : ℕ := word item % C.slots

/-- Where a block of a send launch is. -/
inductive SendStage
  | waiting (item : ℕ)
  /-- Reads the poison word. -/
  | checking (item : ℕ)
  /-- Copies an item into its slot; the packs left to copy. -/
  | copying (item : ℕ) (left : List ℕ)
  | heading (item : ℕ)
  /-- Raises the item's ready word. -/
  | raising (item : ℕ)
  /-- Left the launch. -/
  | gone
  deriving DecidableEq

/-- Item of its launch that a block is at. -/
def SendStage.item : SendStage → Option ℕ
  | waiting i | checking i | copying i _ | heading i | raising i => some i
  | gone => none

/-- Where a block of a receive launch is. -/
inductive RecvStage
  /-- Waits for the flags of an item on some lanes. -/
  | waiting (item : ℕ) (pending : List ℕ)
  /-- Copies an item out of its slot; the packs left to copy. -/
  | copying (item : ℕ) (left : List ℕ)
  /-- Writes the slot's consumed word. -/
  | consuming (item : ℕ)
  /-- Left the launch. -/
  | gone
  deriving DecidableEq

/-- Item of its launch that a block is at. -/
def RecvStage.item : RecvStage → Option ℕ
  | waiting i _ | copying i _ | consuming i => some i
  | gone => none

/-- A write on a queue pair. -/
inductive Write
  /-- Bytes of an item, from a send slot into the receive slot of the same index. -/
  | data (item slot offset length : ℕ)
  /-- An item's header, beside the first lane's flag of the slot. -/
  | header (item slot value : ℕ)
  | flag (item slot tag : ℕ)
  /-- A credit of the opposite channel. -/
  | credit (value : ℕ)
  deriving DecidableEq

/-- What a work request of a write carries in its id. -/
def Write.id : Write → Kind × ℕ
  | data item _ _ _ => (.data, item)
  | header item _ _ => (.header, item)
  | flag item _ _ => (.flag, item)
  | credit value => (.credit, value)

/-- The sending end of a channel: its launches, its arena and its progress thread. -/
structure Sender (β : Type*) where
  launched : ℕ
  /-- Send launches that finished. -/
  finished : ℕ
  /-- Blocks of the launch that runs or comes next. -/
  block : ℕ → SendStage
  /-- Bytes of the send slots. -/
  slot : ℕ → ℕ → β
  /-- The desc line: headers of the staged items. -/
  desc : ℕ → ℕ
  /-- The ready line: tags of the staged items. -/
  ready : ℕ → ℕ
  /-- The sent word, the items completed on all lanes. -/
  sent : ℕ
  /-- The credit word, which the receiving rank writes. -/
  credit : ℕ
  /-- The credit the thread last acted on. -/
  creditSeen : ℕ
  laneItem : ℕ → ℕ
  laneBytes : ℕ → ℕ
  laneHeader : ℕ → Bool
  /-- Items completed on a lane. -/
  laneDone : ℕ → ℕ

/-- The receiving end of a channel. -/
structure Receiver (β : Type*) where
  launched : ℕ
  /-- Receive launches that finished. -/
  finished : ℕ
  /-- Blocks of the launch that runs or comes next. -/
  block : ℕ → RecvStage
  /-- Bytes of the receive slots. -/
  slot : ℕ → ℕ → β
  /-- Flags of a slot's lanes. -/
  flag : ℕ → ℕ → ℕ
  /-- Header of a slot's item. -/
  header : ℕ → ℕ
  /-- The consumed line: tags of the items copied out. -/
  consumed : ℕ → ℕ
  released : ℕ
  /-- The count last returned as a credit. -/
  credited : ℕ
  /-- The buffer of a launch. -/
  out : ℕ → ℕ → β

/-- A queue pair. -/
structure Line where
  /-- Entries of the requests in flight. -/
  acks : Acks
  /-- Writes posted and not delivered, oldest first. -/
  flying : List Write
  /-- Writes delivered and not completed, oldest first. -/
  landed : List Write

/-- Both ranks: channel `c` goes from rank `c` to rank `!c`, and line `c` `l` is the queue
pair of lane `l` of rank `c` toward rank `!c`. -/
structure State (β : Type*) where
  /-- Sending end of a channel. -/
  sender : Bool → Sender β
  /-- Receiving end of a channel. -/
  receiver : Bool → Receiver β
  /-- Queue pair of a rank's lane. -/
  line : Bool → ℕ → Line
  /-- Poison word of a rank. -/
  poison : Bool → Bool

/-- A step of a launch, a progress thread or a queue pair. -/
inductive Action
  /-- A send is launched on a channel. -/
  | isend (c : Bool)
  /-- A block of the running send launch goes on, with a pack where it copies. -/
  | send (c : Bool) (b p : ℕ)
  /-- The running send launch finishes. -/
  | endSend (c : Bool)
  /-- A receive is launched on a channel. -/
  | irecv (c : Bool)
  /-- A block of the running receive launch goes on, with the lane it waits for or a pack. -/
  | recv (c : Bool) (b p : ℕ)
  /-- The running receive launch finishes. -/
  | endRecv (c : Bool)
  /-- The sender's thread reads a new credit. -/
  | readCredit (c : Bool)
  /-- A lane posts bytes of its next item. -/
  | piece (c : Bool) (l : ℕ)
  /-- The first lane posts the header of its next item. -/
  | header (c : Bool)
  /-- A lane posts the flag of its next item. -/
  | flag (c : Bool) (l : ℕ)
  /-- A lane fails on a header of more than a slot. -/
  | oversize (c : Bool) (l : ℕ)
  /-- The sender's thread publishes the items completed on all lanes. -/
  | publish (c : Bool)
  /-- The receiver's thread releases the next item. -/
  | release (c : Bool)
  /-- The receiver's thread returns a credit. -/
  | giveCredit (c : Bool)
  /-- A queue pair delivers its oldest write. -/
  | deliver (c : Bool) (l : ℕ)
  /-- A queue pair completes its oldest delivered write. -/
  | complete (c : Bool) (l : ℕ)
  /-- A rank fails: a wait limit, a failed write or an abort notice of its peer. -/
  | fail (r : Bool)

variable {β : Type*}

/-- Write a range of bytes of a slot. -/
def writeBytes (slot : ℕ → ℕ → β) (m offset length : ℕ) (bytes : ℕ → β) (n j : ℕ) : β :=
  if n = m ∧ offset ≤ j ∧ j < offset + length then bytes j else slot n j

/-- The zero-padded bytes of an item of a message. -/
def itemBytes [Zero β] (slotBytes : ℕ) (message : List β) (i j : ℕ) : β := message.getD (i * slotBytes + j) 0

/-- A block of the send launch goes on to a stage. -/
def Sender.setBlock (S : Sender β) (b : ℕ) (stage : SendStage) : Sender β :=
  { S with block := Function.update S.block b stage }

/-- A block of the receive launch goes on to a stage. -/
def Receiver.setBlock (R : Receiver β) (b : ℕ) (stage : RecvStage) : Receiver β :=
  { R with block := Function.update R.block b stage }

section Blocks

variable (C : Config) (start : ℕ) (message : ℕ → List β)

/-- Items of a launch's message. -/
def Config.count (k : ℕ) : ℕ := items C.slotBytes (message k).length

/-- Number of an item of a launch on the channel. -/
def Config.number (k i : ℕ) : ℕ := LaunchItems.first start (C.count message) k + i

/-- The first stage of a block of a send launch. -/
def Config.enterSend (k b : ℕ) : SendStage := if b < C.count message k then .waiting b else .gone

/-- The first stage of a block of a receive launch. -/
def Config.enterRecv (k b : ℕ) : RecvStage := if b < C.count message k then .waiting b (List.range C.lanes) else .gone

/-- A block of the running send launch goes on. -/
def Config.send [Zero β] (blocks : ℕ) (poison : Bool) (S : Sender β) (b p : ℕ) : Option (Sender β) :=
  let k := S.finished
  let n := (message k).length
  if b < blocks ∧ S.finished < S.launched then
    match S.block b with
    | .waiting i =>
      -- the sent word has reached the tag of the item a ring before, or the rank is poisoned
      if 0 ≤ gap (S.sent + C.slots) (C.number start message k i + 1) ∨ poison then some (S.setBlock b (.checking i)) else none
    | .checking i =>
      if poison then some (S.setBlock b .gone) else some (S.setBlock b (.copying i (List.range (itemPacks C.slotBytes n i))))
    | .copying i left =>
      if left = [] then some (S.setBlock b (.heading i))
      else if p ∈ left then
        some { S.setBlock b (.copying i (left.filter (· ≠ p))) with
          slot := writeBytes S.slot (C.index (C.number start message k i)) (16 * p) 16 (itemBytes C.slotBytes (message k) i) }
      else none
    | .heading i =>
      some { S.setBlock b (.raising i) with
        desc := Function.update S.desc (C.index (C.number start message k i)) (itemHeader C.slotBytes n i) }
    | .raising i =>
      let next := if i + blocks < C.count message k then .waiting (i + blocks) else .gone
      let g := C.number start message k i
      some { S.setBlock b next with ready := Function.update S.ready (C.index g) (g + 1) }
    | .gone => none
  else none

/-- The running launch finishes when its blocks have left. -/
def Config.endSend (blocks : ℕ) (S : Sender β) : Option (Sender β) :=
  if S.finished < S.launched ∧ ∀ b < blocks, S.block b = .gone then
    some { S with finished := S.finished + 1, block := C.enterSend message (S.finished + 1) }
  else none

/-- A block of the running receive launch goes on; it may poison its rank. -/
def Config.recv (blocks : ℕ) (poison : Bool) (R : Receiver β) (b p : ℕ) : Option (Receiver β × Bool) :=
  let k := R.finished
  let n := (message k).length
  if b < blocks ∧ R.finished < R.launched then
    match R.block b with
    | .waiting i pending =>
      let g := C.number start message k i
      if pending = [] then
        if poison then some (R.setBlock b .gone, poison)
        -- another size or boundary of the message
        else if R.header (C.index g) ≠ itemHeader C.slotBytes n i then some (R.setBlock b .gone, true)
        else some (R.setBlock b (.copying i (List.range (itemPacks C.slotBytes n i))), poison)
      else if p ∈ pending ∧ (sameWord (R.flag (C.index g) p) (g + 1) ∨ poison) then
        some (R.setBlock b (.waiting i (pending.filter (· ≠ p))), poison)
      else none
    | .copying i left =>
      if left = [] then some (R.setBlock b (.consuming i), poison)
      else if p ∈ left then
        some ({ R.setBlock b (.copying i (left.filter (· ≠ p))) with
          out := writeBytes R.out k (i * C.slotBytes + 16 * p) 16
            fun j => R.slot (C.index (C.number start message k i)) (j - i * C.slotBytes) }, poison)
      else none
    | .consuming i =>
      let next := if i + blocks < C.count message k then .waiting (i + blocks) (List.range C.lanes) else .gone
      let g := C.number start message k i
      some ({ R.setBlock b next with consumed := Function.update R.consumed (C.index g) (g + 1) }, poison)
    | .gone => none
  else none

/-- The running launch finishes when its blocks have left. -/
def Config.endRecv (blocks : ℕ) (R : Receiver β) : Option (Receiver β) :=
  if R.finished < R.launched ∧ ∀ b < blocks, R.block b = .gone then
    some { R with finished := R.finished + 1, block := C.enterRecv message (R.finished + 1) }
  else none

end Blocks

section Thread

variable (C : Config)

/-- The thread reads a credit and proves writes delivered on every lane. -/
def Config.readCredit (S : Sender β) (line : ℕ → Line) : Option (Sender β × (ℕ → Line)) :=
  if sameWord S.credit S.creditSeen then none
  else some ({ S with creditSeen := S.credit },
    fun l => if l < C.lanes then { line l with acks := (line l).acks.prove S.credit } else line l)

def Config.nextHeader (S : Sender β) (l : ℕ) : ℕ := S.desc (C.index (S.laneItem l))

/-- The receiver freed the slot of a lane's next item, and the item is staged. -/
def Config.laneReady (S : Sender β) (l : ℕ) : Bool :=
  0 ≤ gap (S.creditSeen + C.slots) (S.laneItem l + 1) && sameWord (S.ready (C.index (S.laneItem l))) (S.laneItem l + 1)

/-- A lane posts its next item: it is ready and within a slot. -/
def Config.laneOpen (S : Sender β) (l : ℕ) : Bool :=
  C.laneReady S l && decide (headerBytes (C.nextHeader S l) ≤ C.slotBytes)

/-- The stripe of a lane's next item. -/
def Config.nextStripe (S : Sender β) (l : ℕ) : ℕ × ℕ := stripe C.lanes l (headerBytes (C.nextHeader S l))

/-- Bytes of the next write of a stripe, as far as the lane's window has room. -/
def pieceLength (window chunk unacked left : ℕ) : Option ℕ :=
  if window = 0 then some left
  else
    let n := if chunk < left then chunk else left
    let free := if unacked < window then window - unacked else 0
    if free < n then
      let part := free / 16 * 16
      if part < minWindowPiece ∨ part = 0 then none else some part
    else some n

/-- Post a write on a queue pair. -/
def Line.post (q : Line) (bytes : ℕ) (w : Write) : Line :=
  { q with acks := q.acks.push bytes w.id.2 w.id.1, flying := q.flying ++ [w] }

/-- A lane posts bytes of its next item. -/
def Config.piece (window chunk : ℕ) (S : Sender β) (q : Line) (l : ℕ) : Option (Sender β × Line) :=
  let g := S.laneItem l
  let s := C.nextStripe S l
  if C.laneOpen S l ∧ S.laneBytes l < s.2 ∧ q.acks.room 1 then
    (pieceLength window chunk q.acks.unacked (s.2 - S.laneBytes l)).map fun n =>
      ({ S with laneBytes := Function.update S.laneBytes l (S.laneBytes l + n) },
        q.post (if window ≠ 0 then n else 0) (.data g (C.index g) (s.1 + S.laneBytes l) n))
  else none

/-- The first lane posts the header of its next item, behind its bytes. -/
def Config.postHeader (S : Sender β) (q : Line) : Option (Sender β × Line) :=
  let g := S.laneItem 0
  if C.laneOpen S 0 ∧ (C.nextStripe S 0).2 ≤ S.laneBytes 0 ∧ S.laneHeader 0 = false ∧ q.acks.room 1 then
    some ({ S with laneHeader := Function.update S.laneHeader 0 true },
      q.post 0 (.header g (C.index g) (C.nextHeader S 0)))
  else none

/-- A lane posts the flag of its next item, behind its bytes and the first lane's header. -/
def Config.postFlag (S : Sender β) (q : Line) (l : ℕ) : Option (Sender β × Line) :=
  let g := S.laneItem l
  if C.laneOpen S l ∧ (C.nextStripe S l).2 ≤ S.laneBytes l ∧ (l = 0 → S.laneHeader 0 = true) ∧ q.acks.room 1 then
    some ({ S with
        laneItem := Function.update S.laneItem l (g + 1)
        laneBytes := Function.update S.laneBytes l 0
        laneHeader := Function.update S.laneHeader l false },
      q.post 0 (.flag g (C.index g) (g + 1)))
  else none

/-- The items completed on all lanes. -/
def Config.laneMin (S : Sender β) : ℕ :=
  (List.range C.lanes).foldl (fun done l => if gap (S.laneDone l) done < 0 then S.laneDone l else done) (S.laneDone 0)

/-- The thread publishes the items completed on all lanes. -/
def Config.publish (S : Sender β) : Option (Sender β) :=
  if sameWord (C.laneMin S) S.sent then none else some { S with sent := C.laneMin S }

/-- The thread releases the next item once it is copied out. -/
def Config.release (R : Receiver β) : Option (Receiver β) :=
  if sameWord (R.consumed (C.index R.released)) (R.released + 1) then some { R with released := R.released + 1 } else none

/-- The thread returns the count of items released. -/
def giveCredit (R : Receiver β) (q : Line) : Option (Receiver β × Line) :=
  if sameWord R.released R.credited = false ∧ q.acks.room 1 then
    some ({ R with credited := R.released }, q.post 0 (.credit R.released))
  else none

end Thread

/-- What a write does to the receiving end of its channel. -/
def Receiver.land (R : Receiver β) (S : Sender β) (l : ℕ) : Write → Receiver β
  | .data _ m offset length => { R with slot := writeBytes R.slot m offset length (S.slot m) }
  | .header _ m value => { R with header := Function.update R.header m value }
  | .flag _ m tag => { R with flag := Function.update R.flag m (Function.update (R.flag m) l tag) }
  | .credit _ => R

/-- What a write does to the sending end of the opposite channel. -/
def Sender.land (S : Sender β) : Write → Sender β
  | .credit value => { S with credit := value }
  | _ => S

/-- A queue pair completes its oldest delivered write. -/
def Line.complete (q : Line) : Line := { q with acks := q.acks.pop, landed := q.landed.tail }

def Sender.complete (S : Sender β) (l : ℕ) : Write → Sender β
  | .flag _ _ _ => { S with laneDone := Function.update S.laneDone l (S.laneDone l + 1) }
  | _ => S

namespace State

variable (s : State β) (c : Bool)

/-- Replace the sending end of a channel. -/
def setSender (S : Sender β) : State β := { s with sender := Function.update s.sender c S }

/-- Replace the receiving end of a channel. -/
def setReceiver (R : Receiver β) : State β := { s with receiver := Function.update s.receiver c R }

/-- Replace the queue pairs of a rank. -/
def setLines (line : ℕ → Line) : State β := { s with line := Function.update s.line c line }

/-- Replace a queue pair. -/
def setLine (l : ℕ) (q : Line) : State β := s.setLines c (Function.update (s.line c) l q)

/-- Replace the poison word of a rank. -/
def setPoison (poison : Bool) : State β := { s with poison := Function.update s.poison c poison }

variable (S : Sender β) (R : Receiver β) (line : ℕ → Line) (poison : Bool)

@[simp] theorem setSender_self : (s.setSender c S).sender c = S := update_self _ _ _

@[simp] theorem setSender_not : (s.setSender c S).sender (!c) = s.sender !c := update_of_ne (Bool.not_ne_self c) _ _

@[simp] theorem setSender_of_not : (s.setSender (!c) S).sender c = s.sender c :=
  update_of_ne (Bool.not_ne_self c).symm _ _

@[simp] theorem setSender_receiver : (s.setSender c S).receiver = s.receiver := rfl

@[simp] theorem setSender_line : (s.setSender c S).line = s.line := rfl

@[simp] theorem setSender_poison : (s.setSender c S).poison = s.poison := rfl

@[simp] theorem setReceiver_self : (s.setReceiver c R).receiver c = R := update_self _ _ _

@[simp] theorem setReceiver_not : (s.setReceiver c R).receiver (!c) = s.receiver !c :=
  update_of_ne (Bool.not_ne_self c) _ _

@[simp] theorem setReceiver_sender : (s.setReceiver c R).sender = s.sender := rfl

@[simp] theorem setReceiver_line : (s.setReceiver c R).line = s.line := rfl

@[simp] theorem setReceiver_poison : (s.setReceiver c R).poison = s.poison := rfl

@[simp] theorem setLines_self : (s.setLines c line).line c = line := update_self _ _ _

@[simp] theorem setLines_not : (s.setLines c line).line (!c) = s.line !c := update_of_ne (Bool.not_ne_self c) _ _

@[simp] theorem setLines_of_not : (s.setLines (!c) line).line c = s.line c :=
  update_of_ne (Bool.not_ne_self c).symm _ _

@[simp] theorem setLines_sender : (s.setLines c line).sender = s.sender := rfl

@[simp] theorem setLines_receiver : (s.setLines c line).receiver = s.receiver := rfl

@[simp] theorem setLines_poison : (s.setLines c line).poison = s.poison := rfl

@[simp] theorem setPoison_self : (s.setPoison c poison).poison c = poison := update_self _ _ _

@[simp] theorem setPoison_not : (s.setPoison c poison).poison (!c) = s.poison !c :=
  update_of_ne (Bool.not_ne_self c) _ _

@[simp] theorem setPoison_of_not : (s.setPoison (!c) poison).poison c = s.poison c :=
  update_of_ne (Bool.not_ne_self c).symm _ _

@[simp] theorem setPoison_sender : (s.setPoison c poison).sender = s.sender := rfl

@[simp] theorem setPoison_receiver : (s.setPoison c poison).receiver = s.receiver := rfl

@[simp] theorem setPoison_line : (s.setPoison c poison).line = s.line := rfl

end State

section System

variable [Zero β] (C : Config) (start : ℕ) (message : Bool → ℕ → List β)

/-- Both ranks before their first launch; the words and the counters of a channel are at
its start item. -/
def initial : State β where
  sender c :=
    { launched := 0, finished := 0, block := C.enterSend (message c) 0, slot := fun _ _ => 0, desc := fun _ => 0
      ready := fun _ => start, sent := start, credit := start, creditSeen := start, laneItem := fun _ => start
      laneBytes := fun _ => 0, laneHeader := fun _ => false, laneDone := fun _ => start }
  receiver c :=
    { launched := 0, finished := 0, block := C.enterRecv (message c) 0, slot := fun _ _ => 0
      flag := fun _ _ => start, header := fun _ => 0, consumed := fun _ => start, released := start
      credited := start, out := fun _ _ => 0 }
  line _ _ := ⟨.empty, [], []⟩
  poison _ := false

def step (s : State β) : Action → Option (State β)
  | .isend c => some (s.setSender c { s.sender c with launched := (s.sender c).launched + 1 })
  | .send c b p =>
    (C.send start (message c) (C.blocks c) (s.poison c) (s.sender c) b p).map fun S => s.setSender c S
  | .endSend c => (C.endSend (message c) (C.blocks c) (s.sender c)).map fun S => s.setSender c S
  | .irecv c => some (s.setReceiver c { s.receiver c with launched := (s.receiver c).launched + 1 })
  | .recv c b p =>
    (C.recv start (message c) (C.blocks !c) (s.poison !c) (s.receiver c) b p).map fun r =>
      (s.setReceiver c r.1).setPoison (!c) r.2
  | .endRecv c => (C.endRecv (message c) (C.blocks !c) (s.receiver c)).map fun R => s.setReceiver c R
  | .readCredit c => (C.readCredit (s.sender c) (s.line c)).map fun r => (s.setSender c r.1).setLines c r.2
  | .piece c l =>
    if l < C.lanes then
      (C.piece (C.window c l) (C.chunk c) (s.sender c) (s.line c l) l).map fun r =>
        (s.setSender c r.1).setLine c l r.2
    else none
  | .header c => (C.postHeader (s.sender c) (s.line c 0)).map fun r => (s.setSender c r.1).setLine c 0 r.2
  | .flag c l =>
    if l < C.lanes then
      (C.postFlag (s.sender c) (s.line c l) l).map fun r => (s.setSender c r.1).setLine c l r.2
    else none
  | .oversize c l =>
    if l < C.lanes ∧ C.laneReady (s.sender c) l ∧ C.slotBytes < headerBytes (C.nextHeader (s.sender c) l) then
      some (s.setPoison c true)
    else none
  | .publish c => (C.publish (s.sender c)).map fun S => s.setSender c S
  | .release c => (C.release (s.receiver c)).map fun R => s.setReceiver c R
  | .giveCredit c =>
    (giveCredit (s.receiver c) (s.line (!c) 0)).map fun r => (s.setReceiver c r.1).setLine (!c) 0 r.2
  | .deliver c l =>
    if l < C.lanes then
      match (s.line c l).flying with
      | [] => none
      | w :: flying =>
        some (((s.setReceiver c ((s.receiver c).land (s.sender c) l w)).setSender (!c) ((s.sender !c).land w)).setLine c l
          { s.line c l with flying := flying, landed := (s.line c l).landed ++ [w] })
    else none
  | .complete c l =>
    if l < C.lanes then
      match (s.line c l).landed with
      | [] => none
      | w :: _ => some ((s.setSender c ((s.sender c).complete l w)).setLine c l (s.line c l).complete)
    else none
  | .fail r => some (s.setPoison r true)

end System

end SparkRing.Channel
