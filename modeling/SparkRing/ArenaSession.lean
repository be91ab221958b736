import SparkRing.ArenaPlan

/-!
# A session's arena, step by step

Every rank has a kernel that runs the agreed ops one after another, a progress
thread that posts the phases whose doorbells it sees, queue pairs that deliver
their writes in posting order, and memory its peers write to. Kernels, threads and
queue pairs of all ranks take their steps in any order.

Sequence numbers run without bound; every comparison is one of 32-bit words.
-/

namespace SparkRing.ArenaSession

open SequenceWord SwingPlan ArenaPlan Function

/-- One work request of an arena op. -/
inductive Write
  /-- Packs of the sender's receive slot at the peer. -/
  | data (op phase first count : ℕ)
  /-- The sequence into a flag line. -/
  | flag (op phase line : ℕ)
  deriving DecidableEq

def Write.op : Write → ℕ
  | data op _ _ _ => op
  | flag op _ _ => op

def Write.phase : Write → ℕ
  | data _ phase _ _ => phase
  | flag _ phase _ => phase

/-- Where a rank's kernel stands in the op after its epoch. -/
inductive Kernel
  /-- No kernel runs. -/
  | idle
  /-- It copies its input into the send slot. -/
  | staging
  /-- It wrote the op word, and not yet the doorbell. -/
  | staged
  /-- It rang phase `k` and waits for that phase's flags, some of which it saw. -/
  | waiting (k : ℕ) (seen : List (ℕ × ℕ))
  deriving DecidableEq

/-- Where a progress thread stands in its loop. -/
inductive Thread
  /-- It reads the doorbell of phase `k` next, or after the last phase the op
  doorbell, or the op word of the next of `more` ops. -/
  | scan (k : ℕ) (more : Option ℕ)
  /-- It saw the doorbell of phase `k` at an op and reads the op word. -/
  | phaseWord (k seq : ℕ) (more : Option ℕ)
  /-- It reads the op word of the op after the last posted, and has `more` ops after
  that one to post. -/
  | opWord (more : ℕ)
  | posting (seq k : ℕ) (todo : List Stripe) (more : Option ℕ)
  /-- It stopped with a failure. -/
  | failed
  deriving DecidableEq

/-- A phase that a progress thread began to post, with the op it read. -/
structure Posting where
  /-- Sequence number. -/
  seq : ℕ
  phase : ℕ
  /-- What the op word said. -/
  op : Op
  deriving DecidableEq

/-- What a rank's kernel writes. -/
structure Device where
  /-- Newest op the kernel finished. -/
  epoch : ℕ
  /-- Where the kernel stands. -/
  kernel : Kernel
  /-- Newest op whose first phase was released. -/
  doorbell : ℕ
  opWord : ℕ → ℕ
  /-- Newest op of which a later phase was released. -/
  phaseDoorbell : ℕ → ℕ
  /-- Descriptor of each phase. -/
  descriptor : ℕ → Option Descriptor

/-- What a rank's progress thread and its queue pairs hold. -/
structure Host where
  /-- Newest op whose first phase was posted. -/
  lastSeq : ℕ
  /-- Newest op of which a later phase was posted. -/
  lastPhaseSeq : ℕ → ℕ
  /-- Where the thread stands. -/
  thread : Thread
  /-- Phases the thread began to post, oldest first. -/
  postings : List Posting
  /-- Writes on the queue pair of a peer and lane that have not landed. -/
  queue : ℕ → ℕ → List Write
  /-- Writes on the queue pair of a peer and lane that landed. -/
  landed : ℕ → ℕ → List Write

/-- What a rank's peers write. -/
structure Memory where
  flags : ℕ → ℕ
  /-- The op and phase that last wrote a pack of a source's receive slot. -/
  recv : ℕ → ℕ → ℕ → Option (ℕ × ℕ)

/-- One rank. -/
structure Rank where
  /-- Written by its kernel. -/
  device : Device
  /-- Written by its progress thread. -/
  host : Host
  /-- Written by its peers. -/
  memory : Memory

/-- A rank before its first op. -/
def Rank.initial : Rank where
  device := ⟨0, .idle, 0, fun _ => 0, fun _ => 0, fun _ => none⟩
  host := ⟨0, fun _ => 0, .scan 1 none, [], fun _ _ => [], fun _ _ => []⟩
  memory := ⟨fun _ => 0, fun _ _ _ => none⟩

variable {c : Config} (P : Program c) (r : ℕ) {u : ℕ}

/-- The op a kernel runs or runs next. -/
def Device.current (d : Device) : ℕ := d.epoch + 1

/-- A kernel starts and copies its input into the send slot of its op. -/
def Device.launch (d : Device) : Option Device :=
  match d.kernel with
  | .idle => some { d with kernel := .staging }
  | _ => none

/-- The descriptors once a kernel wrote the one of phase `k`, which a described op
does. -/
def Device.describe (d : Device) (k : ℕ) : ℕ → Option Descriptor :=
  if (P.op d.current).code = .described then
    Function.update d.descriptor k (ArenaPlan.descriptor c r k)
  else d.descriptor

/-- The last block to finish staging writes the op word of its slot. -/
def Device.writeOpWord (d : Device) : Option Device :=
  match d.kernel with
  | .staging =>
    some { d with
      kernel := .staged
      opWord := Function.update d.opWord (d.current % slots) (P.op d.current).word
      descriptor := d.describe P r 0 }
  | _ => none

/-- It rings the doorbell and the kernel waits for the first phase. -/
def Device.ring (d : Device) : Option Device :=
  match d.kernel with
  | .staged => some { d with kernel := .waiting 0 [], doorbell := d.current }
  | _ => none

/-- A wait sees a peer's flag of one lane. -/
def Device.see (flags : ℕ → ℕ) (d : Device) (q lane : ℕ) : Option Device :=
  match d.kernel with
  | .waiting k seen =>
    if q ∈ peers c (P.op d.current) r k ∧ lane < c.laneCount ∧
        sameWord (flags (flagLine c (ns c (P.op d.current) k) q (d.current % slots) lane)) d.current then
      some { d with kernel := .waiting k ((q, lane) :: seen) }
    else none
  | _ => none

variable (c) in
/-- Every flag of a phase was seen. -/
def arrived (op : Op) (k : ℕ) (seen : List (ℕ × ℕ)) : Bool :=
  (peers c op r k).all fun q => (List.range c.laneCount).all fun lane => (q, lane) ∈ seen

/-- Once every flag of a phase was seen the kernel uses the data and rings the next
phase, or finishes its op after the last. -/
def Device.advance (d : Device) : Option Device :=
  match d.kernel with
  | .waiting k seen =>
    if arrived c r (P.op d.current) k seen then
      if k + 1 < phases c (P.op d.current) then
        some { d with
          kernel := .waiting (k + 1) []
          phaseDoorbell := Function.update d.phaseDoorbell (k + 1) d.current
          descriptor := d.describe P r (k + 1) }
      else some { d with kernel := .idle, epoch := d.current }
    else none
  | _ => none

/-- Newest op of which the phase before a later phase was posted. -/
def Host.before (h : Host) (k : ℕ) : ℕ := if k = 1 then h.lastSeq else h.lastPhaseSeq (k - 1)

/-- One iteration of the phase loop up to its op word: the phase's doorbell against
the newest posted op of the phase and of the phase before. -/
def Host.scanPhase (h : Host) (d : Device) (k : ℕ) (more : Option ℕ) : Host :=
  let seq := d.phaseDoorbell k
  if sameWord seq (h.lastPhaseSeq k) then { h with thread := .scan (k + 1) more }
  else if 0 < gap seq (h.before k) then { h with thread := .scan (k + 1) more }
  else { h with thread := .phaseWord k seq more }

/-- Start the stripes of a phase, or stop with a failure. -/
def Host.post (h : Host) (seq k : ℕ) (op : Op) (more : Option ℕ) : Option (List Stripe) → Host
  | none => { h with thread := .failed }
  | some todo => { h with thread := .posting seq k todo more, postings := h.postings ++ [⟨seq, k, op⟩] }

/-- The op doorbell: up to two ops past the newest posted one are due. -/
def Host.readDoorbell (h : Host) (doorbell : ℕ) : Host :=
  if sameWord doorbell h.lastSeq then { h with thread := .scan 1 none }
  else
    let pending := ahead doorbell h.lastSeq
    if slots < pending then { h with thread := .failed } else { h with thread := .opWord (pending - 1) }

/-- After the phase loop: the op doorbell, or the next op of the last one read. -/
def Host.afterPhases (h : Host) (d : Device) : Option ℕ → Host
  | none => h.readDoorbell d.doorbell
  | some 0 => { h with thread := .scan 1 none }
  | some (j + 1) => { h with thread := .opWord j }

variable (c) in
/-- The op word of a later phase. -/
def Host.readPhaseWord (h : Host) (d : Device) (k seq : ℕ) (more : Option ℕ) : Host :=
  let op := decodeOpWord (d.opWord (seq % slots))
  h.post seq k op more (postLaterPhase c r op k (d.descriptor k))

variable (c) in
/-- The op word of the next op. -/
def Host.readOpWord (h : Host) (d : Device) (more : ℕ) : Host :=
  let seq := h.lastSeq + 1
  let op := decodeOpWord (d.opWord (seq % slots))
  h.post seq 0 op (some more) (postFirstPhase c r op (d.descriptor 0))

/-- A phase is posted. -/
def Host.finishPhase (h : Host) (seq k : ℕ) (more : Option ℕ) : Host :=
  if k = 0 then { h with thread := .scan 1 more, lastSeq := seq }
  else { h with
    thread := .scan (k + 1) more
    lastPhaseSeq := Function.update h.lastPhaseSeq k seq }

variable (c) in
/-- The next read of the progress loop, or the end of a phase that is posted. -/
def Host.poll (h : Host) (d : Device) : Option Host :=
  match h.thread with
  | .scan k more => some (if k < maxPhases then h.scanPhase d k more else h.afterPhases d more)
  | .phaseWord k seq more => some (h.readPhaseWord c r d k seq more)
  | .opWord more => some (h.readOpWord c r d more)
  | .posting seq k [] more => some (h.finishPhase seq k more)
  | _ => none

/-- The queue pairs of a rank, with another list for one of them. -/
def setWire (queue : ℕ → ℕ → List Write) (p lane : ℕ) (ws : List Write) : ℕ → ℕ → List Write :=
  Function.update queue p (Function.update (queue p) lane ws)

/-- A stripe after its next packs. -/
def rest (st : Stripe) (count : ℕ) : Stripe :=
  { st with first := st.first + count, count := st.count - count }

/-- The thread posts the next packs of a stripe. -/
def Host.postData (h : Host) (st : Stripe) (count : ℕ) : Option Host :=
  match h.thread with
  | .posting seq k todo more =>
    if st ∈ todo ∧ 0 < count ∧ count ≤ st.count then
      some { h with
        thread := .posting seq k (rest st count :: todo.erase st) more
        queue := setWire h.queue st.peer st.lane
          (h.queue st.peer st.lane ++ [.data seq k st.first count]) }
    else none
  | _ => none

variable (c) in
/-- The thread posts the flag of a stripe whose packs are all posted. -/
def Host.postFlag (h : Host) (st : Stripe) : Option Host :=
  match h.thread with
  | .posting seq k todo more =>
    if st ∈ todo ∧ st.count = 0 then
      some { h with
        thread := .posting seq k (todo.erase st) more
        queue := setWire h.queue st.peer st.lane
          (h.queue st.peer st.lane ++ [.flag seq k (flagLine c st.ns r (seq % slots) st.lane)]) }
    else none
  | _ => none

/-- One step of a rank. -/
inductive Act
  /-- The kernel starts. -/
  | launch
  | writeOpWord
  /-- The kernel rings the doorbell. -/
  | ring
  /-- The kernel sees a flag. -/
  | see (q lane : ℕ)
  /-- The kernel passes a wait. -/
  | advance
  /-- The progress thread reads, or ends a phase. -/
  | poll
  /-- The progress thread posts packs of a stripe. -/
  | postData (st : Stripe) (count : ℕ)
  /-- The progress thread posts a flag. -/
  | postFlag (st : Stripe)

/-- A step of a rank's kernel. -/
def Rank.kernelAct (s : Rank) : Act → Option Device
  | .launch => s.device.launch
  | .writeOpWord => s.device.writeOpWord P r
  | .ring => s.device.ring
  | .see q lane => s.device.see P r s.memory.flags q lane
  | .advance => s.device.advance P r
  | _ => none

variable (c) in
/-- A step of a rank's progress thread. -/
def Rank.threadAct (s : Rank) : Act → Option Host
  | .poll => s.host.poll c r s.device
  | .postData st count => s.host.postData st count
  | .postFlag st => s.host.postFlag c r st
  | _ => none

/-- A step of a rank. -/
def Rank.act (s : Rank) (a : Act) : Option Rank :=
  ((s.kernelAct P r a).map fun device => { s with device }) <|>
    (s.threadAct c r a).map fun host => { s with host }

/-- The oldest write of a queue pair leaves it. -/
def Host.deliver (h : Host) (p lane : ℕ) (w : Write) (ws : List Write) : Host :=
  { h with
    queue := setWire h.queue p lane ws
    landed := setWire h.landed p lane (h.landed p lane ++ [w]) }

/-- A write of source `q` lands in a rank's memory. -/
def Memory.receive (m : Memory) (q : ℕ) : Write → Memory
  | .data op phase first count =>
    { m with recv := Function.update m.recv q (Function.update (m.recv q) (op % slots) fun x =>
        if first ≤ x ∧ x < first + count then some (op, phase) else m.recv q (op % slots) x) }
  | .flag op _ line => { m with flags := Function.update m.flags line op }

/-- One step of the group. -/
inductive Action
  /-- A rank's kernel or progress thread. -/
  | act (r : ℕ) (a : Act)
  /-- The oldest write of a queue pair lands. -/
  | land (r p lane : ℕ)

/-- The group once the oldest write of a queue pair landed. -/
def land (σ : ℕ → Rank) (r p lane : ℕ) (w : Write) (ws : List Write) : ℕ → Rank :=
  Function.update (Function.update σ r { σ r with host := (σ r).host.deliver p lane w ws }) p
    { σ p with memory := (σ p).memory.receive r w }

/-- One step of the group. -/
def step (σ : ℕ → Rank) : Action → Option (ℕ → Rank)
  | .act r a => if r < c.world then ((σ r).act P r a).map (Function.update σ r) else none
  | .land r p lane =>
    if r < c.world ∧ p < c.world ∧ r ≠ p then
      match (σ r).host.queue p lane with
      | [] => none
      | w :: ws => some (land σ r p lane w ws)
    else none

/-- Every rank before its first op. -/
def initial : ℕ → Rank := fun _ => .initial

variable {P} {r}

/-- A step of a rank is one of its kernel or of its progress thread. -/
theorem Rank.act_cases {s t : Rank} {a : Act} (h : s.act P r a = some t) :
    (∃ d, s.kernelAct P r a = some d ∧ t = { s with device := d }) ∨
      ∃ g, s.threadAct c r a = some g ∧ t = { s with host := g } := by
  unfold Rank.act at h
  cases hk : s.kernelAct P r a with
  | some d =>
    rw [hk] at h
    exact .inl ⟨d, rfl, (Option.some.inj h).symm⟩
  | none =>
    rw [hk] at h
    obtain ⟨g, hg, ht⟩ := Option.map_eq_some_iff.mp (by simpa using h)
    exact .inr ⟨g, hg, ht.symm⟩

/-- A step of the group is one rank's step, or the oldest write of a queue pair
lands. -/
theorem step_cases {σ τ : ℕ → Rank} {a : Action} (h : step P σ a = some τ) :
    (∃ r e t, a = .act r e ∧ r < c.world ∧ (σ r).act P r e = some t ∧ τ = update σ r t) ∨
      ∃ r p lane w ws, a = .land r p lane ∧ r < c.world ∧ p < c.world ∧ r ≠ p ∧
        (σ r).host.queue p lane = w :: ws ∧ τ = land σ r p lane w ws := by
  cases a with
  | act r e =>
    simp only [step] at h
    obtain ⟨hr, h⟩ := Option.ite_none_right_eq_some.mp h
    obtain ⟨t, ht, hτ⟩ := Option.map_eq_some_iff.mp h
    exact .inl ⟨r, e, t, rfl, hr, ht, hτ.symm⟩
  | land r p lane =>
    simp only [step] at h
    obtain ⟨hg, h⟩ := Option.ite_none_right_eq_some.mp h
    split at h
    case h_1 => cases h
    case h_2 w ws hq =>
      exact .inr ⟨r, p, lane, w, ws, rfl, hg.1, hg.2.1, hg.2.2, hq, (Option.some.inj h).symm⟩

@[simp] theorem setWire_self (queue : ℕ → ℕ → List Write) (p lane : ℕ) (ws : List Write) : setWire queue p lane ws p lane = ws := by
  simp [setWire]

theorem setWire_of_ne {queue : ℕ → ℕ → List Write} {p lane p' lane' : ℕ} {ws : List Write}
    (h : ¬(p' = p ∧ lane' = lane)) : setWire queue p lane ws p' lane' = queue p' lane' := by
  rcases Nat.decEq p' p with hp | hp
  · simp [setWire, update_of_ne hp]
  subst hp
  have hl : lane' ≠ lane := fun hl => h ⟨rfl, hl⟩
  simp [setWire, update_of_ne hl]

section Land

variable {σ : ℕ → Rank} {q p lane : ℕ} {w : Write} {ws : List Write}

/-- Landing changes no kernel. -/
theorem land_device (u : ℕ) : (land σ q p lane w ws u).device = (σ u).device := by
  simp only [land]
  rcases Nat.decEq u p with hp | rfl
  · rw [update_of_ne hp]
    rcases Nat.decEq u q with hq | rfl
    · rw [update_of_ne hq]
    · rw [update_self]
  · rw [update_self]

/-- Landing changes the memory of the receiver only. -/
theorem land_memory_of_ne (hu : u ≠ p) : (land σ q p lane w ws u).memory = (σ u).memory := by
  simp only [land]
  rw [update_of_ne hu]
  rcases Nat.decEq u q with hq | rfl
  · rw [update_of_ne hq]
  · rw [update_self]

theorem land_memory : (land σ q p lane w ws p).memory = (σ p).memory.receive q w := by
  simp only [land, update_self]

/-- Landing changes the queue pairs of the sender only. -/
theorem land_host_of_ne (hu : u ≠ q) : (land σ q p lane w ws u).host = (σ u).host := by
  simp only [land]
  rcases Nat.decEq u p with hp | rfl
  · rw [update_of_ne hp, update_of_ne hu]
  · rw [update_self]

theorem land_host (hne : q ≠ p) : (land σ q p lane w ws q).host = (σ q).host.deliver p lane w ws := by
  simp only [land]
  rw [update_of_ne hne, update_self]

/-- What has landed landed before, or is the write that lands. -/
theorem mem_landed_land (hne : q ≠ p) (u v l : ℕ) (x : Write) : x ∈ (land σ q p lane w ws u).host.landed v l ↔
      x ∈ (σ u).host.landed v l ∨ u = q ∧ v = p ∧ l = lane ∧ x = w := by
  rcases Nat.decEq u q with hu | rfl
  · rw [land_host_of_ne hu]
    simp [hu]
  rw [land_host hne]
  by_cases heq : v = p ∧ l = lane
  · rw [heq.1, heq.2]
    simp [Host.deliver]
  simp only [Host.deliver, setWire_of_ne heq]
  constructor
  · exact .inl
  rintro (hx | ⟨-, hv, hl, -⟩)
  · exact hx
  · exact absurd ⟨hv, hl⟩ heq

end Land

end SparkRing.ArenaSession
