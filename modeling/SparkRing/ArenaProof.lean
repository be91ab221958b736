import SparkRing.ArenaOrder
import SparkRing.ArenaSlots
import SparkRing.OpNotes

/-!
# Delivery proofs

While it posts a phase, a progress thread may read a peer's flags and take writes
they prove delivered out of its count of unacknowledged bytes: a flag of an op proves
every write of earlier ops, and a two-shot op's second flag the first phase of its
own. What the thread remembers of its ops tells it which flag lines to trust.
-/

namespace SparkRing.ArenaProof

open TransitionSystem SequenceWord SendQueue ArenaSession ArenaPlan ArenaKernel ArenaPosting ArenaWires Function
  ArenaInvariant OpNotes

/-- A signaled work request in flight and the write it signals. -/
structure Ack where
  entry : Entry
  write : Write

/-- A proof under way: the peer, and the words of its lines read so far. -/
structure Call where
  peer : ℕ
  /-- What was read, a line that is not trusted as a sequence out of range. -/
  words : List ℕ

/-- What a progress thread holds for its proofs. -/
structure Prover where
  /-- What it remembers of its ops. -/
  notes : Notes
  /-- The newest flags of a peer that a proof last used. -/
  proofFlags : ℕ → ℕ × ℕ
  /-- Work requests in flight on the queue pair of a peer and lane, oldest first. -/
  acks : ℕ → ℕ → List Ack
  /-- Bytes of packs whose work request is retired by the flag after them. -/
  held : ℕ → ℕ → ℕ
  /-- The proof under way. -/
  call : Option Call

/-- Before the first op. -/
def Prover.initial : Prover := ⟨.initial, fun _ => (0, 0), fun _ _ => [], fun _ _ => 0, none⟩

def bytes : Write → ℕ
  | .data _ _ _ count => count * packBytes
  | .flag .. => 4

/-- A value for one queue pair. -/
def setLane {α : Type} (f : ℕ → ℕ → α) (p lane : ℕ) (a : α) : ℕ → ℕ → α :=
  Function.update f p (Function.update (f p) lane a)

theorem setLane_self (f : ℕ → ℕ → α) (a : α) : setLane f p lane a p lane = a := by
  simp [setLane]

theorem setLane_of_ne {f : ℕ → ℕ → α} {p lane p' lane' : ℕ} {a : α} (h : ¬(p' = p ∧ lane' = lane)) :
    setLane f p lane a p' lane' = f p' lane' := by
  rcases Nat.decEq p' p with hp | rfl
  · simp [setLane, update_of_ne hp]
  · have hl : lane' ≠ lane := fun hl => h ⟨rfl, hl⟩
    simp [setLane, update_of_ne hl]

/-- The entry of a signaled write of a stripe. -/
def entryOf (held : ℕ) (st : Stripe) (w : Write) : Entry where
  bytes := held + bytes w
  mark := { arena := true, ns1 := decide (st.ns = 1) }
  seq := w.op
  payload := held + match w with
    | .data .. => bytes w
    | .flag .. => 0
  requests := if held = 0 then 1 else 2

/-- A signaled write is posted. -/
def Prover.push (π : Prover) (st : Stripe) (w : Write) : Prover :=
  { π with
    acks := setLane π.acks st.peer st.lane
      (π.acks st.peer st.lane ++ [⟨entryOf (π.held st.peer st.lane) st w, w⟩])
    held := setLane π.held st.peer st.lane 0 }

/-- Packs are posted whose flag retires them. -/
def Prover.hold (π : Prover) (st : Stripe) (count : ℕ) : Prover :=
  { π with held := setLane π.held st.peer st.lane (π.held st.peer st.lane + count * packBytes) }

/-- The write of a stripe that a thread posts. -/
def stripeWrite (c : Config) (r : ℕ) (h : Host) (st : Stripe) (count : ℕ) : Write :=
  match h.thread with
  | .posting seq k _ _ =>
    if count = 0 then .flag seq k (flagLine c st.ns r (seq % slots) st.lane) else .data seq k st.first count
  | _ => .flag 0 0 0

/-- What a rank's own step changes: a first phase is noted, a write is pushed. -/
def Prover.follow (c : Config) (r : ℕ) (s : Rank) (π : Prover) : Act → Prover
  | .poll =>
    match s.host.thread with
    | .opWord _ =>
      let seq := s.host.lastSeq + 1
      { π with notes := π.notes.postFirstPhase seq (decodeOpWord (s.device.opWord (seq % slots))).code }
    | _ => π
  | .postData st count => π.push st (stripeWrite c r s.host st count)
  | .postFlag st => π.push st (stripeWrite c r s.host st 0)
  | _ => π

/-- The thread's own steps wait for the end of a proof. -/
def free (π : Prover) : Act → Bool
  | .poll | .postData .. | .postFlag .. => π.call.isNone
  | _ => true

/-- A thread that posts a phase begins a proof. -/
def Prover.begin (π : Prover) (h : Host) (p : ℕ) : Option Prover :=
  match h.thread, π.call with
  | .posting .., none => some { π with call := some ⟨p, []⟩ }
  | _, _ => none

/-- The next line of the peer is read: of both namespaces, and of both slots. -/
def Prover.read (c : Config) (π : Prover) (s : Rank) : Option Prover :=
  match π.call with
  | some ⟨p, words⟩ =>
    if words.length < 4 then
      let ns := words.length / slots
      let slot := words.length % slots
      let flag := s.memory.flags (flagLine c ns p slot 0)
      let word := if π.notes.flagLineTrusted ns slot flag then flag else s.host.lastSeq + 2
      some { π with call := some ⟨p, words ++ [word]⟩ }
    else none
  | none => none

/-- The entry of a work request after a proof. -/
def Ack.proveBy (newest0 newest1 : Option ℕ) (phase1 : Bool) (a : Ack) : Ack :=
  { a with entry := a.entry.proveBy newest0 newest1 phase1 }

/-- The end of a proof: the entries of the peer that the newest flags prove. -/
def Prover.conclude (π : Prover) (h : Host) : Option Prover :=
  match π.call with
  | some ⟨p, [a, b, x, y]⟩ =>
    let newest0 := newestFlag h.lastSeq a b
    let newest1 := newestFlag h.lastSeq x y
    let ended := { π with call := none }
    if newest0.isNone && newest1.isNone then some ended
    else
      let key0 := newest0.getD (h.lastSeq + 2)
      let key1 := newest1.getD (h.lastSeq + 2)
      if sameWord (π.proofFlags p).1 key0 && sameWord (π.proofFlags p).2 key1 then some ended
      else
        let phase1 := match newest1 with
          | some flag => π.notes.opIsTwoshot flag
          | none => false
        some { ended with
          proofFlags := Function.update π.proofFlags p (key0, key1)
          acks := Function.update π.acks p fun lane => (π.acks p lane).map (Ack.proveBy newest0 newest1 phase1) }
  | _ => none

/-- The oldest work request of a queue pair completes, after its write landed. -/
def Prover.complete (π : Prover) (h : Host) (p lane : ℕ) : Option Prover :=
  match π.acks p lane with
  | a :: rest =>
    if a.write ∈ h.landed p lane then some { π with acks := setLane π.acks p lane rest } else none
  | [] => none

/-- The group and its provers. -/
structure Group where
  ranks : ℕ → Rank
  provers : ℕ → Prover

/-- One step of a group with provers. -/
inductive ProofAction
  /-- A step of the group; posted writes are signaled. -/
  | group (a : Action)
  /-- Packs are posted whose flag retires them. -/
  | hold (r : ℕ) (st : Stripe) (count : ℕ)
  | complete (r p lane : ℕ)
  | begin (r p : ℕ)
  /-- A proof reads a line. -/
  | read (r : ℕ)
  /-- A proof ends. -/
  | conclude (r : ℕ)

variable {c : Config} (P : Program c) {count : ℕ} {g : Host} {phase1 : Bool} {a : Act} {st : Stripe} {op : Op} {α : Type} {d : Device}

/-- A step of a rank's prover alone. -/
def Group.prover (g : Group) (r : ℕ) (π : Option Prover) : Option Group :=
  π.map fun π => { g with provers := Function.update g.provers r π }

/-- One step of a group with provers. -/
def proofStep (g : Group) : ProofAction → Option Group
  | .group (.act r a) =>
    if free (g.provers r) a then
      (step P g.ranks (.act r a)).map fun ranks =>
        ⟨ranks, Function.update g.provers r ((g.provers r).follow c r (g.ranks r) a)⟩
    else none
  | .group (.land r p lane) => (step P g.ranks (.land r p lane)).map fun ranks => { g with ranks }
  | .hold r st count =>
    if (g.provers r).call.isNone then
      (step P g.ranks (.act r (.postData st count))).map fun ranks =>
        ⟨ranks, Function.update g.provers r ((g.provers r).hold st count)⟩
    else none
  | .complete r p lane => if r < c.world then g.prover r ((g.provers r).complete (g.ranks r).host p lane) else none
  | .begin r p =>
    if r < c.world ∧ p < c.world ∧ r ≠ p then g.prover r ((g.provers r).begin (g.ranks r).host p) else none
  | .read r => if r < c.world then g.prover r ((g.provers r).read c (g.ranks r)) else none
  | .conclude r => if r < c.world then g.prover r ((g.provers r).conclude (g.ranks r).host) else none

/-- Every rank before its first op. -/
def proofInitial : Group := ⟨initial, fun _ => .initial⟩

variable {P} {σ τ : ℕ → Rank} {r p k m n ns slot flag lane : ℕ}

/-- An op of the program whose flags of a namespace go to a line of a slot. -/
def noted (P : Program c) (writes : ℕ → OpCode → Bool) : ℕ → ℕ → ℕ → Bool :=
  wrote writes fun i => (P.op i).code

/-- The op indices tell the ops apart: no line that was ever noted stays unnoted for
2^64 ops. -/
def IndexFresh (P : Program c) : Prop :=
  ∀ n ns slot, ∀ writes ∈ [everyPeer, anyPeer],
    newestOp (noted P writes ns slot) (n - 1) = 0 ∨ n < newestOp (noted P writes ns slot) (n - 1) + 2 ^ 64

/-- Ops of one code have the same peers. -/
theorem peers_congr {a b : Op} (h : a.code = b.code) : peers c a = peers c b := by
  funext r k
  simp only [peers, h]

theorem ns_congr {a b : Op} (h : a.code = b.code) : ArenaPlan.ns c a = ArenaPlan.ns c b := by
  funext k
  simp only [ArenaPlan.ns, h]

theorem phases_congr {a b : Op} (h : a.code = b.code) : phases c a = phases c b := by
  simp only [phases, h]

/-- In an op that has every peer write a namespace, some phase does. -/
theorem exists_phase (hns : ns < 2) (h : everyPeer ns op.code = true) :
    ∃ k < phases c op, ArenaPlan.ns c op k = ns ∧ ∀ q, peers c op q k = peersOf c q := by
  cases hcode : op.code with
  | twoshot => exact ⟨ns, by simp only [phases, hcode]; exact hns, by simp [ArenaPlan.ns, hcode], fun q => by
      simp [peers, hcode]⟩
  | oneshot | scatter =>
    obtain rfl : ns = 0 := by simpa [everyPeer, hcode] using h
    exact ⟨0, by simp [phases, hcode], by simp [ArenaPlan.ns, hcode], fun q => by simp [peers, hcode]⟩
  | described => simp [everyPeer, hcode] at h

/-- A phase writes its namespace. -/
theorem anyPeer_of_phase (hk : k < phases c op) : anyPeer (ArenaPlan.ns c op k) op.code = true := by
  cases hcode : op.code with
  | twoshot => rfl
  | described => simp [anyPeer]
  | oneshot | scatter =>
    simp only [phases, hcode] at hk
    obtain rfl : k = 0 := by omega
    simp [ArenaPlan.ns, hcode, anyPeer, everyPeer]

/-- The op a thread posted last, or posts the first phase of. -/
def current (h : Host) : ℕ :=
  match h.thread with
  | .posting seq 0 _ _ => seq
  | _ => h.lastSeq

/-- A flag of a peer: it is near the newest op posted, and the peer rang a phase of
that op and namespace toward the rank. -/
structure Proper (P : Program c) (σ : ℕ → Rank) (r p ns flag : ℕ) : Prop where
  /-- It is not an old op's. -/
  low : (σ r).host.lastSeq < flag + 2 ^ 31
  /-- It is not far ahead. -/
  high : flag ≤ (σ r).host.lastSeq + 4
  rang : ∃ k, ArenaPlan.ns c (P.op flag) k = ns ∧ r ∈ peers c (P.op flag) p k ∧ Rang P (σ p).device flag k

theorem current_of_idle {h : Host} (hth : ∀ m k todo more, h.thread ≠ .posting m k todo more) : current h = h.lastSeq := by
  unfold current
  split
  case h_1 heq => exact absurd heq (hth _ _ _ _)
  case h_2 => rfl

theorem current_of_looks {h : Host} (hl : Looks h g) : current g = current h := by
  rw [current_of_idle hl.before, current_of_idle hl.after, hl.same]

section Trust

variable (hinv : Inv P σ) (hr : r < c.world)

include hinv hr

/-- A kernel is at most two ops ahead of its thread. -/
theorem epoch_le : (σ r).device.epoch ≤ (σ r).host.lastSeq + 2 := by
  rcases Nat.lt_or_ge (σ r).device.epoch 2 with hlt | hge
  · omega
  rcases hinv.flushed hr ((σ r).device.epoch - 1) (by omega) (by omega) 0 (phases_pos P _) with
    htaken | ⟨todo, more, hth⟩
  · have htaken' : (σ r).device.epoch - 1 ≤ (σ r).host.lastSeq := htaken
    omega
  have hok := (hinv.sender r hr).thread.ok
  rw [hth] at hok
  have hzero := hok.2.1 rfl
  omega

/-- The current op of a thread was released. -/
theorem current_le : (σ r).host.lastSeq ≤ current (σ r).host ∧ current (σ r).host ≤ (σ r).host.lastSeq + 1 ∧
    current (σ r).host ≤ (σ r).device.epoch + 1 := by
  have hs := hinv.sender r hr
  have hle := hs.thread.lastSeq_le
  have hbell := hs.kernel.doorbell_le
  unfold current
  split
  case h_1 m todo more hth =>
    have hok := hs.thread.ok
    rw [hth] at hok
    have hzero := hok.2.1 rfl
    have hrang := hok.2.2.1.le
    omega
  case h_2 => omega

variable (hp : p < c.world)

include hp

/-- An op of the past that had a peer write a line is at most the line's. -/
theorem le_flag {e : ℕ} (he : 1 ≤ e) (hle : e ≤ (σ r).device.epoch) (hk : k < phases c (P.op e)) (hpeer : p ∈ peers c (P.op e) r k) :
    e ≤ (σ r).memory.flags (flagLine c (ArenaPlan.ns c (P.op e) k) p (e % slots) 0) := by
  have hland := hinv.saw r hr e k p 0 ⟨he, hk, hpeer, c.laneCount_pos⟩ (.inl hle)
  exact hinv.newest r hr p hp e k 0 _ hland

/-- A line that shows an op was written by the peer in that op. -/
theorem rang_of_flag (hslot : slot < slots) (hflag : (σ r).memory.flags (flagLine c ns p slot 0) ≠ 0) :
    (σ r).memory.flags (flagLine c ns p slot 0) % slots = slot ∧
      ∃ k, ArenaPlan.ns c (P.op ((σ r).memory.flags (flagLine c ns p slot 0))) k = ns ∧
        r ∈ peers c (P.op ((σ r).memory.flags (flagLine c ns p slot 0))) p k ∧
        Rang P (σ p).device ((σ r).memory.flags (flagLine c ns p slot 0)) k := by
  obtain ⟨q, hq, k, lane, hland⟩ := hinv.flags r hr _ hflag
  obtain ⟨hline, hrang, hpeer, hlane⟩ := hinv.landed_flag hq hland
  obtain ⟨hns, hqp, hs, -⟩ := flagLine_inj hp hq hslot (slot_lt _) c.laneCount_pos hlane hline
  subst hqp
  exact ⟨hs.symm, k, hns.symm, hpeer, hrang⟩

/-- A trusted line shows a recent op of the peer. -/
theorem Proper.of_trusted {notes : Notes} (hne : r ≠ p) (hc : IndexFresh P) (hrec : Records (fun i => (P.op i).code) notes)
    (hindex : notes.opIndex = current (σ r).host) (hns : ns < 2) (hslot : slot < slots)
    (htrust : notes.flagLineTrusted ns slot ((σ r).memory.flags (flagLine c ns p slot 0)) = true) :
    Proper P σ r p ns ((σ r).memory.flags (flagLine c ns p slot 0)) := by
  obtain ⟨hlow, hhigh, hepoch⟩ := current_le hinv hr
  have hnear := hinv.epoch_near hp hr
  have hahead := epoch_le hinv hr
  obtain ⟨n, hn⟩ : ∃ n, n = current (σ r).host := ⟨_, rfl⟩
  rw [← hn] at hlow hhigh hepoch hindex
  obtain ⟨e, he⟩ : ∃ e, e = newestOp (noted P everyPeer ns slot) (n - 1) := ⟨_, rfl⟩
  obtain ⟨a, ha⟩ : ∃ a, a = newestOp (noted P anyPeer ns slot) (n - 1) := ⟨_, rfl⟩
  have hclear := hc n ns slot everyPeer (by simp)
  have hclear' := hc n ns slot anyPeer (by simp)
  obtain ⟨flag, hflag⟩ : ∃ flag, flag = (σ r).memory.flags (flagLine c ns p slot 0) := ⟨_, rfl⟩
  have hrang : flag ≠ 0 → flag % slots = slot ∧ ∃ k, ArenaPlan.ns c (P.op flag) k = ns ∧
      r ∈ peers c (P.op flag) p k ∧ Rang P (σ p).device flag k := hflag ▸ rang_of_flag hinv hr hp hslot
  have hbefore := newestBefore_eq (hrec.every ns slot) (hindex ▸ hclear)
  have hbefore' := newestBefore_eq (hrec.any ns slot) (hindex ▸ hclear')
  rw [← hflag] at htrust ⊢
  rw [hindex] at hbefore hbefore'
  have hle : e ≤ n - 1 := he ▸ newestOp_le
  have hle' : a ≤ n - 1 := ha ▸ newestOp_le
  -- an op of the past that wrote the line is at most the one it shows
  have hpast : ∀ i k, 1 ≤ i → i ≤ n - 1 → i % slots = slot → k < phases c (P.op i) → ArenaPlan.ns c (P.op i) k = ns →
      p ∈ peers c (P.op i) r k → i ≤ flag := by
    intro i k hi hin his hk hnsk hpeer
    have hflag' := le_flag hinv hr hp hi (by omega) hk hpeer
    rwa [hnsk, his, ← hflag] at hflag'
  have hevery : e ≠ 0 → e ≤ flag := by
    intro hne'
    have hspec := newestOp_spec (he ▸ hne')
    rw [← he] at hspec
    simp only [noted, wrote, Bool.and_eq_true, decide_eq_true_eq] at hspec
    obtain ⟨k, hk, hnsk, hpeers⟩ := exists_phase (c := c) hns hspec.2
    exact hpast e k (by omega) hle hspec.1 hk hnsk (by rw [hpeers]; exact mem_peersOf.mpr ⟨hp, hne.symm⟩)
  have hbounds : n ≤ flag + 2 ^ 31 - 1 ∧ flag ≠ 0 := by
    unfold Notes.flagLineTrusted at htrust
    simp only [hindex] at htrust
    rw [show newestBefore (notes.lineEvery ns slot) n = e from he ▸ hbefore,
      show newestBefore (notes.lineAny ns slot) n = a from ha ▸ hbefore'] at htrust
    by_cases hzero : sameIndex e 0 = true
    · rw [hzero] at htrust
      simp only [Bool.not_true, Bool.false_eq_true, if_false, Bool.and_eq_true, Bool.not_eq_true',
        sameIndex, indexModulus, beq_iff_eq, Nat.zero_mod] at htrust hzero
      obtain ⟨hword, hnone⟩ := htrust
      have hword' : flag % 2 ^ 32 ≠ 0 := by
        intro heq
        rw [sameWord_iff.mpr (show flag % 2 ^ 32 = 0 % 2 ^ 32 from heq)] at hword
        cases hword
      have hne' : flag ≠ 0 := fun heq => hword' (by rw [heq, Nat.zero_mod])
      have hge : n ≤ flag := by
        by_contra hlt
        obtain ⟨hs, k, hnsk, hpeer, hrang'⟩ := hrang hne'
        have hany : anyPeer ns (P.op flag).code = true := hnsk ▸ anyPeer_of_phase hrang'.phase
        have hnew : flag ≤ a := by
          rw [ha]
          refine le_newestOp (by omega) (by omega) ?_
          simp only [noted, wrote, hs, hany, decide_true, Bool.and_self]
        rcases hclear' with hz | hclear'
        · omega
        -- the op before the current one that may have written the line did
        have hsame : flag = e ∨ flag = a := by
          have hpos : newestOp (noted P anyPeer ns slot) (n - 1) ≠ 0 := by omega
          have hlast := newestOp_spec hpos
          rw [← ha] at hlast
          simp only [noted, wrote, Bool.and_eq_true, decide_eq_true_eq] at hlast
          have hbound : ∀ i, 1 ≤ i → i ≤ n - 1 → i % slots = slot → everyPeer ns (P.op i).code = true → i ≤ e := by
            intro i hi hin his hcode
            rw [he]
            refine le_newestOp hi hin ?_
            simp only [noted, wrote, his, hcode, decide_true, Bool.and_self]
          by_cases hcode : everyPeer ns (P.op flag).code = true
          · have hle := hbound flag (by omega) (by omega) hs hcode
            exact .inl (by have := hevery (by omega); omega)
          have hdescribed : (P.op flag).code = .described := by
            simpa [anyPeer, hcode] using hany
          by_cases hcode' : everyPeer ns (P.op a).code = true
          · have hle := hbound a (by omega) hle' hlast.1 hcode'
            exact .inl (by omega)
          have hdescribed' : (P.op a).code = (P.op flag).code := by
            rw [hdescribed]
            simpa [anyPeer, hcode'] using hlast.2
          have hk : k < phases c (P.op a) := by
            rw [phases_congr hdescribed']
            exact hrang'.phase
          have hge := hpast a k (by omega) hle' hlast.1 hk (by rw [ns_congr hdescribed', hnsk]) (by
            rw [peers_congr hdescribed']
            exact peers_symm hp hrang'.phase hpeer)
          exact .inr (by omega)
        omega
      exact ⟨by omega, hne'⟩
    · have hne' : e ≠ 0 := fun heq => hzero (by rw [heq]; rfl)
      rw [Bool.not_eq_true] at hzero
      rw [hzero, Bool.not_false, if_pos rfl] at htrust
      have hdistance := of_decide_eq_true htrust
      simp only [indexModulus] at hdistance
      rcases hclear with hz | hclear
      · exact absurd (he.trans hz) hne'
      · omega
  obtain ⟨-, k, hnsk, hpeer, hrang'⟩ := hrang hbounds.2
  have hup := hrang'.le
  exact ⟨by omega, by omega, k, hnsk, hpeer, hrang'⟩

end Trust

/-- Released phases stay released, posted writes posted and landed writes landed. -/
structure Later (P : Program c) (σ τ : ℕ → Rank) : Prop where
  /-- Kernels go on. -/
  grown : ∀ u, Grown P (σ u).device (τ u).device
  /-- Landed writes stay landed. -/
  landed : ∀ u p lane, ∀ w ∈ (σ u).host.landed p lane, w ∈ (τ u).host.landed p lane
  /-- Posted writes stay on their queue pair. -/
  wires : ∀ u p lane, ∀ w ∈ wire (σ u).host p lane, w ∈ wire (τ u).host p lane

/-- A read of the loop, or the end of a phase, posts nothing. -/
theorem poll_frame {h : Host} (ha : h.poll c r d = some g) : g.landed = h.landed ∧ g.queue = h.queue := by
  unfold Host.poll at ha
  split at ha
  case h_1 =>
    cases ha
    unfold Host.scanPhase Host.afterPhases Host.readDoorbell
    simp only
    repeat' split
    all_goals exact ⟨rfl, rfl⟩
  case h_2 =>
    cases ha
    unfold Host.readPhaseWord Host.post
    simp only
    split <;> exact ⟨rfl, rfl⟩
  case h_3 =>
    cases ha
    unfold Host.readOpWord Host.post
    simp only
    split <;> exact ⟨rfl, rfl⟩
  case h_4 =>
    cases ha
    unfold Host.finishPhase
    split <;> exact ⟨rfl, rfl⟩
  case h_5 => cases ha

/-- A write that a thread posts joins the queue pair of its stripe. -/
theorem posted_frame {s : Rank}
    (hact : a = .postData st count ∨ a = .postFlag st ∧ count = 0) (ha : s.threadAct c r a = some g) :
    ∃ seq k todo todo' more, s.host.thread = .posting seq k todo more ∧ st ∈ todo ∧ g = { s.host with
      thread := .posting seq k todo' more
      queue := setWire s.host.queue st.peer st.lane
        (s.host.queue st.peer st.lane ++ [stripeWrite c r s.host st count]) } := by
  rcases hact with rfl | ⟨rfl, rfl⟩
  · simp only [Rank.threadAct, Host.postData] at ha
    split at ha
    case h_2 => cases ha
    case h_1 seq k todo more hth =>
      obtain ⟨hg, rfl⟩ := Option.ite_some_none_eq_some.mp ha
      refine ⟨seq, k, todo, rest st count :: todo.erase st, more, hth, hg.1, ?_⟩
      simp only [stripeWrite, hth]
      rw [if_neg (by omega)]
  · simp only [Rank.threadAct, Host.postFlag] at ha
    split at ha
    case h_2 => cases ha
    case h_1 seq k todo more hth =>
      obtain ⟨hg, rfl⟩ := Option.ite_some_none_eq_some.mp ha
      refine ⟨seq, k, todo, todo.erase st, more, hth, hg.1, ?_⟩
      simp only [stripeWrite, hth, if_true]

theorem wire_posted {s : Rank}
    (hact : a = .postData st count ∨ a = .postFlag st ∧ count = 0) (ha : s.threadAct c r a = some g) (p lane : ℕ) :
    wire g p lane = if p = st.peer ∧ lane = st.lane then
      wire s.host st.peer st.lane ++ [stripeWrite c r s.host st count] else wire s.host p lane := by
  obtain ⟨seq, k, todo, todo', more, -, -, rfl⟩ := posted_frame hact ha
  exact wire_setWire ..

/-- A thread's step leaves what landed and adds to its queue pairs. -/
theorem threadAct_frame {s : Rank} (ha : s.threadAct c r a = some g) :
    g.landed = s.host.landed ∧ ∀ p lane, ∀ w ∈ wire s.host p lane, w ∈ wire g p lane := by
  have hpost : ∀ st count, a = .postData st count ∨ a = .postFlag st ∧ count = 0 → g.landed = s.host.landed ∧
      ∀ p lane, ∀ w ∈ wire s.host p lane, w ∈ wire g p lane := by
    intro st count hact
    refine ⟨?_, fun p lane w hw => ?_⟩
    · obtain ⟨seq, k, todo, todo', more, -, -, rfl⟩ := posted_frame hact ha
      rfl
    rw [wire_posted hact ha]
    split
    case isTrue heq => exact List.mem_append_left _ (heq.1 ▸ heq.2 ▸ hw)
    case isFalse => exact hw
  cases a with
  | poll =>
    obtain ⟨hlanded, hqueue⟩ := poll_frame ha
    refine ⟨hlanded, fun p lane w hw => ?_⟩
    rwa [wire, hlanded, hqueue]
  | postData st count => exact hpost st count (.inl rfl)
  | postFlag st => exact hpost st 0 (.inr ⟨rfl, rfl⟩)
  | launch | writeOpWord | ring | see | advance => cases ha

theorem step_later {a : Action} (hinv : Inv P σ) (h : step P σ a = some τ) : Later P σ τ := by
  rcases step_cases h with ⟨u, e, t, -, hu, ht, rfl⟩ | ⟨u, p, lane, w, ws, -, hu, -, hne, hq, rfl⟩
  · have hrank : Grown P (σ u).device t.device ∧ (∀ p lane, ∀ w ∈ (σ u).host.landed p lane, w ∈ t.host.landed p lane) ∧
        ∀ p lane, ∀ w ∈ wire (σ u).host p lane, w ∈ wire t.host p lane := by
      rcases Rank.act_cases ht with ⟨d, hd, rfl⟩ | ⟨g, hg, rfl⟩
      · exact ⟨((hinv.sender u hu).kernelAct hd).2, fun _ _ _ hw => hw, fun _ _ _ hw => hw⟩
      · obtain ⟨hlanded, hwire⟩ := threadAct_frame hg
        exact ⟨Grown.refl _, fun p lane w hw => hlanded ▸ hw, hwire⟩
    refine ⟨fun v => ?_, fun v => ?_, fun v => ?_⟩ <;> rcases Nat.decEq v u with hv | rfl
    · rw [update_of_ne hv]
      exact Grown.refl _
    · rw [update_self]
      exact hrank.1
    · rw [update_of_ne hv]
      exact fun _ _ _ hw => hw
    · rw [update_self]
      exact hrank.2.1
    · rw [update_of_ne hv]
      exact fun _ _ _ hw => hw
    · rw [update_self]
      exact hrank.2.2
  · refine ⟨fun v => ?_, fun v p' lane' x hx => ?_, fun v p' lane' x hx => ?_⟩
    · rw [land_device]
      exact Grown.refl _
    · exact (mem_landed_land hne v p' lane' x).mpr (.inl hx)
    rcases Nat.decEq v u with hv | rfl
    · rwa [land_host_of_ne hv]
    · rwa [land_host hne, wire_deliver hq]

/-- What holds of a work request in flight. -/
structure Signals (P : Program c) (σ : ℕ → Rank) (r p lane : ℕ) (a : Ack) : Prop where
  /-- Its write was posted on the queue pair. -/
  posted : a.write ∈ wire (σ r).host p lane
  seq : a.entry.seq = a.write.op
  /-- Its entry names the namespace. -/
  ns1 : a.entry.mark.ns1 = decide (ArenaPlan.ns c (P.op a.write.op) a.write.phase = 1)
  /-- If it is proven delivered, the flag of its stripe has landed. -/
  proven : a.entry.mark.proven = true → Landed P σ r p a.write.op a.write.phase lane

/-- What holds of a rank's prover. -/
structure ProverInv (P : Program c) (σ : ℕ → Rank) (r : ℕ) (π : Prover) : Prop where
  /-- The notes are those of the program's ops. -/
  records : Records (fun i => (P.op i).code) π.notes
  /-- They end with the current op. -/
  index : π.notes.opIndex = current (σ r).host
  /-- The work requests in flight. -/
  acks : ∀ p lane, ∀ a ∈ π.acks p lane, Signals P σ r p lane a
  /-- The peer of a proof under way. -/
  peer : ∀ call ∈ π.call, call.peer < c.world ∧ r ≠ call.peer
  /-- The thread posts a phase meanwhile. -/
  posting : ∀ call ∈ π.call, ∃ m k todo more, (σ r).host.thread = .posting m k todo more
  /-- The words it read. -/
  words : ∀ call ∈ π.call, ∀ i word, call.words[i]? = some word →
    word = (σ r).host.lastSeq + 2 ∨ Proper P σ r call.peer (i / slots) word

theorem Signals.later {a : Ack} (h : Signals P σ r p lane a) (hl : Later P σ τ) : Signals P τ r p lane a :=
  ⟨hl.wires r p lane _ h.posted, h.seq, h.ns1, fun hp => hl.landed r p lane _ (h.proven hp)⟩

/-- An entry that a proof marks has its write landed. -/
theorem Signals.proveBy {a : Ack} {newest0 newest1 : Option ℕ} (h : Signals P σ r p lane a)
    (hland : proves newest0 newest1 phase1 a.entry = true → Landed P σ r p a.write.op a.write.phase lane) :
    Signals P σ r p lane (a.proveBy newest0 newest1 phase1) := by
  unfold Ack.proveBy Entry.proveBy
  split_ifs with hn
  · rw [newlyProven, Bool.and_eq_true] at hn
    exact ⟨h.posted, h.seq, h.ns1, fun _ => hland hn.2⟩
  · exact h

theorem Proper.later (h : Proper P σ r p ns flag) (hl : Later P σ τ)
    (hlast : (τ r).host.lastSeq = (σ r).host.lastSeq) : Proper P τ r p ns flag := by
  obtain ⟨k, hns, hpeer, hrang⟩ := h.rang
  exact ⟨hlast ▸ h.low, hlast ▸ h.high, k, hns, hpeer, (hl.grown p).rang hrang⟩

/-- A step that leaves a rank's prover and thread. -/
theorem ProverInv.later {π : Prover} (h : ProverInv P σ r π) (hl : Later P σ τ)
    (hlast : (τ r).host.lastSeq = (σ r).host.lastSeq) (hth : (τ r).host.thread = (σ r).host.thread) : ProverInv P τ r π := by
  have hcurrent : current (τ r).host = current (σ r).host := by simp only [current, hlast, hth]
  refine ⟨h.records, hcurrent ▸ h.index, fun p lane a ha => (h.acks p lane a ha).later hl, h.peer, ?_, ?_⟩
  · intro call hcall
    rw [hth]
    exact h.posting call hcall
  intro call hcall i word hword
  rcases h.words call hcall i word hword with heq | hproper
  · exact .inl (hlast ▸ heq)
  · exact .inr (hproper.later hl hlast)

/-- The newest flag of a namespace that a proof found is one of the peer. -/
theorem proper_of_newest {last x y : ℕ} (hlast : last = (σ r).host.lastSeq)
    (hx : x = last + 2 ∨ Proper P σ r p ns x) (hy : y = last + 2 ∨ Proper P σ r p ns y)
    (h : newestFlag last x y = some flag) : Proper P σ r p ns flag ∧ last ≤ flag + 8 := by
  obtain ⟨hflag, hle, hge⟩ := newestFlag_cases h
  have hproper : Proper P σ r p ns flag := by
    have hout : flag ≠ last + 2 := by
      intro heq
      rw [heq, gap_of_near (by omega) (by omega)] at hle
      omega
    rcases hflag with rfl | rfl
    · exact hx.resolve_left hout
    · exact hy.resolve_left hout
  have hlow := hproper.low
  have hhigh := hproper.high
  rw [gap_of_near (by omega) (by omega)] at hge
  exact ⟨hproper, by omega⟩

/-- What the newest flags of a peer prove has landed there. -/
theorem landed_of_proves {a : Ack} {newest0 newest1 : Option ℕ} (hinv : Inv P σ) (hr : r < c.world)
    (hp : p < c.world) (hs : Signals P σ r p lane a)
    (h0 : ∀ flag, newest0 = some flag → Proper P σ r p 0 flag ∧ (σ r).host.lastSeq ≤ flag + 8)
    (h1 : ∀ flag, newest1 = some flag → Proper P σ r p 1 flag ∧ (σ r).host.lastSeq ≤ flag + 8)
    (htwo : ∀ flag, newest1 = some flag → phase1 = true → (P.op flag).code = .twoshot)
    (h : proves newest0 newest1 phase1 a.entry = true) : Landed P σ r p a.write.op a.write.phase lane := by
  have hwire := (hinv.sender r hr).wires p lane
  have hrang := hwire.rang _ hs.posted
  have hawaits : Awaits P p a.write.op a.write.phase r lane :=
    ⟨hrang.pos, hrang.phase, peers_symm hr hrang.phase (hwire.peer _ hs.posted), hwire.lane_lt _ hs.posted⟩
  have hpast : a.write.op ≤ (σ p).device.epoch → Landed P σ r p a.write.op a.write.phase lane := fun hle =>
    hinv.saw p hp _ _ _ _ hawaits (.inl hle)
  have hle := hrang.le
  have hahead := epoch_le hinv hr
  simp only [proves, Bool.or_eq_true, Bool.and_eq_true, Bool.not_eq_true'] at h
  rw [hs.seq] at h
  rcases h with h | ⟨⟨hphase1, hns1⟩, h⟩
  · cases hn : newest0 with
    | none =>
      rw [hn] at h
      cases h
    | some flag =>
      rw [hn] at h
      obtain ⟨⟨hlow, hhigh, k, -, -, hpeer⟩, hnear⟩ := h0 flag hn
      have hgap : 0 < gap flag a.write.op := of_decide_eq_true h
      have hflag := hpeer.le
      by_contra hnot
      have hgt : ¬a.write.op ≤ (σ p).device.epoch := fun hle => hnot (hpast hle)
      rw [gap_of_near (by omega) (by omega)] at hgap
      omega
  · cases hn : newest1 with
    | none =>
      rw [hn] at h
      cases h
    | some flag =>
      rw [hn] at h
      obtain ⟨⟨hlow, hhigh, k, hns, -, hpeer⟩, hnear⟩ := h1 flag hn
      have hcode := htwo flag hn hphase1
      have hflag := hpeer.le
      by_contra hnot
      have hgt : ¬a.write.op ≤ (σ p).device.epoch := fun hle => hnot (hpast hle)
      have heq : a.write.op = flag := eq_of_sameWord h (by omega) (by omega)
      have hk : k = 1 := by simpa [ArenaPlan.ns, hcode] using hns
      have hzero : a.write.phase = 0 := by
        have hphase := hrang.phase
        have hne := hs.ns1
        rw [hns1, heq] at hne
        simp only [ArenaPlan.ns, hcode] at hne
        simp only [phases, heq, hcode] at hphase
        have hne' : a.write.phase ≠ 1 := of_decide_eq_false hne.symm
        omega
      refine hnot (hinv.saw p hp _ _ _ _ hawaits ?_)
      rw [heq, hzero]
      subst hk
      exact saw_of_passed hpeer.passed

theorem ProverInv.initial : ProverInv P initial r .initial :=
  ⟨Records.initial _, rfl, fun _ _ _ ha => absurd ha (List.not_mem_nil), by simp [Prover.initial],
    by simp [Prover.initial], by simp [Prover.initial]⟩

section Steps

variable {π ρ : Prover} (h : ProverInv P σ r π)

include h

/-- A completion retires the oldest work request. -/
theorem ProverInv.complete {p lane : ℕ} (hc : π.complete (σ r).host p lane = some ρ) : ProverInv P σ r ρ := by
  unfold Prover.complete at hc
  split at hc
  case h_2 => cases hc
  case h_1 a rest hacks =>
    obtain ⟨-, rfl⟩ := Option.ite_some_none_eq_some.mp hc
    refine { h with acks := ?_ }
    intro p' lane' x hx
    by_cases heq : p' = p ∧ lane' = lane
    · obtain ⟨rfl, rfl⟩ := heq
      simp only [setLane_self] at hx
      exact h.acks _ _ x (hacks ▸ List.mem_cons_of_mem _ hx)
    · simp only [setLane_of_ne heq] at hx
      exact h.acks _ _ x hx

/-- A proof begins while a phase is posted. -/
theorem ProverInv.begin (hp : p < c.world) (hne : r ≠ p) (hc : π.begin (σ r).host p = some ρ) : ProverInv P σ r ρ := by
  unfold Prover.begin at hc
  split at hc
  case h_2 => cases hc
  case h_1 m k todo more hth _ =>
    cases hc
    refine { h with peer := ?_, posting := ?_, words := ?_ }
    · rintro call ⟨⟩
      exact ⟨hp, hne⟩
    · rintro call ⟨⟩
      exact ⟨m, k, todo, more, hth⟩
    · rintro call ⟨⟩ i word hword
      simp at hword

variable (hinv : Inv P σ) (hr : r < c.world)

include hinv hr

/-- A thread posts a signaled write. -/
theorem ProverInv.push (hact : a = .postData st count ∨ a = .postFlag st ∧ count = 0) (hfree : π.call = none)
    (hstep : step P σ (.act r a) = some τ) (ha : (σ r).threadAct c r a = some g) (hτ : (τ r).host = g) :
    ProverInv P τ r (π.push st (stripeWrite c r (σ r).host st count)) ∧ ProverInv P τ r (π.hold st count) := by
  have hl := step_later hinv hstep
  have hw := wire_posted hact ha
  obtain ⟨seq, k, todo, todo', more, hth, hst, hg⟩ := posted_frame hact ha
  have hok := (hinv.sender r hr).thread.ok
  rw [hth] at hok
  have hpart := hok.2.2.2.2.2 st hst
  have hcurrent : current (τ r).host = current (σ r).host := by
    rw [hτ, hg]
    simp only [current, hth]
    cases k <;> rfl
  have hwrite : (stripeWrite c r (σ r).host st count).op = seq ∧ (stripeWrite c r (σ r).host st count).phase = k := by
    simp only [stripeWrite, hth]
    split <;> exact ⟨rfl, rfl⟩
  have hnone : ∀ call, ¬call ∈ π.call := by simp [hfree]
  have hacks : ∀ p lane, ∀ a ∈ π.acks p lane, Signals P τ r p lane a := fun p lane a ha => (h.acks p lane a ha).later hl
  constructor
  · refine ⟨h.records, hcurrent ▸ h.index, ?_, fun call hc => absurd hc (hnone call),
      fun call hc => absurd hc (hnone call), fun call hc => absurd hc (hnone call)⟩
    intro p lane x hx
    by_cases heq : p = st.peer ∧ lane = st.lane
    · obtain ⟨rfl, rfl⟩ := heq
      simp only [Prover.push, setLane_self, List.mem_append, List.mem_singleton] at hx
      rcases hx with hx | rfl
      · exact hacks _ _ x hx
      refine ⟨?_, rfl, ?_, fun hm => absurd hm Bool.false_ne_true⟩
      · rw [hτ, hw, if_pos ⟨rfl, rfl⟩]
        exact List.mem_append_right _ (List.mem_singleton_self _)
      · simp only [entryOf, hwrite.1, hwrite.2, hpart.ns]
    · simp only [Prover.push, setLane_of_ne heq] at hx
      exact hacks p lane x hx
  · exact ⟨h.records, hcurrent ▸ h.index, hacks, fun call hc => absurd hc (hnone call),
      fun call hc => absurd hc (hnone call), fun call hc => absurd hc (hnone call)⟩

/-- A read of the loop: the first phase of an op is noted with the program's code. -/
theorem ProverInv.poll (hfree : π.call = none) (hstep : step P σ (.act r .poll) = some τ)
    (ha : (σ r).threadAct c r .poll = some g) (hτ : (τ r).host = g) : ProverInv P τ r (π.follow c r (σ r) .poll) := by
  have hl := step_later hinv hstep
  have hs := hinv.sender r hr
  have hflushed := hinv.flushed hr
  have hnone : ∀ call, ¬call ∈ π.call := by simp [hfree]
  have hacks : ∀ p lane, ∀ a ∈ π.acks p lane, Signals P τ r p lane a := fun p lane a ha => (h.acks p lane a ha).later hl
  have hquiet : current g = current (σ r).host → ProverInv P τ r π := fun heq =>
    ⟨h.records, by rw [hτ, heq, h.index], hacks, fun call hc => absurd hc (hnone call),
      fun call hc => absurd hc (hnone call), fun call hc => absurd hc (hnone call)⟩
  simp only [Rank.threadAct, Host.poll] at ha
  split at ha
  case h_1 k more hth =>
    cases ha
    simp only [Prover.follow, hth]
    refine hquiet ?_
    split
    case isTrue => exact current_of_looks (hs.thread.scanPhase hs.kernel hth).2
    case isFalse => exact current_of_looks (hs.thread.afterPhases hs.kernel hflushed hth).2
  case h_2 k m more hth =>
    cases ha
    simp only [Prover.follow, hth]
    obtain ⟨-, hstarts⟩ := hs.thread.readPhaseWord hs.kernel hflushed hr hth
    obtain ⟨more', hpost⟩ := hstarts.thread
    have hok := hs.thread.ok
    rw [hth] at hok
    refine hquiet ?_
    obtain ⟨j, rfl⟩ : ∃ j, k = j + 1 := ⟨k - 1, by have := hok.1; omega⟩
    rw [hpost, current_of_idle hstarts.before]
    rfl
  case h_3 j hth =>
    cases ha
    simp only [Prover.follow, hth]
    obtain ⟨-, hstarts⟩ := hs.thread.readOpWord hs.kernel hflushed hr hth
    obtain ⟨more', hpost⟩ := hstarts.thread
    have hindex : π.notes.opIndex = (σ r).host.lastSeq := by rw [h.index, current_of_idle hstarts.before]
    have hrecords := h.records.postFirstPhase
    rw [hindex] at hrecords
    rw [decode_opWord hs.kernel hflushed hstarts.rang hstarts.fresh]
    refine ⟨hrecords, ?_, hacks, fun call hc => absurd hc (hnone call), fun call hc => absurd hc (hnone call),
      fun call hc => absurd hc (hnone call)⟩
    rw [hτ, hpost]
    change π.notes.opIndex + 1 = _
    rw [hindex]
    rfl
  case h_4 m k more hth =>
    cases ha
    simp only [Prover.follow, hth]
    refine hquiet ?_
    unfold Host.finishPhase
    split
    case isTrue hk => simp only [current, hth, hk]
    case isFalse hk =>
      simp only [current, hth]
      split
      case h_1 heq =>
        cases heq
        exact absurd rfl hk
      case h_2 => rfl
  case h_5 => cases ha

/-- A proof reads a line: it shows a flag of the peer, or is not trusted. -/
theorem ProverInv.read (hclear : IndexFresh P) (hc : π.read c (σ r) = some ρ) : ProverInv P σ r ρ := by
  unfold Prover.read at hc
  split at hc
  case h_2 => cases hc
  case h_1 p words hcall =>
    obtain ⟨hlen, rfl⟩ := Option.ite_some_none_eq_some.mp hc
    have hmem : (⟨p, words⟩ : Call) ∈ π.call := hcall
    obtain ⟨hp, hne⟩ := h.peer _ hmem
    refine { h with peer := ?_, posting := ?_, words := ?_ }
    · rintro call ⟨⟩
      exact ⟨hp, hne⟩
    · rintro call ⟨⟩
      exact h.posting _ hmem
    rintro call ⟨⟩ i word hword
    rcases Nat.lt_or_ge i words.length with hlt | hge
    · rw [List.getElem?_append_left hlt] at hword
      exact h.words _ hmem i word hword
    rw [List.getElem?_append_right hge] at hword
    rw [List.getElem?_singleton] at hword
    obtain ⟨hi, rfl⟩ := Option.ite_some_none_eq_some.mp hword
    have hi : i = words.length := by omega
    subst hi
    split
    case isFalse => exact .inl rfl
    case isTrue htrust =>
      refine .inr (.of_trusted hinv hr hp hne hclear h.records h.index ?_ (Nat.mod_lt _ (by decide)) htrust)
      simp only [slots]
      omega

/-- A proof ends: what it proves has landed. -/
theorem ProverInv.conclude (hc : π.conclude (σ r).host = some ρ) : ProverInv P σ r ρ := by
  unfold Prover.conclude at hc
  split at hc
  case h_2 => cases hc
  case h_1 p a b x y hcall =>
    have hmem : (⟨p, [a, b, x, y]⟩ : Call) ∈ π.call := hcall
    obtain ⟨hp, hne⟩ := h.peer _ hmem
    have hwords := h.words _ hmem
    have hended : ∀ {flags acks}, (∀ p lane, ∀ a ∈ acks p lane, Signals P σ r p lane a) →
        ProverInv P σ r ⟨π.notes, flags, acks, π.held, none⟩ := fun hacks =>
      ⟨h.records, h.index, hacks, fun _ hc => absurd hc (Option.not_mem_none _),
        fun _ hc => absurd hc (Option.not_mem_none _), fun _ hc => absurd hc (Option.not_mem_none _)⟩
    simp only at hc
    split at hc
    case isTrue =>
      cases hc
      exact hended h.acks
    case isFalse =>
      split at hc
      case isTrue =>
        cases hc
        exact hended h.acks
      case isFalse =>
        cases hc
        refine hended fun p' lane ack hack => ?_
        rcases Nat.decEq p' p with hpp | rfl
        · simp only [update_of_ne hpp] at hack
          exact h.acks p' lane ack hack
        simp only [update_self, List.mem_map] at hack
        obtain ⟨old, hold, rfl⟩ := hack
        have hsignals := h.acks p' lane old hold
        refine hsignals.proveBy fun hproves => ?_
        refine landed_of_proves hinv hr hp hsignals (fun flag hf => ?_) (fun flag hf => ?_) ?_ hproves
        · exact proper_of_newest rfl (hwords 0 a rfl) (hwords 1 b rfl) hf
        · exact proper_of_newest rfl (hwords 2 x rfl) (hwords 3 y rfl) hf
        intro flag hf htwo
        rw [hf] at htwo
        obtain ⟨⟨hlow, hhigh, k, -, -, hrang⟩, hnear⟩ :=
          proper_of_newest rfl (hwords 2 x rfl) (hwords 3 y rfl) hf
        obtain ⟨hcur, hcur', -⟩ := current_le hinv hr
        have hindex := h.index
        exact h.records.opIsTwoshot hrang.pos (by omega) (by omega) htwo

end Steps

/-- A step of a prover alone. -/
inductive Proves (c : Config) (r : ℕ) (s : Rank) (π ρ : Prover) : Prop
  | complete (p lane : ℕ) (h : π.complete s.host p lane = some ρ)
  | begin (p : ℕ) (hp : p < c.world) (hne : r ≠ p) (h : π.begin s.host p = some ρ)
  /-- A proof reads a line. -/
  | read (h : π.read c s = some ρ)
  /-- A proof ends. -/
  | conclude (h : π.conclude s.host = some ρ)

/-- A step of a group with provers is a rank's step that its prover follows, a landing,
or a step of a prover alone. -/
theorem proofStep_cases {g g' : Group} {a : ProofAction} (h : proofStep P g a = some g') :
    (∃ r e τ ρ, free (g.provers r) e = true ∧ step P g.ranks (.act r e) = some τ ∧
      g' = ⟨τ, update g.provers r ρ⟩ ∧ (ρ = (g.provers r).follow c r (g.ranks r) e ∨
        ∃ st count, e = .postData st count ∧ ρ = (g.provers r).hold st count)) ∨
    (∃ r p lane τ, step P g.ranks (.land r p lane) = some τ ∧ g' = ⟨τ, g.provers⟩) ∨
    ∃ r ρ, r < c.world ∧ Proves c r (g.ranks r) (g.provers r) ρ ∧ g' = ⟨g.ranks, update g.provers r ρ⟩ := by
  have halone : ∀ {r ρ'}, r < c.world → (∀ ρ, ρ' = some ρ → Proves c r (g.ranks r) (g.provers r) ρ) →
      g.prover r ρ' = some g' → ∃ r ρ, r < c.world ∧ Proves c r (g.ranks r) (g.provers r) ρ ∧
        g' = ⟨g.ranks, update g.provers r ρ⟩ := by
    intro r ρ' hr hproves hstep
    obtain ⟨ρ, rfl, hg⟩ := Option.map_eq_some_iff.mp hstep
    exact ⟨r, ρ, hr, hproves ρ rfl, hg.symm⟩
  cases a with
  | group a =>
    cases a with
    | act r e =>
      simp only [proofStep] at h
      obtain ⟨hfree, h⟩ := Option.ite_none_right_eq_some.mp h
      obtain ⟨τ, hτ, hg⟩ := Option.map_eq_some_iff.mp h
      exact .inl ⟨r, e, τ, _, hfree, hτ, hg.symm, .inl rfl⟩
    | land r p lane =>
      obtain ⟨τ, hτ, hg⟩ := Option.map_eq_some_iff.mp h
      exact .inr (.inl ⟨r, p, lane, τ, hτ, hg.symm⟩)
  | hold r st count =>
    simp only [proofStep] at h
    obtain ⟨hfree, h⟩ := Option.ite_none_right_eq_some.mp h
    obtain ⟨τ, hτ, hg⟩ := Option.map_eq_some_iff.mp h
    exact .inl ⟨r, .postData st count, τ, _, hfree, hτ, hg.symm, .inr ⟨st, count, rfl, rfl⟩⟩
  | complete r p lane =>
    simp only [proofStep] at h
    obtain ⟨hr, h⟩ := Option.ite_none_right_eq_some.mp h
    exact .inr (.inr (halone hr (fun ρ hρ => .complete p lane hρ) h))
  | begin r p =>
    simp only [proofStep] at h
    obtain ⟨hr, h⟩ := Option.ite_none_right_eq_some.mp h
    exact .inr (.inr (halone hr.1 (fun ρ hρ => .begin p hr.2.1 hr.2.2 hρ) h))
  | read r =>
    simp only [proofStep] at h
    obtain ⟨hr, h⟩ := Option.ite_none_right_eq_some.mp h
    exact .inr (.inr (halone hr (fun ρ hρ => .read hρ) h))
  | conclude r =>
    simp only [proofStep] at h
    obtain ⟨hr, h⟩ := Option.ite_none_right_eq_some.mp h
    exact .inr (.inr (halone hr (fun ρ hρ => .conclude hρ) h))

/-- The ranks of a group with provers take the steps of a session. -/
theorem reachable_ranks {g : Group} (h : Reachable (proofStep P) Unrestricted proofInitial g) :
    Reachable (step P) Unrestricted ArenaSession.initial g.ranks := by
  refine h.invariant (fun g => Reachable (step P) Unrestricted ArenaSession.initial g.ranks) .start ?_
  intro g a g' _ hs _ ha
  rcases proofStep_cases ha with ⟨r, e, τ, ρ, -, hτ, rfl, -⟩ | ⟨r, p, lane, τ, hτ, rfl⟩ | ⟨r, ρ, -, -, rfl⟩
  · exact .next hs trivial hτ
  · exact .next hs trivial hτ
  · exact hs

/-- A rank's step that its own prover follows. -/
theorem ProverInv.act {π ρ : Prover} {e : Act} (h : ProverInv P σ r π) (hinv : Inv P σ) (hr : r < c.world)
    (hfree : free π e = true) (hstep : step P σ (.act r e) = some τ)
    (hρ : ρ = π.follow c r (σ r) e ∨ ∃ st count, e = .postData st count ∧ ρ = π.hold st count) : ProverInv P τ r ρ := by
  have hl := step_later hinv hstep
  rcases step_cases hstep with ⟨u, e', t, hact, hu, ht, rfl⟩ | ⟨u, p, lane, w, ws, hact, -⟩
  · cases hact
    rcases Rank.act_cases ht with ⟨d, hd, rfl⟩ | ⟨g, hg, rfl⟩
    · have hsame : ρ = π := by
        rcases hρ with rfl | ⟨st, count, rfl, -⟩
        · cases e with
          | poll | postData | postFlag => cases hd
          | launch | writeOpWord | ring | see | advance => rfl
        · cases hd
      rw [hsame]
      exact h.later hl (by rw [update_self]) (by rw [update_self])
    have hτ : (update σ r { σ r with host := g } r).host = g := by rw [update_self]
    cases e with
    | poll =>
      have hfree' : π.call = none := by simpa [free] using hfree
      rcases hρ with rfl | ⟨st, count, hact, -⟩
      · exact h.poll hinv hr hfree' hstep hg hτ
      · cases hact
    | postData =>
      have hfree' : π.call = none := by simpa [free] using hfree
      obtain ⟨hpush, hhold⟩ := h.push hinv hr (.inl rfl) hfree' hstep hg hτ
      rcases hρ with rfl | ⟨st', count', hact, rfl⟩
      · exact hpush
      · cases hact
        exact hhold
    | postFlag =>
      have hfree' : π.call = none := by simpa [free] using hfree
      obtain ⟨hpush, -⟩ := h.push hinv hr (.inr ⟨rfl, rfl⟩) hfree' hstep hg hτ
      rcases hρ with rfl | ⟨st', count', hact, -⟩
      · exact hpush
      · cases hact
    | launch | writeOpWord | ring | see | advance => cases hg
  · cases hact

/-- Every prover stays in order. -/
theorem reachable_proverInv {g : Group} (hf : Fresh P) (hclear : IndexFresh P)
    (h : Reachable (proofStep P) Unrestricted proofInitial g) : ∀ r < c.world, ProverInv P g.ranks r (g.provers r) := by
  refine h.invariant (fun g => ∀ r < c.world, ProverInv P g.ranks r (g.provers r)) (fun r _ => .initial) ?_
  intro g a g' hreach hprovers _ ha v hv
  have hinv := reachable_inv hf (reachable_ranks hreach)
  have hold := hprovers v hv
  rcases proofStep_cases ha with ⟨r, e, τ, ρ, hfree, hτ, rfl, hρ⟩ | ⟨r, p, lane, τ, hτ, rfl⟩ | ⟨r, ρ, hr, hproves, rfl⟩
  · rcases Nat.decEq v r with hne | rfl
    · have hsame : τ v = g.ranks v := by
        rcases step_cases hτ with ⟨u, e', t, hact, -, -, rfl⟩ | ⟨u, p, lane, w, ws, hact, -⟩
        · cases hact
          exact update_of_ne hne ..
        · cases hact
      simp only [update_of_ne hne]
      exact hold.later (step_later hinv hτ) (by rw [hsame]) (by rw [hsame])
    · simp only [update_self]
      exact hold.act hinv hv hfree hτ hρ
  · have hthread : (τ v).host.lastSeq = (g.ranks v).host.lastSeq ∧ (τ v).host.thread = (g.ranks v).host.thread := by
      rcases step_cases hτ with ⟨u, e', t, hact, -⟩ | ⟨u, p', lane', w, ws, hact, -, -, hne, -, rfl⟩
      · cases hact
      rcases Nat.decEq v u with hvu | rfl
      · rw [land_host_of_ne hvu]
        exact ⟨rfl, rfl⟩
      · rw [land_host hne]
        exact ⟨rfl, rfl⟩
    exact hold.later (step_later hinv hτ) hthread.1 hthread.2
  · rcases Nat.decEq v r with hne | rfl
    · simp only [update_of_ne hne]
      exact hold
    simp only [update_self]
    cases hproves with
    | complete p lane hc => exact hold.complete hc
    | begin p hp hne hc => exact hold.begin hp hne hc
    | read hc => exact hold.read hinv hv hclear hc
    | conclude hc => exact hold.conclude hinv hv hc

/-- A delivery proof is sound: what it marks as proven has landed. -/
def ProofSound (c : Config) (g : Group) : Prop :=
  ∀ r < c.world, ∀ p lane, ∀ a ∈ (g.provers r).acks p lane, a.entry.mark.proven = true →
    a.write ∈ (g.ranks r).host.landed p lane

/-- In every run of a program whose flag lines stay fresh, every write that a delivery
proof takes out of the unacknowledged bytes has landed. -/
theorem proofs_sound {g : Group} (hf : Fresh P) (hclear : IndexFresh P)
    (h : Reachable (proofStep P) Unrestricted proofInitial g) : ProofSound c g := by
  intro r hr p lane a ha hproven
  have hinv := reachable_inv hf (reachable_ranks h)
  have hsignals := (reachable_proverInv hf hclear h r hr).acks p lane a ha
  have hland := hsignals.proven hproven
  rcases List.mem_append.mp hsignals.posted with hlanded | hqueue
  · exact hlanded
  · exact absurd hland (hinv.queued hr hqueue).2.2

section Pair

open ArenaSlots (Stage Quiet late pairConfig play)

/-- A rank runs, posts and ends the second phase of the early op. -/
def secondPhase (r : ℕ) : List Act :=
  [.see (1 - r) 0, .advance, .poll, .poll, .postData ⟨1 - r, 0, r, 1, 1⟩ 1, .postFlag ⟨1 - r, 0, r + 1, 0, 1⟩] ++
    List.replicate 8 .poll

/-- Both ranks run the early two-shot op. -/
def earlyOp : List Action :=
  (ArenaSlots.firstPhase 0).map (.act 0) ++ (ArenaSlots.firstPhase 1).map (.act 1) ++
    List.replicate 2 (.land 0 1 0) ++ List.replicate 2 (.land 1 0 0) ++
    (secondPhase 0).map (.act 0) ++ (secondPhase 1).map (.act 1) ++
    List.replicate 2 (.land 0 1 0) ++ List.replicate 2 (.land 1 0 0) ++
    [.act 0 (.see 1 0), .act 0 .advance, .act 1 (.see 0 0), .act 1 .advance]

/-- A rank at rest after the early op. -/
def atRest (r : ℕ) (s : Rank) : Bool :=
  decide (s.device.epoch = 1) && decide (s.device.kernel = .idle) && decide (s.device.doorbell = 1) &&
    decide (s.host.lastSeq = 1) &&
    decide (∀ k < maxPhases, sameWord (s.device.phaseDoorbell k) (s.host.lastPhaseSeq k) = true) &&
    decide (s.host.lastPhaseSeq 1 = 1) && decide (∀ x ∈ s.host.postings, x.phase = 0 ∨ x.seq = 1) &&
    decide (s.host.thread = .scan 1 none) && decide (s.host.queue (1 - r) 0 = []) &&
    (s.host.landed (1 - r) 0).all (fun w => decide (w.phase = 0 ∨ w.op = 1)) &&
    decide (s.memory.flags (flagLine pairConfig 1 (1 - r) 0 0) = 0) &&
    (s.memory.recv (1 - r) 0 1).all fun v => decide (v.2 = 0)

theorem stage_of_atRest {s : Rank} (h : atRest r s = true) : Stage true r 1 .idle 1 [] s := by
  simp only [atRest, Bool.and_eq_true, decide_eq_true_eq, List.all_eq_true, Option.all_eq_true] at h
  obtain ⟨⟨⟨⟨⟨⟨⟨⟨⟨⟨⟨hepoch, hkernel⟩, hdoorbell⟩, hlast⟩, htold⟩, hlp⟩, hlater⟩, hthread⟩, hqueue⟩, hlanded⟩, hline⟩, hrecv⟩ := h
  exact ⟨hepoch, hkernel, hdoorbell, fun hne => absurd hkernel hne, hlast, htold, hlp, hlater, hthread, hqueue, hlanded,
    hline, hrecv⟩

theorem quiet_early : ∃ σ, Quiet true 1 σ := by
  obtain ⟨σ, hs, hp⟩ := Reachable.exists_of_runs (step (late true)) ArenaSession.initial earlyOp
    (fun σ => atRest 0 (σ 0) && atRest 1 (σ 1)) (by decide +kernel)
  rw [Bool.and_eq_true] at hp
  refine ⟨σ, hs, fun r hr => ?_⟩
  have hcases : r = 0 ∨ r = 1 := by omega
  rcases hcases with rfl | rfl
  · exact stage_of_atRest hp.1
  · exact stage_of_atRest hp.2

variable {s : Rank}

/-- A thread finds the late second phase due and posts its packs. -/
theorem play_second (hword : decodeOpWord (s.device.opWord (n % slots)) = ⟨.twoshot, 32⟩) (hn : n = 2 ^ 32)
    (hbell : s.device.phaseDoorbell 1 = n) (hlast : s.host.lastSeq = n) (hlp : s.host.lastPhaseSeq 1 = 1)
    (hth : s.host.thread = .scan 1 none) (hqueue : s.host.queue 1 0 = []) :
    ∃ g, play (late true) 0 s [.poll, .poll, .postData ⟨1, 0, 0, 1, 1⟩ 1] = some { s with host := g } ∧
      (∃ todo, g.thread = .posting n 1 todo none) ∧ g.lastSeq = n ∧ g.queue 1 0 = [.data n 1 0 1] ∧
      g.landed = s.host.landed := by
  obtain ⟨d, ⟨last, lp, thread, ps, q, l⟩, mem⟩ := s
  simp only at hword hbell hlast hlp hth hqueue
  subst hlast hth
  have hdue : sameWord last 1 = false := by
    rw [hn]
    decide
  have hgap : gap last last = 0 := by
    rw [gap_of_near (by omega) (by omega)]
    omega
  have hphase : postLaterPhase pairConfig 0 ⟨.twoshot, 32⟩ 1 (d.descriptor 1) = some [⟨1, 0, 0, 1, 1⟩] := by
    rfl
  refine ⟨⟨last, lp, .posting last 1 [rest ⟨1, 0, 0, 1, 1⟩ 1] none, ps ++ [⟨last, 1, ⟨.twoshot, 32⟩⟩],
    setWire q 1 0 (q 1 0 ++ [.data last 1 0 1]), l⟩, ?_, ⟨_, rfl⟩, rfl, ?_, rfl⟩
  · simp [play, ArenaSlots.play, runs, Rank.act, Rank.kernelAct, Rank.threadAct, Host.poll, maxPhases, Host.scanPhase,
      hbell, hlp, hdue, Host.before, hgap, Host.readPhaseWord, hword, hphase, Host.post, Host.postData]
  · simp [hqueue]

/-- A rank runs the late op on stale flags and posts the first phase of the next one,
its thread past the look for second phases. -/
theorem play_hurry (hs : Stage true 1 n (.waiting 0 []) (n + 1) [] s) (hn : n + 1 = 2 ^ 32)
    (hflag : s.memory.flags (flagLine pairConfig 0 0 ((n + 1) % slots) 0) = n + 1) :
    ∃ as t, play (late true) 1 s as = some t ∧ t.host.queue 0 0 = ArenaSlots.firstWrites 1 (n + 2) := by
  obtain ⟨⟨epoch, kernel, doorbell, ow, pd, ds⟩, ⟨lastSeq, lp, thread, ps, q, l⟩, mem⟩ := s
  obtain ⟨hepoch, hkernel, hdoorbell, -, hlast, htold, -, -, hthread, hqueue, -, hline, -⟩ := hs
  simp only at hepoch hkernel hdoorbell hlast htold hthread hqueue hline hflag
  subst hepoch hkernel hdoorbell hlast hthread
  refine ⟨_, _, ArenaSlots.play_append (ArenaSlots.play_append (ArenaSlots.play_append (ArenaSlots.play_append
    (ArenaSlots.play_scan _ _ _ _ _ _ _ _ _ htold) (ArenaSlots.play_finish_stale true (by decide) rfl rfl hline hn hflag))
    (ArenaSlots.play_ring ow _ ds _ mem)) (ArenaSlots.play_read _ ow _ _ ds mem ps q l (by decide)))
    (ArenaSlots.play_post _ _ _ mem _ q l), ?_⟩
  have hempty : q 0 0 = [] := hqueue
  simp [hempty, ArenaSlots.firstWrites]

/-- The late op in its second phase: rank 0 posted packs of it that have not landed,
and the other rank's flag of the next op has. -/
theorem hurried : ∃ σ, Reachable (step (late true)) Unrestricted ArenaSession.initial σ ∧
    (∃ todo, (σ 0).host.thread = .posting (2 ^ 32) 1 todo none) ∧ (σ 0).host.lastSeq = 2 ^ 32 ∧
    (σ 0).host.queue 1 0 = [.data (2 ^ 32) 1 0 1] ∧ .data (2 ^ 32) 1 0 1 ∉ (σ 0).host.landed 1 0 ∧
    (σ 0).memory.flags (flagLine pairConfig 0 1 0 0) = 2 ^ 32 ∧ (σ 0).memory.flags (flagLine pairConfig 0 1 1 0) = 2 ^ 32 + 1 := by
  obtain ⟨υ, hυ⟩ := quiet_early
  obtain ⟨υ, hυ⟩ := ArenaSlots.quiet_until hυ (fun _ => le_rfl) (show 1 ≤ 2 ^ 32 - 1 by decide) (by decide)
  obtain ⟨τ, hs, hstage⟩ := ArenaSlots.exchange hυ
  obtain ⟨hstage0, hflag0⟩ := hstage 0 (by decide)
  obtain ⟨hstage1, hflag1⟩ := hstage 1 (by decide)
  -- rank 0 rings the late second phase on stale flags and posts its packs
  obtain ⟨t, hstale, hhost, hmemory, how, hbell⟩ :
      ∃ t, play (late true) 0 (τ 0) [.see (1 - 0) 0, .advance, .see (1 - 0) 0] = some t ∧ t.host = (τ 0).host ∧
        t.memory = (τ 0).memory ∧ t.device.opWord = (τ 0).device.opWord ∧
        t.device.phaseDoorbell 1 = 2 ^ 32 - 1 + 1 := by
    refine ⟨_, ArenaSlots.play_stale true (by decide) hstage0.epoch hstage0.kernel hstage0.line (by decide) hflag0, rfl,
      rfl, rfl, ?_⟩
    simp only [update_self]
  have hword : decodeOpWord (t.device.opWord ((2 ^ 32 - 1 + 1) % slots)) = ⟨.twoshot, 32⟩ := by
    rw [how, hstage0.opWord (by rw [hstage0.kernel]; simp), ArenaSlots.late_decode]
    exact ArenaSlots.late_twoshot rfl
  obtain ⟨g, hsecond, hposting, hlast, hqueue, hlanded⟩ := play_second hword rfl hbell (by rw [hhost]; exact hstage0.lastSeq)
    (by rw [hhost]; exact hstage0.last) (by rw [hhost]; exact hstage0.thread) (by rw [hhost]; exact hstage0.queue)
  have hs0 := ArenaSlots.reachable_play (by decide) hs (ArenaSlots.play_append hstale hsecond)
  -- rank 1 does not wait for them
  have hself : update τ 0 { t with host := g } 1 = τ 1 := update_of_ne (by decide) ..
  obtain ⟨as, u, hhurry, hfirst⟩ := play_hurry hstage1 (by decide) hflag1
  have hs1 := ArenaSlots.reachable_play (by decide) hs0 (hself.symm ▸ hhurry)
  obtain ⟨υ, hυ⟩ : ∃ υ, υ = update (update τ 0 { t with host := g }) 1 u := ⟨_, rfl⟩
  rw [← hυ] at hs1
  have h0 : υ 0 = { t with host := g } := by
    rw [hυ, update_of_ne (by decide), update_self]
  have h1 : (υ 1).host.queue 0 0 = ArenaSlots.firstWrites 1 (2 ^ 32 - 1 + 2) := by
    rw [hυ, update_self]
    exact hfirst
  have hs2 := ArenaSlots.reachable_land hs1 (show 1 < 2 by decide) (show 0 < 2 by decide) (by decide) h1
  have h2 : (land υ 1 0 0 (.data (2 ^ 32 - 1 + 2) 0 (1 - 1) 1)
      [.flag (2 ^ 32 - 1 + 2) 0 (flagLine pairConfig 0 1 ((2 ^ 32 - 1 + 2) % slots) 0)] 1).host.queue 0 0 =
      [.flag (2 ^ 32 - 1 + 2) 0 (flagLine pairConfig 0 1 ((2 ^ 32 - 1 + 2) % slots) 0)] := by
    rw [land_host (by decide)]
    simp only [Host.deliver, setWire_self]
  have hs3 := ArenaSlots.reachable_land hs2 (show 1 < 2 by decide) (show 0 < 2 by decide) (by decide) h2
  refine ⟨_, hs3, ?_⟩
  rw [land_host_of_ne (by decide), land_host_of_ne (by decide), land_memory, land_memory, h0]
  refine ⟨hposting, hlast, hqueue, ?_, ?_, ?_⟩
  · rw [hlanded, hhost]
    intro hmem
    have := hstage0.landed _ hmem
    simp [Write.phase, Write.op] at this
  · simp only [Memory.receive, hmemory]
    exact hflag0
  · simp only [Memory.receive]
    exact update_self ..

end Pair

/-- First phases are posted in the order of the ops, later ones from the first on. -/
def Regular (h : Host) : Thread → Prop
  | .posting m 0 _ _ => m = h.lastSeq + 1
  | .scan k _ | .phaseWord k _ _ => 1 ≤ k
  | _ => True

/-- A prover beside a rank that completes every landed write at once and proved
nothing yet, in a group without described ops. -/
structure KeptUp (s : Rank) (π : Prover) : Prop where
  word : ∀ slot, (decodeOpWord (s.device.opWord slot)).code ≠ .described
  /-- The notes are those of some ops, none described. -/
  records : ∃ codes : ℕ → OpCode, Records codes π.notes ∧ ∀ i, codes i ≠ .described
  /-- They end with the current op. -/
  index : s.host.thread ≠ .failed → π.notes.opIndex = current s.host
  regular : Regular s.host s.host.thread
  /-- The work requests in flight are the writes that have not landed. -/
  acks : ∀ p lane, (π.acks p lane).map Ack.write = s.host.queue p lane
  /-- They are arena writes of their ops, none proven. -/
  fresh : ∀ p lane, ∀ a ∈ π.acks p lane, a.entry.mark.arena = true ∧ a.entry.mark.proven = false ∧
    a.entry.seq = a.write.op
  /-- No proof was made. -/
  flags : ∀ p, π.proofFlags p = (0, 0)
  /-- None is under way. -/
  call : π.call = none

theorem KeptUp.initial : KeptUp Rank.initial .initial where
  word _ := show (decodeOpWord 0).code ≠ .described by decide
  records := ⟨fun _ => .oneshot, Records.initial _, by simp⟩
  index _ := rfl
  regular := le_rfl
  acks _ _ := rfl
  fresh _ _ _ ha := absurd ha List.not_mem_nil
  flags _ := rfl
  call := rfl

section KeptUp

variable {s : Rank} {π : Prover} (h : KeptUp s π)

include h

/-- A step of the kernel. -/
theorem KeptUp.kernel (hn : ∀ n, (P.op n).code ≠ .described)
    (ha : s.kernelAct P r a = some d) : KeptUp { s with device := d } π := by
  refine { h with word := ?_ }
  intro slot
  cases a with
  | launch =>
    simp only [Rank.kernelAct, Device.launch] at ha
    split at ha <;> cases ha
    exact h.word slot
  | writeOpWord =>
    simp only [Rank.kernelAct, Device.writeOpWord] at ha
    split at ha <;> cases ha
    rcases Nat.decEq slot (s.device.current % slots) with hne | rfl
    · simp only [update_of_ne hne]
      exact h.word slot
    simp only [update_self]
    rw [decodeOpWord_word (P.admitted _).word]
    exact hn _
  | ring =>
    simp only [Rank.kernelAct, Device.ring] at ha
    split at ha <;> cases ha
    exact h.word slot
  | see =>
    simp only [Rank.kernelAct, Device.see] at ha
    split at ha
    · split at ha <;> cases ha
      exact h.word slot
    · cases ha
  | advance =>
    simp only [Rank.kernelAct, Device.advance] at ha
    split at ha
    · split at ha
      · split at ha <;> cases ha <;> exact h.word slot
      · cases ha
    · cases ha
  | poll | postData | postFlag => cases ha

/-- A step of the loop that posts nothing. -/
theorem KeptUp.quiet (hq : g.queue = s.host.queue)
    (hi : g.thread ≠ .failed → s.host.thread ≠ .failed ∧ current g = current s.host) (hreg : Regular g g.thread) :
    KeptUp { s with host := g } π := by
  refine { h with index := ?_, regular := hreg, acks := ?_ }
  · intro hne
    rw [(hi hne).2]
    exact h.index (hi hne).1
  intro p lane
  rw [h.acks]
  exact congrFun (congrFun hq.symm p) lane

/-- A read of the loop, or the end of a phase. -/
theorem KeptUp.poll (ha : s.threadAct c r .poll = some g) :
    KeptUp { s with host := g } (π.follow c r s .poll) := by
  have hqueue := (poll_frame ha).2
  have hreg := h.regular
  have hindex := h.index
  simp only [Rank.threadAct, Host.poll] at ha
  split at ha
  case h_1 k more hth =>
    rw [hth] at hreg hindex
    have hidle : current s.host = s.host.lastSeq := current_of_idle (by simp [hth])
    cases ha
    simp only [Prover.follow, hth]
    refine h.quiet hqueue (fun _ => ⟨by simp [hth], ?_⟩) ?_
    · rw [hidle]
      unfold Host.scanPhase Host.afterPhases Host.readDoorbell
      simp only
      repeat' split
      all_goals rfl
    unfold Host.scanPhase Host.afterPhases Host.readDoorbell
    simp only
    repeat' split
    all_goals first | exact Nat.succ_pos _ | exact hreg | trivial
  case h_2 k m more hth =>
    rw [hth] at hreg hindex
    have hidle : current s.host = s.host.lastSeq := current_of_idle (by simp [hth])
    obtain ⟨i, rfl⟩ : ∃ i, k = i + 1 := ⟨k - 1, by have hk : 1 ≤ k := hreg; omega⟩
    cases ha
    simp only [Prover.follow, hth]
    refine h.quiet hqueue (fun _ => ⟨by simp [hth], ?_⟩) ?_
    · rw [hidle]
      unfold Host.readPhaseWord Host.post
      simp only
      split <;> rfl
    unfold Host.readPhaseWord Host.post
    simp only
    split <;> trivial
  case h_3 j hth =>
    have hidle : current s.host = s.host.lastSeq := current_of_idle (by simp [hth])
    have hnotes : π.notes.opIndex = s.host.lastSeq := by rw [hindex (by simp [hth]), hidle]
    obtain ⟨codes, hrec, hcodes⟩ := h.records
    cases ha
    simp only [Prover.follow, hth]
    refine ⟨h.word, ?_, ?_, ?_, ?_, h.fresh, h.flags, h.call⟩
    · obtain ⟨code, hcode⟩ : ∃ code, code = (decodeOpWord (s.device.opWord ((s.host.lastSeq + 1) % slots))).code :=
        ⟨_, rfl⟩
      have hne : code ≠ .described := hcode ▸ h.word _
      refine ⟨update codes (s.host.lastSeq + 1) code, ?_, ?_⟩
      · have hold : Records (update codes (s.host.lastSeq + 1) code) π.notes := by
          refine hrec.congr fun i _ hi => ?_
          rw [update_of_ne (by omega)]
        have hnew := hold.postFirstPhase
        rw [hnotes, update_self] at hnew
        rw [← hcode]
        exact hnew
      intro i
      rcases Nat.decEq i (s.host.lastSeq + 1) with hi | rfl
      · rw [update_of_ne hi]
        exact hcodes i
      · rw [update_self]
        exact hne
    · intro hne
      change π.notes.opIndex + 1 = _
      rw [hnotes]
      unfold Host.readOpWord Host.post at hne ⊢
      simp only at hne ⊢
      split
      case h_1 heq =>
        rw [heq] at hne
        exact absurd rfl hne
      case h_2 => rfl
    · unfold Host.readOpWord Host.post
      simp only
      split
      · trivial
      · rfl
    · intro p lane
      rw [h.acks]
      exact congrFun (congrFun hqueue.symm p) lane
  case h_4 m k more hth =>
    have hcurrent : current s.host = if k = 0 then m else s.host.lastSeq := by
      simp only [current, hth]
      cases k <;> rfl
    cases ha
    simp only [Prover.follow, hth]
    refine h.quiet hqueue (fun _ => ⟨by simp [hth], ?_⟩) ?_
    · rw [hcurrent, current_of_idle (finishPhase_frame _ _ _ _).2.2]
      unfold Host.finishPhase
      split <;> rfl
    unfold Host.finishPhase
    split
    · exact le_rfl
    · exact Nat.succ_pos _
  case h_5 => cases ha

theorem KeptUp.posted
    (hact : a = .postData st count ∨ a = .postFlag st ∧ count = 0) (ha : s.threadAct c r a = some g) :
    KeptUp { s with host := g } (π.push st (stripeWrite c r s.host st count)) := by
  obtain ⟨seq, k, todo, todo', more, hth, -, rfl⟩ := posted_frame hact ha
  have hreg := h.regular
  have hindex := h.index (by simp [hth])
  rw [hth] at hreg
  refine ⟨h.word, h.records, ?_, ?_, ?_, ?_, h.flags, h.call⟩
  · intro _
    change π.notes.opIndex = _
    rw [hindex]
    simp only [current, hth]
    cases k <;> rfl
  · cases k with
    | zero => exact hreg
    | succ => trivial
  · intro p lane
    by_cases heq : p = st.peer ∧ lane = st.lane
    · obtain ⟨rfl, rfl⟩ := heq
      simp only [Prover.push, setLane_self, setWire_self, List.map_append, h.acks, List.map_cons, List.map_nil]
    · simp only [Prover.push, setLane_of_ne heq, setWire_of_ne heq, h.acks]
  intro p lane x hx
  by_cases heq : p = st.peer ∧ lane = st.lane
  · obtain ⟨rfl, rfl⟩ := heq
    simp only [Prover.push, setLane_self, List.mem_append, List.mem_singleton] at hx
    rcases hx with hx | rfl
    · exact h.fresh _ _ x hx
    · exact ⟨rfl, rfl, rfl⟩
  · simp only [Prover.push, setLane_of_ne heq] at hx
    exact h.fresh p lane x hx

theorem KeptUp.act {t : Rank} (hn : ∀ n, (P.op n).code ≠ .described) (ha : s.act P r a = some t) : KeptUp t (π.follow c r s a) := by
  rcases Rank.act_cases ha with ⟨d, hd, rfl⟩ | ⟨g, hg, rfl⟩
  · cases a with
    | poll | postData | postFlag => cases hd
    | launch | writeOpWord | ring | see | advance => exact h.kernel hn hd
  cases a with
  | poll => exact h.poll hg
  | postData => exact h.posted (.inl rfl) hg
  | postFlag => exact h.posted (.inr ⟨rfl, rfl⟩) hg
  | launch | writeOpWord | ring | see | advance => cases hg

/-- A write that lands completes at once. -/
theorem KeptUp.land {p lane : ℕ} {w : Write} {ws : List Write} (hq : s.host.queue p lane = w :: ws) :
    ∃ ρ, π.complete (s.host.deliver p lane w ws) p lane = some ρ ∧ KeptUp { s with host := s.host.deliver p lane w ws } ρ := by
  have hacks := h.acks p lane
  rw [hq] at hacks
  obtain ⟨a, rest, ha, hw, hrest⟩ := List.map_eq_cons_iff.mp hacks
  refine ⟨{ π with acks := setLane π.acks p lane rest }, ?_, ?_⟩
  · have hlanded : a.write ∈ (s.host.deliver p lane w ws).landed p lane := by
      simp only [Host.deliver, setWire_self, hw, List.mem_append, List.mem_singleton, or_true]
    simp only [Prover.complete, ha, if_pos hlanded]
  refine ⟨h.word, h.records, h.index, ?_, ?_, ?_, h.flags, h.call⟩
  · have hreg := h.regular
    simp only [Host.deliver]
    revert hreg
    unfold Regular
    split <;> exact id
  · intro p' lane'
    by_cases heq : p' = p ∧ lane' = lane
    · obtain ⟨rfl, rfl⟩ := heq
      simp only [Host.deliver, setLane_self, setWire_self, hrest]
    · simp only [Host.deliver, setLane_of_ne heq, setWire_of_ne heq, h.acks]
  intro p' lane' x hx
  by_cases heq : p' = p ∧ lane' = lane
  · obtain ⟨rfl, rfl⟩ := heq
    simp only [setLane_self] at hx
    exact h.fresh _ _ x (ha ▸ List.mem_cons_of_mem _ hx)
  · simp only [setLane_of_ne heq] at hx
    exact h.fresh p' lane' x hx

end KeptUp

/-- Every run of a group is one beside which its provers keep up. -/
theorem reachable_keptUp (hn : ∀ n, (P.op n).code ≠ .described) (h : Reachable (step P) Unrestricted ArenaSession.initial σ) :
    ∃ g, Reachable (proofStep P) Unrestricted proofInitial g ∧ g.ranks = σ ∧ ∀ r < c.world, KeptUp (σ r) (g.provers r) := by
  induction h with
  | start => exact ⟨proofInitial, .start, rfl, fun _ _ => .initial⟩
  | @next σ τ a hs _ ha ih =>
    obtain ⟨g, hg, rfl, hkept⟩ := ih
    rcases step_cases ha with ⟨r, e, t, rfl, hr, ht, rfl⟩ | ⟨r, p, lane, w, ws, rfl, hr, hp, hne, hq, rfl⟩
    · have hfree : free (g.provers r) e = true := by
        have hcall := (hkept r hr).call
        cases e <;> simp [free, hcall]
      refine ⟨⟨update g.ranks r t, update g.provers r ((g.provers r).follow c r (g.ranks r) e)⟩,
        .next hg (a := .group (.act r e)) trivial ?_, rfl, ?_⟩
      · simp only [proofStep, if_pos hfree, ha, Option.map_some]
      intro v hv
      rcases Nat.decEq v r with hvr | rfl
      · simp only [update_of_ne hvr]
        exact hkept v hv
      · simp only [update_self]
        exact (hkept v hv).act hn ht
    · obtain ⟨ρ, hρ, hkept'⟩ := (hkept r hr).land hq
      have hland : Reachable (proofStep P) Unrestricted proofInitial ⟨ArenaSession.land g.ranks r p lane w ws, g.provers⟩ := by
        refine .next hg (a := .group (.land r p lane)) trivial ?_
        simp only [proofStep, ha, Option.map_some]
      have hhost : (ArenaSession.land g.ranks r p lane w ws r).host = (g.ranks r).host.deliver p lane w ws :=
        land_host hne
      refine ⟨⟨ArenaSession.land g.ranks r p lane w ws, update g.provers r ρ⟩,
        .next hland (a := .complete r p lane) trivial ?_, rfl, ?_⟩
      · simp only [proofStep, if_pos hr, Group.prover, hhost, hρ, Option.map_some]
      intro v hv
      rcases Nat.decEq v r with hvr | rfl
      · simp only [update_of_ne hvr]
        have hold := hkept v hv
        have hdevice : (ArenaSession.land g.ranks r p lane w ws v).device = (g.ranks v).device := land_device v
        have hhost' : (ArenaSession.land g.ranks r p lane w ws v).host = (g.ranks v).host := land_host_of_ne hvr
        exact ⟨hdevice ▸ hold.word, hold.records, hhost' ▸ hold.index, hhost' ▸ hold.regular, hhost' ▸ hold.acks,
          hold.fresh, hold.flags, hold.call⟩
      simp only [update_self]
      have hdevice : (ArenaSession.land g.ranks v p lane w ws v).device = (g.ranks v).device := land_device v
      exact ⟨hdevice ▸ hkept'.word, hkept'.records, hhost ▸ hkept'.index, hhost ▸ hkept'.regular, hhost ▸ hkept'.acks,
        hkept'.fresh, hkept'.flags, hkept'.call⟩

/-- The flags of whole ops are trusted from the third op on. -/
theorem KeptUp.trusted {s : Rank} {π : Prover} (h : KeptUp s π) {slot : ℕ} (hslot : slot < slots)
    (hlo : 3 ≤ π.notes.opIndex) (hhi : π.notes.opIndex < 2 ^ 64) (flag : ℕ) : π.notes.flagLineTrusted 0 slot flag = true := by
  obtain ⟨codes, hrec, hcodes⟩ := h.records
  obtain ⟨n, hn⟩ : ∃ n, n = π.notes.opIndex := ⟨_, rfl⟩
  obtain ⟨e, he⟩ : ∃ e, e = newestOp (wrote everyPeer codes 0 slot) (n - 1) := ⟨_, rfl⟩
  have hle : e ≤ n - 1 := he ▸ newestOp_le
  have hge : n - 2 ≤ e := by
    obtain ⟨i, hi, hin, his⟩ : ∃ i, n - 2 ≤ i ∧ i ≤ n - 1 ∧ i % slots = slot :=
      ⟨n - 1 - (n - 1 + slots - slot) % slots, by simp only [slots]; omega, by simp only [slots]; omega,
        by simp only [slots] at hslot ⊢; omega⟩
    have hnew : i ≤ newestOp (wrote everyPeer codes 0 slot) (n - 1) := by
      refine le_newestOp (by omega) hin ?_
      simp only [wrote, his, everyPeer, hcodes i, decide_true, ne_eq, not_false_eq_true, Bool.and_self, Bool.or_true]
    omega
  have hbefore := newestBefore_eq (hrec.every 0 slot) (.inr (by omega))
  rw [← hn, ← he] at hbefore
  have hnz : sameIndex e 0 = false := by
    simp only [sameIndex, indexModulus, beq_eq_false_iff_ne, ne_eq]
    omega
  unfold Notes.flagLineTrusted
  simp only [← hn, hbefore, hnz, Bool.not_false, if_true, decide_eq_true_eq]
  simp only [indexModulus]
  omega

/-- What a proof reads of a peer's line. -/
def lineWord (c : Config) (π : Prover) (s : Rank) (p ns slot : ℕ) : ℕ :=
  if π.notes.flagLineTrusted ns slot (s.memory.flags (flagLine c ns p slot 0)) then
    s.memory.flags (flagLine c ns p slot 0)
  else s.host.lastSeq + 2

/-- A thread that posts a phase may run a proof from beginning to end. -/
theorem reachable_whole_proof {g : Group} {todo : List Stripe} {more : Option ℕ} {ρ : Prover}
    (hg : Reachable (proofStep P) Unrestricted proofInitial g) (hr : r < c.world) (hp : p < c.world) (hne : r ≠ p)
    (hth : (g.ranks r).host.thread = .posting m k todo more) (hcall : (g.provers r).call = none)
    (hρ : { g.provers r with call := some ⟨p, [lineWord c (g.provers r) (g.ranks r) p 0 0,
      lineWord c (g.provers r) (g.ranks r) p 0 1, lineWord c (g.provers r) (g.ranks r) p 1 0,
      lineWord c (g.provers r) (g.ranks r) p 1 1]⟩ }.conclude (g.ranks r).host = some ρ) :
    Reachable (proofStep P) Unrestricted proofInitial ⟨g.ranks, update g.provers r ρ⟩ := by
  obtain ⟨ranks, provers⟩ := g
  have hmore : ∀ (π : Prover) (a : ProofAction) (ρ : Prover),
      Reachable (proofStep P) Unrestricted proofInitial ⟨ranks, update provers r π⟩ →
      proofStep P ⟨ranks, update provers r π⟩ a =
        some ⟨ranks, update (update provers r π) r ρ⟩ →
      Reachable (proofStep P) Unrestricted proofInitial ⟨ranks, update provers r ρ⟩ := by
    intro π a ρ hs ha
    rw [update_idem] at ha
    exact .next hs trivial ha
  simp only at hth hcall hρ
  have hstart : proofStep P ⟨ranks, provers⟩ (.begin r p) = some
      ⟨ranks, update provers r { provers r with call := some ⟨p, []⟩ }⟩ := by
    simp only [proofStep, if_pos (And.intro hr (And.intro hp hne)), Group.prover, Prover.begin, hth, hcall, Option.map_some]
  have hread : ∀ (words : List ℕ) (ns slot : ℕ), words.length < 4 → words.length / slots = ns →
      words.length % slots = slot →
      proofStep P ⟨ranks, update provers r { provers r with call := some ⟨p, words⟩ }⟩ (.read r) =
        some ⟨ranks, update (update provers r { provers r with call := some ⟨p, words⟩ }) r
          { provers r with call := some ⟨p, words ++ [lineWord c (provers r) (ranks r) p ns slot]⟩ }⟩ := by
    rintro words ns slot hlen rfl rfl
    simp only [proofStep, if_pos hr, Group.prover, Prover.read, update_self, if_pos hlen, Option.map_some,
      lineWord]
  have hs0 := hmore _ _ _ (.next hg trivial hstart) (hread [] 0 0 (by simp) (by simp) (by simp))
  have hs1 := hmore _ _ _ hs0 (hread _ 0 1 (by simp) (by simp [slots]) (by simp [slots]))
  have hs2 := hmore _ _ _ hs1 (hread _ 1 0 (by simp) (by simp [slots]) (by simp [slots]))
  have hs3 := hmore _ _ _ hs2 (hread _ 1 1 (by simp) (by simp [slots]) (by simp [slots]))
  refine hmore _ (.conclude r) _ hs3 ?_
  simp only [proofStep, if_pos hr, Group.prover, update_self]
  simp only [List.nil_append, List.cons_append]
  rw [hρ, Option.map_some]

section Late

open ArenaSlots (late pairConfig)

/-- A flag of the op after the late one proves a write of it that has not landed. -/
theorem proofs_unsound : ∃ g, Reachable (proofStep (late true)) Unrestricted proofInitial g ∧ ¬ProofSound pairConfig g := by
  obtain ⟨σ, hs, ⟨todo, hth⟩, hlast, hqueue, hlanded, hflag0, hflag1⟩ := hurried
  obtain ⟨g, hg, hranks, hkept⟩ := reachable_keptUp (fun _ => ArenaSlots.late_not_described) hs
  have h := hkept 0 (by decide)
  obtain ⟨π, hπ⟩ : ∃ π, π = g.provers 0 := ⟨_, rfl⟩
  rw [← hπ] at h
  have hindex : π.notes.opIndex = 2 ^ 32 := by
    rw [h.index (by simp [hth])]
    simp only [current, hth, hlast]
  have hword0 : lineWord pairConfig π (σ 0) 1 0 0 = 2 ^ 32 := by
    simp only [lineWord, h.trusted (show 0 < slots by decide) (by omega) (by omega), if_true, hflag0]
  have hword1 : lineWord pairConfig π (σ 0) 1 0 1 = 2 ^ 32 + 1 := by
    simp only [lineWord, h.trusted (show 1 < slots by decide) (by omega) (by omega), if_true, hflag1]
  obtain ⟨x, hx⟩ : ∃ x, x = lineWord pairConfig π (σ 0) 1 1 0 := ⟨_, rfl⟩
  obtain ⟨y, hy⟩ : ∃ y, y = lineWord pairConfig π (σ 0) 1 1 1 := ⟨_, rfl⟩
  obtain ⟨a, ha, hwrite⟩ : ∃ a, π.acks 1 0 = [a] ∧ a.write = .data (2 ^ 32) 1 0 1 := by
    have hacks := h.acks 1 0
    rw [hqueue] at hacks
    obtain ⟨a, rest, hcons, hw, hrest⟩ := List.map_eq_cons_iff.mp hacks
    rw [List.map_eq_nil_iff.mp hrest] at hcons
    exact ⟨a, hcons, hw⟩
  obtain ⟨harena, hproven, hseq⟩ := h.fresh 1 0 a (by rw [ha]; exact List.mem_singleton.mpr rfl)
  rw [hwrite] at hseq
  have hnewest : newestFlag (2 ^ 32) (2 ^ 32) (2 ^ 32 + 1) = some (2 ^ 32 + 1) := by decide +kernel
  have hnew : ∀ newest1 phase1, newlyProven (some (2 ^ 32 + 1)) newest1 phase1 a.entry = true := by
    intro newest1 phase1
    have hgap : 0 < gap (2 ^ 32 + 1) (2 ^ 32) := by decide +kernel
    simp only [newlyProven, harena, hproven, proves, hseq, Write.op, hgap, decide_true, Bool.not_false, Bool.true_or,
      Bool.and_self]
  have hkey : sameWord (π.proofFlags 1).1 (2 ^ 32 + 1) = false := by
    rw [h.flags]
    decide +kernel
  have hconclude : ∃ ρ, { π with call := some ⟨1, [2 ^ 32, 2 ^ 32 + 1, x, y]⟩ }.conclude (σ 0).host = some ρ ∧
      ∃ e, ρ.acks 1 0 = [⟨e, .data (2 ^ 32) 1 0 1⟩] ∧ e.mark.proven = true := by
    simp only [Prover.conclude, hlast, hnewest, Option.isNone_some, Bool.false_and, Bool.false_eq_true, if_false,
      Option.getD_some, hkey]
    refine ⟨_, rfl, a.entry.prove, ?_, rfl⟩
    simp only [Function.update_self, ha, List.map_cons, List.map_nil, Ack.proveBy, Entry.proveBy, hnew, if_true, hwrite]
  obtain ⟨ρ, hρ, e, hacks, hmark⟩ := hconclude
  subst hranks hπ
  have hs' := reachable_whole_proof hg (show 0 < pairConfig.world by decide) (show 1 < pairConfig.world by decide)
    (by decide) hth h.call (by rw [hword0, hword1, ← hx, ← hy]; exact hρ)
  refine ⟨_, hs', fun hsound => hlanded ?_⟩
  have hmem := hsound 0 (by decide) 1 0 ⟨e, .data (2 ^ 32) 1 0 1⟩
  simp only [Function.update_self, hacks] at hmem
  exact hmem (List.mem_singleton.mpr rfl) hmark

end Late

section Twoshots

open ArenaOrder (twoshots twoRanks firstPhase reduce)

theorem indexFresh_twoshots : IndexFresh twoshots := by
  intro n ns slot writes hw
  rcases Nat.eq_zero_or_pos (newestOp (noted twoshots writes ns slot) (n - 1)) with hz | hpos
  · exact .inl hz
  refine .inr ?_
  have hall : ∀ i, noted twoshots writes ns slot i = decide (i % slots = slot) := by
    intro i
    have htwo : writes ns .twoshot = true := by
      simp only [List.mem_cons, List.not_mem_nil, or_false] at hw
      rcases hw with rfl | rfl <;> rfl
    simp only [noted, wrote, twoshots, htwo, Bool.and_true]
  have hspec := newestOp_spec (Nat.pos_iff_ne_zero.mp hpos)
  rw [hall, decide_eq_true_eq] at hspec
  by_contra hfar
  have hnew : newestOp (noted twoshots writes ns slot) (n - 1) + slots ≤
      newestOp (noted twoshots writes ns slot) (n - 1) := by
    refine le_newestOp (by simp only [slots]; omega) (by simp only [slots]; omega) ?_
    rw [hall, decide_eq_true_eq, Nat.add_mod_right]
    exact hspec
  simp only [slots] at hnew
  omega

/-- Rank 0 posts its second phase after rank 1, and proves its first. -/
def provingRun : List ProofAction :=
  (firstPhase 0 ++ firstPhase 1 ++ reduce 1 ++ ArenaOrder.secondPhase 1 ++ [.land 1 0 0, .land 1 0 0] ++ reduce 0 ++
    List.replicate 2 (.act 0 .poll) : List Action).map .group ++ [.begin 0 1] ++ List.replicate 4 (.read 0) ++ [.conclude 0]

/-- A proof of two writes in flight is sound. -/
theorem proofs_sound_twoshot : ∃ g, Reachable (proofStep twoshots) Unrestricted proofInitial g ∧
    (((g.provers 0).acks 1 0).map fun a => a.entry.mark.proven) = [true, true] ∧ ProofSound twoRanks g := by
  obtain ⟨g, hs, hp⟩ := Reachable.exists_of_runs (proofStep twoshots) proofInitial provingRun
    (fun g => decide ((((g.provers 0).acks 1 0).map fun a => a.entry.mark.proven) = [true, true])) (by decide +kernel)
  exact ⟨g, hs, of_decide_eq_true hp, proofs_sound ArenaOrder.fresh_twoshots indexFresh_twoshots hs⟩

end Twoshots

end SparkRing.ArenaProof
