import SparkRing.PostingWindows

/-!
# Credit and windows hold in every state

Every admission test leaves room for what it posts, a completion or a proof only
takes away, and the lanes that carry items without a window test have no forward
window. So a queue pair never has more than its credit in flight, its counter is
the sum of its unproven entries, and the payload in flight on a windowed lane
stays within its window and the ring's.
-/

namespace SparkRing.PostingBounds

open TransitionSystem SendQueue PostingWindows
open Option (bind_eq_some_iff ite_some_none_eq_some)

variable {c : Config} {s t : Thread} {peer lane device lane' link : ℕ} {stream : Stream} {e : Entry}

/-- Window of the ring on the lanes toward a peer. -/
def ringShare (c : Config) (peer : ℕ) : ℕ := if c.ringNext = some peer then c.ringWindow else 0

/-- What holds between any two steps of the thread. -/
structure ThreadInv (c : Config) (s : Thread) : Prop where
  account : ∀ device peer, Accounted (s.queue device peer)
  /-- The payload in flight on a windowed lane stays within its windows. -/
  window : ∀ peer lane, lane < c.laneCount → c.fwdWindow peer lane ≠ 0 →
    unproven Entry.payload (s.lane c peer lane).inFlight ≤ max (c.fwdWindow peer lane) (ringShare c peer)
  /-- A windowed stripe belongs to a lane. -/
  streams : ∀ stream ∈ s.streams, stream.lane < c.laneCount ∧ stream.length < 2 ^ 32
  /-- A lane write that waits for credit fits its window. -/
  waiting : ∀ w, s.waiting = some w → w.lane < c.laneCount ∧ w.bytes + 4 < 2 ^ 32 ∧
    (c.fwdWindow w.peer w.lane ≠ 0 →
      (s.lane c w.peer w.lane).unacked + w.bytes + 4 ≤ c.fwdWindow w.peer w.lane)

theorem initial_inv : ThreadInv c initial := by
  refine ⟨fun _ _ => .empty, ?_, by simp [initial], by simp [initial]⟩
  intro peer lane _ _
  simp [initial, Thread.lane, Queue.inFlight, Queue.empty, RingBuffer.toList]

theorem setQueue_self (q : Queue) : (s.setQueue device peer q).queue device peer = q := by
  simp [Thread.setQueue]

theorem setQueue_of_ne {device' peer' : ℕ} (q : Queue) (h : device' ≠ device ∨ peer' ≠ peer) :
    (s.setQueue device peer q).queue device' peer' = s.queue device' peer' := by
  by_cases hd : device' = device
  · subst hd
    have hp : peer' ≠ peer := h.resolve_left (by simp)
    simp [Thread.setQueue, hp]
  · simp [Thread.setQueue, hd]

section

variable (h : ThreadInv c s)

include h

/-- A queue pair that keeps its account and its windows may replace another. -/
theorem ThreadInv.setQueue {q : Queue} (hq : Accounted q)
    (hw : ∀ lane < c.laneCount, c.laneDevice peer lane = device → c.fwdWindow peer lane ≠ 0 →
      unproven Entry.payload q.inFlight ≤ max (c.fwdWindow peer lane) (ringShare c peer))
    (hu : s.waiting = none ∨ q.unacked ≤ (s.queue device peer).unacked) : ThreadInv c (s.setQueue device peer q) := by
  refine ⟨?_, ?_, h.streams, ?_⟩
  · intro device' peer'
    by_cases hne : device' ≠ device ∨ peer' ≠ peer
    · rw [setQueue_of_ne q hne]
      exact h.account device' peer'
    · obtain ⟨rfl, rfl⟩ : device' = device ∧ peer' = peer := by tauto
      rwa [setQueue_self]
  · intro peer' lane hl hf
    by_cases hne : c.laneDevice peer' lane ≠ device ∨ peer' ≠ peer
    · rw [Thread.lane, setQueue_of_ne q hne]
      exact h.window peer' lane hl hf
    obtain ⟨hd, rfl⟩ : c.laneDevice peer' lane = device ∧ peer' = peer := by tauto
    rw [Thread.lane, hd, setQueue_self]
    exact hw lane hl hd hf
  intro w hws
  have hws' : s.waiting = some w := hws
  obtain ⟨hl, hb, hfit⟩ := h.waiting w hws'
  refine ⟨hl, hb, fun hf => ?_⟩
  have hle : q.unacked ≤ (s.queue device peer).unacked :=
    hu.resolve_left fun hn => by simp [hn] at hws'
  have hfit' := hfit hf
  by_cases hne : c.laneDevice w.peer w.lane ≠ device ∨ w.peer ≠ peer
  · rw [Thread.lane, setQueue_of_ne q hne]
    exact hfit'
  obtain ⟨rfl, rfl⟩ : device = c.laneDevice w.peer w.lane ∧ peer = w.peer := by
    push Not at hne
    exact ⟨hne.1.symm, hne.2.symm⟩
  simp only [Thread.lane, setQueue_self] at hfit' ⊢
  omega

/-- A completion keeps the invariant. -/
theorem ThreadInv.complete (device peer : ℕ) : ThreadInv c (s.setQueue device peer (s.queue device peer).ackPop) := by
  have ha := h.account device peer
  refine h.setQueue ha.pop ?_ (.inr ?_)
  · intro lane hl hd hf
    have hwin := h.window peer lane hl hf
    rw [Thread.lane, hd] at hwin
    rw [inFlight_ackPop]
    exact (unproven_tail_le _ _).trans hwin
  · rw [ha.pop.unacked, ha.unacked, inFlight_ackPop]
    exact unproven_tail_le _ _

/-- A delivery proof keeps the invariant. -/
theorem ThreadInv.prove (peer : ℕ) (newest0 newest1 : Option ℕ) (phase1 : Bool) :
    ThreadInv c (s.fwdProve c peer newest0 newest1 phase1) := by
  suffices hloop : ∀ lanes : List ℕ, ∀ s, ThreadInv c s → ThreadInv c (lanes.foldl (fun s lane =>
      if 0 < lane ∧ c.laneDevice peer lane = c.laneDevice peer 0 then s
      else s.setQueue (c.laneDevice peer lane) peer
        ((s.lane c peer lane).prove newest0 newest1 phase1)) s) from hloop _ s h
  intro lanes
  induction lanes with
  | nil => exact fun _ hs => hs
  | cons lane lanes ih =>
    intro s hs
    refine ih _ ?_
    dsimp only
    split
    · exact hs
    have ha := hs.account (c.laneDevice peer lane) peer
    obtain ⟨hacc, -, hle⟩ := ha.proveFirst newest0 newest1 phase1 _ le_rfl
    refine hs.setQueue hacc ?_ (.inr ?_)
    · intro lane' hl hd hf
      have hwin := hs.window peer lane' hl hf
      rw [Thread.lane, hd] at hwin
      exact (hle _).trans hwin
    · rw [ha.unacked]
      exact hacc.unacked.le.trans (hle _)

/-- A work request below the credit keeps the invariant when its payload fits. -/
theorem ThreadInv.post (hwait : s.waiting = none) (hroom : s.hasCredit c peer lane = true) (hm : e.mark.proven = false) (he : e.WellFormed)
    (hfit : ∀ lane' < c.laneCount, c.laneDevice peer lane' = c.laneDevice peer lane → c.fwdWindow peer lane' ≠ 0 →
      unproven Entry.payload (s.lane c peer lane).inFlight + e.payload ≤
        max (c.fwdWindow peer lane') (ringShare c peer)) : ThreadInv c (s.post c peer lane e) := by
  have hroom' : (s.lane c peer lane).entries.count < credit - 1 := by
    simpa [Thread.hasCredit] using hroom
  have ha : Accounted (s.lane c peer lane) := h.account _ _
  refine h.setQueue (ha.push hroom' hm he) ?_ (.inl hwait)
  intro lane' hl hd hf
  rw [inFlight_ackPush ha, unproven_append, unproven_cons, unproven_nil, hm]
  simpa using hfit lane' hl hd hf

/-- A word beyond the payload is always admitted by the windows. -/
theorem ThreadInv.fits_word (hl : lane' < c.laneCount)
    (hd : c.laneDevice peer lane' = c.laneDevice peer lane) (hf : c.fwdWindow peer lane' ≠ 0) :
    unproven Entry.payload (s.lane c peer lane).inFlight + 0 ≤ max (c.fwdWindow peer lane') (ringShare c peer) := by
  have hwin := h.window peer lane' hl hf
  rwa [Thread.lane, hd] at hwin

/-- Payload that keeps the counter within a window of the lane. -/
theorem ThreadInv.fits_unacked {bytes : ℕ} (hl : lane < c.laneCount) (hb : c.fwdWindow peer lane ≠ 0 →
      (s.lane c peer lane).unacked + bytes ≤ max (c.fwdWindow peer lane) (ringShare c peer))
    (hl' : lane' < c.laneCount) (hd : c.laneDevice peer lane' = c.laneDevice peer lane)
    (hf : c.fwdWindow peer lane' ≠ 0) : unproven Entry.payload (s.lane c peer lane).inFlight + bytes ≤
      max (c.fwdWindow peer lane') (ringShare c peer) := by
  obtain rfl : lane' = lane := c.distinct peer lane' hl' lane hl hd
  have ha : Accounted (s.lane c peer lane') := h.account _ _
  have hle := unproven_payload_le _ ha.entry
  have hu := ha.unacked
  omega

end

theorem wordEntry_wellFormed : wordEntry.WellFormed := ⟨by decide, by decide, by decide, by decide⟩

variable {bytes : ℕ}

theorem payloadEntry_wellFormed (h : bytes + 4 < 2 ^ 32) : (payloadEntry bytes).WellFormed := by
  refine ⟨h, ?_, le_rfl, ?_⟩
  · simp [payloadEntry]
  · simp only [payloadEntry]
    split <;> omega

theorem chunkEntry_wellFormed (h : bytes < 2 ^ 32) : (chunkEntry bytes).WellFormed :=
  ⟨h, le_rfl, by simp [chunkEntry], by simp [chunkEntry]⟩

theorem arena_wellFormed (h : e.WellFormed) (seq : ℕ) (ns1 : Bool) : (Entry.arena e seq ns1).WellFormed :=
  ⟨h.bytes_lt, h.payload_le, h.bytes_le, h.requests_le⟩

/-- A stripe is part of its item. -/
theorem laneSplit_le (packs lanes lane : ℕ) : (laneSplit packs lanes lane).2 ≤ packs := by
  simp only [laneSplit]
  have hdiv : packs / lanes ≤ packs := Nat.div_le_self _ _
  split
  case isTrue hlt =>
    have hmod := Nat.div_add_mod packs lanes
    rcases Nat.eq_zero_or_pos lanes with rfl | hpos
    · simp at hlt ⊢
      omega
    · have hle : packs / lanes ≤ lanes * (packs / lanes) := Nat.le_mul_of_pos_left _ hpos
      omega
  case isFalse => omega

/-- An item on lanes without windows keeps the invariant: every lane has credit,
and different lanes have different queue pairs. -/
theorem ThreadInv.postItem (h : ThreadInv c s) {bytes : ℕ} (hwait : s.waiting = none)
    (hroom : s.chainRoom c peer c.laneCount = true) (hb : bytes < 2 ^ 32)
    (hnone : ∀ lane < c.laneCount, c.fwdWindow peer lane = 0) : ThreadInv c (s.postItem c peer bytes) := by
  have hlane : ∀ lane < c.laneCount, s.hasCredit c peer lane = true := by
    simpa [Thread.chainRoom] using hroom
  suffices hloop : ∀ n ≤ c.laneCount,
      ThreadInv c ((List.range n).foldl (fun s lane => s.post c peer lane
        (payloadEntry ((laneSplit (bytes / 16) c.laneCount lane).2 * 16))) s) ∧
      ((List.range n).foldl (fun s lane => s.post c peer lane
        (payloadEntry ((laneSplit (bytes / 16) c.laneCount lane).2 * 16))) s).waiting = none ∧
      ∀ lane < c.laneCount, n ≤ lane → ((List.range n).foldl (fun s lane => s.post c peer lane
        (payloadEntry ((laneSplit (bytes / 16) c.laneCount lane).2 * 16))) s).lane c peer lane =
          s.lane c peer lane from (hloop c.laneCount le_rfl).1
  intro n
  induction n with
  | zero => exact fun _ => ⟨h, hwait, fun _ _ _ => rfl⟩
  | succ n ih =>
    intro hn
    obtain ⟨hinv, hw, hsame⟩ := ih (by omega)
    rw [List.range_succ, List.foldl_append]
    simp only [List.foldl_cons, List.foldl_nil]
    have hcount := laneSplit_le (bytes / 16) c.laneCount n
    refine ⟨hinv.post hw ?_ rfl (payloadEntry_wellFormed (by omega)) ?_, hw, ?_⟩
    · rw [Thread.hasCredit, hsame n (by omega) le_rfl]
      exact hlane n (by omega)
    · intro lane' hl' _ hf
      exact absurd (hnone lane' hl') hf
    intro lane hl hle
    have hne : c.laneDevice peer lane ≠ c.laneDevice peer n := fun hd => by
      have := c.distinct peer lane hl n (by omega) hd
      omega
    rw [Thread.lane, Thread.post, setQueue_of_ne _ (.inl hne)]
    exact hsame lane hl (by omega)

/-- A windowed stripe may advance. -/
theorem ThreadInv.setStream (h : ThreadInv c s) {i : ℕ}
    (hs : stream.lane < c.laneCount ∧ stream.length < 2 ^ 32) :
    ThreadInv c { s with streams := s.streams.set i stream } := by
  refine ⟨h.account, h.window, ?_, h.waiting⟩
  intro stream' hmem
  rcases List.mem_or_eq_of_mem_set hmem with hmem | rfl
  · exact h.streams stream' hmem
  · exact hs

/-- The next chunk of a windowed stripe fits its window. -/
theorem streamBytes_fits (h : s.streamBytes c stream = some bytes) :
    (s.lane c stream.peer stream.lane).unacked + bytes ≤ c.fwdWindow stream.peer stream.lane ∧ bytes ≤ stream.length := by
  unfold Thread.streamBytes at h
  dsimp only at h
  split at h
  case isTrue hover =>
    by_cases hlt : (s.lane c stream.peer stream.lane).unacked < c.fwdWindow stream.peer stream.lane
    · rw [if_pos hlt] at h
      split at h
      case isTrue => cases h
      case isFalse =>
        cases h
        omega
    · simp [hlt, fwdMinPiece] at h
  case isFalse hfit =>
    cases h
    omega

/-- Lanes toward a chain neighbor have no forward window. -/
theorem chainOut_direct {stream : ℕ} (h : c.chainOut stream = some peer) : ∀ lane < c.laneCount, c.fwdWindow peer lane = 0 := by
  unfold Config.chainOut at h
  split at h
  · exact c.chainDirect peer (.inr h)
  · exact c.chainDirect peer (.inr h)
  · exact c.chainDirect peer (.inl h)
  · exact c.chainDirect peer (.inl h)
  · cases h

/-- A link that is not windowed runs over lanes without a forward window. -/
theorem linkOut_direct (h : c.linkOut link = some peer) (hw : c.windowed link = false) :
    ∀ lane < c.laneCount, c.fwdWindow peer lane = 0 := by
  have hring : 2 ≤ link → c.ringWindow = 0 := by
    intro hl
    simpa [Config.windowed, h, hl] using hw
  unfold Config.linkOut at h
  split at h
  · exact c.chainDirect peer (.inr h)
  · exact c.chainDirect peer (.inl h)
  · exact c.ringDirect (hring (by omega)) peer h
  · exact c.ringDirect (hring (by omega)) peer h
  · cases h

/-- A windowed link leads to the ring neighbor. -/
theorem linkOut_windowed (h : c.linkOut link = some peer) (hw : c.windowed link = true) : c.ringNext = some peer := by
  have hl : 2 ≤ link := by
    simp only [Config.windowed, Bool.and_eq_true, decide_eq_true_eq] at hw
    exact hw.1.1
  unfold Config.linkOut at h
  split at h
  · omega
  · omega
  · exact h
  · exact h
  · cases h

theorem hasCredit_of_chainRoom (h : s.chainRoom c peer 1 = true) : s.hasCredit c peer 0 = true := by
  simpa [Thread.chainRoom] using h

/-- Every step of the thread keeps the invariant. -/
theorem step_inv {e : Event} (h : ThreadInv c s) (hstep : step c s e = some t) : ThreadInv c t := by
  have hword : ∀ {peer lane : ℕ}, s.waiting = none → s.hasCredit c peer lane = true →
      ThreadInv c (s.post c peer lane wordEntry) := fun hw hroom =>
    h.post hw hroom rfl wordEntry_wellFormed fun _ hl hd hf => h.fits_word hl hd hf
  unfold step at hstep
  split at hstep
  case h_1 device peer =>
    cases hstep
    exact h.complete device peer
  case h_2 w hwait =>
    obtain ⟨hroom, rfl⟩ := ite_some_none_eq_some.mp hstep
    obtain ⟨hl, hb, hfit⟩ := h.waiting w hwait
    have hnow : ThreadInv c { s with waiting := none } := ⟨h.account, h.window, h.streams, by simp⟩
    have hbytes : c.fwdWindow w.peer w.lane ≠ 0 →
        (s.lane c w.peer w.lane).unacked + w.bytes ≤
          max (c.fwdWindow w.peer w.lane) (ringShare c w.peer) := by
      intro hf
      omega
    exact hnow.post rfl hroom rfl (arena_wellFormed (payloadEntry_wellFormed hb) w.seq w.ns1)
      fun _ hl' hd hf => hnow.fits_unacked hl hbytes hl' hd hf
  case h_3 => cases hstep
  case h_4 => cases hstep
  case h_5 peer newest0 newest1 phase1 hwait =>
    cases hstep
    exact h.prove peer newest0 newest1 phase1
  case h_6 w hwait =>
    obtain ⟨hw, rfl⟩ := ite_some_none_eq_some.mp hstep
    obtain ⟨hl, hmod, hb⟩ := hw
    unfold Thread.laneWrite
    dsimp only
    split
    case isTrue hover =>
      refine ⟨h.account, h.window, ?_, h.waiting⟩
      intro stream hmem
      rcases List.mem_append.mp hmem with hmem | hmem
      · exact h.streams stream hmem
      · obtain rfl := List.mem_singleton.mp hmem
        exact ⟨hl, hb⟩
    case isFalse hfit =>
      refine ⟨h.account, h.window, h.streams, ?_⟩
      rintro w' ⟨⟩
      refine ⟨hl, by omega, fun hf => ?_⟩
      push Not at hfit
      show (s.lane c w.peer w.lane).unacked + w.bytes + 4 ≤ _
      omega
  case h_7 i hwait =>
    obtain ⟨stream, hget, hstep⟩ := bind_eq_some_iff.mp hstep
    obtain ⟨hguard, hstep⟩ := Option.ite_none_right_eq_some.mp hstep
    obtain ⟨bytes, hbytes, rfl⟩ := Option.map_eq_some_iff.mp hstep
    obtain ⟨hfit, hlen⟩ := streamBytes_fits hbytes
    have hstream := h.streams stream (List.mem_of_getElem? hget)
    have hwell : (Entry.arena (chunkEntry bytes) stream.seq stream.ns1).WellFormed :=
      arena_wellFormed (chunkEntry_wellFormed (by omega)) stream.seq stream.ns1
    have hpost := h.post hwait hguard.2.2 rfl hwell
      fun _ hl' hd hf => h.fits_unacked hstream.1 (fun _ => le_max_of_le_left hfit) hl' hd hf
    exact hpost.setStream hstream
  case h_8 i hwait =>
    obtain ⟨stream, hget, hstep⟩ := bind_eq_some_iff.mp hstep
    obtain ⟨hguard, rfl⟩ := ite_some_none_eq_some.mp hstep
    have hstream := h.streams stream (List.mem_of_getElem? hget)
    have hpost := h.post hwait hguard.2.2 rfl
      (arena_wellFormed wordEntry_wellFormed stream.seq stream.ns1)
      fun _ hl' hd hf => h.fits_word hl' hd hf
    exact hpost.setStream hstream
  case h_9 hwait =>
    obtain ⟨-, rfl⟩ := ite_some_none_eq_some.mp hstep
    exact ⟨h.account, h.window, by simp, h.waiting⟩
  case h_10 stream bytes hwait =>
    obtain ⟨peer, hpeer, hstep⟩ := bind_eq_some_iff.mp hstep
    obtain ⟨hguard, rfl⟩ := ite_some_none_eq_some.mp hstep
    exact h.postItem hwait hguard.1 hguard.2 (chainOut_direct hpeer)
  case h_11 stream hwait =>
    obtain ⟨peer, hpeer, hstep⟩ := bind_eq_some_iff.mp hstep
    obtain ⟨hguard, rfl⟩ := ite_some_none_eq_some.mp hstep
    exact hword hwait (hasCredit_of_chainRoom hguard)
  case h_12 link bytes hwait =>
    obtain ⟨peer, hpeer, hstep⟩ := bind_eq_some_iff.mp hstep
    obtain ⟨hguard, rfl⟩ := ite_some_none_eq_some.mp hstep
    exact h.postItem hwait hguard.2.1 hguard.2.2 (linkOut_direct hpeer hguard.1)
  case h_13 link lane bytes hwait =>
    obtain ⟨peer, hpeer, hstep⟩ := bind_eq_some_iff.mp hstep
    obtain ⟨hguard, rfl⟩ := ite_some_none_eq_some.mp hstep
    obtain ⟨hw, hl, hb, hroom, hfit⟩ := hguard
    have hring : ringShare c peer = c.ringWindow := by simp [ringShare, linkOut_windowed hpeer hw]
    refine h.post hwait hroom rfl (chunkEntry_wellFormed ?_) fun _ hl' hd hf =>
      h.fits_unacked hl (fun _ => le_max_of_le_right (hring ▸ hfit)) hl' hd hf
    simp only [linkWindowChunk] at hb
    omega
  case h_14 link lane hwait =>
    obtain ⟨peer, hpeer, hstep⟩ := bind_eq_some_iff.mp hstep
    obtain ⟨hguard, rfl⟩ := ite_some_none_eq_some.mp hstep
    exact hword hwait hguard.2.2
  case h_15 link hwait =>
    obtain ⟨peer, hpeer, hstep⟩ := bind_eq_some_iff.mp hstep
    obtain ⟨hguard, rfl⟩ := ite_some_none_eq_some.mp hstep
    exact hword hwait (hasCredit_of_chainRoom hguard)

/-- The invariant holds in every reachable state. -/
theorem reachable_inv (h : Reachable (step c) Unrestricted initial s) : ThreadInv c s :=
  h.invariant (ThreadInv c) initial_inv fun _ _ _ _ hinv _ hstep => step_inv hinv hstep

/-- In every reachable state of the thread a queue pair has at most 63 signaled
entries and 126 work requests in flight, a new entry overwrites none of them, and
its counter is the sum of the unproven ones, also between any two entries of a
delivery proof, so that taking an entry's bytes never wraps it. On a lane with a
forward window the bytes in flight exceed the larger of that window and the ring's
by the words of flags and credits only. -/
theorem posting_within_windows {c : Config} {s : Thread} (h : Reachable (step c) Unrestricted initial s) :
    (∀ device peer, (s.queue device peer).entries.count ≤ credit - 1 ∧
      ((s.queue device peer).inFlight.map Entry.requests).sum ≤ 126 ∧ 126 ≤ sendDepth ∧
      (∀ e, ((s.queue device peer).ackPush e).inFlight = (s.queue device peer).inFlight ++ [e]) ∧
      (s.queue device peer).unacked = unproven Entry.bytes (s.queue device peer).inFlight ∧
      (∀ e ∈ (s.queue device peer).inFlight, e.mark.proven = false →
        e.bytes ≤ (s.queue device peer).unacked) ∧
      ∀ newest0 newest1 phase1, ∀ n ≤ (s.queue device peer).entries.count,
        let part := (List.range n).foldl (Queue.proveAt newest0 newest1 phase1) (s.queue device peer)
        part.unacked = unproven Entry.bytes part.inFlight ∧
          ∀ e ∈ part.inFlight, e.mark.proven = false → e.bytes ≤ part.unacked) ∧
    ∀ peer lane, lane < c.laneCount → c.fwdWindow peer lane ≠ 0 →
      unproven Entry.bytes (s.lane c peer lane).inFlight ≤
        max (c.fwdWindow peer lane) (ringShare c peer) + 4 * 63 ∧
      unproven Entry.payload (s.lane c peer lane).inFlight ≤
        max (c.fwdWindow peer lane) (ringShare c peer) := by
  have hinv := reachable_inv h
  constructor
  · intro device peer
    have ha := hinv.account device peer
    have hroom := ha.room
    have hreq := requests_le _ ha.entry
    rw [Queue.length_inFlight] at hreq
    simp only [credit, sendDepth] at hroom ⊢
    refine ⟨by omega, by omega, by decide, inFlight_ackPush ha, ha.unacked, ?_, ?_⟩
    · intro e he hm
      rw [ha.unacked]
      exact bytes_le_unproven hm _ he
    intro newest0 newest1 phase1 n hn
    obtain ⟨hpart, -, -⟩ := ha.proveFirst newest0 newest1 phase1 n hn
    refine ⟨hpart.unacked, fun e he hm => ?_⟩
    rw [hpart.unacked]
    exact bytes_le_unproven hm _ he
  · intro peer lane hl hf
    have ha : Accounted (s.lane c peer lane) := hinv.account _ _
    have hroom := ha.room
    have hwin := hinv.window peer lane hl hf
    have hbytes := unproven_bytes_le _ ha.entry
    rw [Queue.length_inFlight] at hbytes
    simp only [credit, sendDepth] at hroom
    exact ⟨by omega, hwin⟩

/-- Three Sparks in a row; the lanes between the ends pass through the middle. -/
def lineRoutes : RelayQueues.Routes where
  world := 3
  lanes := 1
  queues rank peer _ :=
    if rank = 0 ∧ peer = 2 then some [(1, false, 0)]
    else if rank = 2 ∧ peer = 0 then some [(1, false, 1)]
    else some []

/-- The planned configuration of the last of them. -/
def lineConfig : Option Config :=
  Config.plan lineRoutes [0, 1, 2] 2 131072 32768 524288 (fun _ lane => lane) (fun _ _ _ _ _ h => h)
    (by decide) (by decide)

/-- A windowed stripe and a ring item toward the first rank. -/
def lineRun : List Event :=
  [.laneWrite ⟨0, 0, 1, false, 65536⟩, .streamChunk 0, .streamChunk 0, .streamFlag 0, .streamsDone,
    .linkChunk 2 0 32768, .linkFlag 2 0]

theorem posting_within_windows_line : ∃ c s, lineConfig = some c ∧ Reachable (step c) Unrestricted initial s ∧
    (s.lane c 0 0).unacked = 98312 ∧
    unproven Entry.bytes (s.lane c 0 0).inFlight ≤ max 131072 393216 + 4 * 63 := by
  have hrun : ∀ c, lineConfig = some c → (runs (step c) initial lineRun).map (fun s =>
      decide ((s.lane c 0 0).unacked = 98312)) = some true := by
    have hall : lineConfig.map (fun c => (runs (step c) initial lineRun).map fun s =>
        decide ((s.lane c 0 0).unacked = 98312)) = some (some true) := by decide +kernel
    intro c hc
    rw [hc] at hall
    exact Option.some.inj hall
  have hplan : lineConfig.map (fun c => (c.laneCount, c.fwdWindow 0 0, ringShare c 0)) =
      some (1, 131072, 393216) := by decide +kernel
  obtain ⟨c, hc, hfields⟩ := Option.map_eq_some_iff.mp hplan
  simp only [Prod.mk.injEq] at hfields
  obtain ⟨hl, hf, hr⟩ := hfields
  obtain ⟨s, hs, hu⟩ := Reachable.exists_of_runs (step c) initial lineRun _ (hrun c hc)
  have hbound := ((posting_within_windows hs).2 0 0 (by omega) (by omega)).1
  rw [hf, hr] at hbound
  exact ⟨c, s, hc, hs, of_decide_eq_true hu, hbound⟩

end SparkRing.PostingBounds
