import SparkRing.ChannelStreams

/-!
# Channels never get stuck

While neither rank fails, a message launched on both ends that is not finished leaves some
step of a kernel, a progress thread or a queue pair enabled: whatever holds a lane back,
the credit, the ready word, the window or the queue depth, the queue pairs drain first.
-/

namespace SparkRing.Channel

open SequenceWord LaunchItems TransitionSystem
open Option (ite_none_right_eq_some map_eq_none_iff map_eq_some_iff some.inj)

variable {β : Type*} {C : Config} {start k a : ℕ} {message : ℕ → List β}

/-- A queue pair without writes has room. -/
theorem Carrying.idle {l window done : ℕ} {d e : Place} {Q : Line} (h : Carrying C start message l window done d e Q)
    (hflying : Q.flying = []) (hlanded : Q.landed = []) : Q.acks.room 1 = true ∧ Q.acks.unacked = 0 ∧ done = e.item ∧ d = e := by
  have hids := h.ids
  rw [hflying, hlanded] at hids
  have hnil : Q.acks.inFlight = [] := List.map_eq_nil_iff.mp hids
  have hcount : Q.acks.ring.count = 0 := by
    rw [← Acks.length_inFlight, hnil]
    rfl
  obtain ⟨p, hp, hpath⟩ := h.landed
  have hrest := h.flying
  rw [hlanded] at hpath
  rw [hflying] at hrest
  obtain rfl := hpath
  obtain rfl := hrest
  refine ⟨?_, ?_, hp.symm, rfl⟩
  · simp only [Acks.room, hcount]
    decide
  · rw [h.accounted.unacked, hnil]
    rfl

/-- A step of a kernel, a progress thread or a queue pair, none of the host and no
failure. -/
def Action.internal : Action → Bool
  | isend _ | irecv _ | fail _ | oversize _ _ => false
  | _ => true

variable [Zero β]

/-- No rank fails. -/
def Healthy (_ : State β) (a : Action) : Prop := ∀ r, a ≠ .fail r

variable {messages : Bool → ℕ → List β} {s t : State β}

/-- Without a failure from outside no rank is poisoned. -/
theorem healthy_poison (h : Reachable (step C start messages) Healthy (initial C start messages) s) : ∀ r, s.poison r = false := by
  refine h.invariant (fun s => ∀ r, s.poison r = false) (fun _ => rfl) fun s a t hs hclear hgood hstep => ?_
  obtain ⟨d, hinv⟩ := reachable_inv hs
  cases a with
  | isend | irecv =>
    obtain rfl := some.inj hstep
    exact hclear
  | send | endSend | publish =>
    obtain ⟨S, -, rfl⟩ := map_eq_some_iff.mp hstep
    exact hclear
  | recv c b p =>
    obtain ⟨⟨R, poison⟩, hR, rfl⟩ := map_eq_some_iff.mp hstep
    have hc := hinv c
    rw [hclear !c] at hc hR
    have hpoison : poison = false := by
      simp only [Config.recv] at hR
      obtain ⟨hb, hR⟩ := ite_none_right_eq_some.mp hR
      cases hblock : (s.receiver c).block b with
      | waiting i pending =>
        rw [hblock] at hR
        dsimp only at hR
        split at hR
        case isTrue hnil =>
          have hheader := hc.reads_header hb.1 hblock (by rw [hnil]; exact List.not_mem_nil)
          rw [if_neg Bool.false_ne_true, if_neg (not_not.mpr hheader)] at hR
          exact (Prod.mk.inj (some.inj hR)).2.symm
        case isFalse =>
          obtain ⟨-, hR⟩ := ite_none_right_eq_some.mp hR
          exact (Prod.mk.inj (some.inj hR)).2.symm
      | copying i left =>
        rw [hblock] at hR
        dsimp only at hR
        split at hR
        case isTrue => exact (Prod.mk.inj (some.inj hR)).2.symm
        case isFalse =>
          obtain ⟨-, hR⟩ := ite_none_right_eq_some.mp hR
          exact (Prod.mk.inj (some.inj hR)).2.symm
      | consuming =>
        rw [hblock] at hR
        exact (Prod.mk.inj (some.inj hR)).2.symm
      | gone =>
        rw [hblock] at hR
        cases hR
    rw [hpoison]
    exact forall_channel c (by simpa using hclear c) (by simp)
  | endRecv | release =>
    obtain ⟨R, -, rfl⟩ := map_eq_some_iff.mp hstep
    exact hclear
  | readCredit | header | giveCredit =>
    obtain ⟨r, -, rfl⟩ := map_eq_some_iff.mp hstep
    exact hclear
  | piece c l | flag c l =>
    simp only [step] at hstep
    obtain ⟨-, hstep⟩ := ite_none_right_eq_some.mp hstep
    obtain ⟨r, -, rfl⟩ := map_eq_some_iff.mp hstep
    exact hclear
  | oversize c l =>
    simp only [step] at hstep
    obtain ⟨hbad, hstep⟩ := ite_none_right_eq_some.mp hstep
    obtain ⟨hl, hready, hbytes⟩ := hbad
    obtain ⟨hstaged, -⟩ := (hinv c).ready_spec hl hready
    exact absurd hbytes (Nat.not_lt.mpr ((hinv c).next_bytes hl hstaged))
  | deliver c l | complete c l =>
    simp only [step] at hstep
    obtain ⟨-, hstep⟩ := ite_none_right_eq_some.mp hstep
    split at hstep
    · cases hstep
    · obtain rfl := some.inj hstep
      exact hclear
  | fail r => exact absurd rfl (hgood r)

/-- No step of a channel is enabled, and nothing is on its queue pairs. -/
structure Stuck (C : Config) (start : ℕ) (message : ℕ → List β) (window : ℕ → ℕ) (chunk sendBlocks recvBlocks : ℕ)
    (S : Sender β) (R : Receiver β) (line : ℕ → Line) (back : Line) : Prop where
  send : ∀ b p, C.send start message sendBlocks false S b p = none
  endSend : C.endSend message sendBlocks S = none
  recv : ∀ b p, C.recv start message recvBlocks false R b p = none
  endRecv : C.endRecv message recvBlocks R = none
  readCredit : C.readCredit S line = none
  piece : ∀ l < C.lanes, C.piece (window l) chunk S (line l) l = none
  header : C.postHeader S (line 0) = none
  flag : ∀ l < C.lanes, C.postFlag S (line l) l = none
  publish : C.publish S = none
  release : C.release R = none
  giveCredit : giveCredit R back = none
  flying : ∀ l < C.lanes, (line l).flying = []
  landed : ∀ l < C.lanes, (line l).landed = []

variable {d' : Bool → ℕ → Place} {window : ℕ → ℕ} {chunk sendBlocks recvBlocks : ℕ} {S : Sender β} {R : Receiver β}
  {line : ℕ → Line} {back : Line} {d : ℕ → Place} {l b i : ℕ}

namespace Stuck

section

variable (hs : Stuck C start message window chunk sendBlocks recvBlocks S R line back)

include hs

section

variable (h : ChannelInv C start message window sendBlocks recvBlocks S R line [] false false d)

include h

/-- Nothing is on its way: lanes completed what they posted, and the sending rank knows
what is released. -/
theorem settled (hroom : back.acks.room 1 = true) :
    S.creditSeen = R.released ∧ ∀ l < C.lanes, (d l).item = S.laneItem l ∧ S.laneDone l = S.laneItem l := by
  obtain ⟨hseen, hreleased, hitem⟩ := h.seen_le_item C.lanesValid.1
  have hcap := h.posting.item_le 0 C.lanesValid.1
  have hslots := C.slotsValid.2.1
  have hcredits : S.credit = R.credited := h.credits
  have hcredited := h.credited_le
  have hle := h.seen_le
  constructor
  · have hgive := hs.giveCredit
    simp only [Channel.giveCredit] at hgive
    split at hgive
    case isTrue => cases hgive
    case isFalse hword =>
      rw [not_and_or] at hword
      have hword := hword.resolve_right (not_not.mpr hroom)
      rw [Bool.not_eq_false] at hword
      have heq := eq_of_sameWord hword (by omega) (by omega)
      have hread := hs.readCredit
      simp only [Config.readCredit] at hread
      split at hread
      case isFalse => cases hread
      case isTrue hword' =>
        have heq' := eq_of_sameWord hword' (by omega) (by omega)
        omega
  · intro l hl
    obtain ⟨-, -, hdone, hplace⟩ := (h.carrying l hl).idle (hs.flying l hl) (hs.landed l hl)
    exact ⟨congrArg Place.item hplace, hdone⟩

/-- The next item to release is not consumed. -/
theorem not_consumed : ¬C.Consumed R R.released := by
  intro hconsumed
  have hrelease := hs.release
  simp only [Config.release] at hrelease
  split at hrelease
  case isTrue => cases hrelease
  case isFalse hword =>
    refine hword ?_
    have hstart := h.taking.start_le
    have hlane := C.lanesValid.1
    have hcap := h.landing.place_le 0 hlane
    simp only [Config.Consumed] at hconsumed
    rcases h.taking.consumed_form (C.index R.released) with hform | ⟨g, hg, hidx, hform⟩
    · omega
    have hdelivered := h.taking.consumed_delivered g hg (by
      simp only [Config.Consumed]
      rw [hidx, hform]) 0 hlane
    have heq : g = R.released := Config.eq_of_index hidx (by omega) (by omega)
    rw [hform, heq]
    exact sameWord_self _

/-- A lane whose next item is staged waits for its slot. -/
theorem blocked (hwindow : ∀ l < C.lanes, window l ≠ 0 → 0 < chunk ∧ chunk ≤ window l) (hl : l < C.lanes)
    (hstaged : C.Staged S (S.laneItem l)) : S.creditSeen + C.slots ≤ S.laneItem l := by
  by_contra hfree
  have hready := h.ready_of_staged hl hstaged (Nat.not_le.mp hfree)
  have hopen : C.laneOpen S l = true := by
    rw [Config.laneOpen, hready, Bool.true_and, decide_eq_true_eq]
    exact h.next_bytes hl hstaged
  obtain ⟨hroom, hunacked, -, -⟩ := (h.carrying l hl).idle (hs.flying l hl) (hs.landed l hl)
  rcases Nat.lt_or_ge (S.laneBytes l) (C.nextStripe S l).2 with hlt | hge
  · have hpiece := hs.piece l hl
    simp only [Config.piece] at hpiece
    rw [if_pos ⟨hopen, hlt, hroom⟩, map_eq_none_iff, hunacked] at hpiece
    simp only [pieceLength] at hpiece
    split at hpiece
    case isTrue => cases hpiece
    case isFalse hw =>
      obtain ⟨hpos, hle⟩ := hwindow l hl hw
      rw [if_pos (Nat.pos_of_ne_zero hw), Nat.sub_zero, if_neg] at hpiece
      · cases hpiece
      · split <;> omega
  · by_cases hheader : l = 0 ∧ S.laneHeader 0 = false
    · obtain ⟨rfl, hheader⟩ := hheader
      have hpost := hs.header
      simp only [Config.postHeader] at hpost
      rw [if_pos ⟨hopen, hge, hheader, hroom⟩] at hpost
      cases hpost
    have hpost := hs.flag l hl
    simp only [Config.postFlag] at hpost
    have hheaded : l = 0 → S.laneHeader 0 = true := by
      intro hl0
      by_contra hclear
      exact hheader ⟨hl0, Bool.eq_false_of_not_eq_true hclear⟩
    rw [if_pos ⟨hopen, hge, hheaded, hroom⟩] at hpost
    cases hpost

/-- A block of the running send launch waits for a slot that is not sent. -/
theorem send_waits (hblocks : sendBlocks ≤ 64) (hrun : S.finished < S.launched) (hb : b < sendBlocks) (hi : S.cur b = some i) :
    S.sent + C.slots ≤ C.number start message S.finished i := by
  have hsend := fun p => hs.send b p
  simp only [Config.send, if_pos (And.intro hb hrun)] at hsend
  cases hblock : S.block b with
  | waiting j =>
    simp only [Sender.cur, hblock, SendStage.item, Option.some.injEq] at hi
    subst hi
    have hcur : S.cur b = some j := by simp only [Sender.cur, hblock, SendStage.item]
    have hnone := hsend 0
    rw [hblock] at hnone
    dsimp only at hnone
    split at hnone
    case isTrue => cases hnone
    case isFalse hwait =>
      have hlt := h.staging.number_lt hb hcur
      have hle := h.staging.sent_le hb hcur
      have hslots := C.slotsValid.2.1
      rw [not_or, gap_of_near (by omega) (by omega)] at hwait
      omega
  | checking | heading | raising =>
    have hnone := hsend 0
    rw [hblock] at hnone
    cases hnone
  | copying j left =>
    cases left with
    | nil =>
      have hnone := hsend 0
      rw [hblock] at hnone
      cases hnone
    | cons p left =>
      have hnone := hsend p
      rw [hblock] at hnone
      dsimp only at hnone
      rw [if_neg (List.cons_ne_nil _ _), if_pos List.mem_cons_self] at hnone
      cases hnone
  | gone =>
    simp only [Sender.cur, hblock, SendStage.item] at hi
    cases hi

end

/-- Some block of the running send launch is at an item. -/
theorem send_block (hrun : S.finished < S.launched) : ∃ b < sendBlocks, ∃ i, S.cur b = some i := by
  by_contra hnone
  have hend := hs.endSend
  have hgone : ∀ b < sendBlocks, S.block b = .gone := by
    intro b hb
    cases hblock : S.block b with
    | gone => rfl
    | _ => exact absurd ⟨b, hb, _, by rw [Sender.cur, hblock]; rfl⟩ hnone
  simp only [Config.endSend] at hend
  rw [if_pos ⟨hrun, hgone⟩] at hend
  cases hend

/-- A block of the running receive launch waits for an item that a lane did not post. -/
theorem recv_waits (h : ChannelInv C start message window sendBlocks recvBlocks S R line [] false false d)
    (hrun : R.finished < R.launched) (hb : b < recvBlocks) (hi : R.cur b = some i) :
    ∃ l < C.lanes, (d l).item ≤ C.number start message R.finished i := by
  have hrecv := fun p => hs.recv b p
  have hstage := h.taking.stage b hb
  simp only [Config.recv, if_pos (And.intro hb hrun)] at hrecv
  cases hblock : R.block b with
  | waiting j pending =>
    simp only [Receiver.cur, hblock, RecvStage.item, Option.some.injEq] at hi
    subst hi
    have hcur : R.cur b = some j := by simp only [Receiver.cur, hblock, RecvStage.item]
    rw [hblock] at hstage
    cases pending with
    | nil =>
      have hnone := hrecv 0
      rw [hblock] at hnone
      dsimp only at hnone
      rw [if_pos rfl, if_neg Bool.false_ne_true] at hnone
      split at hnone <;> cases hnone
    | cons p pending =>
      have hp := hstage.1 p List.mem_cons_self
      have hnone := hrecv p
      rw [hblock] at hnone
      dsimp only at hnone
      rw [if_neg (List.cons_ne_nil _ _)] at hnone
      split at hnone
      case isTrue => cases hnone
      case isFalse hwait =>
        refine ⟨p, hp, ?_⟩
        by_contra hlt
        rw [Nat.not_le] at hlt
        refine hwait ⟨List.mem_cons_self, .inl ?_⟩
        have hle := h.taking.released_le hb hcur
        have hcap := h.landing.place_le p hp
        have hflag := h.landing.flag_le p hp _ start_le_number hlt
        rcases h.landing.flag_form (C.index (C.number start message R.finished j)) p hp with hform | ⟨g, -, hidx, hg, hform⟩
        · have hstart : start ≤ C.number start message R.finished j := start_le_number
          omega
        have heq : g = C.number start message R.finished j := Config.eq_of_index hidx (by omega) (by omega)
        rw [hform, heq]
        exact sameWord_self _
  | copying j left =>
    cases left with
    | nil =>
      have hnone := hrecv 0
      rw [hblock] at hnone
      cases hnone
    | cons p left =>
      have hnone := hrecv p
      rw [hblock] at hnone
      dsimp only at hnone
      rw [if_neg (List.cons_ne_nil _ _), if_pos List.mem_cons_self] at hnone
      cases hnone
  | consuming =>
    have hnone := hrecv 0
    rw [hblock] at hnone
    cases hnone
  | gone =>
    simp only [Receiver.cur, hblock, RecvStage.item] at hi
    cases hi

/-- Some block of the running receive launch is at an item. -/
theorem recv_block (hrun : R.finished < R.launched) : ∃ b < recvBlocks, ∃ i, R.cur b = some i := by
  by_contra hnone
  have hend := hs.endRecv
  have hgone : ∀ b < recvBlocks, R.block b = .gone := by
    intro b hb
    cases hblock : R.block b with
    | gone => rfl
    | _ => exact absurd ⟨b, hb, _, by rw [Receiver.cur, hblock]; rfl⟩ hnone
  simp only [Config.endRecv] at hend
  rw [if_pos ⟨hrun, hgone⟩] at hend
  cases hend

section

variable (h : ChannelInv C start message window sendBlocks recvBlocks S R line [] false false d)

include h

/-- Items the running send launch still has to stage are a ring ahead of what is sent. -/
theorem send_ahead (hpos : 0 < sendBlocks) (hblocks : sendBlocks ≤ 64) (hrun : S.finished < S.launched) (ha : start ≤ a)
    (hstaged : ¬C.Staged S a) : S.sent + C.slots ≤ a := by
  obtain ⟨k, i, hi, rfl⟩ := exists_number C message ha
  have hpassed : ¬C.SendPassed start message sendBlocks S (C.number start message k i) :=
    fun hpassed => hstaged (h.staging.passed_staged rfl _ hpassed)
  rcases Nat.lt_trichotomy k S.finished with hlt | rfl | hgt
  · exact absurd ⟨k, i, hi, rfl, .inl hlt⟩ hpassed
  · obtain ⟨j, hj, hcur⟩ := current_of_not_passed hi hpassed
    have hwait := hs.send_waits h hblocks hrun (Nat.mod_lt i hpos) hcur
    simp only [Config.number] at hwait ⊢
    omega
  obtain ⟨b, hb, j, hcur⟩ := hs.send_block hrun
  have hwait := hs.send_waits h hblocks hrun hb hcur
  have hbefore : C.number start message S.finished j < first start (C.count message) k :=
    item_lt_first (h.staging.aligned b hb j hcur).2 hgt
  simp only [Config.number] at hwait hbefore ⊢
  omega

/-- Items the running receive launch still has to take were not posted by some lane. -/
theorem recv_ahead (hpos : 0 < recvBlocks) (hrun : R.finished < R.launched) (ha : start ≤ a) (hconsumed : ¬C.Consumed R a) :
    ∃ l < C.lanes, (d l).item ≤ a := by
  obtain ⟨k, i, hi, rfl⟩ := exists_number C message ha
  have hpassed : ¬C.RecvPassed start message recvBlocks R (C.number start message k i) :=
    fun hpassed => hconsumed (h.taking.passed_consumed rfl _ hpassed)
  rcases Nat.lt_trichotomy k R.finished with hlt | rfl | hgt
  · exact absurd ⟨k, i, hi, rfl, .inl hlt⟩ hpassed
  · obtain ⟨j, hj, hcur⟩ := current_of_not_passed hi hpassed
    obtain ⟨l, hl, hle⟩ := hs.recv_waits h hrun (Nat.mod_lt i hpos) hcur
    exact ⟨l, hl, hle.trans (Nat.add_le_add_left hj _)⟩
  obtain ⟨b, hb, j, hcur⟩ := hs.recv_block hrun
  obtain ⟨l, hl, hle⟩ := hs.recv_waits h hrun hb hcur
  have hbefore : C.number start message R.finished j < first start (C.count message) k :=
    item_lt_first (h.taking.aligned b hb j hcur).2 hgt
  exact ⟨l, hl, (hle.trans hbefore.le).trans (Nat.le_add_right _ _)⟩

variable (hroom : back.acks.room 1 = true) (hwindow : ∀ l < C.lanes, window l ≠ 0 → 0 < chunk ∧ chunk ≤ window l)
  (hsend : 0 < sendBlocks ∧ sendBlocks ≤ 64) (hrecv : 0 < recvBlocks)

include hroom hwindow hsend hrecv

/-- Either all launched sends are finished and sent, or all launched receives are finished
and released and the slots are full. -/
theorem settled_cases : (∀ l < C.lanes, S.sent ≤ (d l).item) ∧
      (S.finished = S.launched ∧ first start (C.count message) S.launched ≤ S.sent ∨
        R.finished = R.launched ∧ first start (C.count message) R.launched ≤ R.released ∧ R.released + C.slots ≤ S.sent) := by
  obtain ⟨hseen, hitem⟩ := hs.settled h hroom
  have hsent : ∀ l < C.lanes, S.sent ≤ (d l).item := fun l hl => (h.sent_le_item hl).1
  refine ⟨hsent, ?_⟩
  obtain ⟨-, -, l₀, hl₀, hmin⟩ := laneMin_spec h.done_near
  have heq : S.sent = S.laneItem l₀ := by
    have hpublish := hs.publish
    simp only [Config.publish] at hpublish
    split at hpublish
    case isFalse => cases hpublish
    case isTrue hword =>
      have hnear := h.done_near l₀ hl₀
      have hslots := C.slotsValid.2.1
      have hmin' := eq_of_sameWord hword (by omega) (by omega)
      rw [← hmin', hmin]
      exact (hitem l₀ hl₀).2
  by_cases hstaged : C.Staged S S.sent
  · right
    have hblocked := hs.blocked h hwindow hl₀ (heq ▸ hstaged)
    rw [hseen, ← heq] at hblocked
    have hnot := hs.not_consumed h
    have hstart := h.taking.start_le
    have hpos := C.slots_pos
    have hfinished : R.finished = R.launched := by
      by_contra hne
      obtain ⟨l, hl, hle⟩ := hs.recv_ahead h hrecv (Nat.lt_of_le_of_ne h.taking.running hne) hstart hnot
      have hle' := hsent l hl
      omega
    refine ⟨hfinished, ?_, hblocked⟩
    obtain ⟨k, i, hi, hki⟩ := exists_number C message hstart
    have hk : R.launched ≤ k := by
      rw [← hfinished]
      by_contra hlt
      exact hnot (h.taking.passed_consumed rfl _ ⟨k, i, hi, hki, .inl (Nat.not_le.mp hlt)⟩)
    rw [← hki]
    exact (first_le_first hk).trans (Nat.le_add_right _ _)
  · left
    have hstart := h.staging.start_le
    have hfinished : S.finished = S.launched := by
      by_contra hne
      have hahead := hs.send_ahead h hsend.1 hsend.2 (Nat.lt_of_le_of_ne h.staging.running hne) hstart hstaged
      have hpos := C.slots_pos
      omega
    refine ⟨hfinished, ?_⟩
    obtain ⟨k, i, hi, hki⟩ := exists_number C message hstart
    have hk : S.launched ≤ k := by
      rw [← hfinished]
      by_contra hlt
      exact hstaged (h.staging.passed_staged rfl _ ⟨k, i, hi, hki, .inl (Nat.not_le.mp hlt)⟩)
    rw [← hki]
    exact (first_le_first hk).trans (Nat.le_add_right _ _)

/-- A message launched on both ends is finished on both. -/
theorem finished_both (hS : k < S.launched) (hR : k < R.launched) : k < S.finished ∧ k < R.finished := by
  obtain ⟨hsent, hcases⟩ := hs.settled_cases h hroom hwindow hsend hrecv
  rcases hcases with ⟨hfinished, hall⟩ | ⟨hfinished, hall, hfull⟩
  · refine ⟨by omega, ?_⟩
    by_contra hlt
    obtain ⟨b, hb, i, hcur⟩ := hs.recv_block (by omega)
    obtain ⟨l, hl, hle⟩ := hs.recv_waits h (by omega) hb hcur
    have hbefore : C.number start message R.finished i < first start (C.count message) S.launched :=
      item_lt_first (h.taking.aligned b hb i hcur).2 (by omega)
    have hle' := hsent l hl
    omega
  refine ⟨?_, by omega⟩
  by_contra hlt
  obtain ⟨b, hb, i, hcur⟩ := hs.send_block (by omega)
  have hwait := hs.send_waits h hsend.2 (by omega) hb hcur
  have hbefore : C.number start message S.finished i < first start (C.count message) R.launched :=
    item_lt_first (h.staging.aligned b hb i hcur).2 (by omega)
  omega

/-- A message of at most two rings, before which everything is consumed, is finished. -/
theorem finished_send (hS : k < S.launched) (hitems : C.count message k ≤ 2 * C.slots)
    (hconsumed : ∀ g, start ≤ g → g < first start (C.count message) k → C.Consumed R g) : k < S.finished := by
  obtain ⟨-, hcases⟩ := hs.settled_cases h hroom hwindow hsend hrecv
  rcases hcases with ⟨hfinished, -⟩ | ⟨-, -, hfull⟩
  · omega
  by_contra hlt
  obtain ⟨b, hb, i, hcur⟩ := hs.send_block (by omega)
  have hwait := hs.send_waits h hsend.2 (by omega) hb hcur
  have hi := (h.staging.aligned b hb i hcur).2
  have hreleased : first start (C.count message) k ≤ R.released := by
    by_contra hbefore
    exact hs.not_consumed h (hconsumed _ h.taking.start_le (Nat.not_le.mp hbefore))
  rcases Nat.lt_or_ge S.finished k with hk | hk
  · have hbefore : C.number start message S.finished i < first start (C.count message) k := item_lt_first hi hk
    omega
  obtain rfl : S.finished = k := by omega
  simp only [Config.number] at hwait
  omega

end

end

end Stuck

/-- Where no internal step is enabled, no step of a channel is. -/
theorem stuck_of_none (hinv : Inv C start messages s d') (hclear : ∀ r, s.poison r = false)
    (hnone : ∀ a, a.internal = true → step C start messages s a = none) (c : Bool) :
    Stuck C start (messages c) (C.window c) (C.chunk c) (C.blocks c) (C.blocks !c) (s.sender c) (s.receiver c) (s.line c) (s.line (!c) 0) ∧
      ChannelInv C start (messages c) (C.window c) (C.blocks c) (C.blocks !c) (s.sender c) (s.receiver c) (s.line c) []
        false false (d' c) ∧ (s.line (!c) 0).acks.room 1 = true := by
  have hflying : ∀ c, ∀ l < C.lanes, (s.line c l).flying = [] := by
    intro c l hl
    have hdeliver := hnone (.deliver c l) rfl
    simp only [step, if_pos hl] at hdeliver
    split at hdeliver
    case h_1 heq => exact heq
    case h_2 => cases hdeliver
  have hlanded : ∀ c, ∀ l < C.lanes, (s.line c l).landed = [] := by
    intro c l hl
    have hcomplete := hnone (.complete c l) rfl
    simp only [step, if_pos hl] at hcomplete
    split at hcomplete
    case h_1 heq => exact heq
    case h_2 => cases hcomplete
  have hlane := C.lanesValid.1
  have hc := hinv c
  rw [hflying (!c) 0 hlane, hclear c, hclear !c] at hc
  refine ⟨?_, hc, (((hinv !c).carrying 0 hlane).idle (hflying (!c) 0 hlane) (hlanded (!c) 0 hlane)).1⟩
  constructor
  case send =>
    intro b p
    have h := hnone (.send c b p) rfl
    rwa [step, map_eq_none_iff, hclear c] at h
  case endSend => exact map_eq_none_iff.mp (hnone (.endSend c) rfl)
  case recv =>
    intro b p
    have h := hnone (.recv c b p) rfl
    rwa [step, map_eq_none_iff, hclear !c] at h
  case endRecv => exact map_eq_none_iff.mp (hnone (.endRecv c) rfl)
  case readCredit => exact map_eq_none_iff.mp (hnone (.readCredit c) rfl)
  case piece =>
    intro l hl
    have h := hnone (.piece c l) rfl
    rwa [step, if_pos hl, map_eq_none_iff] at h
  case header => exact map_eq_none_iff.mp (hnone (.header c) rfl)
  case flag =>
    intro l hl
    have h := hnone (.flag c l) rfl
    rwa [step, if_pos hl, map_eq_none_iff] at h
  case publish => exact map_eq_none_iff.mp (hnone (.publish c) rfl)
  case release => exact map_eq_none_iff.mp (hnone (.release c) rfl)
  case giveCredit => exact map_eq_none_iff.mp (hnone (.giveCredit c) rfl)
  case flying => exact hflying c
  case landed => exact hlanded c

end SparkRing.Channel
