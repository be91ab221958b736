import SparkRing.ChannelProgress

/-!
# Launches finish

Every internal step leaves less to do: a counter comes nearer to the items launched, or a
block or a lane goes on within its item, or a write is delivered or completes. So the
steps that are always enabled run out only when the launch is finished.
-/

namespace SparkRing.Channel

open SequenceWord LaunchItems TransitionSystem Function
open Option (ite_none_right_eq_some ite_some_none_eq_some map_eq_some_iff some.inj)

/-- Steps that a block of a send launch has left in its launch, at most. -/
def SendStage.left (count packs : ℕ) : SendStage → ℕ
  | waiting i => (count - i) * (packs + 6) + packs + 5
  | checking i => (count - i) * (packs + 6) + packs + 4
  | copying i left => (count - i) * (packs + 6) + left.length + 3
  | heading i => (count - i) * (packs + 6) + 2
  | raising i => (count - i) * (packs + 6) + 1
  | gone => 0

/-- Steps that a block of a receive launch has left in its launch, at most. -/
def RecvStage.left (count packs lanes : ℕ) : RecvStage → ℕ
  | waiting i pending => (count - i) * (packs + lanes + 5) + packs + pending.length + 4
  | copying i left => (count - i) * (packs + lanes + 5) + left.length + 2
  | consuming i => (count - i) * (packs + lanes + 5) + 1
  | gone => 0

variable {β : Type*} {C : Config} {start : ℕ} {message : ℕ → List β} {blocks b p : ℕ} {poison : Bool} {Q : Line}

/-- The next item of a block leaves less than this one. -/
theorem left_next {count blocks i work rest : ℕ} (hblocks : 0 < blocks) (hnext : i + blocks < count) (hrest : rest < work + 1) :
    (count - (i + blocks)) * work + rest < (count - i) * work + 1 := by
  obtain ⟨m, hm⟩ : ∃ m, count - i = m + 1 + (count - (i + blocks)) := ⟨blocks - 1, by omega⟩
  rw [hm, Nat.add_mul, Nat.add_mul, Nat.one_mul]
  omega

/-- A pack or a lane fewer is left. -/
theorem length_filter_ne {left : List ℕ} (hp : p ∈ left) : (left.filter (· ≠ p)).length < left.length :=
  List.length_filter_lt_length_iff_exists.mpr ⟨p, hp, by simp⟩

/-- A step of a receive launch takes a block on. -/
theorem recv_left {R R' : Receiver β} {poison' : Bool}
    (hs : C.recv start message blocks poison R b p = some (R', poison')) :
    b < blocks ∧ ∃ stage out consumed,
      R' = { R with block := update R.block b stage, out := out, consumed := consumed } ∧
        stage.left (C.count message R.finished) (C.slotBytes / 16) C.lanes <
          (R.block b).left (C.count message R.finished) (C.slotBytes / 16) C.lanes := by
  simp only [Config.recv] at hs
  obtain ⟨hb, hs⟩ := ite_none_right_eq_some.mp hs
  refine ⟨hb.1, ?_⟩
  cases hblock : R.block b with
  | waiting i pending =>
    rw [hblock] at hs
    dsimp only at hs
    have hpacks : itemPacks C.slotBytes (message R.finished).length i ≤ C.slotBytes / 16 := itemPacks_le
    split at hs
    case isTrue =>
      split at hs
      case isTrue =>
        obtain ⟨rfl, -⟩ := Prod.mk.inj (some.inj hs)
        exact ⟨_, _, _, rfl, by simp only [RecvStage.left]; omega⟩
      case isFalse =>
        split at hs
        case isTrue =>
          obtain ⟨rfl, -⟩ := Prod.mk.inj (some.inj hs)
          exact ⟨_, _, _, rfl, by simp only [RecvStage.left]; omega⟩
        case isFalse =>
          obtain ⟨rfl, -⟩ := Prod.mk.inj (some.inj hs)
          exact ⟨_, _, _, rfl, by simp only [RecvStage.left, List.length_range]; omega⟩
    case isFalse =>
      obtain ⟨hp, hs⟩ := ite_none_right_eq_some.mp hs
      obtain ⟨rfl, -⟩ := Prod.mk.inj (some.inj hs)
      have hless := length_filter_ne hp.1
      exact ⟨_, _, _, rfl, by simp only [RecvStage.left]; omega⟩
  | copying i left =>
    rw [hblock] at hs
    dsimp only at hs
    split at hs
    case isTrue =>
      obtain ⟨rfl, -⟩ := Prod.mk.inj (some.inj hs)
      exact ⟨_, _, _, rfl, by simp only [RecvStage.left]; omega⟩
    case isFalse =>
      obtain ⟨hp, hs⟩ := ite_none_right_eq_some.mp hs
      obtain ⟨rfl, -⟩ := Prod.mk.inj (some.inj hs)
      have hless := length_filter_ne hp
      exact ⟨_, _, _, rfl, by simp only [RecvStage.left]; omega⟩
  | consuming i =>
    rw [hblock] at hs
    obtain ⟨rfl, -⟩ := Prod.mk.inj (some.inj hs)
    refine ⟨_, _, _, rfl, ?_⟩
    split
    case isTrue hnext =>
      simp only [RecvStage.left, Nat.add_assoc, List.length_range]
      exact left_next (Nat.zero_lt_of_lt hb.1) hnext (by omega)
    case isFalse =>
      simp only [RecvStage.left]
      omega
  | gone =>
    rw [hblock] at hs
    cases hs

/-- What the counters of a channel still lack of the items launched. -/
def Config.toCount (C : Config) (start : ℕ) (message : ℕ → List β) (S : Sender β) (R : Receiver β) : ℕ :=
  let launched := first start (C.count message) S.launched
  (S.launched - S.finished) + (R.launched - R.finished) + ∑ l ∈ Finset.range C.lanes, (launched - S.laneItem l) +
    (launched - R.released) + (launched - R.credited) + (launched - S.sent) + (launched - S.creditSeen)

/-- What the blocks and the lanes of a channel have left of their items. -/
def Config.toDo (C : Config) (message : ℕ → List β) (sendBlocks recvBlocks : ℕ) (S : Sender β) (R : Receiver β) : ℕ :=
  ∑ b ∈ Finset.range sendBlocks, (S.block b).left (C.count message S.finished) (C.slotBytes / 16) +
    ∑ b ∈ Finset.range recvBlocks, (R.block b).left (C.count message R.finished) (C.slotBytes / 16) C.lanes +
    ∑ l ∈ Finset.range C.lanes, (C.slotBytes - S.laneBytes l + (!S.laneHeader l).toNat)

/-- Deliveries and completions of a queue pair. -/
def Line.onTheWay (Q : Line) : ℕ := 2 * Q.flying.length + Q.landed.length

/-- Deliveries and completions of a rank's queue pairs. -/
def Config.onTheWay (C : Config) (line : ℕ → Line) : ℕ := ∑ l ∈ Finset.range C.lanes, (line l).onTheWay

/-- What is left to do on a channel. -/
structure Left where
  counts : ℕ
  /-- Of the blocks and the lanes. -/
  work : ℕ
  /-- Of the queue pairs. -/
  way : ℕ

/-- What is left to do on a channel. -/
def Config.left (C : Config) (start : ℕ) (messages : Bool → ℕ → List β) (s : State β) (c : Bool) : Left where
  counts := C.toCount start (messages c) (s.sender c) (s.receiver c)
  work := C.toDo (messages c) (C.blocks c) (C.blocks !c) (s.sender c) (s.receiver c)
  way := C.onTheWay (s.line c)

/-- What is left to do on both channels, the counters first. -/
def Config.measure (C : Config) (start : ℕ) (messages : Bool → ℕ → List β) (s : State β) : ℕ × ℕ × ℕ :=
  ((C.left start messages s false).counts + (C.left start messages s true).counts,
    (C.left start messages s false).work + (C.left start messages s true).work,
    (C.left start messages s false).way + (C.left start messages s true).way)

/-- Less to do: fewer to count, or as many and less work, or as much and less on the way. -/
def Less : ℕ × ℕ × ℕ → ℕ × ℕ × ℕ → Prop := Prod.Lex (· < ·) (Prod.Lex (· < ·) (· < ·))

theorem less_wf : WellFounded Less := (Prod.lex Nat.lt_wfRel (Prod.lex Nat.lt_wfRel Nat.lt_wfRel)).wf

variable {messages : Bool → ℕ → List β} {s t : State β}

theorem less_counts (c : Bool) (h : (C.left start messages t c).counts < (C.left start messages s c).counts)
    (hother : (C.left start messages t !c).counts = (C.left start messages s !c).counts) :
    Less (C.measure start messages t) (C.measure start messages s) := by
  refine .left _ _ ?_
  cases c <;> simp only [Bool.not_true, Bool.not_false] at hother <;> omega

theorem less_work (c : Bool) (hcounts : ∀ c, (C.left start messages t c).counts = (C.left start messages s c).counts)
    (h : (C.left start messages t c).work < (C.left start messages s c).work)
    (hother : (C.left start messages t !c).work = (C.left start messages s !c).work) :
    Less (C.measure start messages t) (C.measure start messages s) := by
  rw [Config.measure, Config.measure, hcounts false, hcounts true]
  refine .right _ (.left _ _ ?_)
  cases c <;> simp only [Bool.not_true, Bool.not_false] at hother <;> omega

theorem less_way (c : Bool) (hcounts : ∀ c, (C.left start messages t c).counts = (C.left start messages s c).counts)
    (hwork : ∀ c, (C.left start messages t c).work = (C.left start messages s c).work)
    (h : (C.left start messages t c).way < (C.left start messages s c).way)
    (hother : (C.left start messages t !c).way = (C.left start messages s !c).way) :
    Less (C.measure start messages t) (C.measure start messages s) := by
  rw [Config.measure, Config.measure, hcounts false, hcounts true, hwork false, hwork true]
  refine .right _ (.right _ ?_)
  cases c <;> simp only [Bool.not_true, Bool.not_false] at hother <;> omega

variable {window : ℕ → ℕ} {sendBlocks recvBlocks chunk l : ℕ} {S S' : Sender β} {R R' : Receiver β} {line : ℕ → Line}
  {back : List Write} {sendPoison recvPoison : Bool} {d : ℕ → Place}

theorem piece_work (hl : l < C.lanes) (hchunk : window l ≠ 0 → 0 < chunk)
    (hs : C.piece (window l) chunk S (line l) l = some (S', Q)) : C.toCount start message S' R = C.toCount start message S R ∧
      C.toDo message sendBlocks recvBlocks S' R < C.toDo message sendBlocks recvBlocks S R := by
  simp only [Config.piece] at hs
  obtain ⟨hcond, hs⟩ := ite_none_right_eq_some.mp hs
  obtain ⟨n, hn, hpair⟩ := map_eq_some_iff.mp hs
  obtain ⟨rfl, rfl⟩ := Prod.mk.inj hpair
  obtain ⟨hpos, hle, -⟩ := ChannelInv.pieceLength_spec hn (Nat.sub_pos_of_lt hcond.2.1) hchunk
  have hslot := of_decide_eq_true (Bool.and_eq_true_iff.mp hcond.1).2
  have hend : (C.nextStripe S l).1 + (C.nextStripe S l).2 ≤ headerBytes (C.nextHeader S l) := stripe_end hl
  refine ⟨rfl, Nat.add_lt_add_left (Finset.sum_lt_sum (fun m _ => ?_) ⟨l, Finset.mem_range.mpr hl, ?_⟩) _⟩
  · dsimp only
    by_cases hm : m = l
    · rw [hm, update_self]
      omega
    · rw [update_of_ne hm]
  dsimp only
  rw [update_self]
  omega

theorem header_work (hs : C.postHeader S (line 0) = some (S', Q)) : C.toCount start message S' R = C.toCount start message S R ∧
      C.toDo message sendBlocks recvBlocks S' R < C.toDo message sendBlocks recvBlocks S R := by
  simp only [Config.postHeader] at hs
  obtain ⟨hcond, hs⟩ := ite_none_right_eq_some.mp hs
  obtain ⟨rfl, rfl⟩ := Prod.mk.inj (some.inj hs)
  refine ⟨rfl, Nat.add_lt_add_left (Finset.sum_lt_sum (fun m _ => ?_) ⟨0, Finset.mem_range.mpr C.lanesValid.1, ?_⟩) _⟩
  · dsimp only
    by_cases hm : m = 0
    · rw [hm, update_self, Bool.not_true, Bool.toNat_false]
      exact Nat.add_le_add_left (Nat.zero_le _) _
    · rw [update_of_ne hm]
  dsimp only
  rw [update_self, hcond.2.2.1]
  exact Nat.lt_succ_self _

/-- A step that is no failure. -/
def Action.healthy : Action → Bool
  | fail _ => false
  | _ => true

theorem healthy_of_check (s : State β) (a : Action) (ha : a.healthy = true) : Healthy s a := by
  rintro r rfl
  cases ha

variable [Zero β]

/-- A step of a send launch takes a block on. -/
theorem send_left {S S' : Sender β} (hs : C.send start message blocks poison S b p = some S') :
    b < blocks ∧ ∃ stage slot desc ready,
      S' = { S with block := update S.block b stage, slot := slot, desc := desc, ready := ready } ∧
        stage.left (C.count message S.finished) (C.slotBytes / 16) <
          (S.block b).left (C.count message S.finished) (C.slotBytes / 16) := by
  simp only [Config.send] at hs
  obtain ⟨hb, hs⟩ := ite_none_right_eq_some.mp hs
  refine ⟨hb.1, ?_⟩
  cases hblock : S.block b with
  | waiting i =>
    rw [hblock] at hs
    dsimp only at hs
    obtain ⟨-, rfl⟩ := ite_some_none_eq_some.mp hs
    exact ⟨_, _, _, _, rfl, by simp only [SendStage.left]; omega⟩
  | checking i =>
    rw [hblock] at hs
    dsimp only at hs
    have hpacks : itemPacks C.slotBytes (message S.finished).length i ≤ C.slotBytes / 16 := itemPacks_le
    split at hs
    case isTrue =>
      obtain rfl := some.inj hs
      exact ⟨_, _, _, _, rfl, by simp only [SendStage.left]; omega⟩
    case isFalse =>
      obtain rfl := some.inj hs
      exact ⟨_, _, _, _, rfl, by simp only [SendStage.left, List.length_range]; omega⟩
  | copying i left =>
    rw [hblock] at hs
    dsimp only at hs
    split at hs
    case isTrue =>
      obtain rfl := some.inj hs
      exact ⟨_, _, _, _, rfl, by simp only [SendStage.left]; omega⟩
    case isFalse =>
      obtain ⟨hp, rfl⟩ := ite_some_none_eq_some.mp hs
      have hless := length_filter_ne hp
      exact ⟨_, _, _, _, rfl, by simp only [SendStage.left]; omega⟩
  | heading =>
    rw [hblock] at hs
    obtain rfl := some.inj hs
    exact ⟨_, _, _, _, rfl, by simp only [SendStage.left]; omega⟩
  | raising i =>
    rw [hblock] at hs
    obtain rfl := some.inj hs
    refine ⟨_, _, _, _, rfl, ?_⟩
    split
    case isTrue hnext =>
      simp only [SendStage.left, Nat.add_assoc]
      exact left_next (Nat.zero_lt_of_lt hb.1) hnext (by omega)
    case isFalse =>
      simp only [SendStage.left]
      omega
  | gone =>
    rw [hblock] at hs
    cases hs

namespace ChannelInv

section

variable (h : ChannelInv C start message window sendBlocks recvBlocks S R line back sendPoison recvPoison d)

include h

/-- A lane posts items launched only. -/
theorem item_le_launched (hl : l < C.lanes) : S.laneItem l ≤ first start (C.count message) S.launched := by
  have hstart : start ≤ S.laneItem l := (h.landing.start_le l hl).trans (h.carrying l hl).item_le
  rcases Nat.eq_or_lt_of_le hstart with heq | hlt
  · rw [← heq]
    exact start_le_first _
  have hstaged := h.posting.posted l hl (S.laneItem l - 1) (by omega) (by omega)
  have hlaunched := h.staging.passed_launched _ (h.staging.staged_passed _ (by omega) hstaged)
  omega

/-- The counters of a channel stay within the items launched. -/
theorem counts_le : R.released ≤ first start (C.count message) S.launched ∧ S.credit ≤ R.credited ∧
      ∀ l < C.lanes, S.laneDone l ≤ first start (C.count message) S.launched := by
  obtain ⟨-, hreleased, hitem⟩ := h.seen_le_item C.lanesValid.1
  refine ⟨(hreleased.trans hitem).trans (h.item_le_launched C.lanesValid.1), credits_le h.credits, fun l hl => ?_⟩
  exact ((h.carrying l hl).done_le.trans (h.carrying l hl).item_le).trans (h.item_le_launched hl)

theorem readCredit_less {line' : ℕ → Line} (hs : C.readCredit S line = some (S', line')) :
    C.toCount start message S' R < C.toCount start message S R := by
  obtain ⟨hreleased, hcredited, -⟩ := h.counts_le
  have hle := h.seen_le
  have hbound := h.credited_le
  simp only [Config.readCredit] at hs
  split at hs
  case isTrue => cases hs
  case isFalse hword =>
    obtain ⟨rfl, rfl⟩ := Prod.mk.inj (some.inj hs)
    have hne : S.creditSeen ≠ S.credit := fun heq => hword (heq ▸ sameWord_self _)
    simp only [Config.toCount]
    omega

theorem publish_less (hs : C.publish S = some S') : C.toCount start message S' R < C.toCount start message S R := by
  obtain ⟨-, -, hdone⟩ := h.counts_le
  obtain ⟨hle, -, l, hl, heq⟩ := laneMin_spec h.done_near
  have hbound := hdone l hl
  simp only [Config.publish] at hs
  split at hs
  case isTrue => cases hs
  case isFalse hword =>
    obtain rfl := some.inj hs
    have hne : C.laneMin S ≠ S.sent := fun heq => hword (heq ▸ sameWord_self _)
    simp only [Config.toCount]
    omega

theorem release_less (hs : C.release R = some R') : C.toCount start message S R' < C.toCount start message S R := by
  obtain ⟨htaking, hlanding⟩ := h.taking.release h.landing hs
  have hafter := h.taken htaking hlanding
  simp only [Config.release] at hs
  obtain ⟨-, rfl⟩ := ite_some_none_eq_some.mp hs
  obtain ⟨hreleased, -, -⟩ := (hafter rfl (Nat.le_succ _)).counts_le
  simp only [Config.toCount] at hreleased ⊢
  omega

theorem credit_less
    (hword : sameWord R.released R.credited = false) :
    C.toCount start message S { R with credited := R.released } < C.toCount start message S R := by
  obtain ⟨hreleased, -, -⟩ := h.counts_le
  have hle := h.credited_le
  have hne : R.released ≠ R.credited := by
    intro heq
    rw [heq, sameWord_self] at hword
    cases hword
  simp only [Config.toCount]
  omega

theorem flag_less (hl : l < C.lanes) (hs : C.postFlag S (line l) l = some (S', Q)) :
    C.toCount start message S' R < C.toCount start message S R := by
  have hafter := (h.postFlag hl hs).1.item_le_launched hl
  simp only [Config.postFlag] at hs
  obtain ⟨-, hs⟩ := ite_none_right_eq_some.mp hs
  obtain ⟨rfl, rfl⟩ := Prod.mk.inj (some.inj hs)
  dsimp only at hafter
  rw [update_self] at hafter
  have hless : ∑ n ∈ Finset.range C.lanes,
      (first start (C.count message) S.launched - update S.laneItem l (S.laneItem l + 1) n) <
      ∑ n ∈ Finset.range C.lanes, (first start (C.count message) S.launched - S.laneItem n) :=
    sum_update_lt (w := fun i => first start (C.count message) S.launched - i) hl (by omega)
  simp only [Config.toCount]
  omega

end

end ChannelInv

/-- Delivering and completing take a write off its queue pair. -/
theorem way_less (hl : l < C.lanes) (hless : Q.onTheWay < (line l).onTheWay) :
    C.onTheWay (update line l Q) < C.onTheWay line := sum_update_lt (w := Line.onTheWay) hl hless

/-- An internal step launches nothing, takes back no consumed item, and leaves less to do. -/
theorem Inv.internal_step {dd : Bool → ℕ → Place} (h : Inv C start messages s dd) {a : Action} (ha : a.internal = true)
    (hstep : Channel.step C start messages s a = some t) :
    (∀ c, (t.sender c).launched = (s.sender c).launched ∧ ∀ m, (s.receiver c).consumed m ≤ (t.receiver c).consumed m) ∧
      Less (C.measure start messages t) (C.measure start messages s) := by
  cases a with
  | isend | irecv | fail | oversize => cases ha
  | send c b p =>
    obtain ⟨S, hS, rfl⟩ := map_eq_some_iff.mp hstep
    obtain ⟨hb, stage, slot, desc, ready, rfl, hless⟩ := send_left hS
    refine ⟨forall_channel c (by simp) (by simp), less_work c (forall_channel c ?_ (by simp [Config.left])) ?_
      (by simp [Config.left])⟩
    · simp [Config.left, Config.toCount]
    · simpa [Config.left, Config.toDo] using
        sum_update_lt (w := SendStage.left (C.count (messages c) (s.sender c).finished) (C.slotBytes / 16)) hb hless
  | endSend c =>
    obtain ⟨S, hS, rfl⟩ := map_eq_some_iff.mp hstep
    simp only [Config.endSend] at hS
    obtain ⟨hgone, rfl⟩ := ite_some_none_eq_some.mp hS
    refine ⟨forall_channel c (by simp) (by simp), less_counts c ?_ (by simp [Config.left])⟩
    simp only [Config.left, Config.toCount, State.setSender_self, State.setSender_receiver]
    omega
  | recv c b p =>
    obtain ⟨⟨R, poison⟩, hR, rfl⟩ := map_eq_some_iff.mp hstep
    obtain ⟨hb, stage, out, consumed, rfl, hless⟩ := recv_left hR
    obtain ⟨-, ⟨-, hconsumed⟩, -⟩ := (h c).taking.recv (h c).landing (C.blocksValid !c).2 hR
    refine ⟨forall_channel c (by simpa using hconsumed) (by simp),
      less_work c (forall_channel c ?_ (by simp [Config.left])) ?_ (by simp [Config.left])⟩
    · simp [Config.left, Config.toCount]
    · simpa [Config.left, Config.toDo] using
        sum_update_lt (w := RecvStage.left (C.count (messages c) (s.receiver c).finished) (C.slotBytes / 16) C.lanes) hb hless
  | endRecv c =>
    obtain ⟨R, hR, rfl⟩ := map_eq_some_iff.mp hstep
    simp only [Config.endRecv] at hR
    obtain ⟨hgone, rfl⟩ := ite_some_none_eq_some.mp hR
    refine ⟨forall_channel c (by simp) (by simp), less_counts c ?_ (by simp [Config.left])⟩
    simp only [Config.left, Config.toCount, State.setReceiver_self, State.setReceiver_sender]
    omega
  | readCredit c =>
    obtain ⟨⟨S, line⟩, hS, rfl⟩ := map_eq_some_iff.mp hstep
    have hless := (h c).readCredit_less hS
    have hlaunched : S.launched = (s.sender c).launched := by
      simp only [Config.readCredit] at hS
      split at hS
      case isTrue => cases hS
      case isFalse => exact (Prod.mk.inj (some.inj hS)).1 ▸ rfl
    refine ⟨forall_channel c (by simpa using hlaunched) (by simp), less_counts c ?_ (by simp [Config.left])⟩
    simpa [Config.left] using hless
  | piece c l =>
    simp only [Channel.step] at hstep
    obtain ⟨hl, hstep⟩ := ite_none_right_eq_some.mp hstep
    obtain ⟨⟨S, Q⟩, hS, rfl⟩ := map_eq_some_iff.mp hstep
    have hchunk : C.window c l ≠ 0 → 0 < C.chunk c := fun hw => (show 0 < 16 by decide).trans_le (ChannelInv.window_spec hl hw).1
    obtain ⟨hcount, hless⟩ := piece_work hl hchunk hS
    have hlaunched : S.launched = (s.sender c).launched := by
      simp only [Config.piece] at hS
      obtain ⟨-, hS⟩ := ite_none_right_eq_some.mp hS
      obtain ⟨n, -, hpair⟩ := map_eq_some_iff.mp hS
      exact (Prod.mk.inj hpair).1 ▸ rfl
    refine ⟨forall_channel c (by simpa [State.setLine] using hlaunched) (by simp [State.setLine]),
      less_work c (forall_channel c ?_ (by simp [Config.left, State.setLine])) ?_ (by simp [Config.left, State.setLine])⟩
    · simpa [Config.left, State.setLine] using hcount
    · simpa [Config.left, State.setLine] using hless
  | header c =>
    obtain ⟨⟨S, Q⟩, hS, rfl⟩ := map_eq_some_iff.mp hstep
    obtain ⟨hcount, hless⟩ := header_work hS
    have hlaunched : S.launched = (s.sender c).launched := by
      simp only [Config.postHeader] at hS
      obtain ⟨-, hS⟩ := ite_none_right_eq_some.mp hS
      exact (Prod.mk.inj (some.inj hS)).1 ▸ rfl
    refine ⟨forall_channel c (by simpa [State.setLine] using hlaunched) (by simp [State.setLine]),
      less_work c (forall_channel c ?_ (by simp [Config.left, State.setLine])) ?_ (by simp [Config.left, State.setLine])⟩
    · simpa [Config.left, State.setLine] using hcount
    · simpa [Config.left, State.setLine] using hless
  | flag c l =>
    simp only [Channel.step] at hstep
    obtain ⟨hl, hstep⟩ := ite_none_right_eq_some.mp hstep
    obtain ⟨⟨S, Q⟩, hS, rfl⟩ := map_eq_some_iff.mp hstep
    have hless := (h c).flag_less hl hS
    have hlaunched : S.launched = (s.sender c).launched := by
      simp only [Config.postFlag] at hS
      obtain ⟨-, hS⟩ := ite_none_right_eq_some.mp hS
      exact (Prod.mk.inj (some.inj hS)).1 ▸ rfl
    refine ⟨forall_channel c (by simpa [State.setLine] using hlaunched) (by simp [State.setLine]),
      less_counts c ?_ (by simp [Config.left, State.setLine])⟩
    simpa [Config.left, State.setLine] using hless
  | publish c =>
    obtain ⟨S, hS, rfl⟩ := map_eq_some_iff.mp hstep
    have hless := (h c).publish_less hS
    have hlaunched : S.launched = (s.sender c).launched := by
      simp only [Config.publish] at hS
      split at hS
      case isTrue => cases hS
      case isFalse => exact some.inj hS ▸ rfl
    refine ⟨forall_channel c (by simpa using hlaunched) (by simp), less_counts c ?_ (by simp [Config.left])⟩
    simpa [Config.left] using hless
  | release c =>
    obtain ⟨R, hR, rfl⟩ := map_eq_some_iff.mp hstep
    have hless := (h c).release_less hR
    have hconsumed : R.consumed = (s.receiver c).consumed := by
      simp only [Config.release] at hR
      obtain ⟨-, hR⟩ := ite_none_right_eq_some.mp hR
      exact some.inj hR ▸ rfl
    refine ⟨forall_channel c (by simp [hconsumed]) (by simp), less_counts c ?_ (by simp [Config.left])⟩
    simpa [Config.left] using hless
  | giveCredit c =>
    obtain ⟨⟨R, Q⟩, hR, rfl⟩ := map_eq_some_iff.mp hstep
    simp only [giveCredit] at hR
    obtain ⟨hcond, hR⟩ := ite_none_right_eq_some.mp hR
    obtain ⟨rfl, rfl⟩ := Prod.mk.inj (some.inj hR)
    have hless := (h c).credit_less hcond.1
    refine ⟨forall_channel c (by simp [State.setLine]) (by simp [State.setLine]),
      less_counts c ?_ (by simp [Config.left, State.setLine])⟩
    simpa [Config.left, State.setLine] using hless
  | deliver c l =>
    simp only [Channel.step] at hstep
    obtain ⟨hl, hstep⟩ := ite_none_right_eq_some.mp hstep
    cases hflying : (s.line c l).flying with
    | nil =>
      rw [hflying] at hstep
      cases hstep
    | cons w ws =>
      rw [hflying] at hstep
      obtain rfl := some.inj hstep
      have hway : C.onTheWay (update (s.line c) l
          { s.line c l with flying := ws, landed := (s.line c l).landed ++ [w] }) < C.onTheWay (s.line c) := by
        refine way_less hl ?_
        simp only [Line.onTheWay, hflying, List.length_append, List.length_cons, List.length_nil]
        omega
      have hS : ∃ credit, (s.sender !c).land w = { s.sender !c with credit := credit } := by
        cases w <;> exact ⟨_, rfl⟩
      have hR : ∃ slot flag header, (s.receiver c).land (s.sender c) l w =
          { s.receiver c with slot := slot, flag := flag, header := header } := by
        cases w <;> exact ⟨_, _, _, rfl⟩
      obtain ⟨credit, hS⟩ := hS
      obtain ⟨slot, flag, header, hR⟩ := hR
      rw [hS, hR]
      refine ⟨forall_channel c (by simp [State.setLine]) (by simp [State.setLine]),
        less_way c (forall_channel c ?_ ?_) (forall_channel c ?_ ?_) ?_ ?_⟩
      all_goals simp [Config.left, Config.toCount, Config.toDo, State.setLine, hway]
  | complete c l =>
    simp only [Channel.step] at hstep
    obtain ⟨hl, hstep⟩ := ite_none_right_eq_some.mp hstep
    cases hlanded : (s.line c l).landed with
    | nil =>
      rw [hlanded] at hstep
      cases hstep
    | cons w ws =>
      rw [hlanded] at hstep
      obtain rfl := some.inj hstep
      have hway : C.onTheWay (update (s.line c) l (s.line c l).complete) < C.onTheWay (s.line c) := by
        refine way_less hl ?_
        simp only [Line.onTheWay, Line.complete, hlanded, List.tail_cons, List.length_cons]
        omega
      have hS : ∃ laneDone, (s.sender c).complete l w = { s.sender c with laneDone := laneDone } := by
        cases w <;> exact ⟨_, rfl⟩
      obtain ⟨laneDone, hS⟩ := hS
      rw [hS]
      refine ⟨forall_channel c (by simp [State.setLine]) (by simp [State.setLine]),
        less_way c (forall_channel c ?_ ?_) (forall_channel c ?_ ?_) ?_ ?_⟩
      all_goals simp [Config.left, Config.toCount, Config.toDo, State.setLine, hway]

/-- In every reachable state of two healthy ranks and on either channel: while a message
launched on both ends is not finished on both, an internal step is enabled; and a send of
at most two rings of items, launched where the items before it are all consumed, finishes
whichever internal steps are taken. -/
theorem channels_never_stuck (h : Reachable (step C start messages) Healthy (initial C start messages) s) (c : Bool) (k : ℕ)
    (hsend : k < (s.sender c).launched) :
    (k < (s.receiver c).launched → (s.sender c).finished ≤ k ∨ (s.receiver c).finished ≤ k →
      ∃ a t, a.internal = true ∧ step C start messages s a = some t) ∧
    (C.count (messages c) k ≤ 2 * C.slots →
      (∀ g, start ≤ g → g < first start (C.count (messages c)) k → C.Consumed (s.receiver c) g) →
      Inevitable (step C start messages) (fun a => a.internal = true) (fun t => k < (t.sender c).finished) s) := by
  have hwindow : ∀ l < C.lanes, C.window c l ≠ 0 → 0 < C.chunk c ∧ C.chunk c ≤ C.window c l := by
    intro l hl hw
    obtain ⟨hpos, -, hle, -⟩ := ChannelInv.window_spec hl hw
    exact ⟨(show 0 < 16 by decide).trans_le hpos, hle⟩
  have hstuck : ∀ s, Reachable (step C start messages) Healthy (initial C start messages) s →
      (∀ a, a.internal = true → step C start messages s a = none) → ∃ d,
        Stuck C start (messages c) (C.window c) (C.chunk c) (C.blocks c) (C.blocks !c) (s.sender c) (s.receiver c) (s.line c)
          (s.line (!c) 0) ∧
        ChannelInv C start (messages c) (C.window c) (C.blocks c) (C.blocks !c) (s.sender c) (s.receiver c) (s.line c) []
          false false d ∧ (s.line (!c) 0).acks.room 1 = true := by
    intro s hs hnone
    obtain ⟨d, hinv⟩ := reachable_inv hs
    exact ⟨d c, stuck_of_none hinv (healthy_poison hs) hnone c⟩
  constructor
  · intro hrecv hunfinished
    by_contra hnone
    obtain ⟨d, hs, hinv, hroom⟩ := hstuck s h fun a ha => by
      cases hstep : step C start messages s a with
      | none => rfl
      | some t => exact absurd ⟨a, t, ha, hstep⟩ hnone
    obtain ⟨hS, hR⟩ := hs.finished_both hinv hroom hwindow (C.blocksValid c) (C.blocksValid !c).1 hsend hrecv
    omega
  intro hitems hconsumed
  refine Inevitable.of_measure less_wf (C.measure start messages)
    (I := fun s => Reachable (step C start messages) Healthy (initial C start messages) s ∧ k < (s.sender c).launched ∧
      ∀ g, start ≤ g → g < first start (C.count (messages c)) k → C.Consumed (s.receiver c) g)
    ?_ ?_ ⟨h, hsend, hconsumed⟩
  · intro s a t hI ha hstep
    obtain ⟨hs, hk, hbefore⟩ := hI
    obtain ⟨d, hinv⟩ := reachable_inv hs
    obtain ⟨hsame, hless⟩ := hinv.internal_step ha hstep
    refine ⟨⟨.next hs (fun r hr => ?_) hstep, ?_, fun g hg hlt => ?_⟩, hless⟩
    · rw [hr] at ha
      cases ha
    · rw [(hsame c).1]
      exact hk
    · exact (hbefore g hg hlt).trans ((hsame c).2 _)
  · intro s hI hP
    obtain ⟨hs, hk, hbefore⟩ := hI
    by_contra hnone
    obtain ⟨d, hstuck, hinv, hroom⟩ := hstuck s hs fun a ha => by
      cases hstep : step C start messages s a with
      | none => rfl
      | some t => exact absurd ⟨a, t, ha, hstep⟩ hnone
    exact hP (hstuck.finished_send hinv hroom hwindow (C.blocksValid c) (C.blocksValid !c).1 hk hitems hbefore)

/-- The message launched on both ends goes on, and its send finishes. -/
theorem channels_never_stuck_greeting :
    ∃ s, Reachable (step narrow (2 ^ 32 - 1) greeting) Healthy (initial narrow (2 ^ 32 - 1) greeting) s ∧
      (∃ a t, a.internal = true ∧ step narrow (2 ^ 32 - 1) greeting s a = some t) ∧
      Inevitable (step narrow (2 ^ 32 - 1) greeting) (fun a => a.internal = true) (fun t => 0 < (t.sender false).finished) s := by
  obtain ⟨s, hs, hp⟩ := Reachable.exists_of_checked_runs (fun _ a => a.healthy) healthy_of_check
    (step narrow (2 ^ 32 - 1) greeting) (initial narrow (2 ^ 32 - 1) greeting) [.isend false, .irecv false]
    (fun s => (s.sender false).launched == 1 && (s.receiver false).launched == 1 && (s.sender false).finished == 0)
    (by decide +kernel)
  simp only [Bool.and_eq_true, beq_iff_eq] at hp
  obtain ⟨⟨hsend, hrecv⟩, hfinished⟩ := hp
  obtain ⟨hstep, hfinish⟩ := channels_never_stuck hs false 0 (by rw [hsend]; exact Nat.zero_lt_one)
  refine ⟨s, hs, hstep (by rw [hrecv]; exact Nat.zero_lt_one) (.inl hfinished.le), hfinish (by decide) fun g hg hlt => ?_⟩
  exact absurd hlt (Nat.not_lt.mpr hg)

end SparkRing.Channel
