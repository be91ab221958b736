import SparkRing.ChannelTaking

/-!
# The invariant of a channel

Both ends of a channel, the queue pairs of its lanes and the credits that come back agree:
what is sent completed on all lanes, what a lane posted was staged and had its slot freed,
and credits count items released.
-/

namespace SparkRing.Channel

open SequenceWord Function
open Option (ite_none_right_eq_some ite_some_none_eq_some map_eq_some_iff some.inj some_ne_none)

variable {β : Type*} {C : Config} {start chunk : ℕ} {message : ℕ → List β}

/-- The place up to which a lane posted. -/
def Sender.place (S : Sender β) (l : ℕ) : Place := ⟨S.laneItem l, S.laneBytes l, S.laneHeader l⟩

/-- What holds of the lanes of the sending end. -/
structure Posting (C : Config) (start : ℕ) (S : Sender β) : Prop where
  /-- Items sent completed on every lane. -/
  sent_le : ∀ l < C.lanes, S.sent ≤ S.laneDone l
  /-- A lane posts within the ring that the credit frees. -/
  item_le : ∀ l < C.lanes, S.laneItem l ≤ S.creditSeen + C.slots
  posted : ∀ l < C.lanes, ∀ g, start ≤ g → g < S.laneItem l → C.Staged S g
  /-- An item whose posting began was staged and has its slot freed. -/
  begun : ∀ l < C.lanes, 0 < S.laneBytes l ∨ S.laneHeader l = true →
    C.Staged S (S.laneItem l) ∧ S.laneItem l < S.creditSeen + C.slots

/-- The credits on their way lead from one count of items released to another. -/
def Credits : ℕ → List Write → ℕ → Prop
  | c, [], e => c = e
  | c, .credit v :: ws, e => c ≤ v ∧ Credits v ws e
  | c, _ :: ws, e => Credits c ws e

variable {ws : List Write}

theorem credits_le {c e : ℕ} (h : Credits c ws e) : c ≤ e := by
  induction ws generalizing c with
  | nil => exact le_of_eq h
  | cons w ws ih =>
    cases w with
    | credit v => exact h.1.trans (ih h.2)
    | data g m offset length | header g m value | flag g m tag => exact ih h

theorem credits_concat_credit {c e v : ℕ} (h : Credits c ws e) (hv : e ≤ v) : Credits c (ws ++ [.credit v]) v := by
  induction ws generalizing c with
  | nil =>
    obtain rfl := h
    exact ⟨hv, rfl⟩
  | cons w ws ih =>
    cases w with
    | credit u => exact ⟨h.1, ih h.2⟩
    | data g m offset length | header g m value | flag g m tag => exact ih h

theorem credits_concat {c e : ℕ} {w : Write} (h : Credits c ws e) (hw : w.item ≠ none) : Credits c (ws ++ [w]) e := by
  induction ws generalizing c with
  | nil =>
    cases w with
    | credit => exact absurd rfl hw
    | _ => exact h
  | cons u ws ih =>
    cases u with
    | credit v => exact ⟨h.1, ih h.2⟩
    | data g m offset length | header g m value | flag g m tag => exact ih h

/-- The fold over the lanes finds the least count of items completed. -/
theorem laneMin_spec {S : Sender β} {low : ℕ} (hlow : ∀ n < C.lanes, low ≤ S.laneDone n ∧ S.laneDone n ≤ low + C.slots) :
    low ≤ C.laneMin S ∧ (∀ n < C.lanes, C.laneMin S ≤ S.laneDone n) ∧ ∃ n < C.lanes, C.laneMin S = S.laneDone n := by
  have hslots := C.slotsValid.2.1
  have hfold : ∀ (lanes : List ℕ) (done : ℕ), (∀ n ∈ lanes, n < C.lanes) → (∃ n < C.lanes, done = S.laneDone n) →
      (∃ n < C.lanes, lanes.foldl (fun done l => if gap (S.laneDone l) done < 0 then S.laneDone l else done) done = S.laneDone n) ∧
      lanes.foldl (fun done l => if gap (S.laneDone l) done < 0 then S.laneDone l else done) done ≤ done ∧
      ∀ n ∈ lanes, lanes.foldl (fun done l => if gap (S.laneDone l) done < 0 then S.laneDone l else done) done ≤ S.laneDone n := by
    intro lanes
    induction lanes with
    | nil => exact fun done _ hdone => ⟨hdone, le_rfl, fun n hn => by cases hn⟩
    | cons m lanes ih =>
      intro done hlanes hdone
      have hm := hlow m (hlanes m List.mem_cons_self)
      obtain ⟨n, hn, rfl⟩ := hdone
      have hnear := hlow n hn
      rw [List.foldl_cons, gap_of_near (by omega) (by omega)]
      split
      case isTrue hlt =>
        obtain ⟨hmem, hle, hall⟩ := ih (S.laneDone m) (fun k hk => hlanes k (List.mem_cons_of_mem m hk))
          ⟨m, hlanes m List.mem_cons_self, rfl⟩
        refine ⟨hmem, by omega, fun k hk => ?_⟩
        rcases List.mem_cons.mp hk with rfl | hk
        · exact hle
        · exact hall k hk
      case isFalse hge =>
        obtain ⟨hmem, hle, hall⟩ := ih (S.laneDone n) (fun k hk => hlanes k (List.mem_cons_of_mem m hk)) ⟨n, hn, rfl⟩
        refine ⟨hmem, hle, fun k hk => ?_⟩
        rcases List.mem_cons.mp hk with rfl | hk
        · omega
        · exact hall k hk
  obtain ⟨⟨n, hn, heq⟩, -, hall⟩ := hfold (List.range C.lanes) (S.laneDone 0) (fun n hn => List.mem_range.mp hn)
    ⟨0, C.lanesValid.1, rfl⟩
  have heq' : C.laneMin S = S.laneDone n := heq
  exact ⟨heq' ▸ (hlow n hn).1, fun m hm => hall m (List.mem_range.mpr hm), n, hn, heq'⟩

variable [Zero β]

/-- What holds of a channel, whose lanes have delivered up to the places `d`, where `back`
is on its way on the queue pair of its credits. -/
structure ChannelInv (C : Config) (start : ℕ) (message : ℕ → List β) (window : ℕ → ℕ) (sendBlocks recvBlocks : ℕ)
    (S : Sender β) (R : Receiver β) (line : ℕ → Line) (back : List Write) (sendPoison recvPoison : Bool) (d : ℕ → Place) :
    Prop where
  staging : Staging C start message sendBlocks S sendPoison
  /-- The lanes. -/
  posting : Posting C start S
  /-- The queue pairs. -/
  carrying : ∀ l < C.lanes, Carrying C start message l (window l) (S.laneDone l) (d l) (S.place l) (line l)
  /-- The receive slots. -/
  landing : Landing C start message R d
  /-- The receive launches. -/
  taking : Taking C start message recvBlocks R recvPoison d
  /-- The credit acted on was received. -/
  seen_le : S.creditSeen ≤ S.credit
  /-- Credits arrive in order. -/
  credits : Credits S.credit back R.credited
  /-- Credits count items released. -/
  credited_le : R.credited ≤ R.released

variable {window : ℕ → ℕ} {sendBlocks recvBlocks : ℕ} {S : Sender β} {R : Receiver β} {line : ℕ → Line} {back : List Write}
  {sendPoison recvPoison : Bool} {d : ℕ → Place} {l : ℕ}

namespace ChannelInv

section

variable (h : ChannelInv C start message window sendBlocks recvBlocks S R line back sendPoison recvPoison d)

include h

section

variable (hl : l < C.lanes)

include hl

/-- What the sending rank knows to be released was released, delivered and posted. -/
theorem seen_le_item : S.creditSeen ≤ R.released ∧ R.released ≤ (d l).item ∧ (d l).item ≤ S.laneItem l :=
  ⟨(h.seen_le.trans (credits_le h.credits)).trans h.credited_le, h.taking.released_le_item h.landing hl,
    (h.carrying l hl).item_le⟩

/-- A lane posts at most a ring ahead of what is sent. -/
theorem item_le_sent : S.laneItem l ≤ S.sent + C.slots := by
  by_contra hlt
  have hstart := h.staging.start_le
  have hstaged := h.posting.posted l hl (S.laneItem l - 1) (by omega) (by omega)
  have hadmitted := h.staging.admitted hstaged
  simp only [Config.Admitted] at hadmitted
  omega

/-- What completed on a lane is posted. -/
theorem sent_le_item : S.sent ≤ (d l).item ∧ (d l).item ≤ S.laneItem l :=
  ⟨(h.posting.sent_le l hl).trans (h.carrying l hl).done_le, (h.carrying l hl).item_le⟩

/-- A ready item is staged, and its slot freed. -/
theorem ready_spec (hready : C.laneReady S l = true) : C.Staged S (S.laneItem l) ∧ S.laneItem l < S.creditSeen + C.slots := by
  obtain ⟨hseen, hreleased, hitem⟩ := h.seen_le_item hl
  obtain ⟨hsent, -⟩ := h.sent_le_item hl
  have hcap := h.posting.item_le l hl
  have hslots := C.slotsValid.2.1
  simp only [Config.laneReady, Bool.and_eq_true, decide_eq_true_eq] at hready
  obtain ⟨hgap, hword⟩ := hready
  rw [gap_of_near (by omega) (by omega)] at hgap
  have hhigh := h.staging.ready_le (C.index (S.laneItem l))
  -- the ready word of the slot is near the tag of the lane's item
  have hlow : S.laneItem l ≤ S.ready (C.index (S.laneItem l)) + C.slots := by
    rcases Nat.lt_or_ge (S.laneItem l) (start + C.slots) with hlt | hge
    · rcases h.staging.ready_form (C.index (S.laneItem l)) with hform | ⟨g, hg, -, hform⟩ <;> omega
    have hbefore := h.posting.posted l hl (S.laneItem l - C.slots) (by omega) (by omega)
    have hidx : C.index (S.laneItem l - C.slots) = C.index (S.laneItem l) := by
      simp only [Config.index_eq]
      exact (Nat.mod_eq_sub_mod (by omega)).symm
    simp only [Config.Staged] at hbefore
    rw [hidx] at hbefore
    omega
  have heq := eq_of_sameWord hword (by omega) (by omega)
  exact ⟨heq.ge, by omega⟩

/-- The desc word of a staged item is its header, and its stripes are those of the item. -/
theorem next_spec (hstaged : C.Staged S (S.laneItem l)) {k i : ℕ} (hi : i < C.count message k)
    (hg : C.number start message k i = S.laneItem l) :
    C.nextHeader S l = itemHeader C.slotBytes (message k).length i ∧ C.nextStripe S l = C.stripeOf message l k i := by
  obtain ⟨hsent, hitem⟩ := h.sent_le_item hl
  obtain ⟨-, hdesc⟩ := h.staging.held k i hi (hg ▸ hstaged) (by omega)
  rw [hg] at hdesc
  have hnext : C.nextHeader S l = itemHeader C.slotBytes (message k).length i := hdesc
  refine ⟨hnext, ?_⟩
  simp only [Config.nextStripe, hnext, headerBytes_itemHeader C.slotBytesValid.2.2, Config.stripeOf]

theorem next_bytes (hstaged : C.Staged S (S.laneItem l)) : headerBytes (C.nextHeader S l) ≤ C.slotBytes := by
  have hstart : start ≤ S.laneItem l := (h.landing.start_le l hl).trans (h.carrying l hl).item_le
  obtain ⟨k, i, hi, hg⟩ := exists_number C message hstart
  have hpacks : itemPacks C.slotBytes (message k).length i ≤ C.slotBytes / 16 := itemPacks_le
  rw [(h.next_spec hl hstaged hi hg).1, headerBytes_itemHeader C.slotBytesValid.2.2]
  omega

/-- A staged item whose slot is freed is ready. -/
theorem ready_of_staged (hstaged : C.Staged S (S.laneItem l)) (hfree : S.laneItem l < S.creditSeen + C.slots) : C.laneReady S l = true := by
  obtain ⟨hseen, hreleased, hitem⟩ := h.seen_le_item hl
  obtain ⟨hsent, -⟩ := h.sent_le_item hl
  have hslots := C.slotsValid.2.1
  have hstart : start ≤ S.laneItem l := (h.landing.start_le l hl).trans (h.carrying l hl).item_le
  have hhigh := h.staging.ready_le (C.index (S.laneItem l))
  simp only [Config.Staged] at hstaged
  rw [Config.laneReady, Bool.and_eq_true, decide_eq_true_eq, gap_of_near (by omega) (by omega)]
  refine ⟨by omega, ?_⟩
  rcases h.staging.ready_form (C.index (S.laneItem l)) with hform | ⟨g, -, hidx, hform⟩
  · omega
  have heq : g = S.laneItem l := Config.eq_of_index hidx (by omega) (by omega)
  rw [hform, heq]
  exact sameWord_self _

end

end

variable {w : Write} {ws : List Write}

section

variable (h : ChannelInv C start message window sendBlocks recvBlocks S R line back sendPoison recvPoison d)

include h

/-- The oldest write of an item on its way is for a slot that was freed, and the item is
still in its send slot. -/
theorem flying_spec (hl : l < C.lanes) (hflying : (line l).flying = w :: ws) (hw : w.item ≠ none) :
    (d l).item < S.creditSeen + C.slots ∧ C.Staged S (d l).item ∧ S.sent ≤ (d l).item := by
  have hpath := (h.carrying l hl).flying
  rw [hflying] at hpath
  have hbegun := path_begun hpath hw
  have hcap := h.posting.item_le l hl
  have hstart := h.landing.start_le l hl
  obtain ⟨hsent, -⟩ := h.sent_le_item hl
  rcases hbegun with hlt | ⟨heq, hb⟩
  · have hlt' : (d l).item < S.laneItem l := hlt
    exact ⟨by omega, h.posting.posted l hl _ hstart hlt', hsent⟩
  have heq' : (d l).item = S.laneItem l := heq
  obtain ⟨hstaged, hfreed⟩ := h.posting.begun l hl hb
  rw [heq']
  exact ⟨hfreed, hstaged, heq' ▸ hsent⟩

/-- The send launches go on. -/
theorem staged {S' : Sender β} (hstaging : Staging C start message sendBlocks S' sendPoison) (hsame : S.Staged S') :
    ChannelInv C start message window sendBlocks recvBlocks S' R line back sendPoison recvPoison d := by
  obtain ⟨⟨launched, finished, block, slot, desc, ready, rfl⟩, hready⟩ := hsame
  exact
    { h with
      staging := hstaging
      posting :=
        { sent_le := h.posting.sent_le
          item_le := h.posting.item_le
          posted := fun l hl g hg hlt => (h.posting.posted l hl g hg hlt).trans (hready _)
          begun := fun l hl hb => (h.posting.begun l hl hb).imp_left fun hst => hst.trans (hready _) } }

/-- The receive launches go on. -/
theorem taken {R' : Receiver β} {recvPoison' : Bool} (htaking : Taking C start message recvBlocks R' recvPoison' d)
    (hlanding : Landing C start message R' d) (hcredited : R'.credited = R.credited) (hreleased : R.released ≤ R'.released) :
    ChannelInv C start message window sendBlocks recvBlocks S R' line back sendPoison recvPoison' d :=
  { h with
    landing := hlanding
    taking := htaking
    credits := hcredited ▸ h.credits
    credited_le := hcredited ▸ h.credited_le.trans hreleased }

theorem failSend : ChannelInv C start message window sendBlocks recvBlocks S R line back true recvPoison d :=
  { h with staging := h.staging.fail }

theorem failRecv : ChannelInv C start message window sendBlocks recvBlocks S R line back sendPoison true d :=
  { h with taking := h.taking.fail }

end

theorem window_spec {r : Bool} (hl : l < C.lanes) (hw : C.window r l ≠ 0) :
    16 ≤ C.chunk r ∧ C.chunk r % 16 = 0 ∧ C.chunk r ≤ C.window r l ∧ C.window r l / C.chunk r ≤ inflight - 8 := by
  obtain ⟨table, hset⟩ := C.windowsValid r
  cases table with
  | none =>
    rw [← some.inj hset] at hw
    exact absurd rfl hw
  | some table =>
    simp only [setWindows] at hset
    split at hset
    case isTrue => cases hset
    case isFalse hchunk =>
      split at hset
      case isTrue => cases hset
      case isFalse hall =>
        obtain rfl := some.inj hset
        have hlane : ¬(C.window r l < C.chunk r ∨ inflight - 8 < C.window r l / C.chunk r) :=
          fun hbad => hall ⟨l, hl, hw, hbad⟩
        rw [not_or, not_lt, not_lt] at hlane
        exact ⟨by omega, by omega, hlane.1, hlane.2⟩

theorem pieceLength_spec {window unacked left n : ℕ} (hn : pieceLength window chunk unacked left = some n)
    (hleft : 0 < left) (hchunk : window ≠ 0 → 0 < chunk) : 0 < n ∧ n ≤ left ∧ (window ≠ 0 → unacked + n ≤ window) := by
  have hmin : (if chunk < left then chunk else left) = min chunk left := by
    split <;> omega
  have hfree : (if unacked < window then window - unacked else 0) = window - unacked := by
    split <;> omega
  simp only [pieceLength, hmin, hfree] at hn
  split at hn
  case isTrue hw =>
    obtain rfl := some.inj hn
    exact ⟨hleft, le_rfl, fun hne => absurd hw hne⟩
  case isFalse hw =>
    split at hn
    case isTrue =>
      split at hn
      case isTrue => cases hn
      case isFalse hpart =>
        obtain rfl := some.inj hn
        omega
    case isFalse =>
      obtain rfl := some.inj hn
      omega

variable {Q : Line} {S' : Sender β}

section

variable (h : ChannelInv C start message window sendBlocks recvBlocks S R line back sendPoison recvPoison d)

include h

/-- A lane posts a write of its next item. -/
theorem posts
    {e : Place} {laneItem laneBytes : ℕ → ℕ} {laneHeader : ℕ → Bool}
    (hS' : S' = { S with laneItem := laneItem, laneBytes := laneBytes, laneHeader := laneHeader })
    (hself : S'.place l = e) (hother : ∀ n, n ≠ l → S'.place n = S.place n)
    (hcarrying : Carrying C start message l (window l) (S.laneDone l) (d l) e Q)
    (hitem : e.item ≤ S.creditSeen + C.slots) (hposted : ∀ g, start ≤ g → g < e.item → C.Staged S g)
    (hbegun : 0 < e.bytes ∨ e.header = true → C.Staged S e.item ∧ e.item < S.creditSeen + C.slots) :
    ChannelInv C start message window sendBlocks recvBlocks S' R (update line l Q) back sendPoison recvPoison d := by
  have hplace : ∀ n, S'.laneItem n = (S'.place n).item ∧ S'.laneBytes n = (S'.place n).bytes ∧
      S'.laneHeader n = (S'.place n).header := fun n => ⟨rfl, rfl, rfl⟩
  have hstaged : ∀ g, C.Staged S' g ↔ C.Staged S g := by
    intro g
    rw [hS']
    rfl
  have hsent : S'.sent = S.sent := by rw [hS']
  have hseen : S'.creditSeen = S.creditSeen := by rw [hS']
  have hdone : S'.laneDone = S.laneDone := by rw [hS']
  have hcredit : S'.credit = S.credit := by rw [hS']
  constructor
  case staging =>
    rw [hS']
    exact h.staging.thread _ _ _ _ _ _
  case posting =>
    constructor
    case sent_le =>
      rw [hsent, hdone]
      exact h.posting.sent_le
    case item_le =>
      intro n hn
      rw [(hplace n).1, hseen]
      by_cases hnl : n = l
      · rw [hnl, hself]
        exact hitem
      · rw [hother n hnl]
        exact h.posting.item_le n hn
    case posted =>
      intro n hn g hg hlt
      rw [(hplace n).1] at hlt
      rw [hstaged]
      by_cases hnl : n = l
      · rw [hnl, hself] at hlt
        exact hposted g hg hlt
      · rw [hother n hnl] at hlt
        exact h.posting.posted n hn g hg hlt
    case begun =>
      intro n hn hb
      rw [(hplace n).2.1, (hplace n).2.2] at hb
      rw [hstaged, (hplace n).1, hseen]
      by_cases hnl : n = l
      · rw [hnl, hself] at hb ⊢
        exact hbegun hb
      · rw [hother n hnl] at hb ⊢
        exact h.posting.begun n hn hb
  case carrying =>
    intro n hn
    rw [hdone]
    by_cases hnl : n = l
    · subst hnl
      rw [hself, update_self]
      exact hcarrying
    · rw [hother n hnl, update_of_ne hnl]
      exact h.carrying n hn
  case landing => exact h.landing
  case taking => exact h.taking
  case seen_le =>
    rw [hseen, hcredit]
    exact h.seen_le
  case credits =>
    rw [hcredit]
    exact h.credits
  case credited_le => exact h.credited_le

/-- A lane posts bytes of its next item. -/
theorem piece (hl : l < C.lanes) (hchunk : window l ≠ 0 → 0 < chunk) (hs : C.piece (window l) chunk S (line l) l = some (S', Q)) :
    ChannelInv C start message window sendBlocks recvBlocks S' R (update line l Q) back sendPoison recvPoison d ∧
      ∃ w, w.item ≠ none ∧ Q.flying = (line l).flying ++ [w] := by
  simp only [Config.piece] at hs
  obtain ⟨hcond, hs⟩ := ite_none_right_eq_some.mp hs
  obtain ⟨hopen, hleft, hroom⟩ := hcond
  obtain ⟨n, hn, hpair⟩ := map_eq_some_iff.mp hs
  obtain ⟨rfl, rfl⟩ := Prod.mk.inj hpair
  obtain ⟨hready, -⟩ := Bool.and_eq_true_iff.mp hopen
  obtain ⟨hstaged, hfreed⟩ := h.ready_spec hl hready
  obtain ⟨hpos, hle, hwin⟩ := pieceLength_spec hn (Nat.sub_pos_of_lt hleft) hchunk
  have hstart : start ≤ S.laneItem l := (h.landing.start_le l hl).trans (h.carrying l hl).item_le
  obtain ⟨k, i, hi, hg⟩ := exists_number C message hstart
  obtain ⟨-, hstripe⟩ := h.next_spec hl hstaged hi hg
  have hend : (C.nextStripe S l).1 + (C.nextStripe S l).2 ≤ C.slotBytes := by
    rw [hstripe]
    have hpacks : itemPacks C.slotBytes (message k).length i ≤ C.slotBytes / 16 := itemPacks_le
    exact (stripe_end hl).trans (by omega)
  have hmax := C.slotBytesValid.2.2
  refine ⟨h.posts rfl (e := ⟨S.laneItem l, S.laneBytes l + n, S.laneHeader l⟩) ?_ ?_ ?_ ?_ ?_ ?_, _, ?_, rfl⟩
  · simp only [Sender.place, update_self]
  · intro m hm
    simp only [Sender.place, update_of_ne hm]
  · refine (h.carrying l hl).post hroom ?_ ?_ ?_ ?_
    · refine ⟨rfl, rfl, rfl, hpos, fun k' i' hi' hg' => ?_⟩
      obtain ⟨rfl, rfl⟩ := number_unique hi hi' (hg.trans hg'.symm)
      rw [hstripe] at hle ⊢
      change _ = _ + S.laneBytes l ∧ S.laneBytes l + n ≤ _
      omega
    · split <;> omega
    · rfl
    intro hw
    rw [if_pos hw]
    exact hwin hw
  · exact hfreed.le
  · exact h.posting.posted l hl
  · exact fun _ => ⟨hstaged, hfreed⟩
  · exact some_ne_none _

/-- The first lane posts the header of its next item. -/
theorem postHeader (hs : C.postHeader S (line 0) = some (S', Q)) :
    ChannelInv C start message window sendBlocks recvBlocks S' R (update line 0 Q) back sendPoison recvPoison d ∧
      ∃ w, w.item ≠ none ∧ Q.flying = (line 0).flying ++ [w] := by
  have hl : 0 < C.lanes := C.lanesValid.1
  simp only [Config.postHeader] at hs
  obtain ⟨hcond, hs⟩ := ite_none_right_eq_some.mp hs
  obtain ⟨hopen, -, -, hroom⟩ := hcond
  obtain ⟨rfl, rfl⟩ := Prod.mk.inj (some.inj hs)
  obtain ⟨hready, -⟩ := Bool.and_eq_true_iff.mp hopen
  obtain ⟨hstaged, hfreed⟩ := h.ready_spec hl hready
  refine ⟨h.posts rfl (e := ⟨S.laneItem 0, S.laneBytes 0, true⟩) ?_ ?_ ?_ ?_ ?_ ?_, _, ?_, rfl⟩
  · simp only [Sender.place, update_self]
  · intro m hm
    simp only [Sender.place, update_of_ne hm]
  · refine (h.carrying 0 hl).post hroom ⟨rfl, rfl, rfl, rfl, fun k i hi hg => ?_⟩ (by decide) rfl ?_
    · exact (h.next_spec hl hstaged hi hg).1
    · exact fun hw => (h.carrying 0 hl).window_le hw
  · exact hfreed.le
  · exact h.posting.posted 0 hl
  · exact fun _ => ⟨hstaged, hfreed⟩
  · exact some_ne_none _

/-- A lane posts the flag of its next item. -/
theorem postFlag (hl : l < C.lanes) (hs : C.postFlag S (line l) l = some (S', Q)) :
    ChannelInv C start message window sendBlocks recvBlocks S' R (update line l Q) back sendPoison recvPoison d ∧
      ∃ w, w.item ≠ none ∧ Q.flying = (line l).flying ++ [w] := by
  simp only [Config.postFlag] at hs
  obtain ⟨hcond, hs⟩ := ite_none_right_eq_some.mp hs
  obtain ⟨hopen, hall, hheader, hroom⟩ := hcond
  obtain ⟨rfl, rfl⟩ := Prod.mk.inj (some.inj hs)
  obtain ⟨hready, -⟩ := Bool.and_eq_true_iff.mp hopen
  obtain ⟨hstaged, hfreed⟩ := h.ready_spec hl hready
  refine ⟨h.posts rfl (e := ⟨S.laneItem l + 1, 0, false⟩) ?_ ?_ ?_ ?_ ?_ ?_, _, ?_, rfl⟩
  · simp only [Sender.place, update_self]
  · intro m hm
    simp only [Sender.place, update_of_ne hm]
  · refine (h.carrying l hl).post hroom ⟨rfl, rfl, rfl, rfl, ?_, fun k i hi hg => ?_⟩ (by decide) rfl ?_
    · intro hl0
      subst hl0
      exact hheader rfl
    · rw [(h.next_spec hl hstaged hi hg).2] at hall
      exact hall
    · exact fun hw => (h.carrying l hl).window_le hw
  · exact hfreed
  · intro g hg hlt
    rcases Nat.lt_or_ge g (S.laneItem l) with hlt' | hge
    · exact h.posting.posted l hl g hg hlt'
    · obtain rfl : g = S.laneItem l := Nat.le_antisymm (Nat.lt_succ_iff.mp hlt) hge
      exact hstaged
  · rintro (hb | hb)
    · exact absurd hb (Nat.lt_irrefl 0)
    · cases hb
  · exact some_ne_none _

/-- The thread reads a credit. -/
theorem readCredit {line' : ℕ → Line} (hs : C.readCredit S line = some (S', line')) :
    ChannelInv C start message window sendBlocks recvBlocks S' R line' back sendPoison recvPoison d ∧
      ∀ n, (line' n).flying = (line n).flying := by
  simp only [Config.readCredit] at hs
  split at hs
  case isTrue => cases hs
  case isFalse =>
    obtain ⟨rfl, rfl⟩ := Prod.mk.inj (some.inj hs)
    refine ⟨?_, fun n => ?_⟩
    rotate_left
    · dsimp only
      split <;> rfl
    constructor
    case staging => exact h.staging.thread _ _ _ _ _ _
    case posting =>
      exact
        { sent_le := h.posting.sent_le
          item_le := fun n hn => (h.posting.item_le n hn).trans (Nat.add_le_add_right h.seen_le _)
          posted := h.posting.posted
          begun := fun n hn hb => (h.posting.begun n hn hb).imp_right fun hlt =>
            hlt.trans_le (Nat.add_le_add_right h.seen_le _) }
    case carrying =>
      intro n hn
      rw [if_pos hn]
      obtain ⟨-, hreleased, -⟩ := h.seen_le_item hn
      have hcredit := (credits_le h.credits).trans h.credited_le
      have hcap := h.posting.item_le n hn
      have hseen := h.seen_le
      have hsent := h.item_le_sent hn
      have hdone := h.posting.sent_le n hn
      refine (h.carrying n hn).prove (by omega) ?_ ?_
      · change S.laneItem n ≤ _
        omega
      · change S.laneItem n ≤ _
        omega
    case landing => exact h.landing
    case taking => exact h.taking
    case seen_le => exact le_rfl
    case credits => exact h.credits
    case credited_le => exact h.credited_le

/-- Items completed lie within a ring of the items sent. -/
theorem done_near : ∀ n < C.lanes, S.sent ≤ S.laneDone n ∧ S.laneDone n ≤ S.sent + C.slots := by
  intro n hn
  have hitem := h.item_le_sent hn
  have hdone := (h.carrying n hn).done_le
  have hle := (h.carrying n hn).item_le
  refine ⟨h.posting.sent_le n hn, ?_⟩
  change (d n).item ≤ S.laneItem n at hle
  omega

/-- The thread publishes the items completed on all lanes. -/
theorem publish (hs : C.publish S = some S') :
    ChannelInv C start message window sendBlocks recvBlocks S' R line back sendPoison recvPoison d := by
  simp only [Config.publish] at hs
  split at hs
  case isTrue => cases hs
  case isFalse =>
    obtain rfl := some.inj hs
    obtain ⟨hle, hall, n, hn, heq⟩ := laneMin_spec h.done_near
    refine { h with staging := ?_, posting := ?_ }
    · refine h.staging.publish hle fun g hg hlt => h.posting.posted n hn g hg ?_
      have hdone := (h.carrying n hn).done_le
      have hitem : (d n).item ≤ S.laneItem n := (h.carrying n hn).item_le
      omega
    exact
      { sent_le := hall
        item_le := h.posting.item_le
        posted := h.posting.posted
        begun := h.posting.begun }

/-- The receiving rank returns a credit. -/
theorem credit :
    ChannelInv C start message window sendBlocks recvBlocks S { R with credited := R.released } line
      (back ++ [.credit R.released]) sendPoison recvPoison d :=
  { h with
    landing := h.landing.congr rfl rfl rfl le_rfl
    taking := { h.taking with stage := fun b hb => StageTakes.mono (h.taking.stage b hb) (fun _ _ => le_rfl) rfl }
    credits := credits_concat_credit h.credits h.credited_le
    credited_le := le_rfl }

/-- A credit of the opposite channel is posted on the first lane. -/
theorem lineCredit (hroom : (line 0).acks.room 1 = true) (value : ℕ) : ChannelInv C start message window sendBlocks recvBlocks S R
      (update line 0 ((line 0).post 0 (.credit value))) back sendPoison recvPoison d := by
  refine { h with carrying := fun n hn => ?_ }
  by_cases hn0 : n = 0
  · subst hn0
    exact (h.carrying 0 hn).postCredit hroom value
  · rw [update_of_ne hn0]
    exact h.carrying n hn

/-- The oldest write of a lane is delivered. -/
theorem deliver
    (hl : l < C.lanes) (hflying : (line l).flying = w :: ws) :
    ∃ d', ChannelInv C start message window sendBlocks recvBlocks S (R.land S l w)
      (update line l { line l with flying := ws, landed := (line l).landed ++ [w] }) back sendPoison recvPoison d' := by
  obtain ⟨q, hadvance, hcarry⟩ := (h.carrying l hl).deliver hflying
  obtain ⟨hle, -⟩ := advance_item hadvance
  have hreleased : ∀ n < C.lanes, R.released ≤ (d n).item := fun n hn => h.taking.released_le_item h.landing hn
  have hlanding : Landing C start message (R.land S l w) (update d l q) := by
    obtain ⟨hseen, -, -⟩ := h.seen_le_item hl
    cases w with
    | data =>
      obtain ⟨hfreed, hstaged, hsent⟩ := h.flying_spec hl hflying (some_ne_none _)
      refine h.landing.data hreleased hl hadvance (by omega) fun k i hi hg j hj => ?_
      obtain ⟨hbytes, -⟩ := h.staging.held k i hi (hg ▸ hstaged) (hg ▸ hsent)
      rw [hg] at hbytes
      exact hbytes j hj
    | header =>
      obtain ⟨hfreed, -, -⟩ := h.flying_spec hl hflying (some_ne_none _)
      exact h.landing.head hreleased hl hadvance (by omega) S
    | flag =>
      obtain ⟨hfreed, -, -⟩ := h.flying_spec hl hflying (some_ne_none _)
      exact h.landing.flag hl hadvance (by omega) S
    | credit =>
      obtain ⟨-, rfl⟩ := hadvance
      rw [update_eq_self]
      exact h.landing
  have hcredited : (R.land S l w).credited = R.credited ∧ (R.land S l w).released = R.released := by
    cases w <;> exact ⟨rfl, rfl⟩
  refine ⟨update d l q, ?_⟩
  constructor
  case staging => exact h.staging
  case posting => exact h.posting
  case carrying =>
    intro n hn
    by_cases hnl : n = l
    · subst hnl
      rw [update_self, update_self]
      exact hcarry
    · rw [update_of_ne hnl, update_of_ne hnl]
      exact h.carrying n hn
  case landing => exact hlanding
  case taking =>
    refine h.taking.mono (fun n _ => ?_) w S l
    by_cases hnl : n = l
    · rw [hnl, update_self]
      exact hle
    · rw [update_of_ne hnl]
  case seen_le => exact h.seen_le
  case credits =>
    rw [hcredited.1]
    exact h.credits
  case credited_le =>
    rw [hcredited.1, hcredited.2]
    exact h.credited_le

end

/-- The oldest write of the queue pair of the credits is delivered. -/
theorem backDeliver (h : ChannelInv C start message window sendBlocks recvBlocks S R line (w :: back) sendPoison recvPoison d) :
    ChannelInv C start message window sendBlocks recvBlocks (S.land w) R line back sendPoison recvPoison d := by
  cases w with
  | credit =>
    obtain ⟨hle, hrest⟩ := h.credits
    exact
      { h with
        staging := h.staging.thread _ _ _ _ _ _
        posting :=
          { sent_le := h.posting.sent_le
            item_le := h.posting.item_le
            posted := h.posting.posted
            begun := h.posting.begun }
        seen_le := h.seen_le.trans hle
        credits := hrest }
  | data | header | flag => exact { h with credits := h.credits }

/-- The oldest delivered write of a lane completes. -/
theorem complete (h : ChannelInv C start message window sendBlocks recvBlocks S R line back sendPoison recvPoison d)
    (hl : l < C.lanes) (hlanded : (line l).landed = w :: ws) :
    ChannelInv C start message window sendBlocks recvBlocks (S.complete l w) R (update line l (line l).complete) back
      sendPoison recvPoison d := by
  have hcarry := (h.carrying l hl).complete hlanded (S := S) rfl
  have hsame : ∃ laneDone, S.complete l w = { S with laneDone := laneDone } ∧ (∀ n, S.laneDone n ≤ laneDone n) ∧
      ∀ n, n ≠ l → laneDone n = S.laneDone n := by
    cases w with
    | flag =>
      refine ⟨_, rfl, fun n => ?_, fun n hn => update_of_ne hn _ _⟩
      by_cases hn : n = l
      · rw [hn, update_self]
        exact Nat.le_succ _
      · rw [update_of_ne hn]
    | data | header | credit => exact ⟨S.laneDone, rfl, fun _ => le_rfl, fun _ _ => rfl⟩
  obtain ⟨laneDone, hS', hgrows, hother⟩ := hsame
  rw [hS'] at hcarry ⊢
  constructor
  case staging => exact h.staging.thread _ _ _ _ _ _
  case posting =>
    exact
      { sent_le := fun n hn => (h.posting.sent_le n hn).trans (hgrows n)
        item_le := h.posting.item_le
        posted := h.posting.posted
        begun := h.posting.begun }
  case carrying =>
    intro n hn
    by_cases hnl : n = l
    · subst hnl
      rw [update_self]
      exact hcarry
    rw [update_of_ne hnl]
    dsimp only
    rw [hother n hnl]
    exact h.carrying n hn
  case landing => exact h.landing
  case taking => exact h.taking
  case seen_le => exact h.seen_le
  case credits => exact h.credits
  case credited_le => exact h.credited_le

/-- A write of an item is on the queue pair of the opposite channel's credits. -/
theorem backWrite (h : ChannelInv C start message window sendBlocks recvBlocks S R line back sendPoison recvPoison d) (hw : w.item ≠ none) :
    ChannelInv C start message window sendBlocks recvBlocks S R line (back ++ [w]) sendPoison recvPoison d :=
  { h with credits := credits_concat h.credits hw }

end ChannelInv

/-- What holds of both channels of two ranks. -/
def Inv (C : Config) (start : ℕ) (message : Bool → ℕ → List β) (s : State β) (d : Bool → ℕ → Place) : Prop :=
  ∀ c, ChannelInv C start (message c) (C.window c) (C.blocks c) (C.blocks !c) (s.sender c) (s.receiver c) (s.line c)
    (s.line (!c) 0).flying (s.poison c) (s.poison !c) (d c)

/-- A fact about a channel and the opposite one is about both. -/
theorem forall_channel {P : Bool → Prop} (c : Bool) (h : P c) (hother : P !c) : ∀ c, P c := by
  intro c'
  by_cases heq : c' = c
  · exact heq ▸ h
  · rw [Bool.eq_not_of_ne heq]
    exact hother

variable {messages : Bool → ℕ → List β} {s t : State β} {dd : Bool → ℕ → Place}

theorem inv_initial (C : Config) (start : ℕ) (messages : Bool → ℕ → List β) :
    Inv C start messages (initial C start messages) fun _ _ => ⟨start, 0, false⟩ := by
  intro c
  exact
    { staging := Staging.initial C start messages c
      posting :=
        { sent_le := fun _ _ => le_rfl
          item_le := fun _ _ => Nat.le_add_right _ _
          posted := fun _ _ g hg hlt => absurd hlt (Nat.not_lt.mpr hg)
          begun := fun _ _ hb => by
            rcases hb with hb | hb
            · exact absurd hb (Nat.lt_irrefl 0)
            · cases hb }
      carrying := fun l _ => Carrying.initial l _
      landing := Landing.initial C start messages c
      taking := Taking.initial C start messages c
      seen_le := le_rfl
      credits := rfl
      credited_le := le_rfl }

/-- A lane posts a write of an item; its queue pair also carries the opposite channel's
credits. -/
theorem Inv.posts (h : Inv C start messages s dd) {c : Bool} {l : ℕ} {S : Sender β} {Q : Line}
    (hinv : ChannelInv C start (messages c) (C.window c) (C.blocks c) (C.blocks !c) S (s.receiver c)
      (update (s.line c) l Q) (s.line (!c) 0).flying (s.poison c) (s.poison !c) (dd c) ∧
      ∃ w, w.item ≠ none ∧ Q.flying = (s.line c l).flying ++ [w]) : Inv C start messages ((s.setSender c S).setLine c l Q) dd := by
  obtain ⟨hinv, w, hw, hflying⟩ := hinv
  refine forall_channel c ?_ ?_
  · simpa [State.setLine] using hinv
  have hother := h !c
  by_cases hl : l = 0
  · subst hl
    simpa [State.setLine, hflying] using hother.backWrite hw
  · simpa [State.setLine, update_of_ne (Ne.symm hl)] using hother

/-- A step keeps the invariant. -/
theorem Inv.step (h : Inv C start messages s dd) {a : Action} (ha : Channel.step C start messages s a = some t) :
    ∃ dd', Inv C start messages t dd' := by
  have hblocks := C.blocksValid
  cases a with
  | isend c =>
    obtain rfl := some.inj ha
    refine ⟨dd, forall_channel c ?_ ?_⟩
    · simpa using (h c).staged (h c).staging.isend ⟨⟨_, _, _, _, _, _, rfl⟩, fun _ => le_rfl⟩
    · simpa using h !c
  | send c b p =>
    obtain ⟨S, hS, rfl⟩ := map_eq_some_iff.mp ha
    obtain ⟨hstaging, hsame⟩ := (h c).staging.send (hblocks c).2 hS
    refine ⟨dd, forall_channel c ?_ ?_⟩
    · simpa using (h c).staged hstaging hsame
    · simpa using h !c
  | endSend c =>
    obtain ⟨S, hS, rfl⟩ := map_eq_some_iff.mp ha
    simp only [Config.endSend] at hS
    obtain ⟨hgone, rfl⟩ := ite_some_none_eq_some.mp hS
    refine ⟨dd, forall_channel c ?_ ?_⟩
    · simpa using (h c).staged ((h c).staging.finish (hblocks c).1 hgone.1 hgone.2) ⟨⟨_, _, _, _, _, _, rfl⟩, fun _ => le_rfl⟩
    · simpa using h !c
  | irecv c =>
    obtain rfl := some.inj ha
    refine ⟨dd, forall_channel c ?_ ?_⟩
    · simpa using (h c).taken (h c).taking.irecv ((h c).landing.congr rfl rfl rfl le_rfl) rfl le_rfl
    · simpa using h !c
  | recv c b p =>
    obtain ⟨⟨R, poison⟩, hR, rfl⟩ := map_eq_some_iff.mp ha
    obtain ⟨htaking, ⟨⟨block, out, consumed, rfl⟩, -⟩, hpoison⟩ := (h c).taking.recv (h c).landing (hblocks !c).2 hR
    refine ⟨dd, forall_channel c ?_ ?_⟩
    · simpa using (h c).taken htaking ((h c).landing.congr rfl rfl rfl le_rfl) rfl le_rfl
    have hother := h !c
    cases hp : poison with
    | true => simpa using hother.failSend
    | false =>
      have hclear : s.poison (!c) = false := by
        cases hsp : s.poison (!c) with
        | false => rfl
        | true => exact absurd (hpoison hsp) (by rw [hp]; exact Bool.false_ne_true)
      simpa [hclear] using hother
  | endRecv c =>
    obtain ⟨R, hR, rfl⟩ := map_eq_some_iff.mp ha
    simp only [Config.endRecv] at hR
    obtain ⟨hgone, rfl⟩ := ite_some_none_eq_some.mp hR
    refine ⟨dd, forall_channel c ?_ ?_⟩
    · simpa using (h c).taken ((h c).taking.finish (hblocks !c).1 hgone.1 hgone.2)
        ((h c).landing.congr rfl rfl rfl le_rfl) rfl le_rfl
    · simpa using h !c
  | readCredit c =>
    obtain ⟨⟨S, line⟩, hS, rfl⟩ := map_eq_some_iff.mp ha
    obtain ⟨hinv, hflying⟩ := (h c).readCredit hS
    refine ⟨dd, forall_channel c ?_ ?_⟩
    · simpa using hinv
    · have hother := h !c
      simpa [hflying 0] using hother
  | piece c l =>
    simp only [Channel.step] at ha
    obtain ⟨hl, ha⟩ := ite_none_right_eq_some.mp ha
    obtain ⟨⟨S, Q⟩, hS, rfl⟩ := map_eq_some_iff.mp ha
    exact ⟨dd, h.posts ((h c).piece hl (fun hw => (show 0 < 16 by decide).trans_le (ChannelInv.window_spec hl hw).1) hS)⟩
  | header c =>
    obtain ⟨⟨S, Q⟩, hS, rfl⟩ := map_eq_some_iff.mp ha
    exact ⟨dd, h.posts ((h c).postHeader hS)⟩
  | flag c l =>
    simp only [Channel.step] at ha
    obtain ⟨hl, ha⟩ := ite_none_right_eq_some.mp ha
    obtain ⟨⟨S, Q⟩, hS, rfl⟩ := map_eq_some_iff.mp ha
    exact ⟨dd, h.posts ((h c).postFlag hl hS)⟩
  | oversize c l =>
    simp only [Channel.step] at ha
    obtain ⟨-, rfl⟩ := ite_some_none_eq_some.mp ha
    refine ⟨dd, forall_channel c ?_ ?_⟩
    · simpa using (h c).failSend
    · simpa using (h !c).failRecv
  | publish c =>
    obtain ⟨S, hS, rfl⟩ := map_eq_some_iff.mp ha
    refine ⟨dd, forall_channel c ?_ ?_⟩
    · simpa using (h c).publish hS
    · simpa using h !c
  | release c =>
    obtain ⟨R, hR, rfl⟩ := map_eq_some_iff.mp ha
    obtain ⟨htaking, hlanding⟩ := (h c).taking.release (h c).landing hR
    have hsame : R.credited = (s.receiver c).credited ∧ (s.receiver c).released ≤ R.released := by
      simp only [Config.release] at hR
      obtain ⟨-, rfl⟩ := ite_some_none_eq_some.mp hR
      exact ⟨rfl, Nat.le_succ _⟩
    refine ⟨dd, forall_channel c ?_ ?_⟩
    · simpa using (h c).taken htaking hlanding hsame.1 hsame.2
    · simpa using h !c
  | giveCredit c =>
    obtain ⟨⟨R, Q⟩, hR, rfl⟩ := map_eq_some_iff.mp ha
    simp only [giveCredit] at hR
    obtain ⟨hcond, hR⟩ := ite_none_right_eq_some.mp hR
    obtain ⟨rfl, rfl⟩ := Prod.mk.inj (some.inj hR)
    refine ⟨dd, forall_channel c ?_ ?_⟩
    · simpa [State.setLine, Line.post] using (h c).credit
    · have hother := (h !c).lineCredit hcond.2 (s.receiver c).released
      simpa [State.setLine] using hother
  | deliver c l =>
    simp only [Channel.step] at ha
    obtain ⟨hl, ha⟩ := ite_none_right_eq_some.mp ha
    cases hflying : (s.line c l).flying with
    | nil =>
      rw [hflying] at ha
      cases ha
    | cons w ws =>
      rw [hflying] at ha
      obtain rfl := some.inj ha
      obtain ⟨d', hinv⟩ := (h c).deliver hl hflying
      refine ⟨update dd c d', forall_channel c ?_ ?_⟩
      · simpa [State.setLine] using hinv
      have hother := h !c
      simp only [Bool.not_not] at hother ⊢
      by_cases hl0 : l = 0
      · subst hl0
        rw [hflying] at hother
        simpa [State.setLine, update_of_ne (Bool.not_ne_self c)] using hother.backDeliver
      have hpath := ((h c).carrying l hl).flying
      rw [hflying] at hpath
      obtain ⟨q, hadvance, -⟩ := hpath
      have hland : (s.sender !c).land w = s.sender !c := by
        cases w with
        | credit => exact absurd hadvance.1 hl0
        | _ => rfl
      simpa [State.setLine, hland, update_of_ne (Ne.symm hl0), update_of_ne (Bool.not_ne_self c)]
        using hother
  | complete c l =>
    simp only [Channel.step] at ha
    obtain ⟨hl, ha⟩ := ite_none_right_eq_some.mp ha
    cases hlanded : (s.line c l).landed with
    | nil =>
      rw [hlanded] at ha
      cases ha
    | cons =>
      rw [hlanded] at ha
      obtain rfl := some.inj ha
      refine ⟨dd, forall_channel c ?_ ?_⟩
      · simpa [State.setLine] using (h c).complete hl hlanded
      have hother := h !c
      by_cases hl0 : l = 0
      · subst hl0
        simpa [State.setLine, Line.complete] using hother
      · simpa [State.setLine, update_of_ne (Ne.symm hl0)] using hother
  | fail r =>
    obtain rfl := some.inj ha
    refine ⟨dd, forall_channel r ?_ ?_⟩
    · simpa using (h r).failSend
    · simpa using (h !r).failRecv

end SparkRing.Channel
