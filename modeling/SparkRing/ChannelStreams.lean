import SparkRing.ChannelInvariant

/-!
# Channels are streams of messages

Over every interleaving of launches, progress threads and queue pairs, a receive that
finishes without a failure holds its message, no slot is written while an item needs it,
and the entries of a queue pair are accounted for.
-/

namespace SparkRing.Channel

open TransitionSystem
open Option (some.inj)

variable {β : Type*} [Zero β] {C : Config} {start : ℕ} {messages : Bool → ℕ → List β} {s : State β} {c : Bool}

theorem reachable_inv {good : State β → Action → Prop}
    (h : Reachable (step C start messages) good (initial C start messages) s) : ∃ d, Inv C start messages s d :=
  h.invariant (fun s => ∃ d, Inv C start messages s d) ⟨_, inv_initial C start messages⟩
    fun _ _ _ _ hinv _ hstep => by
      obtain ⟨d, hinv⟩ := hinv
      exact hinv.step hstep

/-- The item that a block is writing into its send slot. -/
def SendStage.writes : SendStage → Option ℕ
  | copying i _ | heading i | raising i => some i
  | waiting _ | checking _ | gone => none

def Write.slot : Write → Option ℕ
  | data _ m _ _ | header _ m _ | flag _ m _ => some m
  | credit _ => none

variable {d : ℕ → Place} {window : ℕ → ℕ} {sendBlocks recvBlocks : ℕ} {S : Sender β} {R : Receiver β} {line : ℕ → Line}
  {back : List Write} {sendPoison recvPoison : Bool} {message : ℕ → List β} {l : ℕ}

namespace ChannelInv

/-- Every byte of a message of a receive that finished is in its buffer. -/
theorem received (h : ChannelInv C start message window sendBlocks recvBlocks S R line back sendPoison false d) {k : ℕ}
    (hk : k < R.finished) : (List.range (message k).length).map (R.out k) = message k := by
  refine List.ext_getElem (by rw [List.length_map, List.length_range]) fun j _ hj => ?_
  rw [List.getElem_map, List.getElem_range]
  have hpos := C.slotBytesValid.1
  obtain ⟨hitem, hbyte⟩ := byte_item (by have := C.slotBytesValid.2.1; omega) hpos hj
  have hpassed : C.RecvPassed start message recvBlocks R (C.number start message k (j / C.slotBytes)) :=
    ⟨k, j / C.slotBytes, hitem, rfl, .inl hk⟩
  have hcopied := h.taking.copied k (j / C.slotBytes) hitem (h.taking.passed_consumed rfl _ hpassed) (j % C.slotBytes) hbyte
  have hj' : j / C.slotBytes * C.slotBytes + j % C.slotBytes = j := by
    rw [Nat.mul_comm]
    exact Nat.div_add_mod j C.slotBytes
  simp only [itemBytes, hj'] at hcopied
  rw [hcopied]
  exact List.getD_eq_getElem _ _ hj

/-- A write lands in a receive slot whose earlier items are all consumed. -/
theorem lands_freed (h : ChannelInv C start message window sendBlocks recvBlocks S R line back sendPoison recvPoison d)
    (hl : l < C.lanes) {w : Write} {ws : List Write} (hflying : (line l).flying = w :: ws) {g m a : ℕ}
    (hg : w.item = some g) (hm : w.slot = some m) (ha : start ≤ a) (hlt : a < g) (hidx : C.index a = m) : C.Consumed R a := by
  have hitem : w.item ≠ none := by
    rw [hg]
    exact Option.some_ne_none g
  obtain ⟨hfreed, -, -⟩ := h.flying_spec hl hflying hitem
  obtain ⟨hseen, -, -⟩ := h.seen_le_item hl
  have hpath := (h.carrying l hl).flying
  rw [hflying] at hpath
  obtain ⟨q, hadvance, -⟩ := hpath
  have hgd := (advance_item hadvance).2 g hg
  have hgm : m = C.index g := by
    cases w with
    | data =>
      obtain rfl := some.inj hg
      obtain rfl := some.inj hm
      exact hadvance.2.1
    | header =>
      obtain rfl := some.inj hg
      obtain rfl := some.inj hm
      exact hadvance.2.2.1
    | flag =>
      obtain rfl := some.inj hg
      obtain rfl := some.inj hm
      exact hadvance.2.1
    | credit => cases hg
  have hring := Config.add_slots_le (hidx.trans hgm) hlt
  exact h.taking.released_consumed a ha (by omega)

/-- A block restages a slot whose earlier items have completed on all lanes. -/
theorem restages_completed (h : ChannelInv C start message window sendBlocks recvBlocks S R line back sendPoison recvPoison d)
    {b i a : ℕ} (hb : b < sendBlocks) (hwrites : (S.block b).writes = some i)
    (hlt : a < C.number start message S.finished i) (hidx : C.index a = C.index (C.number start message S.finished i))
    (hl : l < C.lanes) : a < S.laneDone l ∧ ∀ w ∈ (line l).landed ++ (line l).flying, w.item ≠ some a := by
  have hadmitted : C.Admitted S (C.number start message S.finished i) := by
    have hstage := h.staging.stage b hb
    cases hblock : S.block b with
    | copying | heading | raising =>
      rw [hblock] at hstage hwrites
      obtain rfl := some.inj hwrites
      exact hstage.1
    | waiting | checking | gone =>
      rw [hblock] at hwrites
      cases hwrites
  have hring := Config.add_slots_le hidx hlt
  have hdone := h.posting.sent_le l hl
  simp only [Config.Admitted] at hadmitted
  have hcompleted : a < S.laneDone l := by omega
  refine ⟨hcompleted, fun w hw hwa => ?_⟩
  obtain ⟨p, hp, hpath⟩ := (h.carrying l hl).landed
  have hall : C.Path start message l p ((line l).landed ++ (line l).flying) (S.place l) :=
    path_append.mpr ⟨d l, hpath, (h.carrying l hl).flying⟩
  have hle := ((path_items hall).2 w hw a hwa).1
  omega

/-- After its first lane's flag, a receive block reads the header of its item. -/
theorem reads_header (h : ChannelInv C start message window sendBlocks recvBlocks S R line back sendPoison false d)
    {b i : ℕ} {pending : List ℕ} (hb : b < recvBlocks) (hblock : R.block b = .waiting i pending) (hflag : 0 ∉ pending) :
    R.header (C.index (C.number start message R.finished i)) = itemHeader C.slotBytes (message R.finished).length i := by
  have hcur : R.cur b = some i := by simp only [Receiver.cur, hblock, RecvStage.item]
  have hstage := h.taking.stage b hb
  rw [hblock] at hstage
  have hdelivered := hstage.2.resolve_left Bool.false_ne_true 0 C.lanesValid.1 hflag
  exact h.landing.header _ i (h.taking.aligned b hb i hcur).2 (h.taking.released_le hb hcur) (.inl hdelivered)

end ChannelInv

/-- In every reachable state of two ranks and on either channel: a receive that finished
with the poison word clear holds its message; the next write of an item to land finds the
earlier items of its slot consumed; a block that restages a slot finds the earlier items
of the slot completed on all lanes, none of their writes in flight; and behind its first
lane's flag a receive block finds the header of its item. -/
theorem channels_are_streams (h : Reachable (step C start messages) Unrestricted (initial C start messages) s) (c : Bool) :
    (∀ k < (s.receiver c).finished, s.poison (!c) = false →
      (List.range (messages c k).length).map ((s.receiver c).out k) = messages c k) ∧
    (∀ l < C.lanes, ∀ w ws, (s.line c l).flying = w :: ws → ∀ g m, w.item = some g → w.slot = some m →
      ∀ a, start ≤ a → a < g → C.index a = m → C.Consumed (s.receiver c) a) ∧
    (∀ b < C.blocks c, ∀ i, ((s.sender c).block b).writes = some i →
      ∀ a < C.number start (messages c) (s.sender c).finished i,
      C.index a = C.index (C.number start (messages c) (s.sender c).finished i) →
      ∀ l < C.lanes, a < (s.sender c).laneDone l ∧ ∀ w ∈ (s.line c l).landed ++ (s.line c l).flying, w.item ≠ some a) ∧
    ∀ b < C.blocks !c, ∀ i pending, (s.receiver c).block b = .waiting i pending → 0 ∉ pending → s.poison (!c) = false →
      (s.receiver c).header (C.index (C.number start (messages c) (s.receiver c).finished i)) =
        itemHeader C.slotBytes (messages c (s.receiver c).finished).length i := by
  obtain ⟨d, hinv⟩ := reachable_inv h
  have hc := hinv c
  refine ⟨fun k hk hclear => ?_, fun l hl w ws hflying g m hg hm a ha hlt hidx => ?_,
    fun b hb i hwrites a hlt hidx l hl => ?_, fun b hb i pending hblock hflag hclear => ?_⟩
  · rw [hclear] at hc
    exact hc.received hk
  · exact hc.lands_freed hl hflying hg hm ha hlt hidx
  · exact hc.restages_completed hb hwrites hlt hidx hl
  · rw [hclear] at hc
    exact hc.reads_header hb hblock hflag

/-- Channels of one lane with a forward window and two slots of one page, and launches of
one block. -/
def narrow : Config where
  lanes := 1
  slots := 2
  slotBytes := 4096
  blocks _ := 1
  window _ _ := 65536
  chunk _ := 32768
  lanesValid := by decide
  slotsValid := by decide
  slotBytesValid := by decide
  blocksValid _ := by decide
  windowsValid _ := ⟨some fun _ => 65536, by
    simp only [setWindows]
    rw [if_neg (by decide), if_neg]
    rintro ⟨l, -, -, hbad⟩
    revert hbad
    decide⟩

/-- One message of three bytes from rank `false`. -/
def greeting (c : Bool) (k : ℕ) : List ℕ := if c = false ∧ k = 0 then [7, 8, 9] else []

/-- The message is launched on both ends, staged and posted. -/
def postGreeting : List Action :=
  [.isend false, .irecv false] ++ (List.replicate 6 (.send false 0 0)) ++ [.piece false 0, .header false, .flag false 0]

/-- It is delivered and copied out. -/
def takeGreeting : List Action :=
  List.replicate 3 (.deliver false 0) ++ List.replicate 5 (.recv false 0 0) ++ [.endRecv false]

/-- The last item of the 32-bit counter arrives as sent. -/
theorem channels_are_streams_greeting :
    ∃ s, Reachable (step narrow (2 ^ 32 - 1) greeting) Unrestricted (initial narrow (2 ^ 32 - 1) greeting) s ∧
      (s.receiver false).finished = 1 ∧ (List.range 3).map ((s.receiver false).out 0) = [7, 8, 9] := by
  obtain ⟨s, hs, hp⟩ := Reachable.exists_of_runs (step narrow (2 ^ 32 - 1) greeting) (initial narrow (2 ^ 32 - 1) greeting)
    (postGreeting ++ takeGreeting) (fun s => (s.receiver false).finished == 1 && !s.poison true) (by decide +kernel)
  rw [Bool.and_eq_true, beq_iff_eq, Bool.not_eq_true'] at hp
  refine ⟨s, hs, hp.1, ?_⟩
  exact (channels_are_streams hs false).1 0 (by rw [hp.1]; exact Nat.zero_lt_one) hp.2

/-- In every reachable state of two ranks and on every queue pair of a lane: the counter
of unacknowledged bytes is the sum over the entries in flight that no credit proved, so
taking an entry's bytes never underflows it; it keeps within the lane's window; at most
128 requests are in flight, so a further one overwrites no entry; the entries are those of
the writes in flight in order, and the entry that a completion pops is its own; and what a
credit proved has landed. -/
theorem windows_hold (h : Reachable (step C start messages) Unrestricted (initial C start messages) s) (c : Bool)
    {l : ℕ} (hl : l < C.lanes) :
    (s.line c l).acks.unacked = unproven (s.line c l).acks.inFlight ∧
    (∀ a ∈ (s.line c l).acks.inFlight, a.proven = false → a.bytes ≤ (s.line c l).acks.unacked) ∧
    (C.window c l ≠ 0 → (s.line c l).acks.unacked ≤ C.window c l) ∧
    (s.line c l).acks.ring.count ≤ 128 ∧
    (∀ bytes item kind, ((s.line c l).acks.push bytes item kind).inFlight =
      (s.line c l).acks.inFlight ++ [⟨bytes, item, kind, false⟩]) ∧
    (s.line c l).acks.inFlight.map Ack.request =
      ((s.line c l).landed ++ (s.line c l).flying).map (Write.request (C.window c l)) ∧
    (∀ w ws, (s.line c l).landed = w :: ws → ∃ a, (s.line c l).acks.inFlight = a :: (s.line c l).acks.pop.inFlight ∧
      a.request = w.request (C.window c l)) ∧
    ∀ k a, (s.line c l).acks.inFlight[k]? = some a → a.proven = true → k < (s.line c l).landed.length := by
  obtain ⟨d, hinv⟩ := reachable_inv h
  have hcarry := (hinv c).carrying l hl
  refine ⟨hcarry.accounted.unacked, fun a ha hproven => ?_, hcarry.window_le, hcarry.accounted.room,
    fun bytes item kind => ?_, hcarry.ids, fun w ws hlanded => hcarry.oldest hlanded, fun k a hk hproven => ?_⟩
  · rw [hcarry.accounted.unacked]
    exact bytes_le_unproven ha hproven
  · refine inFlight_push (lt_of_le_of_lt hcarry.accounted.room ?_)
    decide
  · exact hcarry.landed_of_proven hk hproven

/-- The window holds the 16 bytes posted of the message. -/
theorem windows_hold_greeting :
    ∃ s, Reachable (step narrow (2 ^ 32 - 1) greeting) Unrestricted (initial narrow (2 ^ 32 - 1) greeting) s ∧
      (s.line false 0).acks.unacked = 16 ∧ unproven (s.line false 0).acks.inFlight = 16 := by
  obtain ⟨s, hs, hp⟩ := Reachable.exists_of_runs (step narrow (2 ^ 32 - 1) greeting) (initial narrow (2 ^ 32 - 1) greeting)
    postGreeting (fun s => (s.line false 0).acks.unacked == 16) (by decide +kernel)
  rw [beq_iff_eq] at hp
  exact ⟨s, hs, hp, (windows_hold hs false (show 0 < narrow.lanes by decide)).1.symm.trans hp⟩

end SparkRing.Channel
