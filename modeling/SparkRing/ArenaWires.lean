import SparkRing.ArenaPosting

/-!
# What a queue pair carries

The writes of a queue pair, landed or not, are packs and flags of released phases.
A stripe's flag follows all its packs, and nothing of its phase follows it.
-/

namespace SparkRing.ArenaWires

open ArenaSession ArenaPlan ArenaKernel ArenaPosting

variable {c : Config} {P : Program c} {r m k p lane n : ℕ} {d e : Device} {h g : Host} {ws vs : List Write} {a : Act}

/-- Every write of a queue pair, oldest first. -/
def wire (h : Host) (p lane : ℕ) : List Write := h.landed p lane ++ h.queue p lane

/-- Nothing of a phase follows its flag. -/
def Follows : Write → Write → Prop
  | .data .., _ => True
  | .flag m k _, w => ¬(w.op = m ∧ w.phase = k)

/-- A write lies in the stripe of its phase, or in its flag line. -/
def Fits (P : Program c) (r p lane : ℕ) : Write → Prop
  | .data m k first count => ∀ x, first ≤ x → x < first + count → InStripe c (P.op m) r k p lane x
  | .flag m k line => line = flagLine c (ns c (P.op m) k) r (m % slots) lane

/-- A pack of a phase was written. -/
def Covered (ws : List Write) (m k x : ℕ) : Prop :=
  ∃ first count, .data m k first count ∈ ws ∧ first ≤ x ∧ x < first + count

/-- What holds of the queue pair of a peer and lane. -/
structure WireInv (P : Program c) (r : ℕ) (d : Device) (h : Host) (p lane : ℕ) (ws : List Write) : Prop where
  /-- Only released phases are written. -/
  rang : ∀ w ∈ ws, Rang P d w.op w.phase
  peer : ∀ w ∈ ws, p ∈ peers c (P.op w.op) r w.phase
  lane_lt : ∀ w ∈ ws, lane < c.laneCount
  /-- Only phases the thread took are written. -/
  taken : ∀ w ∈ ws, Taken h w.op w.phase
  /-- Writes stay in their stripe and flag line. -/
  fits : ∀ w ∈ ws, Fits P r p lane w
  /-- Nothing of a phase follows its flag. -/
  closed : ws.Pairwise Follows
  /-- All packs of a stripe come with its flag. -/
  covered : ∀ m k line, .flag m k line ∈ ws → ∀ x, InStripe c (P.op m) r k p lane x → Covered ws m k x
  /-- The flag of a stripe still to post is not written, its packs are up to its first. -/
  pending : ∀ m k todo more, h.thread = .posting m k todo more → ∀ st ∈ todo, st.peer = p → st.lane = lane →
    (∀ line, .flag m k line ∉ ws) ∧ ∀ x, InStripe c (P.op m) r k p lane x → x < st.first → Covered ws m k x
  /-- A phase being posted has written the flag, or still has the stripe. -/
  kept : ∀ m k todo more, h.thread = .posting m k todo more → p ∈ peers c (P.op m) r k → lane < c.laneCount →
    (∃ line, .flag m k line ∈ ws) ∨ ∃ st ∈ todo, st.peer = p ∧ st.lane = lane

theorem Covered.append {x : ℕ} (hc : Covered ws m k x) (w : Write) : Covered (ws ++ [w]) m k x := by
  obtain ⟨first, count, hmem, hx⟩ := hc
  exact ⟨first, count, List.mem_append_left _ hmem, hx⟩

theorem initial_inv : WireInv P r d Rank.initial.host p lane (wire Rank.initial.host p lane) := by
  refine ⟨by simp [wire, Rank.initial], by simp [wire, Rank.initial], by simp [wire, Rank.initial],
    by simp [wire, Rank.initial], by simp [wire, Rank.initial], List.Pairwise.nil,
    by simp [wire, Rank.initial], ?_, ?_⟩ <;> simp [Rank.initial]

theorem WireInv.mono (hw : WireInv P r d h p lane ws) (hg : Grown P d e) : WireInv P r e h p lane ws :=
  { hw with rang := fun w hmem => hg.rang (hw.rang w hmem) }

/-- Nothing changes on a queue pair while no phase is being posted. -/
theorem WireInv.rests (hw : WireInv P r d h p lane ws) (ht : ∀ i j, Taken h i j → Taken g i j)
    (hg : ∀ m k todo more, g.thread ≠ .posting m k todo more) : WireInv P r d g p lane ws :=
  { hw with
    taken := fun w hmem => ht _ _ (hw.taken w hmem)
    pending := fun _ _ _ _ hp => absurd hp (hg _ _ _ _)
    kept := fun _ _ _ _ hp => absurd hp (hg _ _ _ _) }

/-- A phase that starts has written nothing. -/
theorem WireInv.starts (hw : WireInv P r d h p lane ws) (hs : Starts P r d h g m k) : WireInv P r d g p lane ws := by
  obtain ⟨more, hg⟩ := hs.thread
  have hth : g.thread = .posting m k (stripes c (P.op m) r k) more := by rw [hg]; rfl
  refine { hw with taken := fun w hmem => hs.taken (hw.taken w hmem), pending := ?_, kept := ?_ }
  · intro i j todo more' hp st hst hpeer hlane
    rw [hth] at hp
    cases hp
    constructor
    · intro line hmem
      exact hs.fresh (hw.taken _ hmem)
    intro x hx hlt
    obtain ⟨q, -, l, -, rfl⟩ := mem_stripes.mp hst
    cases hpeer
    cases hlane
    exact absurd hlt (Nat.not_lt.mpr hx.1)
  · intro i j todo more' hp hpeer hlane
    rw [hth] at hp
    cases hp
    exact .inr ⟨planned c (P.op m) r k p lane, mem_stripes.mpr ⟨p, hpeer, lane, hlane, rfl⟩, rfl, rfl⟩

variable {todo : List Stripe} {more : Option ℕ} {st : Stripe}

/-- Two stripes still to post go to different queue pairs. -/
theorem eq_of_key (hnodup : (todo.map key).Nodup) {a b : Stripe} (ha : a ∈ todo) (hb : b ∈ todo)
    (hpeer : a.peer = b.peer) (hlane : a.lane = b.lane) : a = b :=
  List.inj_on_of_nodup_map hnodup ha hb (by simp [key, hpeer, hlane])

/-- A stripe that is posted leaves the other queue pairs alone. -/
theorem WireInv.other {todo' : List Stripe} (hw : WireInv P r d h p lane ws)
    (hth : h.thread = .posting m k todo more) (gth : g.thread = .posting m k todo' more) (hnew : ∀ j, newest g j = newest h j)
    (htodo : ∀ a, a.peer = p → a.lane = lane → (a ∈ todo' ↔ a ∈ todo)) : WireInv P r d g p lane ws := by
  refine { hw with
    taken := fun w hmem => taken_of_posting hth gth (hnew _) (hw.taken w hmem), pending := ?_, kept := ?_ }
  · intro i j todo'' more' hp a ha hpeer hlane
    rw [gth] at hp
    cases hp
    exact hw.pending m k todo more hth a ((htodo a hpeer hlane).mp ha) hpeer hlane
  intro i j todo'' more' hp hpeer hlane
  rw [gth] at hp
  cases hp
  rcases hw.kept m k todo more hth hpeer hlane with hflag | ⟨a, ha, hap, hal⟩
  · exact .inl hflag
  · exact .inr ⟨a, (htodo a hap hal).mpr ha, hap, hal⟩

section

variable (hw : WireInv P r d h st.peer st.lane ws)

include hw

section

variable (hth : h.thread = .posting m k todo more)

include hth

/-- A write of the phase being posted joins the queue pair of a stripe still to
post. -/
theorem WireInv.join {w : Write} (hst : st ∈ todo) (hop : w.op = m) (hphase : w.phase = k)
    (hrang : Rang P d m k) (hpart : Part c (P.op m) r k st) (hfits : Fits P r st.peer st.lane w) :
    (∀ v ∈ ws ++ [w], Rang P d v.op v.phase) ∧
      (∀ v ∈ ws ++ [w], st.peer ∈ peers c (P.op v.op) r v.phase) ∧ (∀ v ∈ ws ++ [w], st.lane < c.laneCount) ∧
      (∀ v ∈ ws ++ [w], Taken h v.op v.phase) ∧ (∀ v ∈ ws ++ [w], Fits P r st.peer st.lane v) ∧ (ws ++ [w]).Pairwise Follows := by
  have hnone := (hw.pending m k todo more hth st hst rfl rfl).1
  have hall : ∀ {Q : Write → Prop}, (∀ v ∈ ws, Q v) → Q w → ∀ v ∈ ws ++ [w], Q v := by
    intro Q hold hnewQ v hv
    rcases List.mem_append.mp hv with hv | hv
    · exact hold v hv
    · rw [List.mem_singleton.mp hv]
      exact hnewQ
  refine ⟨hall hw.rang ?_, hall hw.peer ?_, hall hw.lane_lt hpart.lane, hall hw.taken ?_, hall hw.fits hfits, ?_⟩
  · rw [hop, hphase]
    exact hrang
  · rw [hop, hphase]
    exact hpart.peer
  · rw [hop, hphase]
    exact .inr ⟨todo, more, hth⟩
  rw [List.pairwise_append]
  refine ⟨hw.closed, List.pairwise_singleton _ _, ?_⟩
  intro v hv u hu
  rw [List.mem_singleton.mp hu]
  cases v with
  | data => trivial
  | flag i j line =>
    rintro ⟨hi, hj⟩
    rw [hop] at hi
    rw [hphase] at hj
    exact hnone line (hi ▸ hj ▸ hv)

/-- Packs of a stripe are written. -/
theorem WireInv.postData (hst : st ∈ todo) (hn : n ≤ st.count)
    (hrang : Rang P d m k) (hpart : Part c (P.op m) r k st) (hnodup : (todo.map key).Nodup)
    (gth : g.thread = .posting m k (rest st n :: todo.erase st) more) (hnew : ∀ j, newest g j = newest h j) :
    WireInv P r d g st.peer st.lane (ws ++ [.data m k st.first n]) := by
  have hfits : Fits P r st.peer st.lane (.data m k st.first n) := by
    intro x hlo hhi
    have hfirst := hpart.first
    have hlast := hpart.last
    exact ⟨hfirst.trans hlo, by omega⟩
  obtain ⟨hrang', hpeer', hlane', htaken', hfits', hclosed'⟩ :=
    hw.join hth hst rfl rfl hrang hpart hfits
  have hpend := hw.pending m k todo more hth st hst rfl rfl
  refine ⟨hrang', hpeer', hlane', fun w hmem => taken_of_posting hth gth (hnew _) (htaken' w hmem), hfits',
    hclosed', ?_, ?_, ?_⟩
  · intro i j line hmem x hx
    have hold : .flag i j line ∈ ws := by simpa using hmem
    exact (hw.covered i j line hold x hx).append _
  · intro i j todo' more' hp a ha hpeer hlane
    rw [gth] at hp
    cases hp
    have hfirst : a.first = st.first + n := by
      rcases List.mem_cons.mp ha with rfl | ha
      · rfl
      · have hmem := (List.Nodup.mem_erase_iff (List.Nodup.of_map key hnodup)).mp ha
        exact absurd (eq_of_key hnodup hmem.2 hst hpeer hlane) hmem.1
    refine ⟨fun line hmem => hpend.1 line (by simpa using hmem), ?_⟩
    intro x hx hlt
    rcases Nat.lt_or_ge x st.first with hlo | hge
    · exact (hpend.2 x hx hlo).append _
    · exact ⟨st.first, n, by simp, hge, by omega⟩
  · intro i j todo' more' hp _ _
    rw [gth] at hp
    cases hp
    exact .inr ⟨rest st n, by simp, rfl, rfl⟩

/-- The flag of a stripe is written. -/
theorem WireInv.postFlag (hst : st ∈ todo) (hcount : st.count = 0)
    (hrang : Rang P d m k) (hpart : Part c (P.op m) r k st) (hnodup : (todo.map key).Nodup)
    (gth : g.thread = .posting m k (todo.erase st) more) (hnew : ∀ j, newest g j = newest h j) : WireInv P r d g st.peer st.lane
      (ws ++ [.flag m k (flagLine c st.ns r (m % slots) st.lane)]) := by
  have hfits : Fits P r st.peer st.lane (.flag m k (flagLine c st.ns r (m % slots) st.lane)) := by
    rw [hpart.ns]
    rfl
  obtain ⟨hrang', hpeer', hlane', htaken', hfits', hclosed'⟩ :=
    hw.join hth hst rfl rfl hrang hpart hfits
  have hpend := hw.pending m k todo more hth st hst rfl rfl
  refine ⟨hrang', hpeer', hlane', fun w hmem => taken_of_posting hth gth (hnew _) (htaken' w hmem), hfits',
    hclosed', ?_, ?_, ?_⟩
  · intro i j line hmem x hx
    rcases List.mem_append.mp hmem with hold | hlast
    · exact (hw.covered i j line hold x hx).append _
    cases List.mem_singleton.mp hlast
    have hlt := hx.2
    have hend := hpart.last
    exact (hpend.2 x hx (by omega)).append _
  · intro i j todo' more' hp a ha hpeer hlane
    rw [gth] at hp
    cases hp
    have hmem := (List.Nodup.mem_erase_iff (List.Nodup.of_map key hnodup)).mp ha
    exact absurd (eq_of_key hnodup hmem.2 hst hpeer hlane) hmem.1
  intro i j todo' more' hp _ _
  rw [gth] at hp
  cases hp
  exact .inl ⟨_, List.mem_append_right _ (List.mem_singleton_self _)⟩

end

end

/-- What holds of a rank as a sender. -/
structure SenderInv (P : Program c) (r : ℕ) (d : Device) (h : Host) : Prop where
  kernel : KernelInv P r d
  thread : ThreadInv P r d h
  /-- Its queue pairs. -/
  wires : ∀ p lane, WireInv P r d h p lane (wire h p lane)

theorem SenderInv.initial : SenderInv P r Rank.initial.device Rank.initial.host := by
  refine ⟨ArenaKernel.initial_inv, ⟨le_rfl, ?_, le_rfl, by simp [MoreOk]⟩, fun p lane => initial_inv⟩
  intro k _
  simp [newest, Rank.initial]

theorem SenderInv.kernelAct {s : Rank} (hs : SenderInv P r s.device s.host)
    (ha : s.kernelAct P r a = some e) : SenderInv P r e s.host ∧ Grown P s.device e := by
  obtain ⟨hk, hg⟩ := hs.kernel.act ha
  exact ⟨⟨hk, hs.thread.mono hg, fun p lane => (hs.wires p lane).mono hg⟩, hg⟩

/-- A step of the loop that posts nothing. -/
theorem SenderInv.looks (hs : SenderInv P r d h) (hg : ThreadInv P r d g ∧ Looks h g) : SenderInv P r d g ∧ g.landed = h.landed := by
  have hwire : wire g = wire h := by
    rw [hg.2.same]
    rfl
  refine ⟨⟨hs.kernel, hg.1, ?_⟩, by rw [hg.2.same]⟩
  intro p lane
  rw [hwire]
  exact (hs.wires p lane).rests (fun i j => hg.2.taken.mpr) hg.2.after

theorem SenderInv.starts (hs : SenderInv P r d h) (hg : ThreadInv P r d g ∧ Starts P r d h g m k) :
    SenderInv P r d g ∧ g.landed = h.landed := by
  obtain ⟨more, hpost⟩ := hg.2.thread
  have hwire : wire g = wire h := by
    rw [hpost]
    rfl
  refine ⟨⟨hs.kernel, hg.1, ?_⟩, by rw [hpost]; rfl⟩
  intro p lane
  rw [hwire]
  exact (hs.wires p lane).starts hg.2

theorem finishPhase_frame (h : Host) (m k : ℕ) (more : Option ℕ) :
    wire (h.finishPhase m k more) = wire h ∧ (h.finishPhase m k more).landed = h.landed ∧
      ∀ i j todo more', (h.finishPhase m k more).thread ≠ .posting i j todo more' := by
  unfold Host.finishPhase
  split <;> exact ⟨rfl, rfl, by simp⟩

/-- A read of the loop, or the end of a phase. -/
theorem SenderInv.poll (hs : SenderInv P r d h) (hr : r < c.world) (hf : Flushed P d h)
    (ha : h.poll c r d = some g) : SenderInv P r d g ∧ g.landed = h.landed := by
  unfold Host.poll at ha
  split at ha
  case h_1 k more hth =>
    cases ha
    split
    case isTrue => exact hs.looks (hs.thread.scanPhase hs.kernel hth)
    case isFalse => exact hs.looks (hs.thread.afterPhases hs.kernel hf hth)
  case h_2 k m more hth =>
    cases ha
    exact hs.starts (hs.thread.readPhaseWord hs.kernel hf hr hth)
  case h_3 j hth =>
    cases ha
    exact hs.starts (hs.thread.readOpWord hs.kernel hf hr hth)
  case h_4 m k more hth =>
    cases ha
    obtain ⟨hwire, hlanded, hidle⟩ := finishPhase_frame h m k more
    refine ⟨⟨hs.kernel, hs.thread.finishPhase hs.kernel hth, ?_⟩, hlanded⟩
    intro p lane
    rw [hwire]
    have hok := hs.thread.ok
    rw [hth] at hok
    exact (hs.wires p lane).rests (fun i j => taken_finishPhase hok.1 hth) hidle
  case h_5 => cases ha

/-- A write joins the queue pair of its stripe. -/
theorem wire_setWire (h : Host) (st : Stripe) (w : Write) (t : Thread) (p lane : ℕ) :
    wire { h with thread := t, queue := setWire h.queue st.peer st.lane (h.queue st.peer st.lane ++ [w]) } p lane =
      if p = st.peer ∧ lane = st.lane then wire h st.peer st.lane ++ [w] else wire h p lane := by
  simp only [wire]
  split
  case isTrue heq => rw [heq.1, heq.2, setWire_self, List.append_assoc]
  case isFalse hne => rw [setWire_of_ne hne]

theorem SenderInv.postData (hs : SenderInv P r d h) (ha : h.postData st n = some g) : SenderInv P r d g ∧ g.landed = h.landed := by
  unfold Host.postData at ha
  split at ha
  case h_2 => cases ha
  case h_1 m k todo more hth =>
    obtain ⟨hg, rfl⟩ := Option.ite_some_none_eq_some.mp ha
    obtain ⟨hst, -, hn⟩ := hg
    have hok := hs.thread.ok
    rw [hth] at hok
    obtain ⟨hnew, hzero, hrang, hmore, hnodup, hparts⟩ := hok
    have herase : ∀ a, a ∈ todo.erase st ↔ a ≠ st ∧ a ∈ todo := fun a =>
      List.Nodup.mem_erase_iff (List.Nodup.of_map key hnodup)
    refine ⟨⟨hs.kernel, ⟨hs.thread.lastSeq_le, hs.thread.newest_le, hnew, hzero, hrang, hmore, ?_, ?_⟩, ?_⟩, rfl⟩
    · have hperm : (st :: todo.erase st).Perm todo := (List.perm_cons_erase hst).symm
      exact (hperm.map key).nodup_iff.mpr hnodup
    · intro a ha
      rcases List.mem_cons.mp ha with rfl | ha
      · exact (hparts st hst).rest hn
      · exact hparts a ((herase a).mp ha).2
    intro p lane
    rw [wire_setWire]
    split
    case isTrue heq =>
      rw [heq.1, heq.2]
      exact (hs.wires st.peer st.lane).postData hth hst hn hrang (hparts st hst) hnodup rfl fun _ => rfl
    case isFalse hne =>
      refine (hs.wires p lane).other hth rfl (fun _ => rfl) ?_
      intro a hpeer hlane
      have ha : a ≠ st := fun heq => hne ⟨by rw [← hpeer, heq], by rw [← hlane, heq]⟩
      have harest : a ≠ rest st n := fun heq => hne ⟨by rw [← hpeer, heq]; rfl, by rw [← hlane, heq]; rfl⟩
      simp only [List.mem_cons, herase, harest, ha, false_or, ne_eq, not_false_eq_true, true_and]

theorem SenderInv.postFlag (hs : SenderInv P r d h) (ha : h.postFlag c r st = some g) : SenderInv P r d g ∧ g.landed = h.landed := by
  unfold Host.postFlag at ha
  split at ha
  case h_2 => cases ha
  case h_1 m k todo more hth =>
    obtain ⟨hg, rfl⟩ := Option.ite_some_none_eq_some.mp ha
    obtain ⟨hst, hcount⟩ := hg
    have hok := hs.thread.ok
    rw [hth] at hok
    obtain ⟨hnew, hzero, hrang, hmore, hnodup, hparts⟩ := hok
    have herase : ∀ a, a ∈ todo.erase st ↔ a ≠ st ∧ a ∈ todo := fun a =>
      List.Nodup.mem_erase_iff (List.Nodup.of_map key hnodup)
    refine ⟨⟨hs.kernel, ⟨hs.thread.lastSeq_le, hs.thread.newest_le, hnew, hzero, hrang, hmore, ?_, ?_⟩, ?_⟩, rfl⟩
    · exact hnodup.sublist ((List.erase_sublist).map key)
    · intro a ha
      exact hparts a ((herase a).mp ha).2
    intro p lane
    rw [wire_setWire]
    split
    case isTrue heq =>
      rw [heq.1, heq.2]
      exact (hs.wires st.peer st.lane).postFlag hth hst hcount hrang (hparts st hst) hnodup rfl fun _ => rfl
    case isFalse hne =>
      refine (hs.wires p lane).other hth rfl (fun _ => rfl) ?_
      intro a hpeer hlane
      have ha : a ≠ st := fun heq => hne ⟨by rw [← hpeer, heq], by rw [← hlane, heq]⟩
      simp only [herase, ha, ne_eq, not_false_eq_true, true_and]

/-- A step of the progress thread. -/
theorem SenderInv.threadAct {s : Rank} (hs : SenderInv P r s.device s.host) (hr : r < c.world)
    (hf : Flushed P s.device s.host) (ha : s.threadAct c r a = some g) : SenderInv P r s.device g ∧ g.landed = s.host.landed := by
  cases a with
  | poll => exact hs.poll hr hf ha
  | postData => exact hs.postData ha
  | postFlag => exact hs.postFlag ha
  | launch | writeOpWord | ring | see | advance => cases ha

/-- The oldest write of a queue pair lands: the queue pairs carry the same writes. -/
theorem wire_deliver {w : Write} (hq : h.queue p lane = w :: vs) : wire (h.deliver p lane w vs) = wire h := by
  funext q l
  simp only [wire, Host.deliver]
  by_cases heq : q = p ∧ l = lane
  · rw [heq.1, heq.2, setWire_self, setWire_self, hq]
    simp
  · rw [setWire_of_ne heq, setWire_of_ne heq]

theorem SenderInv.deliver {w : Write} (hs : SenderInv P r d h)
    (hq : h.queue p lane = w :: vs) : SenderInv P r d (h.deliver p lane w vs) := by
  refine ⟨hs.kernel, ?_, ?_⟩
  · exact ⟨hs.thread.lastSeq_le, hs.thread.newest_le, hs.thread.ok.frame rfl rfl⟩
  intro q l
  rw [wire_deliver hq]
  exact { hs.wires q l with }

end SparkRing.ArenaWires
