import SparkRing.ArenaKernel
import SparkRing.ChannelItems

/-!
# What a progress thread has posted

A progress thread posts a phase of an op at most once, after the kernel released
it, and with the stripes of the op's plan; on every queue pair a stripe's flag
comes after its packs and ends its phase there. The only assumption is that an op
whose successor the kernel finished has been posted.
-/

namespace SparkRing.ArenaPosting

open SequenceWord ArenaSession ArenaPlan ArenaKernel Function

variable {c : Config} {P : Program c} {r m k j i : ℕ} {d e : Device} {h g : Host} {op : Op} {st : Stripe} {t : Thread}

/-- The stripe of a phase that goes to a peer's lane. -/
def planned (c : Config) (op : Op) (r k p lane : ℕ) : Stripe :=
  stripe c p (range c op r k p).1 (range c op r k p).2 (ns c op k) lane

/-- A pack is in the stripe of a phase. -/
def InStripe (c : Config) (op : Op) (r k p lane x : ℕ) : Prop :=
  (planned c op r k p lane).first ≤ x ∧
    x < (planned c op r k p lane).first + (planned c op r k p lane).count

/-- A stripe lies in what its phase writes to the peer. -/
theorem InStripe.range {p lane x : ℕ} (hx : InStripe c op r k p lane x) (hl : lane < c.laneCount) : (ArenaPlan.range c op r k p).1 ≤ x ∧
      x < (ArenaPlan.range c op r k p).1 + (ArenaPlan.range c op r k p).2 := by
  have hend : _ ≤ (ArenaPlan.range c op r k p).2 := Channel.laneSplit_end hl
  simp only [InStripe, planned, stripe] at hx
  omega

/-- The queue pair of a stripe. -/
def key (st : Stripe) : ℕ × ℕ := (st.peer, st.lane)

/-- The end of a planned stripe. -/
structure Part (c : Config) (op : Op) (r k : ℕ) (st : Stripe) : Prop where
  /-- It goes to a peer of the phase. -/
  peer : st.peer ∈ peers c op r k
  /-- It goes over a lane. -/
  lane : st.lane < c.laneCount
  /-- Its flag is of the phase's namespace. -/
  ns : st.ns = ns c op k
  /-- It begins in the planned stripe. -/
  first : (planned c op r k st.peer st.lane).first ≤ st.first
  /-- It ends with the planned stripe. -/
  last : st.first + st.count =
    (planned c op r k st.peer st.lane).first + (planned c op r k st.peer st.lane).count

theorem mem_stripes : st ∈ stripes c op r k ↔ ∃ p ∈ peers c op r k, ∃ lane < c.laneCount, planned c op r k p lane = st := by
  simp only [stripes, postRange, planned, List.mem_flatMap, List.mem_map, List.mem_range]

theorem part_of_mem_stripes (hst : st ∈ stripes c op r k) : Part c op r k st := by
  obtain ⟨p, hp, lane, hlane, rfl⟩ := mem_stripes.mp hst
  exact ⟨hp, hlane, rfl, le_rfl, rfl⟩

/-- A phase has one stripe for each of its queue pairs. -/
theorem nodup_stripes (hp : (peers c op r k).Nodup) : ((stripes c op r k).map key).Nodup := by
  simp only [stripes, postRange, List.map_flatMap, List.map_map]
  rw [List.nodup_flatMap]
  constructor
  · intro p _
    refine List.Nodup.map ?_ List.nodup_range
    intro i j hij
    simpa [key, stripe] using hij
  refine hp.imp ?_
  intro p q hpq
  intro x hx hy
  obtain ⟨i, -, rfl⟩ := List.mem_map.mp hx
  obtain ⟨j, -, hj⟩ := List.mem_map.mp hy
  simp only [comp_apply, key, stripe, Prod.mk.injEq] at hj
  exact hpq hj.1.symm

/-- Packs taken off the front of a part leave a part. -/
theorem Part.rest {n : ℕ} (hst : Part c op r k st) (hn : n ≤ st.count) : Part c op r k (rest st n) := by
  have hfirst := hst.first
  have hlast := hst.last
  refine ⟨hst.peer, hst.lane, hst.ns, ?_, ?_⟩
  · exact hfirst.trans (Nat.le_add_right _ _)
  · simp only [ArenaSession.rest]
    omega

/-- Newest op of which a phase was posted. -/
def newest (h : Host) (k : ℕ) : ℕ := if k = 0 then h.lastSeq else h.lastPhaseSeq k

/-- A phase was posted, or is being posted. -/
def Taken (h : Host) (m k : ℕ) : Prop :=
  m ≤ newest h k ∨ ∃ todo more, h.thread = .posting m k todo more

/-- The ops still due of a doorbell read were released. -/
def MoreOk (d : Device) (base : ℕ) (more : Option ℕ) : Prop := ∀ j, more = some j → base + j ≤ d.doorbell

/-- What holds at each point of the progress loop. -/
def ThreadOk (P : Program c) (r : ℕ) (d : Device) (h : Host) : Thread → Prop
  | .scan k more => 1 ≤ k ∧ MoreOk d h.lastSeq more
  | .phaseWord k m more => 1 ≤ k ∧ newest h k < m ∧ Rang P d m k ∧ MoreOk d h.lastSeq more
  | .opWord more => h.lastSeq + 1 + more ≤ d.doorbell
  | .posting m k todo more => newest h k < m ∧ (k = 0 → m = h.lastSeq + 1) ∧ Rang P d m k ∧
    MoreOk d (if k = 0 then m else h.lastSeq) more ∧ (todo.map key).Nodup ∧
    ∀ st ∈ todo, Part c (P.op m) r k st
  | .failed => False

/-- What holds of a progress thread. -/
structure ThreadInv (P : Program c) (r : ℕ) (d : Device) (h : Host) : Prop where
  /-- No op is posted before its doorbell. -/
  lastSeq_le : h.lastSeq ≤ d.doorbell
  /-- No later phase is posted before its doorbell. -/
  newest_le : ∀ k, 1 ≤ k → newest h k ≤ d.phaseDoorbell k
  /-- The point of the loop. -/
  ok : ThreadOk P r d h h.thread

variable {more : Option ℕ}

theorem MoreOk.mono {base : ℕ} (hle : d.doorbell ≤ e.doorbell) (hm : MoreOk d base more) :
    MoreOk e base more := fun j hj => (hm j hj).trans hle

/-- A thread's state stays valid while its kernel goes on. -/
theorem ThreadInv.mono (ht : ThreadInv P r d h) (hg : Grown P d e) : ThreadInv P r e h := by
  refine ⟨ht.lastSeq_le.trans hg.doorbell, fun k hk => (ht.newest_le k hk).trans (hg.phaseDoorbell k), ?_⟩
  have hok := ht.ok
  cases hth : h.thread with
  | scan =>
    rw [hth] at hok
    exact ⟨hok.1, hok.2.mono hg.doorbell⟩
  | phaseWord =>
    rw [hth] at hok
    obtain ⟨hk, hnew, hrang, hmore⟩ := hok
    exact ⟨hk, hnew, hg.rang hrang, hmore.mono hg.doorbell⟩
  | opWord =>
    rw [hth] at hok
    exact hok.trans hg.doorbell
  | posting =>
    rw [hth] at hok
    obtain ⟨hnew, hzero, hrang, hmore, htodo⟩ := hok
    exact ⟨hnew, hzero, hg.rang hrang, hmore.mono hg.doorbell, htodo⟩
  | failed =>
    rw [hth] at hok
    exact hok

/-- An op whose successor was finished has been posted. -/
def Flushed (P : Program c) (d : Device) (h : Host) : Prop :=
  ∀ m, 1 ≤ m → m < d.epoch → ∀ k < phases c (P.op m), Taken h m k

/-- The op word a thread reads is the one of the op it looks for. -/
theorem decode_opWord (hk : KernelInv P r d) (hf : Flushed P d h) (hr : Rang P d m k) (hn : ¬Taken h m k) :
    decodeOpWord (d.opWord (m % slots)) = P.op m := by
  have hepoch : d.epoch ≤ m := by
    by_contra hlt
    exact hn (hf m hr.pos (by omega) k hr.phase)
  have hword := hk.opWord m hr.pos hr.le_written (by have := (written_le d).2; omega)
  rw [hword, decodeOpWord_word (P.admitted m).word]

theorem not_taken_of_thread (hnew : newest h k < m) (hth : ∀ m k todo more, h.thread ≠ .posting m k todo more) : ¬Taken h m k := by
  rintro (hle | ⟨todo, more, hp⟩)
  · omega
  · exact hth _ _ _ _ hp

/-- What a thread starts to post is the phase of the plan. -/
structure Starts (P : Program c) (r : ℕ) (d : Device) (h g : Host) (m k : ℕ) : Prop where
  /-- The thread posted nothing else. -/
  before : ∀ i j todo more, h.thread ≠ .posting i j todo more
  /-- It had not been posted. -/
  fresh : ¬Taken h m k
  /-- The kernel released it. -/
  rang : Rang P d m k
  thread : ∃ more, g = h.post m k (P.op m) more (some (stripes c (P.op m) r k))

/-- A step of the loop that posts nothing, and no phase begins or ends. -/
structure Looks (h g : Host) : Prop where
  /-- Nothing is posted before. -/
  before : ∀ m k todo more, h.thread ≠ .posting m k todo more
  /-- Nothing is posted after. -/
  after : ∀ m k todo more, g.thread ≠ .posting m k todo more
  /-- Only the point of the loop changes. -/
  same : g = { h with thread := g.thread }

theorem Looks.taken (hl : Looks h g) {m k : ℕ} : Taken g m k ↔ Taken h m k := by
  have hnew : newest g k = newest h k := by rw [hl.same]; rfl
  constructor
  · rintro (hle | ⟨todo, more, hp⟩)
    · exact .inl (hnew ▸ hle)
    · exact absurd hp (hl.after _ _ _ _)
  rintro (hle | ⟨todo, more, hp⟩)
  · exact .inl (hnew.symm ▸ hle)
  · exact absurd hp (hl.before _ _ _ _)

theorem looks_of_thread (hb : ∀ m k todo more, h.thread ≠ .posting m k todo more)
    (ha : ∀ m k todo more, t ≠ .posting m k todo more) : Looks h { h with thread := t } :=
  ⟨hb, ha, rfl⟩

/-- A point of the loop depends on the posted ops only. -/
theorem ThreadOk.frame (hl : g.lastSeq = h.lastSeq) (hp : g.lastPhaseSeq = h.lastPhaseSeq)
    (ok : ThreadOk P r d h t) : ThreadOk P r d g t := by
  cases t with
  | failed => trivial
  | _ => simpa only [ThreadOk, newest, hl, hp] using ok

theorem ThreadInv.looks (ht : ThreadInv P r d h) (t : Thread) (ok : ThreadOk P r d h t) :
    ThreadInv P r d { h with thread := t } :=
  ⟨ht.lastSeq_le, ht.newest_le, ok.frame rfl rfl⟩

section

variable (hk : KernelInv P r d) (ht : ThreadInv P r d h)

include hk ht

theorem ThreadInv.scanPhase (hth : h.thread = .scan k more) : ThreadInv P r d (h.scanPhase d k more) ∧ Looks h (h.scanPhase d k more) := by
  have hok := ht.ok
  rw [hth] at hok
  have hb : ∀ m k todo more, h.thread ≠ .posting m k todo more := by simp [hth]
  have hnext : ThreadInv P r d { h with thread := .scan (k + 1) more } :=
    ht.looks _ ⟨Nat.succ_pos _, hok.2⟩
  unfold Host.scanPhase
  simp only
  split
  case isTrue => exact ⟨hnext, looks_of_thread hb (by simp)⟩
  case isFalse hne =>
    split
    case isTrue => exact ⟨hnext, looks_of_thread hb (by simp)⟩
    case isFalse =>
      have hnew : newest h k = h.lastPhaseSeq k := if_neg (by have := hok.1; omega)
      have hle := ht.newest_le k hok.1
      have hlt : newest h k < d.phaseDoorbell k := by
        refine lt_of_le_of_ne hle fun heq => hne ?_
        rw [← heq, hnew]
        simp [sameWord]
      exact ⟨ht.looks _ ⟨hok.1, hlt, hk.rang_of k hok.1 (by omega), hok.2⟩, looks_of_thread hb (by simp)⟩

omit hk ht in
/-- The op doorbell is at most two ops ahead of a thread that posts nothing. -/
theorem doorbell_near (hk : KernelInv P r d) (hf : Flushed P d h)
    (hb : ∀ m k todo more, h.thread ≠ .posting m k todo more) : d.doorbell ≤ h.lastSeq + slots := by
  have hd := hk.doorbell_le
  rcases Nat.lt_or_ge d.epoch 2 with hlt | hge
  · simp only [slots]
    omega
  rcases hf (d.epoch - 1) (by omega) (by omega) 0 (phases_pos P _) with hle | ⟨todo, more, hp⟩
  · have hnew : newest h 0 = h.lastSeq := rfl
    simp only [slots]
    omega
  · exact absurd hp (hb _ _ _ _)

theorem ThreadInv.readDoorbell (hf : Flushed P d h) (hb : ∀ m k todo more, h.thread ≠ .posting m k todo more) :
    ThreadInv P r d (h.readDoorbell d.doorbell) ∧ Looks h (h.readDoorbell d.doorbell) := by
  have hnear := doorbell_near hk hf hb
  have hle := ht.lastSeq_le
  simp only [slots] at hnear
  have hahead : ahead d.doorbell h.lastSeq = d.doorbell - h.lastSeq := ahead_of_near hle (by omega)
  unfold Host.readDoorbell
  simp only
  split
  case isTrue => exact ⟨ht.looks _ ⟨le_rfl, by simp [MoreOk]⟩, looks_of_thread hb (by simp)⟩
  case isFalse hne =>
    have hlt : h.lastSeq < d.doorbell := by
      refine lt_of_le_of_ne hle fun heq => hne ?_
      rw [heq]
      simp [sameWord]
    rw [hahead, if_neg (by simp only [slots]; omega)]
    refine ⟨ht.looks _ ?_, looks_of_thread hb (by simp)⟩
    change h.lastSeq + 1 + (d.doorbell - h.lastSeq - 1) ≤ d.doorbell
    omega

theorem ThreadInv.afterPhases (hf : Flushed P d h) (hth : h.thread = .scan k more) :
    ThreadInv P r d (h.afterPhases d more) ∧ Looks h (h.afterPhases d more) := by
  have hok := ht.ok
  rw [hth] at hok
  have hb : ∀ m k todo more, h.thread ≠ .posting m k todo more := by simp [hth]
  match more, hok with
  | none, _ => exact ht.readDoorbell hk hf hb
  | some 0, _ => exact ⟨ht.looks _ ⟨le_rfl, by simp [MoreOk]⟩, looks_of_thread hb (by simp)⟩
  | some (j + 1), hok =>
    refine ⟨ht.looks _ ?_, looks_of_thread hb (by simp)⟩
    have := hok.2 (j + 1) rfl
    change h.lastSeq + 1 + j ≤ d.doorbell
    omega

omit hk ht in
/-- A thread that starts a released phase of the plan. -/
theorem ThreadInv.starts (ht : ThreadInv P r d h) (hr : r < c.world) (hnew : newest h k < m)
    (hzero : k = 0 → m = h.lastSeq + 1) (hrang : Rang P d m k) (hmore : MoreOk d (if k = 0 then m else h.lastSeq) more) :
    ThreadInv P r d (h.post m k (P.op m) more (some (stripes c (P.op m) r k))) := by
  refine ⟨ht.lastSeq_le, ht.newest_le, hnew, hzero, hrang, hmore, ?_, fun st => part_of_mem_stripes⟩
  refine nodup_stripes ?_
  have hnodup := (schedule (P.op m) (P.admitted m)).peers_nodup r hr k (by simpa using hrang.phase)
  simpa using hnodup

theorem ThreadInv.readPhaseWord (hf : Flushed P d h) (hr : r < c.world) (hth : h.thread = .phaseWord k m more) :
    ThreadInv P r d (h.readPhaseWord c r d k m more) ∧ Starts P r d h (h.readPhaseWord c r d k m more) m k := by
  have hok := ht.ok
  rw [hth] at hok
  obtain ⟨hk1, hnew, hrang, hmore⟩ := hok
  have hfresh : ¬Taken h m k := not_taken_of_thread hnew (by simp [hth])
  have hpost : h.readPhaseWord c r d k m more =
      h.post m k (P.op m) more (some (stripes c (P.op m) r k)) := by
    simp only [Host.readPhaseWord, decode_opWord hk hf hrang hfresh]
    rw [postLaterPhase_eq (P.admitted m) hr hrang.phase hk1 fun hcode =>
      hk.descriptor m k (.inl hrang) hcode]
  rw [hpost]
  exact ⟨ht.starts hr hnew (by omega) hrang (by rwa [if_neg (by omega)]), by simp [hth], hfresh, hrang,
    more, rfl⟩

theorem ThreadInv.readOpWord (hf : Flushed P d h) (hr : r < c.world) (hth : h.thread = .opWord j) :
    ThreadInv P r d (h.readOpWord c r d j) ∧ Starts P r d h (h.readOpWord c r d j) (h.lastSeq + 1) 0 := by
  have hok := ht.ok
  rw [hth] at hok
  have hdue : h.lastSeq + 1 + j ≤ d.doorbell := hok
  have hrang : Rang P d (h.lastSeq + 1) 0 := hk.rang_of_le_doorbell (by omega) (by omega)
  have hnew : newest h 0 < h.lastSeq + 1 := Nat.lt_succ_self _
  have hfresh : ¬Taken h (h.lastSeq + 1) 0 := not_taken_of_thread hnew (by simp [hth])
  have hpost : h.readOpWord c r d j =
      h.post (h.lastSeq + 1) 0 (P.op (h.lastSeq + 1)) (some j)
        (some (stripes c (P.op (h.lastSeq + 1)) r 0)) := by
    simp only [Host.readOpWord, decode_opWord hk hf hrang hfresh]
    rw [postFirstPhase_eq (P.admitted _) hr fun hcode => hk.descriptor _ 0 (.inl hrang) hcode]
  rw [hpost]
  refine ⟨ht.starts hr hnew (fun _ => rfl) hrang ?_, by simp [hth], hfresh, hrang, some j, rfl⟩
  intro i hi
  cases hi
  exact hdue

theorem ThreadInv.finishPhase (hth : h.thread = .posting m k [] more) : ThreadInv P r d (h.finishPhase m k more) := by
  have hok := ht.ok
  rw [hth] at hok
  obtain ⟨hnew, hzero, hrang, hmore, -⟩ := hok
  unfold Host.finishPhase
  split
  case isTrue hk0 =>
    subst hk0
    refine ⟨hk.rang_doorbell hrang, ?_, le_rfl, by simpa using hmore⟩
    intro j hj
    have := ht.newest_le j hj
    rwa [newest, if_neg (by omega)] at this ⊢
  case isFalse hk0 =>
    refine ⟨ht.lastSeq_le, ?_, Nat.succ_pos _, by rwa [if_neg hk0] at hmore⟩
    intro j hj
    rcases Nat.decEq j k with hne | heq
    · have := ht.newest_le j hj
      simpa [newest, update_of_ne hne] using this
    subst heq
    have := hk.rang_le j hj m hrang
    simpa [newest, hk0] using this

end

theorem Starts.taken (hs : Starts P r d h g m k) (ht : Taken h i j) : Taken g i j := by
  obtain ⟨more, rfl⟩ := hs.thread
  rcases ht with ht | ⟨todo, more', hp⟩
  · exact .inl ht
  · exact absurd hp (hs.before _ _ _ _)

/-- What was taken stays taken while a phase is posted. -/
theorem taken_of_posting {todo todo' : List Stripe} {more more' : Option ℕ}
    (hth : h.thread = .posting m k todo more) (gth : g.thread = .posting m k todo' more')
    (hnew : newest g j = newest h j) (ht : Taken h i j) : Taken g i j := by
  rcases ht with ht | ⟨todo'', more'', hp⟩
  · exact .inl (hnew ▸ ht)
  rw [hth] at hp
  cases hp
  exact .inr ⟨todo', more', gth⟩

/-- What was taken stays taken when a phase ends. -/
theorem taken_finishPhase (hnew : newest h k < m) (hth : h.thread = .posting m k [] more)
    (ht : Taken h i j) : Taken (h.finishPhase m k more) i j := by
  have hle : newest h j ≤ newest (h.finishPhase m k more) j ∧ (j = k → newest (h.finishPhase m k more) j = m) := by
    unfold Host.finishPhase
    split
    case isTrue hk0 =>
      subst hk0
      rcases Nat.decEq j 0 with hj | rfl
      · simp [newest, hj]
      · simp only [newest, if_true, forall_const, and_true] at hnew ⊢
        exact hnew.le
    case isFalse hk0 =>
      rcases Nat.decEq j k with hj | rfl
      · simp [newest, hj]
      · simp only [newest, if_neg hk0, update_self, forall_const, and_true] at hnew ⊢
        exact hnew.le
  rcases ht with ht | ⟨todo, more', hp⟩
  · exact .inl (ht.trans hle.1)
  rw [hth] at hp
  cases hp
  exact .inl (hle.2 rfl).ge

end SparkRing.ArenaPosting
