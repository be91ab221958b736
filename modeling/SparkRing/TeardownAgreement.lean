import SparkRing.TeardownClose

/-!
# A healthy close is a quiet close

The rounds of one rank are issued one at a time, and every round but its newest
has completed with notes of its own close. A rank that issued round 2 of a close
issued round 1 of it before, so when both rounds of one rank's close arrive, the
position of round 1 in the order of the group is the same on every rank.
-/

namespace SparkRing.TeardownAgreement

open TransitionSystem TeardownNote TeardownClose Function
open Option (bind_eq_some_iff map_eq_some_iff some.inj some.injEq)
open Rank (conclude enter finish stop)
open Request (mine quiet)

variable {g g' : ℕ → Option (List Note)} {log : List Collective} {s u : Rank} {returned : Close → Option (Option String)}
  {raw : List UInt8} {pc : Pc} {e : Event}

/-- The teardown note a rank sent in its i-th collective. -/
def sent (log : List Collective) (i : ℕ) : Option Note := log[i]?.bind Collective.sender

/-- The i-th collective is a round that completed with notes of its close. -/
def Agreed (g : ℕ → Option (List Note)) (log : List Collective) (i : ℕ) (mine : Note)
    (notes : List Note) : Prop :=
  sent log i = some mine ∧ g i = some notes ∧ ∀ note ∈ notes, mine.sameClose note = true

/-- Every round issued so far completed with notes of its close. -/
def AllAgreed (g : ℕ → Option (List Note)) (log : List Collective) : Prop :=
  ∀ i n, sent log i = some n → ∃ notes, Agreed g log i n notes

/-- A round was started: its thread waits or has issued its collective. -/
def Started (s : Rank) (n : Note) : Prop := n ∈ s.threads ∨ ∃ i, sent s.log i = some n

/-- The collectives of a rank and its waiting threads. -/
structure LogInv (g : ℕ → Option (List Note)) (s : Rank) : Prop where
  /-- A round's bytes are its note. -/
  encoded : ∀ c ∈ s.log, ∀ n, c.sender = some n → encode n = some c.raw
  /-- Another user's bytes are no note. -/
  others : ∀ c ∈ s.log, c.sender = none → foreign c.raw = true
  /-- Every round but the newest completed. -/
  order : ∀ i j n n', sent s.log i = some n → sent s.log j = some n' → i < j →
    ∃ notes, Agreed g s.log i n notes
  /-- A thread waits only once every earlier round completed. -/
  single : s.threads ≠ [] → (∃ n, s.threads = [n]) ∧ AllAgreed g s.log
  /-- A round is issued once. -/
  unique : ∀ i j n n', sent s.log i = some n → sent s.log j = some n' → n.sameClose n' = true → i = j
  /-- A waiting round has not been issued. -/
  fresh : ∀ n ∈ s.threads, ∀ i n', sent s.log i = some n' → n.sameClose n' = false
  /-- A round is round 1, with the failure its rank entered it with, or round 2,
  after the rank's `stop` returned. -/
  phase : ∀ n, Started s n → n.phase = 1 ∧ s.entered (n.kind, n.ordinal) = some n.failure ∨
    n.phase = 2 ∧ s.stopped (n.kind, n.ordinal) = true
  /-- Round 2 was issued after round 1 of its close. -/
  earlier : ∀ j n, sent s.log j = some n → n.phase = 2 →
    ∃ i m, i < j ∧ sent s.log i = some m ∧ Note.sameClose ⟨n.kind, n.ordinal, 1, none⟩ m = true
  /-- A waiting round 2 comes after round 1 of its close. -/
  before : ∀ n ∈ s.threads, n.phase = 2 →
    ∃ i m, sent s.log i = some m ∧ Note.sameClose ⟨n.kind, n.ordinal, 1, none⟩ m = true
  /-- Only a close that began entered round 1. -/
  enteredBegun : ∀ c, s.entered c ≠ none → s.begun c = true
  /-- Only a close that began was stopped. -/
  stoppedBegun : ∀ c, s.stopped c = true → s.begun c = true

/-- A close whose round 1 completed with a result: every note is healthy when the
result is. -/
def HealthDone (g : ℕ → Option (List Note)) (log : List Collective) (req : Request) (result : Option String) : Prop :=
  ∃ i notes, Agreed g log i req.mine notes ∧
    (result = none → req.ownFailure = none ∧ ∀ note ∈ notes, note.failure = none)

/-- A close whose two rounds completed, the first with healthy notes only. -/
def BothDone (g : ℕ → Option (List Note)) (log : List Collective) (c : Close) : Prop :=
  ∃ i j notes notes', i < j ∧ Agreed g log i ⟨c.1, c.2, 1, none⟩ notes ∧
    (∀ note ∈ notes, note.failure = none) ∧ Agreed g log j ⟨c.1, c.2, 2, none⟩ notes'

/-- Where a rank stands in its close. -/
structure PcInv (g : ℕ → Option (List Note)) (s : Rank) : Prop where
  /-- Between rounds of a usable group nothing is pending. -/
  idle : s.unusable = none → s.pc.waiting = none → s.threads = [] ∧ AllAgreed g s.log
  /-- The round waited for is the newest one, of a usable group. -/
  waiting : ∀ n, s.pc.waiting = some n → s.unusable = none ∧
    (s.threads = [n] ∨ s.threads = [] ∧ ∃ k, sent s.log k = some n ∧ ∀ i n', sent s.log i = some n' → i ≤ k)
  /-- A close in progress has begun, and is not stopped before its round 2. -/
  begun : ∀ req, (∃ reason, s.pc = .skipping req reason) ∨ s.pc = .health req ∨
    (∃ why, s.pc = .unhealthy req why) ∨ (∃ result, s.pc = .stopping req result) →
    s.begun req.close = true ∧ s.stopped req.close = false
  /-- Before it stops after a completed round 1. -/
  stopping : ∀ req result, s.pc = .stopping req result → s.unusable = none ∧ HealthDone g s.log req result
  /-- While it waits for round 2. -/
  quiet : ∀ req result, s.pc = .quiet req result → HealthDone g s.log req result
  /-- A round that did not complete left a reason. -/
  unhealthy : ∀ req why, s.pc = .unhealthy req why → why ≠ none
  /-- A healthy result. -/
  returned : ∀ c, s.returned c = some none → BothDone g s.log c

/-- What holds of every rank in every reachable state. -/
structure RankInv (g : ℕ → Option (List Note)) (s : Rank) : Prop where
  /-- Its collectives and threads. -/
  log : LogInv g s
  /-- Its close. -/
  pc : PcInv g s

variable {i : ℕ} {n : Note} {notes : List Note}

theorem Agreed.mono (hg : ∀ i notes, g i = some notes → g' i = some notes) (h : Agreed g log i n notes) : Agreed g' log i n notes :=
  ⟨h.1, hg i notes h.2.1, h.2.2⟩

theorem AllAgreed.mono (hg : ∀ i notes, g i = some notes → g' i = some notes) (h : AllAgreed g log) : AllAgreed g' log := by
  intro i n hi
  obtain ⟨notes, ha⟩ := h i n hi
  exact ⟨notes, ha.mono hg⟩

variable {req : Request} {result : Option String}

theorem HealthDone.mono (hg : ∀ i notes, g i = some notes → g' i = some notes)
    (h : HealthDone g log req result) : HealthDone g' log req result := by
  obtain ⟨i, notes, ha, hr⟩ := h
  exact ⟨i, notes, ha.mono hg, hr⟩

/-- The invariant of a rank only improves when other ranks issue collectives. -/
theorem RankInv.mono (hg : ∀ i notes, g i = some notes → g' i = some notes) (h : RankInv g s) : RankInv g' s := by
  have ho : ∀ i j n n', sent s.log i = some n → sent s.log j = some n' → i < j →
      ∃ notes, Agreed g' s.log i n notes := by
    intro i j n n' hi hj hij
    obtain ⟨notes, ha⟩ := h.log.order i j n n' hi hj hij
    exact ⟨notes, ha.mono hg⟩
  refine ⟨{ h.log with order := ho, single := ?_ }, { h.pc with
    idle := ?_, stopping := ?_, quiet := ?_, returned := ?_ }⟩
  · intro ht
    obtain ⟨hn, ha⟩ := h.log.single ht
    exact ⟨hn, ha.mono hg⟩
  · intro hu hw
    obtain ⟨ht, ha⟩ := h.pc.idle hu hw
    exact ⟨ht, ha.mono hg⟩
  · intro req result hp
    obtain ⟨hu, hd⟩ := h.pc.stopping req result hp
    exact ⟨hu, hd.mono hg⟩
  · exact fun req result hp => (h.pc.quiet req result hp).mono hg
  intro c hc
  obtain ⟨i, j, notes, notes', hij, ha, hf, hb⟩ := h.pc.returned c hc
  exact ⟨i, j, notes, notes', hij, ha.mono hg, hf, hb.mono hg⟩

variable {c : Collective}

theorem sent_append : sent (log ++ [c]) i = some n ↔ sent log i = some n ∨ i = log.length ∧ c.sender = some n := by
  unfold sent
  rcases Nat.lt_trichotomy i log.length with hi | rfl | hi
  · rw [List.getElem?_append_left hi]
    simp [hi.ne]
  · simp
  have h1 : (log ++ [c])[i]? = none := List.getElem?_eq_none (by simp; omega)
  have h2 : log[i]? = none := List.getElem?_eq_none hi.le
  simp [h1, h2, hi.ne']

theorem sent_lt (h : sent log i = some n) : i < log.length := by
  obtain ⟨c, hc, -⟩ := bind_eq_some_iff.mp h
  exact (List.getElem?_eq_some_iff.mp hc).1

theorem Agreed.append (h : Agreed g log i n notes) : Agreed g (log ++ [c]) i n notes :=
  ⟨sent_append.mpr (.inl h.1), h.2⟩

theorem HealthDone.append (h : HealthDone g log req result) : HealthDone g (log ++ [c]) req result := by
  obtain ⟨i, notes, ha, hr⟩ := h
  exact ⟨i, notes, ha.append, hr⟩

theorem BothDone.append {close : Close} (h : BothDone g log close) : BothDone g (log ++ [c]) close := by
  obtain ⟨i, j, notes, notes', hij, ha, hf, hb⟩ := h
  exact ⟨i, j, notes, notes', hij, ha.append, hf, hb.append⟩

/-- The only waiting thread issues its collective. -/
theorem LogInv.issue (h : LogInv g s) (ht : s.threads = [n])
    (he : encode n = some raw) :
    LogInv g { s with threads := [], log := s.log ++ [⟨some n, raw⟩] } := by
  have hall : AllAgreed g s.log := (h.single (by simp [ht])).2
  have hfresh : ∀ i n', sent s.log i = some n' → n.sameClose n' = false :=
    h.fresh n (by simp [ht])
  refine ⟨?_, ?_, ?_, by simp, ?_, by simp, ?_, ?_, by simp, h.enteredBegun, h.stoppedBegun⟩
  · intro c hc m hm
    rcases List.mem_append.mp hc with hc | hc
    · exact h.encoded c hc m hm
    obtain rfl : c = ⟨some n, raw⟩ := by simpa using hc
    cases hm
    exact he
  · intro c hc hm
    rcases List.mem_append.mp hc with hc | hc
    · exact h.others c hc hm
    · obtain rfl : c = ⟨some n, raw⟩ := by simpa using hc
      cases hm
  · intro i j m m' hi hj hij
    rcases sent_append.mp hi with hi | ⟨rfl, -⟩
    · obtain ⟨notes, ha⟩ := hall i m hi
      exact ⟨notes, ha.append⟩
    rcases sent_append.mp hj with hj | ⟨rfl, -⟩
    · have := sent_lt hj
      omega
    · omega
  · intro i j m m' hi hj hs
    rcases sent_append.mp hi with hi | ⟨rfl, hn⟩ <;> rcases sent_append.mp hj with hj | ⟨rfl, hn'⟩
    · exact h.unique i j m m' hi hj hs
    · cases hn'
      have hf := hfresh i m hi
      simp only [Note.sameClose, decide_eq_true_eq, decide_eq_false_iff_not] at hs hf
      exact absurd hs.symm hf
    · cases hn
      rw [hfresh j m' hj] at hs
      cases hs
    · rfl
  · intro m hm
    refine h.phase m ?_
    rcases hm with hm | ⟨i, hi⟩
    · cases hm
    rcases sent_append.mp hi with hi | ⟨-, hi⟩
    · exact .inr ⟨i, hi⟩
    · cases hi
      exact .inl (by simp [ht])
  · intro j m hj hp
    rcases sent_append.mp hj with hj | ⟨rfl, hn⟩
    · obtain ⟨i, m', hij, hi, hs⟩ := h.earlier j m hj hp
      exact ⟨i, m', hij, sent_append.mpr (.inl hi), hs⟩
    cases hn
    obtain ⟨i, m', hi, hs⟩ := h.before n (by simp [ht]) hp
    exact ⟨i, m', sent_lt hi, sent_append.mpr (.inl hi), hs⟩

/-- Another user issues a collective. -/
theorem LogInv.other (h : LogInv g s) (hf : foreign raw = true) :
    LogInv g { s with log := s.log ++ [⟨none, raw⟩] } := by
  have hsent : ∀ i n, sent (s.log ++ [⟨none, raw⟩]) i = some n ↔ sent s.log i = some n := by
    simp [sent_append]
  have hall : AllAgreed g s.log → AllAgreed g (s.log ++ [⟨none, raw⟩]) := by
    intro ha i n hi
    obtain ⟨notes, hn⟩ := ha i n ((hsent i n).mp hi)
    exact ⟨notes, hn.append⟩
  refine ⟨?_, ?_, ?_, fun ht => ⟨(h.single ht).1, hall (h.single ht).2⟩, ?_, ?_, ?_, ?_, ?_,
    h.enteredBegun, h.stoppedBegun⟩
  · intro c hc m hm
    rcases List.mem_append.mp hc with hc | hc
    · exact h.encoded c hc m hm
    · obtain rfl : c = ⟨none, raw⟩ := by simpa using hc
      cases hm
  · intro c hc hm
    rcases List.mem_append.mp hc with hc | hc
    · exact h.others c hc hm
    · obtain rfl : c = ⟨none, raw⟩ := by simpa using hc
      exact hf
  · simp only [hsent]
    intro i j m m' hi hj hij
    obtain ⟨notes, ha⟩ := h.order i j m m' hi hj hij
    exact ⟨notes, ha.append⟩
  · simpa only [hsent] using h.unique
  · simpa only [hsent] using h.fresh
  · intro m hm
    refine h.phase m ?_
    simpa only [Started, hsent] using hm
  · simpa only [hsent] using h.earlier
  · simpa only [hsent] using h.before

/-- A round's thread is started once every earlier round completed. -/
theorem LogInv.teardownRound (h : LogInv g s) (ht : s.threads = [])
    (ha : AllAgreed g s.log) (hf : ∀ i m, sent s.log i = some m → n.sameClose m = false)
    (hp : n.phase = 1 ∧ s.entered (n.kind, n.ordinal) = some n.failure ∨ n.phase = 2 ∧ s.stopped (n.kind, n.ordinal) = true)
    (hb : n.phase = 2 → ∃ i m, sent s.log i = some m ∧ Note.sameClose ⟨n.kind, n.ordinal, 1, none⟩ m = true) :
    LogInv g (s.teardownRound n pc) := by
  have hthreads : (s.teardownRound n pc).threads = [n] := by
    simp [Rank.teardownRound, ht]
  refine ⟨h.encoded, h.others, h.order, fun _ => ⟨⟨n, hthreads⟩, ha⟩, h.unique, ?_, ?_, h.earlier, ?_,
    h.enteredBegun, h.stoppedBegun⟩
  · intro m hm
    obtain rfl : m = n := by simpa [hthreads] using hm
    exact hf
  · intro m hm
    rcases hm with hm | hm
    · obtain rfl : m = n := by simpa [hthreads] using hm
      exact hp
    · exact h.phase m (.inr hm)
  intro m hm
  obtain rfl : m = n := by simpa [hthreads] using hm
  exact hb

/-- The record of closes may grow. -/
theorem LogInv.record (h : LogInv g s) (hl : u.log = s.log) (ht : u.threads = s.threads)
    (he : ∀ c, s.entered c ≠ none → u.entered c = s.entered c) (hs : ∀ c, s.stopped c = true → u.stopped c = true)
    (heb : ∀ c, u.entered c ≠ none → u.begun c = true) (hsb : ∀ c, u.stopped c = true → u.begun c = true) : LogInv g u := by
  refine ⟨by simpa only [hl] using h.encoded, by simpa only [hl] using h.others,
    by simpa only [hl] using h.order, by simpa only [hl, ht] using h.single,
    by simpa only [hl] using h.unique, by simpa only [hl, ht] using h.fresh, ?_,
    by simpa only [hl] using h.earlier, by simpa only [hl, ht] using h.before, heb, hsb⟩
  intro n hn
  rcases h.phase n (by simpa only [Started, hl, ht] using hn) with ⟨hp, hen⟩ | ⟨hp, hst⟩
  · exact .inl ⟨hp, by rw [he _ (by simp [hen]), hen]⟩
  · exact .inr ⟨hp, hs _ hst⟩

/-- A close that has not begun has no record. -/
theorem LogInv.not_begun {c : Close} (h : LogInv g s) (hb : s.begun c = false) : s.entered c = none ∧ s.stopped c = false := by
  constructor
  · by_contra he
    rw [h.enteredBegun c he] at hb
    cases hb
  by_contra hs
  rw [h.stoppedBegun c (by simpa using hs)] at hb
  cases hb

/-- A close begins on an unusable group. -/
theorem RankInv.skip {reason : String} (h : RankInv g s)
    (hb : s.begun req.close = false) (hr : s.unusable = some reason) :
    RankInv g { s with begun := update s.begun req.close true, pc := .skipping req reason } := by
  have hbegun : ∀ c, s.begun c = true → update s.begun req.close true c = true := by
    intro c hc
    by_cases hcc : c = req.close
    · simp [hcc]
    · simpa [hcc] using hc
  have hst : s.stopped req.close = false := (h.log.not_begun hb).2
  refine ⟨h.log.record rfl rfl (fun _ _ => rfl) (fun _ hc => hc)
    (fun c hc => hbegun c (h.log.enteredBegun c hc)) (fun c hc => hbegun c (h.log.stoppedBegun c hc)), ?_⟩
  refine ⟨by simp [hr], by simp [Pc.waiting], ?_, by simp, by simp, by simp, h.pc.returned⟩
  intro req' hp
  obtain rfl : req' = req := by simpa [eq_comm] using hp
  exact ⟨by simp, hst⟩

/-- A close begins with round 1. -/
theorem RankInv.begin (h : RankInv g s) (hpc : s.pc = .outside) (hb : s.begun req.close = false) (hu : s.unusable = none) :
    RankInv g (s.enter req) := by
  obtain ⟨hen, hst⟩ := h.log.not_begun hb
  obtain ⟨ht, ha⟩ := h.pc.idle hu (by simp [hpc, Pc.waiting])
  have hf : ∀ i m, sent s.log i = some m → req.mine.sameClose m = false := by
    intro i m hi
    by_contra hs
    obtain ⟨hk, ho, hp⟩ := Note.sameClose_iff.mp (by simpa using hs)
    rcases h.log.phase m (.inr ⟨i, hi⟩) with ⟨-, hm⟩ | ⟨hm, -⟩
    · rw [← hk, ← ho] at hm
      simp [mine, Request.close] at hm hen
      simp [hen] at hm
    · simp [mine, hm] at hp
  have hrecord : LogInv g { s with
      begun := update s.begun req.close true,
      entered := update s.entered req.close (some req.ownFailure) } := by
    refine h.log.record rfl rfl ?_ (fun _ hc => hc) ?_ ?_
    · intro c hc
      have : c ≠ req.close := fun hcc => hc (hcc ▸ hen)
      simp [this]
    · intro c hc
      by_cases hcc : c = req.close
      · simp [hcc]
      · simpa [hcc] using h.log.enteredBegun c (by simpa [hcc] using hc)
    intro c hc
    by_cases hcc : c = req.close
    · simp [hcc]
    · simpa [hcc] using h.log.stoppedBegun c hc
  have hstart : s.enter req = ({ s with
      begun := update s.begun req.close true,
      entered := update s.entered req.close (some req.ownFailure) }).teardownRound
        req.mine (.health req) := by
    simp [enter, hu]
  rw [hstart]
  refine ⟨hrecord.teardownRound ht ha hf (.inl ⟨rfl, ?_⟩) (by simp [mine]), ?_⟩
  · simp [Request.close, mine]
  refine ⟨by simp [Rank.teardownRound, Pc.waiting], ?_, ?_, by simp [Rank.teardownRound],
    by simp [Rank.teardownRound], by simp [Rank.teardownRound], h.pc.returned⟩
  · intro n hn
    obtain rfl : req.mine = n := by simpa [Rank.teardownRound, Pc.waiting] using hn
    exact ⟨hu, .inl (by simp [Rank.teardownRound, ht])⟩
  intro req' hp
  obtain rfl : req = req' := by simpa [Rank.teardownRound] using hp
  exact ⟨by simp [Rank.teardownRound], hst⟩

/-- A close ends with a failure, or without a result, once it holds no round. -/
theorem RankInv.leave {stopped : Close → Bool}
    (h : RankInv g s) (hw : s.pc.waiting = none)
    (hs : ∀ c, s.stopped c = true → stopped c = true)
    (hb : ∀ c, stopped c = true → s.begun c = true)
    (hr : ∀ c, returned c = some none → s.returned c = some none) :
    RankInv g { s with pc := .outside, stopped, returned } := by
  refine ⟨h.log.record rfl rfl (fun _ _ => rfl) hs h.log.enteredBegun hb, ?_⟩
  refine ⟨fun hu _ => h.pc.idle hu hw, by simp [Pc.waiting], by simp, by simp, by simp, by simp, ?_⟩
  exact fun c hc => h.pc.returned c (hr c hc)

/-- `stop` returned and round 2 begins. -/
theorem RankInv.quiesce (h : RankInv g s) (hpc : s.pc = .stopping req result) :
    RankInv g ((s.stop req).teardownRound req.quiet (.quiet req result)) := by
  obtain ⟨hbegun, hst⟩ := h.pc.begun req (.inr (.inr (.inr ⟨result, hpc⟩)))
  obtain ⟨hu, hd⟩ := h.pc.stopping req result hpc
  obtain ⟨ht, ha⟩ := h.pc.idle hu (by simp [hpc, Pc.waiting])
  have hf : ∀ i m, sent s.log i = some m → req.quiet.sameClose m = false := by
    intro i m hi
    by_contra hs
    obtain ⟨hk, ho, hp⟩ := Note.sameClose_iff.mp (by simpa using hs)
    rcases h.log.phase m (.inr ⟨i, hi⟩) with ⟨hm, -⟩ | ⟨-, hm⟩
    · simp [quiet, hm] at hp
    rw [← hk, ← ho] at hm
    simp [quiet, Request.close] at hm hst
    simp [hst] at hm
  have hrecord : LogInv g (s.stop req) := by
    refine h.log.record rfl rfl (fun _ _ => rfl) ?_ h.log.enteredBegun ?_
    · intro c hc
      by_cases hcc : c = req.close
      · simp [stop, hcc]
      · simpa [stop, hcc] using hc
    intro c hc
    by_cases hcc : c = req.close
    · rw [hcc]
      exact hbegun
    · exact h.log.stoppedBegun c (by simpa [stop, hcc] using hc)
  refine ⟨hrecord.teardownRound ht ha hf (.inr ⟨rfl, ?_⟩) ?_, ?_⟩
  · simp [stop, Request.close, quiet]
  · intro _
    obtain ⟨i, notes, ha, -⟩ := hd
    exact ⟨i, req.mine, ha.1, by simp [Note.sameClose, mine, quiet]⟩
  refine ⟨by simp [Rank.teardownRound, Pc.waiting], ?_, by simp [Rank.teardownRound],
    by simp [Rank.teardownRound], ?_, by simp [Rank.teardownRound], h.pc.returned⟩
  · intro n hn
    obtain rfl : req.quiet = n := by simpa [Rank.teardownRound, Pc.waiting] using hn
    exact ⟨hu, .inl (by simp [Rank.teardownRound, stop, ht])⟩
  intro req' result' hp
  obtain ⟨rfl, rfl⟩ : req = req' ∧ result = result' := by simpa [Rank.teardownRound] using hp
  exact hd

/-- A round that did not complete ends the teardown rounds of the group. -/
theorem RankInv.giveUp {why : String}
    (h : RankInv g s) (hw : pc.waiting = none)
    (hpc : ∀ req why, pc = .unhealthy req why → s.pc = .health req ∧ why ≠ none)
    (hst : ∀ req, (∀ reason, pc ≠ .skipping req reason) ∧ ∀ result, pc ≠ .stopping req result)
    (hr : ∀ c, returned c = some none → s.returned c = some none) :
    RankInv g { s.markUnusable why with pc, returned } := by
  refine ⟨h.log.record rfl rfl (fun _ _ => rfl) (fun _ hc => hc) h.log.enteredBegun
    h.log.stoppedBegun, ?_⟩
  refine ⟨by simp [Rank.markUnusable], by simp [hw], ?_, ?_, ?_, ?_, ?_⟩
  · rintro req (⟨reason, hp⟩ | hp | ⟨why, hp⟩ | ⟨result, hp⟩)
    · exact absurd hp ((hst req).1 reason)
    · dsimp only at hp
      simp [hp, Pc.waiting] at hw
    · exact h.pc.begun req (.inr (.inl (hpc req why hp).1))
    · exact absurd hp ((hst req).2 result)
  · intro req result hp
    exact absurd hp ((hst req).2 result)
  · intro req result hp
    dsimp only at hp
    simp [hp, Pc.waiting] at hw
  · exact fun req why hp => (hpc req why hp).2
  · exact fun c hc => h.pc.returned c (hr c hc)

variable {mine : Note}

/-- The round waited for completed: nothing is pending. -/
theorem RankInv.arrived (h : RankInv g s) (hw : s.pc.waiting = some mine) (hi : sent s.log i = some mine) (hn : g i = some notes)
    (hs : ∀ note ∈ notes, mine.sameClose note = true) :
    s.unusable = none ∧ s.threads = [] ∧ AllAgreed g s.log ∧ Agreed g s.log i mine notes := by
  have hagreed : Agreed g s.log i mine notes := ⟨hi, hn, hs⟩
  obtain ⟨hu, ht | ⟨ht, k, hk, hlast⟩⟩ := h.pc.waiting mine hw
  · have hf := h.log.fresh mine (by simp [ht]) i mine hi
    simp [Note.sameClose] at hf
  refine ⟨hu, ht, ?_, hagreed⟩
  obtain rfl : i = k := h.log.unique i k mine mine hi hk (by simp [Note.sameClose])
  intro j m hj
  rcases (hlast j m hj).lt_or_eq with hlt | rfl
  · exact h.log.order j i m mine hj hi hlt
  · obtain rfl : mine = m := some.inj (hi.symm.trans hj)
    exact ⟨notes, hagreed⟩

/-- Round 1 completed. -/
theorem RankInv.healthArrived
    (h : RankInv g s) (hpc : s.pc = .health req) (hi : sent s.log i = some req.mine)
    (hn : g i = some notes) (hs : ∀ note ∈ notes, req.mine.sameClose note = true)
    (hr : result = none → req.ownFailure = none ∧ ∀ note ∈ notes, note.failure = none) :
    RankInv g { s with pc := .stopping req result } := by
  obtain ⟨hu, ht, hall, ha⟩ := h.arrived (by simp [hpc, Pc.waiting]) hi hn hs
  refine ⟨h.log.record rfl rfl (fun _ _ => rfl) (fun _ hc => hc) h.log.enteredBegun
    h.log.stoppedBegun, ?_⟩
  refine ⟨fun _ _ => ⟨ht, hall⟩, by simp [Pc.waiting], ?_, ?_, by simp, by simp, h.pc.returned⟩
  · intro req' hp
    obtain rfl : req' = req := by simpa [eq_comm] using hp
    exact h.pc.begun req' (.inr (.inl hpc))
  intro req' result' hp
  obtain ⟨rfl, rfl⟩ : req = req' ∧ result = result' := by simpa using hp
  exact ⟨hu, i, notes, ha, hr⟩

/-- Round 2 completed: the close returns its result. -/
theorem RankInv.quietArrived (h : RankInv g s) (hpc : s.pc = .quiet req result) (hi : sent s.log i = some req.quiet)
    (hn : g i = some notes) (hs : ∀ note ∈ notes, req.quiet.sameClose note = true) : RankInv g (s.finish req result) := by
  obtain ⟨hu, ht, hall, ha⟩ := h.arrived (by simp [hpc, Pc.waiting]) hi hn hs
  refine ⟨h.log.record rfl rfl (fun _ _ => rfl) (fun _ hc => hc) h.log.enteredBegun
    h.log.stoppedBegun, ?_⟩
  refine ⟨fun _ _ => ⟨ht, hall⟩, by simp [finish, Pc.waiting], by simp [finish],
    by simp [finish], by simp [finish], by simp [finish], ?_⟩
  intro c hc
  by_cases hcc : c = req.close
  · subst hcc
    obtain rfl : result = none := by simpa [finish] using hc
    obtain ⟨i1, notes1, ha1, hr⟩ := h.pc.quiet req none hpc
    obtain ⟨hown, hhealthy⟩ := hr rfl
    obtain ⟨i0, m, hlt, hm, hsame⟩ := h.log.earlier i req.quiet hi rfl
    have hsame' : m.sameClose req.mine = true := by
      have hc := Note.sameClose_iff.mp hsame
      exact Note.sameClose_iff.mpr ⟨hc.1.symm, hc.2.1.symm, hc.2.2.symm⟩
    obtain rfl : i0 = i1 := h.log.unique i0 i1 m req.mine hm ha1.1 hsame'
    have hmine : req.mine = ⟨req.close.1, req.close.2, 1, none⟩ := by
      simp [mine, Request.close, hown]
    exact ⟨i0, i, notes1, notes, hlt, hmine ▸ ha1, hhealthy, ha⟩
  · exact h.pc.returned c (by simpa [finish, hcc] using hc)

theorem sent_of_position {note : Note} (h : s.position note = some i) : sent s.log i = some note := by
  obtain ⟨hi, hp, -⟩ := List.findIdx?_eq_some_iff_getElem.mp h
  unfold sent
  rw [List.getElem?_eq_getElem hi]
  simpa using hp

variable {round : Round}

/-- A round that is not taken as arrived leaves a reason. -/
theorem matched_why {name : String} (h : (matched round mine name).arrived = false) (hr : round.arrived = true ∨ round.why ≠ none) :
    (matched round mine name).why ≠ none := by
  unfold matched at h ⊢
  split at h
  case isTrue ha =>
    rw [if_pos ha]
    split at h
    · simp
    · simp [ha] at h
  case isFalse ha =>
    rw [if_neg ha]
    exact hr.resolve_left ha

/-- What a close does with a round that did not arrive with the notes of its
close. -/
theorem RankInv.conclude_missed (h : RankInv g s) (hu : s.conclude round = some u) (hr : round.arrived = true ∨ round.why ≠ none)
    (hm : ∀ mine name, s.pc.waiting = some mine → (matched round mine name).arrived = false) : RankInv g u := by
  unfold conclude at hu
  split at hu
  case h_1 req hpc =>
    have hno := hm req.mine s!"{req.what} round 1" (by simp [hpc, Pc.waiting])
    simp only [hno, Bool.false_eq_true, if_false, some.injEq] at hu
    subst hu
    refine h.giveUp rfl ?_ (by simp) (fun _ hc => hc)
    intro req' why hp
    obtain ⟨rfl, rfl⟩ := by simpa using hp
    exact ⟨hpc, matched_why hno hr⟩
  case h_2 req result hpc =>
    have hno := hm req.quiet s!"{req.what} round 2" (by simp [hpc, Pc.waiting])
    simp only [hno, Bool.false_eq_true, if_false, some.injEq] at hu
    subst hu
    refine h.giveUp rfl (by simp) (by simp) ?_
    intro c hc
    by_cases hcc : c = req.close
    · have hwhy := matched_why hno hr
      cases hw : (matched round req.quiet s!"{req.what} round 2").why with
      | none => exact absurd hw hwhy
      | some =>
        rw [hw] at hc
        cases ht : truthy result <;> simp [hcc, ht, Rank.markUnusable] at hc
    · simpa [hcc, Rank.markUnusable] using hc
  case h_3 => cases hu

/-- What a close does with the notes of the round it waited for. -/
theorem RankInv.conclude_arrived (h : RankInv g s) (hw : s.pc.waiting = some mine) (hi : sent s.log i = some mine) (hn : g i = some notes)
    (hu : s.conclude ⟨true, notes, none⟩ = some u) : RankInv g u := by
  by_cases hm : ∀ name, (matched ⟨true, notes, none⟩ mine name).arrived = false
  · refine h.conclude_missed hu (.inl rfl) ?_
    intro mine' name hw'
    obtain rfl : mine = mine' := some.inj (hw.symm.trans hw')
    exact hm name
  push Not at hm
  obtain ⟨name, hm⟩ := hm
  have hsame : ∀ note ∈ notes, mine.sameClose note = true :=
    (matched_arrived (by simpa using hm)).2
  have hnone : notes.findIdx? (fun note => !mine.sameClose note) = none := by
    rw [List.findIdx?_eq_none_iff]
    intro note hnote
    simp [hsame note hnote]
  have hmatched : ∀ name, matched ⟨true, notes, none⟩ mine name = ⟨true, notes, none⟩ := by
    simp [matched, hnone]
  unfold conclude at hu
  split at hu
  case h_1 req hpc =>
    obtain rfl : req.mine = mine := by simpa [hpc, Pc.waiting] using hw
    simp only [hmatched, if_true, some.injEq] at hu
    subst hu
    refine h.healthArrived hpc hi hn hsame ?_
    intro hr
    cases ho : req.ownFailure with
    | some => simp [ho] at hr
    | none => exact ⟨rfl, firstFailure_none (by simpa [ho] using hr)⟩
  case h_2 req result hpc =>
    obtain rfl : req.quiet = mine := by simpa [hpc, Pc.waiting] using hw
    simp only [hmatched, if_true, some.injEq] at hu
    subst hu
    exact h.quietArrived hpc hi hn hsame
  case h_3 => cases hu

theorem RankInv.stopReturns (h : RankInv g s) (hu : s.stopReturns = some u) : RankInv g u := by
  have hgrow : ∀ (req : Request) c, s.stopped c = true → (s.stop req).stopped c = true := by
    intro req c hc
    by_cases hcc : c = req.close
    · simp [stop, hcc]
    · simpa [stop, hcc] using hc
  have hbegun : ∀ req : Request, s.begun req.close = true →
      ∀ c, (s.stop req).stopped c = true → s.begun c = true := by
    intro req hb c hc
    by_cases hcc : c = req.close
    · rw [hcc]
      exact hb
    · exact h.log.stoppedBegun c (by simpa [stop, hcc] using hc)
  have hfail : ∀ (req : Request) (result : Option String), result ≠ none → ∀ c,
      ((s.stop req).finish req result).returned c = some none → s.returned c = some none := by
    intro req result hr c hc
    by_cases hcc : c = req.close
    · simp [finish, hcc, hr] at hc
    · simpa [finish, stop, hcc] using hc
  unfold Rank.stopReturns at hu
  split at hu
  case h_1 req reason hpc =>
    cases hu
    refine h.leave (by simp [hpc, Pc.waiting]) (hgrow req)
      (hbegun req (h.pc.begun req (.inl ⟨reason, hpc⟩)).1) (hfail req _ ?_)
    cases truthy req.ownFailure <;> simp
  case h_2 req why hpc =>
    cases hu
    refine h.leave (by simp [hpc, Pc.waiting]) (hgrow req)
      (hbegun req (h.pc.begun req (.inr (.inr (.inl ⟨why, hpc⟩)))).1) (hfail req _ ?_)
    have hwhy := h.pc.unhealthy req why hpc
    cases truthy req.ownFailure <;> simp [hwhy]
  case h_3 req result hpc =>
    cases hu
    exact h.quiesce hpc
  case h_4 => cases hu

/-- Every event of a rank keeps its invariant. -/
theorem RankInv.act (h : RankInv g s) (hu : s.act g e = some u) : RankInv g u := by
  cases e with
  | enter req =>
    simp only [Rank.act] at hu
    split at hu
    case h_1 hpc =>
      split at hu
      case isTrue => cases hu
      case isFalse hb =>
        cases hu
        cases hr : s.unusable with
        | some =>
          have hskip := h.skip (by simpa using hb) hr
          simpa [enter, hr] using hskip
        | none => exact h.begin hpc (by simpa using hb) hr
    case h_2 => cases hu
  | issue k =>
    obtain ⟨n, hk, hmap⟩ := bind_eq_some_iff.mp hu
    obtain ⟨raw, he, rfl⟩ := map_eq_some_iff.mp hmap
    obtain ⟨⟨n', ht⟩, hall⟩ := h.log.single (by rintro ht; simp [ht] at hk)
    obtain ⟨rfl, rfl⟩ : k = 0 ∧ n' = n := by
      rw [ht] at hk
      cases k with
      | zero => simpa using hk
      | succ => simp at hk
    simp only [ht, List.eraseIdx_cons_zero]
    refine ⟨h.log.issue ht he, ?_⟩
    refine ⟨?_, ?_, h.pc.begun, ?_, ?_, h.pc.unhealthy, fun c hc => (h.pc.returned c hc).append⟩
    · intro hun hw
      have := (h.pc.idle hun hw).1
      simp [ht] at this
    · intro m hw
      obtain ⟨hun, hwait⟩ := h.pc.waiting m hw
      obtain rfl : n' = m := by simpa [ht] using hwait
      refine ⟨hun, .inr ⟨rfl, s.log.length, by simp [sent], ?_⟩⟩
      intro i m hi
      have := sent_lt hi
      simp only [List.length_append, List.length_cons, List.length_nil] at this
      omega
    · exact fun req result hp => ⟨(h.pc.stopping req result hp).1, (h.pc.stopping req result hp).2.append⟩
    · exact fun req result hp => (h.pc.quiet req result hp).append
  | other raw =>
    simp only [Rank.act] at hu
    obtain ⟨hf, rfl⟩ := Option.ite_some_none_eq_some.mp hu
    have hsent : ∀ i n, sent (s.log ++ [⟨none, raw⟩]) i = some n ↔ sent s.log i = some n := by
      simp [sent_append]
    refine ⟨h.log.other hf, ?_⟩
    refine ⟨?_, ?_, h.pc.begun, ?_, ?_, h.pc.unhealthy, fun c hc => (h.pc.returned c hc).append⟩
    · intro hun hw
      obtain ⟨ht, ha⟩ := h.pc.idle hun hw
      refine ⟨ht, fun i n hi => ?_⟩
      obtain ⟨notes, hn⟩ := ha i n ((hsent i n).mp hi)
      exact ⟨notes, hn.append⟩
    · simpa only [hsent] using h.pc.waiting
    · exact fun req result hp =>
        ⟨(h.pc.stopping req result hp).1, (h.pc.stopping req result hp).2.append⟩
    · exact fun req result hp => (h.pc.quiet req result hp).append
  | arrive =>
    obtain ⟨mine, hw, hu⟩ := bind_eq_some_iff.mp hu
    obtain ⟨i, hi, hu⟩ := bind_eq_some_iff.mp hu
    obtain ⟨notes, hn, hu⟩ := bind_eq_some_iff.mp hu
    exact h.conclude_arrived hw (sent_of_position hi) hn hu
  | miss => exact h.conclude_missed hu (.inr (by simp)) (by simp [matched])
  | stopReturns => exact h.stopReturns hu
  | stopRaises =>
    have hraise : ∀ {v : Rank}, s.pc.waiting = none → some { s with pc := .outside } = some v →
        RankInv g v := by
      rintro _ hw ⟨⟩
      exact h.leave hw (fun _ hc => hc) h.log.stoppedBegun (fun _ hc => hc)
    simp only [Rank.act] at hu
    split at hu
    case h_1 hpc => exact hraise (by simp [hpc, Pc.waiting]) hu
    case h_2 hpc => exact hraise (by simp [hpc, Pc.waiting]) hu
    case h_3 hpc => exact hraise (by simp [hpc, Pc.waiting]) hu
    case h_4 => cases hu

variable {world : ℕ} {w v : ℕ → Rank}

/-- Concluding a round issues and starts nothing. -/
theorem conclude_frame (hu : s.conclude round = some u) : u.log = s.log ∧ u.rounds = s.rounds := by
  unfold conclude at hu
  split at hu
  case h_1 req _ =>
    by_cases ha : (matched round req.mine s!"{req.what} round 1").arrived = true
    · rw [if_pos ha] at hu
      cases hu
      exact ⟨rfl, rfl⟩
    rw [if_neg ha] at hu
    cases hu
    exact ⟨rfl, rfl⟩
  case h_2 req _ _ =>
    by_cases ha : (matched round req.quiet s!"{req.what} round 2").arrived = true
    · rw [if_pos ha] at hu
      cases hu
      exact ⟨rfl, rfl⟩
    rw [if_neg ha] at hu
    cases hu
    exact ⟨rfl, rfl⟩
  case h_3 => cases hu

/-- Collectives are only added to a rank's order. -/
theorem act_log (hu : s.act g e = some u) : u.log = s.log ∨ ∃ c, u.log = s.log ++ [c] := by
  cases e with
  | enter =>
    simp only [Rank.act] at hu
    split at hu
    · split at hu
      · cases hu
      cases hu
      left
      simp only [enter]
      split <;> rfl
    · cases hu
  | issue =>
    obtain ⟨n, -, hmap⟩ := bind_eq_some_iff.mp hu
    obtain ⟨raw, -, rfl⟩ := map_eq_some_iff.mp hmap
    exact .inr ⟨_, rfl⟩
  | other =>
    simp only [Rank.act] at hu
    split at hu
    · cases hu
      exact .inr ⟨_, rfl⟩
    · cases hu
  | arrive =>
    obtain ⟨mine, -, hu⟩ := bind_eq_some_iff.mp hu
    obtain ⟨i, -, hu⟩ := bind_eq_some_iff.mp hu
    obtain ⟨notes, -, hu⟩ := bind_eq_some_iff.mp hu
    exact .inl (conclude_frame hu).1
  | miss => exact .inl (conclude_frame hu).1
  | stopReturns =>
    simp only [Rank.act, Rank.stopReturns] at hu
    split at hu <;> cases hu <;> exact .inl rfl
  | stopRaises =>
    simp only [Rank.act] at hu
    split at hu <;> cases hu <;> exact .inl rfl

/-- A collective that completed stays completed, with the same notes. -/
theorem gathered_step {a : Action} (h : step world w a = some v)
    (hg : gathered world w i = some notes) : gathered world v i = some notes := by
  obtain ⟨-, u, hu, rfl⟩ := step_eq_some h
  have hlog : ∀ r, ∃ tail, (update w a.rank u r).log = (w r).log ++ tail := by
    intro r
    by_cases hr : r = a.rank
    · subst hr
      rcases act_log hu with hl | ⟨c, hl⟩
      · exact ⟨[], by simp [hl]⟩
      · exact ⟨[c], by simp [hl]⟩
    · exact ⟨[], by simp [hr]⟩
  unfold gathered at hg ⊢
  obtain ⟨hall, hg⟩ := Option.ite_none_right_eq_some.mp hg
  rw [if_pos, ← hg]
  · congr 1
    refine List.map_congr_left fun r hr => ?_
    obtain ⟨tail, ht⟩ := hlog r
    rw [ht, List.getD_append _ _ _ _ (hall r (List.mem_range.mp hr))]
  intro r hr
  obtain ⟨tail, ht⟩ := hlog r
  have := hall r hr
  rw [ht, List.length_append]
  omega

/-- Every rank's invariant holds in every reachable state. -/
theorem reachable_inv (h : Reachable (step world) Unrestricted initial w) : ∀ r, RankInv (gathered world w) (w r) := by
  refine h.invariant (fun w => ∀ r, RankInv (gathered world w) (w r)) ?_ ?_
  · intro r
    refine ⟨⟨?_, ?_, ?_, ?_, ?_, ?_, ?_, ?_, ?_, ?_, ?_⟩, ⟨?_, ?_, ?_, ?_, ?_, ?_, ?_⟩⟩ <;>
      simp [initial, Rank.initial, sent, Started, AllAgreed, Pc.waiting]
  intro w a v _ ih _ hstep r
  have hmono : ∀ i notes, gathered world w i = some notes → gathered world v i = some notes :=
    fun i notes hg => gathered_step hstep hg
  obtain ⟨-, u, hu, rfl⟩ := step_eq_some hstep
  refine RankInv.mono hmono ?_
  by_cases hr : r = a.rank
  · subst hr
    simpa using (ih a.rank).act hu
  · simpa [hr] using ih r

/-- A rank that marked its group unusable starts no round. -/
theorem RankInv.act_unusable (h : RankInv g s) (hn : s.unusable ≠ none)
    (hu : s.act g e = some u) : u.unusable ≠ none ∧ u.rounds = s.rounds := by
  have hpc : ∀ req result, s.pc ≠ .stopping req result :=
    fun req result hp => hn (h.pc.stopping req result hp).1
  have hwait : s.pc.waiting = none := by
    cases hw : s.pc.waiting with
    | none => rfl
    | some n => exact absurd (h.pc.waiting n hw).1 hn
  have hconclude : ∀ round, s.conclude round = none := by
    intro round
    unfold conclude
    split
    · next hp => simp [hp, Pc.waiting] at hwait
    · next hp => simp [hp, Pc.waiting] at hwait
    · rfl
  cases e with
  | enter =>
    simp only [Rank.act] at hu
    split at hu
    · split at hu
      · cases hu
      cases hu
      obtain ⟨reason, hr⟩ := Option.ne_none_iff_exists'.mp hn
      simp [enter, hr]
    · cases hu
  | issue =>
    obtain ⟨n, -, hmap⟩ := bind_eq_some_iff.mp hu
    obtain ⟨raw, -, rfl⟩ := map_eq_some_iff.mp hmap
    exact ⟨hn, rfl⟩
  | other =>
    simp only [Rank.act] at hu
    split at hu
    · cases hu
      exact ⟨hn, rfl⟩
    · cases hu
  | arrive => simp [Rank.act, hwait] at hu
  | miss => simp [Rank.act, hconclude] at hu
  | stopReturns =>
    simp only [Rank.act, Rank.stopReturns] at hu
    split at hu
    · cases hu
      exact ⟨hn, rfl⟩
    · cases hu
      exact ⟨hn, rfl⟩
    · next hp => exact absurd hp (hpc _ _)
    · cases hu
  | stopRaises =>
    simp only [Rank.act] at hu
    split at hu <;> cases hu <;> exact ⟨hn, rfl⟩

/-- What a completed collective gathers is what each rank sent in it. -/
theorem gathered_mem (hg : gathered world w i = some notes)
    {q : ℕ} (hq : q < world) : ∃ c, (w q).log[i]? = some c ∧ decode c.raw ∈ notes := by
  unfold gathered at hg
  obtain ⟨hall, rfl⟩ := Option.ite_some_none_eq_some.mp hg
  obtain ⟨c, hc⟩ : ∃ c, (w q).log[i]? = some c := ⟨_, List.getElem?_eq_getElem (hall q hq)⟩
  refine ⟨c, hc, List.mem_map.mpr ⟨q, List.mem_range.mpr hq, ?_⟩⟩
  rw [List.getD_eq_getElem?_getD, hc, Option.getD_some]

section

variable (h : ∀ r, RankInv (gathered world w) (w r))

include h

/-- When a round of rank `p` completed, every rank sent a note of that close in the
same position; its bytes are a round's note, with the low bits of its ordinal. -/
theorem agreed_sent {p q i : ℕ} (hq : q < world) (ha : Agreed (gathered world w) (w p).log i mine notes)
    (hphase : mine.phase ≠ 0) : ∃ n failure, sent (w q).log i = some n ∧ n.kind = mine.kind ∧ n.phase = mine.phase ∧
      n.ordinal % 2 ^ 32 = mine.ordinal ∧ failure.isSome = n.failure.isSome ∧
      (⟨n.kind, n.ordinal % 2 ^ 32, n.phase, failure⟩ : Note) ∈ notes := by
  obtain ⟨c, hc, hmem⟩ := gathered_mem ha.2.1 hq
  have hsame := Note.sameClose_iff.mp (ha.2.2 _ hmem)
  cases hs : c.sender with
  | none =>
    have hf := (h q).log.others c (List.mem_of_getElem? hc) hs
    rw [decode_foreign hf] at hsame
    exact absurd hsame.2.2 hphase
  | some n =>
    have he := (h q).log.encoded c (List.mem_of_getElem? hc) n hs
    obtain ⟨hk, hp⟩ := of_encode he
    obtain ⟨raw, failure, he', hd, hfail⟩ := decode_encode hk hp
    obtain rfl : c.raw = raw := some.inj (he.symm.trans he')
    rw [hd] at hmem hsame
    exact ⟨n, failure, by simp [sent, hc, hs], hsame.1.symm, hsame.2.2.symm, hsame.2.1.symm, hfail, hmem⟩

/-- A round that completed with notes of its own close names its ordinal exactly. -/
theorem agreed_ordinal {p i : ℕ} (hp : p < world) (ha : Agreed (gathered world w) (w p).log i mine notes)
    (hphase : mine.phase ≠ 0) : mine.ordinal % 2 ^ 32 = mine.ordinal := by
  obtain ⟨n, -, hn, -, -, ho, -⟩ := agreed_sent h hp ha hphase
  obtain rfl : mine = n := some.inj (ha.1.symm.trans hn)
  exact ho

/-- When both rounds of rank `p`'s close completed and round 1 was healthy, every
rank entered round 1 of that close without a failure and stopped. -/
theorem quiet_of_bothDone {p q : ℕ} (hp : p < world) (hq : q < world) {c : Close} (hd : BothDone (gathered world w) (w p).log c) :
    (w q).entered c = some none ∧ (w q).stopped c = true := by
  obtain ⟨i, j, notes, notes', hij, ha, hhealthy, hb⟩ := hd
  obtain ⟨n, -, hn, hnk, hnp, hno, -⟩ := agreed_sent h hq hb (by simp)
  -- the round 1 that rank `q` issued before this round 2 has completed too
  obtain ⟨k, m, hkj, hm, hsame⟩ := (h q).log.earlier j n hn hnp
  obtain ⟨hmk, hmo, hmp⟩ := Note.sameClose_iff.mp hsame
  dsimp only at hnk hnp hno hmk hmo hmp
  obtain ⟨notes1, hm1⟩ := (h q).log.order k j m n hm hn hkj
  have hmord := agreed_ordinal h hq hm1 (by omega)
  have hclose : (m.kind, m.ordinal) = c := by
    rw [← hmk, hnk, ← hmord, ← hmo, hno]
  have hclose' : (n.kind, n.ordinal) = c := by
    rw [← hclose, ← hmk, ← hmo]
  -- so rank `p` sent round 1 in the same position
  obtain ⟨x, -, hx, hxk, hxp, hxo, -⟩ := agreed_sent h hp hm1 (by omega)
  obtain ⟨notesx, hx1⟩ := (h p).log.order k j x _ hx hb.1 hkj
  have hxord := agreed_ordinal h hp hx1 (by omega)
  obtain rfl : k = i := by
    refine (h p).log.unique k i x _ hx ha.1 (Note.sameClose_iff.mpr ⟨?_, ?_, ?_⟩)
    · rw [hxk, ← hmk, hnk]
    · rw [← hxord, hxo, ← hmo, ← hclose']
    · exact hxp.trans hmp.symm
  obtain ⟨y, failure, hy, -, -, -, hfail, hmem⟩ := agreed_sent h hq ha (by simp)
  obtain rfl : m = y := some.inj (hm.symm.trans hy)
  have hnone : m.failure = none := by
    have := hhealthy _ hmem
    dsimp only at this
    simpa [this] using hfail.symm
  constructor
  · rcases (h q).log.phase m (.inr ⟨k, hm⟩) with ⟨-, he⟩ | ⟨hp2, -⟩
    · rwa [hclose, hnone] at he
    · omega
  rcases (h q).log.phase n (.inr ⟨j, hn⟩) with ⟨hp1, -⟩ | ⟨-, hs⟩
  · omega
  · rwa [hclose'] at hs

end

/-- A close that returns no failure was healthy and quiet on every rank: each of
them entered its round 1 without a failure of its own and its `stop` has returned.
A rank that marked the group unusable starts no further round. -/
theorem healthy_close_is_quiet {world : ℕ} {w : ℕ → Rank}
    (h : Reachable (step world) Unrestricted initial w) :
    (∀ p < world, ∀ c, (w p).returned c = some none →
      ∀ q < world, (w q).entered c = some none ∧ (w q).stopped c = true) ∧
    ∀ r, (w r).unusable ≠ none → ∀ v, Reachable (step world) Unrestricted w v →
      (v r).rounds = (w r).rounds := by
  constructor
  · intro p hp c hc q hq
    have hinv := reachable_inv h
    exact quiet_of_bothDone hinv hp hq ((hinv p).pc.returned c hc)
  intro r hr v hv
  suffices hkeep : (v r).unusable ≠ none ∧ (v r).rounds = (w r).rounds from hkeep.2
  refine hv.invariant (fun v => (v r).unusable ≠ none ∧ (v r).rounds = (w r).rounds) ⟨hr, rfl⟩ ?_
  rintro v a v' hv ⟨hn, hrounds⟩ - hstep
  have hinv := reachable_inv (h.trans hv)
  obtain ⟨-, u, hu, rfl⟩ := step_eq_some hstep
  by_cases hra : r = a.rank
  · subst hra
    obtain ⟨hn', hrounds'⟩ := (hinv _).act_unusable hn hu
    simpa using ⟨hn', hrounds'.trans hrounds⟩
  · simpa [hra] using ⟨hn, hrounds⟩

/-- Two ranks that close their only session together. -/
def healthyRun : List Action :=
  let req : Request := ⟨.session, 0, none, "SIRCL session teardown"⟩
  [⟨0, .enter req⟩, ⟨1, .enter req⟩, ⟨0, .issue 0⟩, ⟨1, .issue 0⟩, ⟨0, .arrive⟩, ⟨1, .arrive⟩,
    ⟨0, .stopReturns⟩, ⟨0, .issue 0⟩, ⟨1, .stopReturns⟩, ⟨1, .issue 0⟩, ⟨0, .arrive⟩]

/-- Rank 0 returns no failure while rank 1 has not returned yet. -/
theorem healthy_close_is_quiet_healthyRun : ∃ w, Reachable (step 2) Unrestricted initial w ∧
    (w 1).returned (.session, 0) = none ∧
    (w 1).entered (.session, 0) = some none ∧ (w 1).stopped (.session, 0) = true := by
  obtain ⟨w, hw, hp⟩ := Reachable.exists_of_runs (step 2) initial healthyRun
    (fun w => decide ((w 0).returned (.session, 0) = some none ∧ (w 1).returned (.session, 0) = none))
    (by decide +kernel)
  obtain ⟨h0, h1⟩ := of_decide_eq_true hp
  exact ⟨w, hw, h1, (healthy_close_is_quiet hw).1 0 (by decide) _ h0 1 (by decide)⟩

end SparkRing.TeardownAgreement
