import SparkRing.EngineTeardown

/-!
# What a teardown releases

Each function of a teardown by what it does to the engines and to the count of releases.
-/

namespace SparkRing.EngineTeardown

open StreamOrder (Item Streams)
open Function
open Nat (add_zero)

variable {p : Process} {a b : ℕ} {e : Engine} {part : Part}

/-- An engine whose memory and record went. -/
def Engine.gone (e : Engine) : Engine :=
  { e with status := .freed, core := false, channelMemory := false, channel := if e.channelMemory then fun _ _ => none else e.channel }

/-- The verbs objects of a part that are left. -/
def Engine.left (e : Engine) : Part → ℕ
  | .channels => e.p2pSurvivors
  | .core | .record => e.survivors

/-- How often freeing an engine releases a part. -/
def Engine.held (e : Engine) : Part → ℕ
  | .core => if e.core then 1 else 0
  | .channels => if e.channelMemory then 1 else 0
  | .record => 1

theorem Engine.held_le (e : Engine) (part : Part) : e.held part ≤ 1 := by
  cases part
  · unfold held
    split_ifs <;> decide
  · unfold held
    split_ifs <;> decide
  · exact le_refl 1

namespace Process

theorem releasePart_released (part' : Part) :
    (p.releasePart a part).released b part' = p.released b part' + if b = a ∧ part' = part then 1 else 0 := by
  change update p.released a (update (p.released a) part (p.released a part + 1)) b part' = _
  by_cases hb : b = a
  · subst hb
    rw [update_self]
    by_cases hpart : part' = part
    · rw [hpart, update_self, if_pos ⟨rfl, rfl⟩]
    · rw [update_of_ne hpart, if_neg (fun h => hpart h.2), add_zero]
  · rw [update_of_ne hb, if_neg (fun h => hb h.1), add_zero]

theorem put_engines (p : Process) (a b : ℕ) (e : Engine) : (p.put a e).engines b = if b = a then some e else p.engines b := by
  change update p.engines a (some e) b = _
  rw [update_apply]

theorem free_spec : (p.free a e).streams = p.streams ∧ (p.free a e).gone = p.gone ∧ (p.free a e).quarantined = p.quarantined ∧
      (∀ b, (p.free a e).engines b = if b = a then some e.gone else p.engines b) ∧
      ∀ b part, (p.free a e).released b part = p.released b part + if b = a then e.held part else 0 := by
  obtain ⟨world, context, status, closing, haveLast, lastStream, captureId, captureStream, captured, channel, proxy, p2p, core, channelMemory,
    quarantineDone, failures, p2pSurvivors, survivors⟩ := e
  cases core <;> cases channelMemory
  all_goals
    refine ⟨rfl, rfl, rfl, fun b => put_engines _ a b _, fun b part => ?_⟩
    change (Process.releasePart _ a .record).released b part = _
    simp only [releasePart_released]
    by_cases hb : b = a
    · cases part <;> simp [hb, Engine.held]
    · simp [hb]

/-- The engines that a reclaim frees. -/
def reclaimed (p : Process) (answers : ℕ → ℕ → Bool) : List ℕ := p.quarantined.filter (p.reclaimable answers)

theorem foldl_freeQuarantined (freed : List ℕ) (hnodup : freed.Nodup) (p : Process) :
    (freed.foldl freeQuarantined p).streams = p.streams ∧ (freed.foldl freeQuarantined p).gone = p.gone ∧
      (∀ b, (freed.foldl freeQuarantined p).engines b = if b ∈ freed then (p.engines b).map Engine.gone else p.engines b) ∧
      ∀ b part, (freed.foldl freeQuarantined p).released b part =
        p.released b part + if b ∈ freed then ((p.engines b).map fun e => e.held part).getD 0 else 0 := by
  induction freed generalizing p with
  | nil => exact ⟨rfl, rfl, fun b => (if_neg List.not_mem_nil).symm, fun b part => by rw [if_neg List.not_mem_nil]; rfl⟩
  | cons a freed ih =>
    obtain ⟨hnot, hrest⟩ := List.nodup_cons.mp hnodup
    have hone : (p.freeQuarantined a).streams = p.streams ∧ (p.freeQuarantined a).gone = p.gone ∧
        (∀ b, (p.freeQuarantined a).engines b = if b = a then (p.engines b).map Engine.gone else p.engines b) ∧
        ∀ b part, (p.freeQuarantined a).released b part = p.released b part + if b = a then ((p.engines b).map fun e => e.held part).getD 0 else 0 := by
      unfold freeQuarantined
      cases he : p.engines a with
      | none =>
        refine ⟨rfl, rfl, fun b => ?_, fun b part => ?_⟩
        · by_cases hb : b = a <;> simp [hb, he]
        · by_cases hb : b = a <;> simp [hb, he]
      | some =>
        obtain ⟨hstreams, hgone, -, hengines, hreleased⟩ := free_spec
        refine ⟨hstreams, hgone, fun b => ?_, fun b part => ?_⟩
        · rw [hengines]
          by_cases hb : b = a <;> simp [hb, he]
        · rw [hreleased]
          by_cases hb : b = a <;> simp [hb, he]
    obtain ⟨hstreams, hgone, hengines, hreleased⟩ := ih hrest (p.freeQuarantined a)
    refine ⟨hstreams.trans hone.1, hgone.trans hone.2.1, fun b => ?_, fun b part => ?_⟩
    · rw [List.foldl_cons, hengines, hone.2.2.1]
      by_cases hb : b = a
      · simp [hb, hnot]
      · simp [hb]
    rw [List.foldl_cons, hreleased, hone.2.2.1, hone.2.2.2]
    by_cases hb : b = a
    · simp [hb, hnot]
    · simp [hb]

theorem quarantineReclaim_spec (hnodup : p.quarantined.Nodup) (answers : ℕ → ℕ → Bool) :
    (p.quarantineReclaim answers).streams = p.streams ∧ (p.quarantineReclaim answers).gone = p.gone ∧
      (p.quarantineReclaim answers).quarantined = p.quarantined.filter (fun a => !p.reclaimable answers a) ∧
      (∀ b, (p.quarantineReclaim answers).engines b = if b ∈ p.reclaimed answers then (p.engines b).map Engine.gone else p.engines b) ∧
      ∀ b part, (p.quarantineReclaim answers).released b part =
        p.released b part + if b ∈ p.reclaimed answers then ((p.engines b).map fun e => e.held part).getD 0 else 0 := by
  obtain ⟨hstreams, hgone, hengines, hreleased⟩ := foldl_freeQuarantined (p.reclaimed answers) (hnodup.filter _) p
  exact ⟨hstreams, hgone, rfl, hengines, hreleased⟩

/-- The verbs objects of the channel context that a destroy leaves. -/
def DestroyResults.p2pLost (results : DestroyResults) (e : Engine) : ℕ := if e.p2p then results.p2pUnreleased else 0

/-- The verbs objects of the native transport that a destroy leaves. -/
def DestroyResults.lost (results : DestroyResults) (e : Engine) : ℕ := if e.proxy then results.unreleased else 0

/-- What a destroy that finds an idle engine needs to release memory: no verbs object of the channel context is
left, and none of the transport or the channels have memory. -/
def DestroyResults.lets (results : DestroyResults) (e : Engine) : Bool :=
  decide (results.p2pLost e = 0 ∧ (e.channelMemory = true ∨ results.lost e = 0))

/-- What closing the channel context does: its verbs objects go, and its memory where it may. -/
theorem p2pClose_spec (e : Engine) (freeMemory : Bool) (unreleased : ℕ) :
    ∃ p' e', p.p2pClose a e freeMemory unreleased = (p', e') ∧ p'.streams = p.streams ∧ p'.gone = p.gone ∧ p'.engines = p.engines ∧
      p'.quarantined = p.quarantined ∧ e'.context = e.context ∧ e'.core = e.core ∧ e'.failures = e.failures ∧ e'.proxy = e.proxy ∧
      e'.p2pSurvivors = e.p2pSurvivors + (if e.p2p = true then unreleased else 0) ∧
      e'.survivors = e.survivors + (if e.p2p = true then unreleased else 0) ∧
      (freeMemory = false → e'.streams = e.streams) ∧ (∀ send peer c, e'.channel send peer = some c → e.channel send peer = some c) ∧
      (∀ b part, p'.released b part = p.released b part + if b = a ∧ part = .channels ∧ e.channelMemory = true ∧ e'.channelMemory = false then 1 else 0) ∧
      (e'.channelMemory = true ↔ e.channelMemory = true ∧ ¬(freeMemory = true ∧ (if e.p2p = true then unreleased else 0) = 0)) := by
  obtain ⟨world, context, status, closing, haveLast, lastStream, captureId, captureStream, captured, channel, proxy, p2p, core, channelMemory,
    quarantineDone, failures, p2pSurvivors, survivors⟩ := e
  unfold p2pClose
  generalize (if p2p = true then unreleased else 0) = lost
  by_cases hkeeps : freeMemory = false ∨ lost ≠ 0
  · rw [if_pos hkeeps]
    refine ⟨p, _, rfl, rfl, rfl, rfl, rfl, rfl, rfl, rfl, rfl, rfl, rfl, fun _ => rfl, fun _ _ _ h => h, fun b part => ?_, ?_⟩
    · rw [if_neg, add_zero]
      rintro ⟨-, -, h, h'⟩
      exact absurd (h.symm.trans h') (by decide)
    refine ⟨fun h => ⟨h, ?_⟩, And.left⟩
    rintro ⟨hfree, hnone⟩
    rcases hkeeps with hkeeps | hkeeps
    · exact absurd (hfree.symm.trans hkeeps) (by decide)
    · exact hkeeps hnone
  · rw [if_neg hkeeps]
    rw [not_or, Bool.not_eq_false, not_not] at hkeeps
    cases channelMemory with
    | false =>
      refine ⟨p, _, rfl, rfl, rfl, rfl, rfl, rfl, rfl, rfl, rfl, rfl, rfl, fun _ => rfl, fun _ _ _ h => h, fun b part => ?_, ⟨nofun, fun h => nomatch h.1⟩⟩
      rw [if_neg, add_zero]
      rintro ⟨-, -, h, -⟩
      cases h
    | true =>
      refine ⟨_, _, rfl, rfl, rfl, rfl, rfl, rfl, rfl, rfl, rfl, rfl, rfl, fun h => ?_, fun _ _ _ h => (nomatch h), fun b part => ?_, ⟨nofun, fun h => absurd hkeeps h.2⟩⟩
      · rw [hkeeps.1] at h
        cases h
      · rw [releasePart_released]
        simp

/-- What a destroy or abort leaves of an engine. -/
structure Destroyed (p₁ p' : Process) (a : ℕ) (e e' : Engine) (idle : Prop) : Prop where
  streams : p'.streams = p₁.streams
  gone : p'.gone = p₁.gone
  engines : ∀ b, p'.engines b = if b = a then some e' else p₁.engines b
  quarantined : p'.quarantined = if e'.status = .quarantined then a :: p₁.quarantined else p₁.quarantined
  context : e'.context = e.context
  channel : ∀ send peer c, e'.channel send peer = some c → e.channel send peer = some c
  status : e'.status ≠ .live
  released_other : ∀ b ≠ a, ∀ part, p'.released b part = p₁.released b part
  core : p'.released a .core + (if e'.core = true then 1 else 0) = p₁.released a .core + if e.core = true then 1 else 0
  channels : p'.released a .channels + (if e'.channelMemory = true then 1 else 0) = p₁.released a .channels + if e.channelMemory = true then 1 else 0
  record : p'.released a .record = p₁.released a .record + if e'.status = .freed then 1 else 0
  waits : e'.status = .quarantined → e'.quarantineDone = e.streams.map (fun t => (t, (p₁.streams.items t).length)) ∧ e'.failures = e.failures ∧
    e'.survivors = 0 ∧ e'.p2pSurvivors = 0
  safe : ∀ part, p₁.released a part < p'.released a part → (p₁.gone e.context = true ∨ idle) ∧ e'.left part = 0
  frees : p₁.gone e.context = false → idle → ∃ part, p₁.released a part < p'.released a part

theorem destroyed (contextOf : ℕ → ℕ) (p : Process) (a : ℕ) (e : Engine) (abort : Bool) (results : DestroyResults)
    (hsurvivors : e.survivors = 0) (hp2p : e.p2pSurvivors = 0) :
    ∃ e', Destroyed (p.quarantineReclaim results.answers) (p.engineDestroy contextOf a e abort results) a e e'
      ((p.quarantineReclaim results.answers).findsIdle contextOf e abort results = true ∧ results.lets e = true) := by
  unfold engineDestroy
  dsimp only
  generalize p.quarantineReclaim results.answers = p₁
  generalize hpushed : (!p₁.gone e.context) = pushed
  generalize hfinds : p₁.findsIdle contextOf e abort results = finds
  generalize hidle : (pushed && finds) = idle
  obtain ⟨p₂, e₂, hclose, hstreams, hgone, hengines, hquarantined, hcontext, hcore, hfailures, hproxy, hp2pLost, hlost, hkeeps, hchannel, hreleased, hmemory⟩ :=
    p2pClose_spec { e with closing := true } (pushed && idle) results.p2pUnreleased
  rw [hclose]
  rw [hproxy]
  change e₂.p2pSurvivors = e.p2pSurvivors + results.p2pLost e at hp2pLost
  change e₂.survivors = e.survivors + results.p2pLost e at hlost
  let e₃ : Engine := { e₂ with proxy := false, survivors := e₂.survivors + results.lost e }
  let fit : Prop := finds = true ∧ results.lets e = true
  change ∃ e', Destroyed p₁ (if (pushed && idle && decide (results.lost e = 0 ∧ e₂.p2pSurvivors = 0)) = true then
    p₂.free a e₃
    else if (!pushed && decide (results.lost e = 0 ∧ e₂.p2pSurvivors = 0)) = true then
    p₂.free a e₃
    else if (pushed && decide (results.lost e = 0 ∧ e₂.p2pSurvivors = 0)) = true then
    p₂.quarantineAdd a e₃ results.events
    else p₂.put a { e₃ with status := .kept }) a e e' fit
  rw [hp2p, Nat.zero_add] at hp2pLost
  have hreleases : decide (results.lost e = 0 ∧ e₂.p2pSurvivors = 0) = decide (results.lost e = 0 ∧ results.p2pLost e = 0) := by rw [hp2pLost]
  rw [hreleases]
  have hother : ∀ b part, b ≠ a ∨ part ≠ .channels → p₂.released b part = p₁.released b part := by
    intro b part hne
    rw [hreleased, if_neg, add_zero]
    rintro ⟨hb, hpart, -⟩
    rcases hne with hne | hne
    · exact hne hb
    · exact hne hpart
  have hchannels : p₂.released a .channels + (if e₂.channelMemory = true then 1 else 0) =
      p₁.released a .channels + if e.channelMemory = true then 1 else 0 := by
    rw [hreleased]
    cases hbefore : e.channelMemory <;> cases hafter : e₂.channelMemory
    · simp
    · rw [(hmemory.mp hafter).1] at hbefore
      cases hbefore
    · simp
    · simp
  -- The channels' memory goes only when the engine was found idle and nothing of the channels is left.
  have hchannelsFreed : e.channelMemory = true → idle = true → pushed = true → results.p2pLost e = 0 →
      p₁.released a .channels < p₂.released a .channels := by
    intro hmem hidle hpushed hnone
    have hgoes : e₂.channelMemory = false := Bool.eq_false_iff.mpr fun h => (hmemory.mp h).2 ⟨by rw [hidle, hpushed]; rfl, hnone⟩
    rw [hreleased, if_pos ⟨rfl, rfl, hmem, hgoes⟩]
    exact Nat.lt_succ_self _
  have hchannelsSafe : p₁.released a .channels < p₂.released a .channels →
      (p₁.gone e.context = true ∨ fit) ∧ e₂.p2pSurvivors = 0 := by
    intro hless
    rw [hreleased] at hless
    split_ifs at hless with hcond
    · obtain ⟨-, -, hmem, hgoes⟩ := hcond
      obtain ⟨hclosed, hnone⟩ : (pushed && idle) = true ∧ results.p2pLost e = 0 := by
        by_contra hnot
        exact absurd (hgoes.symm.trans (hmemory.mpr ⟨hmem, hnot⟩)) (by decide)
      rw [← hidle, Bool.and_eq_true, Bool.and_eq_true] at hclosed
      exact ⟨Or.inr ⟨hclosed.2.2, decide_eq_true ⟨hnone, Or.inl hmem⟩⟩, hp2pLost.trans hnone⟩
    · exact absurd hless (lt_irrefl _)
  -- An engine whose memory stays releases at most the memory of its channels.
  have hstays : ∀ part, p₁.released a part < p₂.released a part → part = .channels := by
    intro part hless
    by_contra hpart
    rw [hother a part (Or.inr hpart)] at hless
    exact lt_irrefl _ hless
  have hkept : (p₁.gone e.context = false → fit → ∃ part, p₁.released a part < p₂.released a part) →
      ∃ e', Destroyed p₁ (p₂.put a { e₃ with status := .kept }) a e e'
        fit := by
    intro hfrees
    refine ⟨{ e₃ with status := .kept }, hstreams, hgone, fun b => ?_, ?_, hcontext, hchannel, nofun,
      fun b hb part => hother b part (Or.inl hb), ?_, hchannels, ?_, nofun, fun part hless => ?_, hfrees⟩
    · rw [put_engines, hengines]
    · exact hquarantined
    · change p₂.released a .core + _ = _
      rw [hother a .core (Or.inr nofun), hcore]
    · exact (hother a .record (Or.inr nofun)).trans (add_zero _).symm
    · cases hstays part hless
      exact hchannelsSafe hless
  have hfree : results.lost e = 0 ∧ results.p2pLost e = 0 → (p₁.gone e.context = true ∨ fit) →
      ∃ e', Destroyed p₁ (p₂.free a e₃) a e e'
        fit := by
    rintro ⟨hnone, hp2pNone⟩ hwhy
    obtain ⟨hstreams', hgone', hquarantined', hengines', hreleased'⟩ :=
      free_spec
    have hrecord : (p₂.free a e₃).released a .record =
        p₁.released a .record + 1 := by
      rw [hreleased', if_pos rfl, hother a .record (Or.inr nofun)]
      rfl
    refine ⟨Engine.gone e₃, hstreams'.trans hstreams, hgone'.trans hgone,
      fun b => ?_, ?_, hcontext, fun send peer c hc => ?_, nofun, fun b hb part => ?_, ?_, ?_, hrecord, nofun, fun part _ => ⟨hwhy, ?_⟩, fun _ _ => ⟨.record, ?_⟩⟩
    · rw [hengines', hengines]
    · exact hquarantined'.trans hquarantined
    · change (if e₂.channelMemory = true then fun _ _ => none else e₂.channel) send peer = some c at hc
      split_ifs at hc
      exact hchannel send peer c hc
    · rw [hreleased', if_neg hb, add_zero, hother b part (Or.inl hb)]
    · rw [hreleased', if_pos rfl, hother a .core (Or.inr nofun)]
      change p₁.released a .core + (if e₂.core = true then 1 else 0) + 0 = _
      rw [hcore, add_zero]
    · rw [hreleased', if_pos rfl]
      exact (add_zero _).trans hchannels
    · cases part
      · change e₂.survivors + results.lost e = 0
        omega
      · exact hp2pLost.trans hp2pNone
      · change e₂.survivors + results.lost e = 0
        omega
    · rw [hrecord]
      exact Nat.lt_succ_self _
  have hqueue : results.lost e = 0 ∧ results.p2pLost e = 0 → finds = false → pushed = true →
      ∃ e', Destroyed p₁ (p₂.quarantineAdd a e₃ results.events) a e e'
        fit := by
    rintro ⟨hnone, hp2pNone⟩ hbusy hthere
    have hnever : p₁.gone e.context = false → fit → ∃ part, p₁.released a part < p₂.released a part :=
      fun _ h => absurd (hbusy.symm.trans h.1) (by decide)
    unfold quarantineAdd
    split_ifs
    · exact hkept hnever
    refine ⟨{ e₃ with
        status := .quarantined
        quarantineDone := e₂.streams.map fun t => (t, (p₂.streams.items t).length) }, hstreams, hgone, fun b => ?_, ?_, hcontext, hchannel, nofun,
      fun b hb part => hother b part (Or.inl hb), ?_, hchannels, ?_, fun _ => ?_, fun part hless => ?_, hnever⟩
    · rw [← hengines]
      exact put_engines p₂ a b _
    · rw [hquarantined]
      rfl
    · change p₂.released a .core + _ = _
      rw [hother a .core (Or.inr nofun), hcore]
    · exact (hother a .record (Or.inr nofun)).trans (add_zero _).symm
    · refine ⟨?_, hfailures, ?_, hp2pLost.trans hp2pNone⟩
      · rw [← hstreams]
        refine congrArg (List.map fun t => (t, (p₂.streams.items t).length)) (hkeeps ?_)
        rw [← hidle, hbusy, Bool.and_false, Bool.and_false]
      · change e₂.survivors + results.lost e = 0
        omega
    · cases hstays part hless
      exact hchannelsSafe hless
  by_cases hall : results.lost e = 0 ∧ results.p2pLost e = 0
  · have hlets : results.lets e = true := decide_eq_true ⟨hall.2, Or.inr hall.1⟩
    rw [decide_eq_true hall, Bool.and_true, Bool.and_true, Bool.and_true]
    by_cases hthere : pushed = true
    · by_cases hfound : finds = true
      · have hboth : (pushed && idle) = true := by rw [← hidle, hthere, hfound]; rfl
        rw [if_pos hboth]
        exact hfree hall (Or.inr ⟨hfound, hlets⟩)
      rw [Bool.not_eq_true] at hfound
      have hbusy : (pushed && idle) = false := by rw [← hidle, hfound, Bool.and_false, Bool.and_false]
      have hnot : (!pushed) = false := by rw [hthere]; rfl
      rw [hbusy, hnot, if_neg Bool.false_ne_true, if_neg Bool.false_ne_true, if_pos hthere]
      exact hqueue hall hfound hthere
    · rw [Bool.not_eq_true] at hthere
      have hnot : (!pushed) = true := by rw [hthere]; rfl
      have hbusy : (pushed && idle) = false := by rw [hthere]; rfl
      rw [hbusy, hnot, if_neg Bool.false_ne_true, if_pos rfl]
      rw [hthere, Bool.not_eq_false'] at hpushed
      exact hfree hall (Or.inl hpushed)
  · rw [decide_eq_false hall, Bool.and_false, Bool.and_false, Bool.and_false]
    refine hkept fun hhere hfound => ?_
    obtain ⟨hp2pNone, hmem | hnone⟩ := of_decide_eq_true hfound.2
    · have hthere : pushed = true := by rw [← hpushed, hhere]; rfl
      exact ⟨.channels, hchannelsFreed hmem (by rw [← hidle, hthere, hfound.1]; rfl) hthere hp2pNone⟩
    · exact absurd ⟨hnone, hp2pNone⟩ hall

end Process

end SparkRing.EngineTeardown
