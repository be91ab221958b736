import SparkRing.SnapshotPlanning

/-!
# Snapshot planning over whole histories

Whatever calls arrive in whatever order, every session plans its tokens once and in order,
hands back exactly what it left ungathered, and owns its digest while it lives.
-/

namespace SparkRing.Planner

open OrderedDict TransitionSystem
open Coordinator (abort answer commit giveUp inflightBatches retire)
open Call (request)
open Option (some.injEq)

/-- What an ending says about the session. -/
def Ending.Fits (life : Life) : Ending → Prop
  | .aborted released => released = life.outstanding
  | .committed => life.Gathered

/-- What holds of a session that has ended. -/
structure Ended (limits : Limits) (life : Life) (ending : Ending) : Prop where
  /-- Its batches plan its first tokens. -/
  planned : ∃ next, life.Planned limits next
  /-- Ready was answered when everything was gathered. -/
  readies : life.ReadyOnce
  /-- It ended with what was left ungathered handed back, or with nothing left. -/
  fits : ending.Fits life

/-- The planner and what its callers have seen agree. -/
structure Consistent (limits : Limits) (h : History) : Prop where
  /-- Every session is one its callers know. -/
  tracked : ∀ (requestId : String) (session : Session), h.coordinator.sessions.get? requestId = some session →
    ∃ life, h.live.get? requestId = some life ∧ life.request = requestId ∧ Tracks limits session life
  /-- Callers know only sessions that live. -/
  known : ∀ (requestId : String) (life : Life), h.live.get? requestId = some life →
    ∃ session, h.coordinator.sessions.get? requestId = some session
  /-- A digest belongs to the session that has it. -/
  owner : ∀ digest requestId : String, h.coordinator.digestOwner.get? digest = some requestId ↔
    ∃ session, h.coordinator.sessions.get? requestId = some session ∧ session.contextDigest = digest
  /-- Pending batches are bounded. -/
  inflight : h.coordinator.inflightBatches ≤ limits.maxInflightBatches
  sessions : h.coordinator.sessions.size ≤ limits.maxSessions
  /-- Every session that has ended is as it should be. -/
  past : ∀ entry ∈ h.past, Ended limits entry.1 entry.2

variable {limits : Limits} {h h' : History} {c : Coordinator} {session session' : Session} {life life' : Life}
  {requestId : String}

/-- Nothing has been called yet. -/
theorem Consistent.start : Consistent limits {} where
  tracked := nofun
  known := nofun
  owner := fun _ _ => ⟨nofun, fun ⟨_, hs, _⟩ => nomatch hs⟩
  inflight := Nat.zero_le _
  sessions := Nat.zero_le _
  past := nofun

section

variable (hc : Consistent limits h)

include hc

/-- Only lookups matter, and what is counted does not. -/
theorem Consistent.recount (hsessions : c.sessions = h.coordinator.sessions)
    (howner : c.digestOwner = h.coordinator.digestOwner) {live : Dict String Life}
    (hlive : ∀ requestId : String, live.get? requestId = h.live.get? requestId) :
    Consistent limits { h with coordinator := c, live := live } := { hc with
  tracked := by simpa only [hsessions, hlive] using hc.tracked
  known := by simpa only [hsessions, hlive] using hc.known
  owner := by simpa only [hsessions, howner] using hc.owner
  inflight := by simpa only [inflightBatches, hsessions] using hc.inflight
  sessions := by simpa only [hsessions] using hc.sessions }

/-- The session of a request and what its callers have seen of it. -/
theorem Consistent.track (hs : h.coordinator.sessions.get? requestId = some session)
    (hl : h.live.get? requestId = some life) : life.request = requestId ∧ Tracks limits session life := by
  obtain ⟨life', hl', ht⟩ := hc.tracked requestId session hs
  cases hl.symm.trans hl'
  exact ht

/-- A request without a session is one its callers know no session of. -/
theorem Consistent.live_none (hs : h.coordinator.sessions.get? requestId = none) : h.live.get? requestId = none := by
  refine Option.eq_none_iff_forall_ne_some.mpr fun life hl => ?_
  obtain ⟨session, hsome⟩ := hc.known requestId life hl
  rw [hs] at hsome
  cases hsome

/-- A session and its life are put together. -/
theorem Consistent.tracked_set (hrequest : life.request = requestId) (ht : Tracks limits session life) :
    ∀ r s, (h.coordinator.sessions.set requestId session).get? r = some s →
      ∃ l, (h.live.set requestId life).get? r = some l ∧ l.request = r ∧ Tracks limits s l := by
  intro r s hr
  rcases Dict.get?_set_eq_some.mp hr with ⟨rfl, rfl⟩ | ⟨hne, hr⟩
  · exact ⟨life, Dict.get?_set_self, hrequest, ht⟩
  · obtain ⟨l, hl, hrest⟩ := hc.tracked r s hr
    exact ⟨l, (Dict.get?_set_of_ne hne).trans hl, hrest⟩

theorem Consistent.known_set :
    ∀ r l, (h.live.set requestId life).get? r = some l → ∃ s, (h.coordinator.sessions.set requestId session).get? r = some s := by
  intro r l hl
  rcases Dict.get?_set_eq_some.mp hl with ⟨rfl, rfl⟩ | ⟨hne, hl⟩
  · exact ⟨session, Dict.get?_set_self⟩
  · obtain ⟨s, hr⟩ := hc.known r l hl
    exact ⟨s, (Dict.get?_set_of_ne hne).trans hr⟩

end

variable {counters : Counters}

theorem Consistent.admit (hc : Consistent limits h) {contextDigest : String}
    (hs : h.coordinator.sessions.get? requestId = none) (hdigest : contextDigest ∉ h.coordinator.digestOwner.keys)
    (hroom : h.coordinator.sessions.size < limits.maxSessions) (hrequest : life.request = requestId)
    (hcontext : session.contextDigest = contextDigest) (hempty : session.pending.size = 0) (ht : Tracks limits session life)
    :
    Consistent limits
      { h with
        coordinator :=
          { sessions := h.coordinator.sessions.set requestId session
            digestOwner := h.coordinator.digestOwner.set contextDigest requestId
            counters := counters }
        live := h.live.set requestId life } where
  tracked := hc.tracked_set hrequest ht
  known := hc.known_set
  owner := fun d r => by
    have hfresh : ∀ s, h.coordinator.sessions.get? r = some s → s.contextDigest ≠ contextDigest := fun s hr heq =>
      hdigest (Dict.mem_keys_iff.mpr ⟨r, (hc.owner contextDigest r).mpr ⟨s, hr, heq⟩⟩)
    constructor
    · intro hd
      rcases Dict.get?_set_eq_some.mp hd with ⟨rfl, rfl⟩ | ⟨hne, hd⟩
      · exact ⟨session, Dict.get?_set_self, hcontext⟩
      obtain ⟨s, hr, heq⟩ := (hc.owner d r).mp hd
      refine ⟨s, (Dict.get?_set_of_ne ?_).trans hr, heq⟩
      rintro rfl
      rw [hs] at hr
      cases hr
    rintro ⟨s, hr, heq⟩
    rcases Dict.get?_set_eq_some.mp hr with ⟨rfl, rfl⟩ | ⟨hne, hr⟩
    · rw [← heq, hcontext]
      exact Dict.get?_set_self
    · have hd : d ≠ contextDigest := heq ▸ hfresh s hr
      exact (Dict.get?_set_of_ne hd).trans ((hc.owner d r).mpr ⟨s, hr, heq⟩)
  inflight := by
    have hold := hc.inflight
    simp only [inflightBatches] at hold ⊢
    rw [Dict.total_set, hempty, Dict.total_erase_of_none hs]
    omega
  sessions := by
    rw [Dict.size_set_of_none hs]
    exact hroom
  past := hc.past

theorem Consistent.replace (hc : Consistent limits h) (hs : h.coordinator.sessions.get? requestId = some session)
    (hrequest : life.request = requestId) (hcontext : session'.contextDigest = session.contextDigest)
    (ht : Tracks limits session' life)
    (hroom : h.coordinator.inflightBatches - session.pending.size + session'.pending.size ≤ limits.maxInflightBatches)
    :
    Consistent limits
      { h with
        coordinator :=
          { h.coordinator with sessions := h.coordinator.sessions.set requestId session', counters := counters }
        live := h.live.set requestId life } where
  tracked := hc.tracked_set hrequest ht
  known := hc.known_set
  owner := fun d r => by
    rw [hc.owner d r]
    by_cases hr : r = requestId
    · subst hr
      simp only [Dict.get?_set_self, hs, some.injEq, exists_eq_left', hcontext]
    · simp only [Dict.get?_set_of_ne hr]
  inflight := by
    simp only [inflightBatches] at hroom ⊢
    rw [Dict.total_erase hs] at hroom
    rw [Dict.total_set]
    omega
  sessions := by
    rw [Dict.size_set_of_some hs]
    exact hc.sessions
  past := hc.past

theorem Consistent.close (hc : Consistent limits h) (hs : h.coordinator.sessions.get? requestId = some session)
    (hl : h.live.get? requestId = some life) {ending : Ending} (hend : Ended limits life ending)
    (hrequest : session'.requestId = session.requestId) (hcontext : session'.contextDigest = session.contextDigest)
    :
    Consistent limits
      (({ h with coordinator := { h.coordinator with counters := counters }.retire session' } : History).close life ending) := by
  obtain ⟨hlife, ht⟩ := hc.track hs hl
  have hid : session'.requestId = requestId := hrequest.trans (ht.request.trans hlife)
  have howned : h.coordinator.digestOwner.get? session'.contextDigest = some session'.requestId := by
    rw [hid, hcontext]
    exact (hc.owner _ _).mpr ⟨session, hs, rfl⟩
  have howner : ({ h.coordinator with counters := counters }.retire session').digestOwner =
      h.coordinator.digestOwner.erase session'.contextDigest := if_pos howned
  exact
    { tracked := fun r s hr => by
        simp only [History.close, retire, hid, hlife] at hr ⊢
        obtain ⟨hne, hr⟩ := Dict.get?_erase_eq_some.mp hr
        obtain ⟨l, hl, hrest⟩ := hc.tracked r s hr
        exact ⟨l, (Dict.get?_erase_of_ne hne).trans hl, hrest⟩
      known := fun r l hl => by
        simp only [History.close, retire, hid, hlife] at hl ⊢
        obtain ⟨hne, hl⟩ := Dict.get?_erase_eq_some.mp hl
        obtain ⟨s, hr⟩ := hc.known r l hl
        exact ⟨s, (Dict.get?_erase_of_ne hne).trans hr⟩
      owner := fun d r => by
        simp only [History.close, howner, Dict.get?_erase_eq_some, hc.owner d r]
        simp only [retire, hid, Dict.get?_erase_eq_some]
        constructor
        · rintro ⟨hd, s, hr, heq⟩
          refine ⟨s, ⟨?_, hr⟩, heq⟩
          rintro rfl
          cases hs.symm.trans hr
          exact hd (heq.symm.trans hcontext.symm)
        rintro ⟨s, ⟨hne, hr⟩, heq⟩
        refine ⟨?_, s, hr, heq⟩
        rintro rfl
        have hother := (hc.owner _ r).mpr ⟨s, hr, heq⟩
        rw [howned, hid] at hother
        exact hne (Option.some.inj hother).symm
      inflight := by
        have hold := hc.inflight
        simp only [History.close, retire, inflightBatches, hid] at hold ⊢
        rw [Dict.total_erase hs] at hold
        omega
      sessions := by
        have hold := hc.sessions
        simp only [History.close, retire, hid]
        rw [Dict.size_erase hs] at hold
        omega
      past := fun entry hmem => by
        rcases List.mem_append.mp hmem with hmem | hmem
        · exact hc.past entry hmem
        · cases List.mem_singleton.mp hmem
          exact hend }

/-- A session given up has handed back what was not gathered. -/
theorem Tracks.ended_aborted (ht : Tracks limits session life) : Ended limits life (.aborted session.pending.values) :=
  ⟨⟨session.nextToken, ht.planned⟩, ht.readies, ht.values⟩

/-- Where a range ends is a whole chunk within the span. -/
theorem completeEnd_spec (completedTokens : ℤ) : limits.chunkTokens ∣ completeEnd limits session completedTokens ∧
      completeEnd limits session completedTokens ≤ session.spanTokens := by
  have hle : completeEnd limits session completedTokens ≤ min completedTokens.toNat session.spanTokens := Nat.sub_le ..
  exact ⟨Nat.dvd_sub_mod _, hle.trans (min_le_right ..)⟩

section

variable (hc : Consistent limits h)

include hc

/-- An offer without batches changes nothing. -/
theorem Consistent.offer_nothing (requestId : String) (completedTokens : ℤ)
    (mapper : ℕ → ℕ → Mapping) : Consistent limits (h.note (.offerCompleted requestId completedTokens mapper) (.offer {})) := by
  unfold History.note
  cases hl : h.live.get? requestId with
  | none =>
    simp only [request, hl]
    exact hc
  | some =>
    simp only [request, hl, Life.extend, List.append_nil]
    refine hc.recount rfl rfl fun r => ?_
    rw [Dict.get?_set]
    split_ifs with hr
    · rw [hr, hl]
    · rfl

theorem Consistent.begin (requestId contextDigest : String) (spanTokens : ℤ)
    (hstep : h.step limits (.begin requestId contextDigest spanTokens) = some h') : Consistent limits h' := by
  simp only [History.step, answer, some.injEq] at hstep
  subst hstep
  unfold Coordinator.begin
  by_cases hnames : requestId = "" ∨ contextDigest = ""
  · rw [if_pos hnames]
    unfold History.note
    split
    · exact hc
    · exact hc
  by_cases hspan : spanTokens ≤ 0 ∨ spanTokens % limits.chunkTokens ≠ 0
  · rw [if_neg hnames, if_pos hspan]
    unfold History.note
    split
    · exact hc
    · exact hc
  rw [if_neg hnames, if_neg hspan]
  cases hs : h.coordinator.sessions.get? requestId with
  | some existing =>
    obtain ⟨life, hl, -⟩ := hc.tracked requestId existing hs
    simp only
    split
    · simp only [History.note, request, hl]
      exact hc
    · simp only [History.note, request, hl]
      exact hc
  | none =>
    have hl := hc.live_none hs
    simp only
    by_cases hdup : contextDigest ∈ h.coordinator.digestOwner.keys
    · simp only [if_pos hdup, History.note, request, hl]
      refine hc.recount ?_ ?_ fun _ => rfl
      · rfl
      · rfl
    by_cases hfull : limits.maxSessions ≤ h.coordinator.sessions.size
    · simp only [if_neg hdup, if_pos hfull, History.note, request, hl]
      refine hc.recount ?_ ?_ fun _ => rfl
      · rfl
      · rfl
    simp only [if_neg hdup, if_neg hfull, History.note, request, hl]
    simp only [not_or, not_le, not_not] at hspan
    have hdvd : limits.chunkTokens ∣ spanTokens.toNat := by
      have hmod := Int.dvd_of_emod_eq_zero hspan.2
      rwa [← Int.toNat_of_nonneg hspan.1.le, Int.natCast_dvd_natCast] at hmod
    exact hc.admit hs hdup (by omega) rfl rfl rfl (.begin (by omega) hdvd)

/-- Giving a session up for want of room or blocks. -/
theorem Consistent.giveUp (hs : h.coordinator.sessions.get? requestId = some session)
    (completedTokens : ℤ) (mapper : ℕ → ℕ → Mapping) (counters : Counters) :
    Consistent limits ({ h with coordinator := (h.coordinator.giveUp session counters).1 }.note
      (.offerCompleted requestId completedTokens mapper) (h.coordinator.giveUp session counters).2) := by
  obtain ⟨life, hl, -, ht⟩ := hc.tracked requestId session hs
  simp only [giveUp, History.note, request, hl, if_true]
  exact hc.close hs hl ht.ended_aborted rfl rfl

theorem Consistent.offerCompleted (requestId : String) (completedTokens : ℤ) (mapper : ℕ → ℕ → Mapping)
    (hstep : h.step limits (.offerCompleted requestId completedTokens mapper) = some h') : Consistent limits h' := by
  simp only [History.step, answer, some.injEq] at hstep
  subst hstep
  unfold Coordinator.offerCompleted
  cases hs : h.coordinator.sessions.get? requestId with
  | none =>
    simp only [History.note, request, hc.live_none hs]
    exact hc
  | some session =>
    obtain ⟨life, hl, hlife, ht⟩ := hc.tracked requestId session hs
    have hnothing := hc.offer_nothing requestId completedTokens mapper
    simp only
    by_cases hactive : session.state ≠ .active
    · rw [if_pos hactive]
      exact hnothing
    rw [if_neg hactive]
    split
    · simp only [History.note, request, hl]
      exact hc
    obtain ⟨hdvd, hle⟩ := completeEnd_spec completedTokens
    generalize completeEnd limits session completedTokens = stop at hdvd hle ⊢
    by_cases hsame : stop ≤ session.nextToken
    · rw [if_pos hsame]
      exact hnothing
    rw [if_neg hsame]
    split_ifs with hroom
    · exact hc.giveUp hs completedTokens mapper _
    cases hmap : mapParts limits.batchTokens mapper stop (stop - session.nextToken) session.nextToken with
    | interrupted =>
      simp only [History.note, request, hl]
      exact hc
    | failed => exact hc.giveUp hs completedTokens mapper _
    | parts parts =>
      simp only [History.note, request, hl, Bool.false_eq_true, if_false]
      obtain ⟨htiles, hok⟩ := mapParts_tiles limits.batchTokens_pos (Nat.dvd_mul_right ..) hdvd ht.planned.next_dvd
        (by omega) (Nat.le_refl _) hmap
      have hcount := length_mapParts limits.batchTokens_pos (Nat.le_refl _) hmap
      have hplan := ht.plan (by omega) hdvd (ht.span ▸ hle) htiles hok
      have hsize := hplan.size
      have hfresh : (life.extend (emit limits session parts).2).outstanding.length = life.outstanding.length + parts.length := by
        rw [ht.outstanding_append (ht.index ▸ indexes_emit parts session), List.length_append, length_emit]
      have hpart := Dict.total_erase (f := fun s : Session => s.pending.size) hs
      refine hc.replace hs ?_ ?_ hplan ?_
      · exact hlife
      · exact hplan.digest.trans ht.digest.symm
      simp only [required, inflightBatches] at hroom ⊢
      rw [hsize, hfresh, ← ht.size, hcount]
      omega

theorem Consistent.completeBatch (requestId : String) (batchIndex : ℤ)
    (hstep : h.step limits (.completeBatch requestId batchIndex) = some h') : Consistent limits h' := by
  simp only [History.step, answer, some.injEq] at hstep
  subst hstep
  unfold Coordinator.completeBatch
  cases hs : h.coordinator.sessions.get? requestId with
  | none =>
    simp only [History.note, request, hc.live_none hs]
    exact hc
  | some session =>
    obtain ⟨life, hl, hlife, ht⟩ := hc.tracked requestId session hs
    simp only
    split_ifs with hmem
    · simp only [History.note, request, hl]
      have hgather := (ht.gather hmem.2 decide_eq_true_iff).1
      refine hc.replace hs ?_ ?_ hgather ?_
      · exact hlife
      · rfl
      have hold := hc.inflight
      have hless : (session.pending.erase batchIndex.toNat).size ≤ session.pending.size := Dict.size_filter_le
      have hpart := Dict.total_erase (f := fun s : Session => s.pending.size) hs
      simp only [inflightBatches, Session.drop] at hold ⊢
      omega
    · simp only [History.note, request, hl]
      exact hc

theorem Consistent.abort (requestId : String) (hstep : h.step limits (.abort requestId) = some h') : Consistent limits h' := by
  simp only [History.step, answer, some.injEq] at hstep
  subst hstep
  unfold abort
  cases hs : h.coordinator.sessions.get? requestId with
  | none =>
    simp only [History.note, request, hc.live_none hs]
    exact hc
  | some session =>
    obtain ⟨life, hl, -, ht⟩ := hc.tracked requestId session hs
    simp only [History.note, request, hl]
    exact hc.close hs hl ht.ended_aborted rfl rfl

theorem Consistent.commit (requestId : String) (hstep : h.step limits (.commit requestId) = some h') : Consistent limits h' := by
  simp only [History.step, answer, some.injEq] at hstep
  subst hstep
  unfold commit
  cases hs : h.coordinator.sessions.get? requestId with
  | none =>
    simp only [History.note, request, hc.live_none hs]
    exact hc
  | some session =>
    obtain ⟨life, hl, -, ht⟩ := hc.tracked requestId session hs
    simp only
    by_cases hready : session.state ≠ .readyToCommit
    · simp only [if_pos hready, History.note, request, hl]
      exact hc
    simp only [if_neg hready, History.note, request, hl]
    rw [not_not] at hready
    have hend : Ended limits life .committed := ⟨⟨session.nextToken, ht.planned⟩, ht.readies, ht.ready.mp hready⟩
    exact hc.close hs hl hend rfl rfl

/-- Every call keeps the planner and its callers in agreement. -/
theorem Consistent.step {call : Call} (hstep : h.step limits call = some h') : Consistent limits h' := by
  cases call with
  | begin requestId contextDigest spanTokens => exact hc.begin requestId contextDigest spanTokens hstep
  | offerCompleted requestId completedTokens mapper => exact hc.offerCompleted requestId completedTokens mapper hstep
  | completeBatch requestId batchIndex => exact hc.completeBatch requestId batchIndex hstep
  | abort requestId => exact hc.abort requestId hstep
  | commit requestId => exact hc.commit requestId hstep

end

/-- The planner and its callers agree after every history of calls. -/
theorem consistent (hr : Reachable (History.step limits) Unrestricted {} h) : Consistent limits h :=
  hr.invariant (Consistent limits) .start fun _ _ _ _ hc _ hstep => hc.step hstep

/-- Nothing is lost and nothing planned twice. -/
structure NothingLost (limits : Limits) (h : History) : Prop where
  /-- The batches of a live session are laid end to end over exactly the tokens planned so far, in
  consecutive batches of whole chunks. -/
  planned : ∀ (requestId : String) (session : Session), h.coordinator.sessions.get? requestId = some session →
    ∃ life, h.live.get? requestId = some life ∧ life.Planned limits session.nextToken ∧
      (∀ token : ℕ, (∃ batch ∈ life.emitted, batch.logicalStart ≤ token ∧ token < batch.logicalEnd) ↔
        token < session.nextToken) ∧
      (life.emitted.Pairwise fun earlier later => earlier.logicalEnd ≤ later.logicalStart) ∧
      session.pending.values = life.outstanding ∧ life.ReadyOnce
  /-- A report is answered with ready exactly when it is the last one missing, and none was before. -/
  ready : ∀ (requestId : String) (batchIndex : ℤ) (life : Life) (ready : Bool), h.live.get? requestId = some life →
    (h.coordinator.completeBatch requestId batchIndex).2 = .completed ready →
      life.readies = 0 ∧ (ready = true ↔ (life.gather batchIndex.toNat ready).Gathered)
  /-- A session that ended planned its first tokens, reported ready at most once and handed back exactly the
  batches not gathered, or was published with everything gathered. -/
  past : ∀ entry ∈ h.past, Ended limits entry.1 entry.2
  /-- A live session owns its digest. -/
  owns : ∀ (requestId : String) (life : Life), h.live.get? requestId = some life →
    h.coordinator.digestOwner.get? life.digest = some requestId
  /-- A digest is owned by the one live session that has it. -/
  owner : ∀ digest requestId : String, h.coordinator.digestOwner.get? digest = some requestId →
    ∃ life, h.live.get? requestId = some life ∧ life.digest = digest ∧
      ∀ (other : String) (life' : Life), h.live.get? other = some life' → life'.digest = digest → other = requestId
  /-- Pending batches are bounded. -/
  inflight : h.coordinator.inflightBatches ≤ limits.maxInflightBatches
  sessions : h.coordinator.sessions.size ≤ limits.maxSessions

theorem Consistent.owns (hc : Consistent limits h) (hl : h.live.get? requestId = some life) :
    h.coordinator.digestOwner.get? life.digest = some requestId := by
  obtain ⟨session, hs⟩ := hc.known requestId life hl
  exact (hc.owner _ _).mpr ⟨session, hs, (hc.track hs hl).2.digest⟩

/-- Whatever is called in whatever order, with whatever outcomes of the mapper, no token is lost or
planned twice. -/
theorem plans_each_token_once (hr : Reachable (History.step limits) Unrestricted {} h) : NothingLost limits h := by
  have hc := consistent hr
  exact
    { planned := fun requestId session hs => by
        obtain ⟨life, hl, -, ht⟩ := hc.tracked requestId session hs
        refine ⟨life, hl, ht.planned, fun token => ?_, ht.planned.tiles.pairwise, ht.values, ht.readies⟩
        rw [ht.planned.tiles.mem_iff]
        omega
      ready := fun requestId batchIndex life ready hl hanswer => by
        obtain ⟨session, hs⟩ := hc.known requestId life hl
        obtain ⟨-, ht⟩ := hc.track hs hl
        simp only [Coordinator.completeBatch, hs] at hanswer
        split at hanswer
        case isTrue hmem =>
          simp only [Answer.completed.injEq] at hanswer
          refine ⟨?_, (ht.gather hmem.2 (hanswer ▸ decide_eq_true_iff)).2⟩
          have hnot : ¬life.Gathered := fun hg => by
            rw [ht.keys, hg.2] at hmem
            exact absurd hmem.2 List.not_mem_nil
          have hle := ht.readies.1
          have hne : life.readies ≠ 1 := fun h1 => hnot (ht.readies.2.mp h1)
          omega
        case isFalse => cases hanswer
      past := hc.past
      owns := fun requestId life hl => hc.owns hl
      owner := fun digest requestId hd => by
        obtain ⟨session, hs, hdigest⟩ := (hc.owner digest requestId).mp hd
        obtain ⟨life, hl, -, ht⟩ := hc.tracked requestId session hs
        refine ⟨life, hl, ht.digest.symm.trans hdigest, fun other life' hother hsame => ?_⟩
        have howns := hc.owns hother
        rw [hsame, hd] at howns
        exact (Option.some.inj howns).symm
      inflight := hc.inflight
      sessions := hc.sessions }

/-- A planner of small bounds. -/
def smallLimits : Limits := ⟨2, 2, 3, 2, Nat.two_pos, Nat.two_pos, by decide, Nat.two_pos⟩

def tokenBlocks (logicalStart logicalEnd : ℕ) : Mapping :=
  .blocks ((List.range' logicalStart (logicalEnd - logicalStart)).map fun token => .id token)

/-- Two batches, gathered in the other order, are published. A session begun again later is given up with
its second batch handed back. -/
theorem plans_each_token_once_small : ∃ h, NothingLost smallLimits h ∧
    (h.past.map fun entry =>
      (entry.1.emitted.map fun batch => (batch.logicalStart, batch.logicalEnd), entry.1.completed, entry.1.readies,
        match entry.2 with
        | .aborted released => released.map SnapshotBatch.batchIndex
        | .committed => [])) = [([(0, 4), (4, 6)], [1, 0], 1, []), ([(0, 4), (4, 6)], [0], 0, [1])] := by
  obtain ⟨h, hr, hp⟩ := Reachable.exists_of_runs (History.step smallLimits) {}
    [.begin "a" "x" 6, .offerCompleted "a" 7 tokenBlocks, .completeBatch "a" 1, .completeBatch "a" 0, .commit "a",
      .begin "a" "x" 8, .offerCompleted "a" 6 tokenBlocks, .completeBatch "a" 0, .abort "a"]
    (fun h : History => decide ((h.past.map fun entry =>
      (entry.1.emitted.map fun batch => (batch.logicalStart, batch.logicalEnd), entry.1.completed, entry.1.readies,
        match entry.2 with
        | .aborted released => released.map SnapshotBatch.batchIndex
        | .committed => [])) = [([(0, 4), (4, 6)], [1, 0], 1, []), ([(0, 4), (4, 6)], [0], 0, [1])]))
    (by decide +kernel)
  exact ⟨h, plans_each_token_once hr, of_decide_eq_true hp⟩

end SparkRing.Planner
