import SparkRing.SnapshotInvariant

/-!
# Requests and the shutdown

A journal that has not ended is the one its request owns, so the shutdown that closed
the writer finds it in its list and leaves the list only with every journal ended.
-/

namespace SparkRing.Snapshot

open OrderedDict TransitionSystem
open Option (bind_eq_some_iff map_eq_some_iff some.injEq)

variable {s t : State} {i j k : ℕ} {x y : Journal} {a : Act}

/-- Journals the shutdown has still to end. -/
def Closing.left : Closing → List ℕ
  | .aborting rest => rest
  | .waiting j rest => j :: rest
  | .open | .draining | .returned => []

/-- Journals that have not ended are known. -/
structure Owned (s : State) : Prop where
  /-- Their requests own them. -/
  owned : ∀ i y, s.journals i = some y → y.unsettled → s.transactions.get? y.requestId = some i
  /-- The shutdown has them to end. -/
  left : s.closing ≠ .open → ∀ i y, s.journals i = some y → y.unsettled → i ∈ s.closing.left

/-- What a step does to the requests and to the shutdown. -/
inductive Registry (s t : State) : Prop
  /-- Nothing that matters. -/
  | keeps : t.transactions = s.transactions → t.closing = s.closing → t.count = s.count → Registry s t
  /-- The shutdown goes on with the journals it has left. -/
  | turns : t.transactions = s.transactions → (t.closing = .open ↔ s.closing = .open) → t.closing.left = s.closing.left →
      (t.closing = .returned → t.queue = [] ∧ t.writer = .idle) → t.count = s.count → Registry s t
  /-- A request owns a new journal. -/
  | begins {r d : String} {n : ℕ} : t.journals s.count = some (.begin r d n) → r ∉ s.transactions.keys →
      t.transactions = s.transactions.set r s.count → t.closing = .open → Registry s t
  /-- An ended journal is forgotten. -/
  | retires {j : ℕ} {r : String} : (∀ y, t.journals j = some y → ¬y.unsettled) →
      t.transactions = (s.retire j r).transactions → t.closing = s.closing → t.count = s.count → Registry s t
  /-- The shutdown lists the journals. -/
  | shuts : t.transactions = s.transactions → t.closing = .aborting s.transactions.values → t.count = s.count → Registry s t
  /-- The shutdown is done with a journal. -/
  | ends {j : ℕ} : (∀ y, t.journals j = some y → ¬y.unsettled) → t.transactions = s.transactions →
      s.closing ≠ .open → t.closing ≠ .returned → s.closing.left = j :: t.closing.left → t.count = s.count → Registry s t

theorem settled_of_state (hs : x.state ≠ .open) (hh : x.hold = none) : ¬x.unsettled := by
  rintro (hopen | hhold)
  · exact hs hopen
  · rw [hh] at hhold
    cases hhold

/-- The journal whose store's abort ends has ended. -/
theorem settled_aborted (hs : x.state = .aborted) : ¬x.aborted.unsettled :=
  settled_of_state (by simp [Journal.aborted, hs]) rfl

theorem retire_transactions {r : String} : (s.retire j r).transactions =
    if s.transactions.get? r = some j then s.transactions.erase r else s.transactions := by
  unfold State.retire
  split <;> rfl

theorem registry_finishAbort {w : Writer} (hs : x.state = .aborted) :
    Registry s { s.finishAbort j x with writer := w } := by
  have hsettled : ∀ y, (s.finishAbort j x).journals j = some y → ¬y.unsettled := by
    intro y hy
    rw [finishAbort_journals, Function.update_self, some.injEq] at hy
    exact hy ▸ settled_aborted hs
  have htransactions : (s.finishAbort j x).transactions = (s.retire j x.requestId).transactions := by
    rw [retire_transactions]
    exact retire_transactions (s := s.put j x.aborted)
  obtain ⟨transactions, heq⟩ := finishAbort_eq s j x
  exact .retires (j := j) (r := x.requestId) hsettled htransactions (by rw [heq]; rfl) (by rw [heq]; rfl)

theorem registry_work {outcome : Outcome} (hj : Journals s) (h : s.work outcome = some t) : Registry s t := by
  unfold State.work at h
  split at h
  next => cases h
  next =>
    obtain ⟨y, -, rfl⟩ := map_eq_some_iff.mp h
    split_ifs <;> exact .keeps rfl rfl rfl
  next =>
    split at h
    all_goals
      cases h
      exact .keeps rfl rfl rfl
  next =>
    obtain ⟨y, -, rfl⟩ := map_eq_some_iff.mp h
    split_ifs <;> exact .keeps rfl rfl rfl
  next =>
    obtain ⟨y, -, h⟩ := bind_eq_some_iff.mp h
    split at h
    · cases h
    · cases h
      exact .keeps rfl rfl rfl
    · cases h
      exact .keeps rfl rfl rfl
  next =>
    obtain ⟨y, -, rfl⟩ := map_eq_some_iff.mp h
    exact .keeps rfl rfl rfl
  next =>
    obtain ⟨y, -, rfl⟩ := map_eq_some_iff.mp h
    exact .keeps rfl rfl rfl
  next =>
    obtain ⟨y, -, rfl⟩ := map_eq_some_iff.mp h
    exact .keeps rfl rfl rfl
  next task ok hw =>
    obtain ⟨y, hy, rfl⟩ := map_eq_some_iff.mp h
    have hlife := hj.life _ y hy
    have htask : s.writer.task? = some task := by rw [hw]; rfl
    rw [Writer.on_task htask, hw] at hlife
    exact registry_finishAbort (hlife.aborting (by rw [Journal.aborts, hlife.writer.mpr rfl])).1
  next =>
    cases h
    exact .keeps rfl rfl rfl
  next =>
    cases h
    exact .keeps rfl rfl rfl

theorem registry_shutdownGoesOn (hj : Journals s) (h : s.shutdownGoesOn = some t) : Registry s t := by
  unfold State.shutdownGoesOn at h
  split at h
  next => cases h
  next => cases h
  next hclosing =>
    cases h
    exact .turns rfl (by simp [hclosing]) (by rw [hclosing]; rfl) nofun rfl
  next k rest hclosing =>
    obtain ⟨y, hy, hhold, h⟩ := exists_of_bind h
    split_ifs at h with hopen
    · cases h
      by_cases hfree : y.abortLocked.hold = none
      · refine .ends (j := k) (fun z hz => ?_) rfl (by rw [hclosing]; nofun) (by simp [hfree]) ?_ rfl
        · rw [put_journals_self, some.injEq] at hz
          rw [← hz]
          exact settled_of_state (by simp) hfree
        rw [hclosing]
        simp only [if_pos hfree]
        rfl
      refine .turns rfl (by simp [hclosing, hfree]) ?_ (by simp [hfree]) rfl
      rw [hclosing]
      simp only [if_neg hfree]
      rfl
    · cases h
      refine .ends (j := k) (fun z hz => ?_) rfl (by rw [hclosing]; nofun) nofun (by rw [hclosing]; rfl) rfl
      rw [hy, some.injEq] at hz
      exact hz ▸ settled_of_state hopen hhold
  next k rest hclosing =>
    obtain ⟨y, hy, h⟩ := bind_eq_some_iff.mp h
    split_ifs at h with hdone
    cases h
    refine .ends (j := k) (fun z hz => ?_) rfl (by rw [hclosing]; nofun) nofun (by rw [hclosing]; rfl) rfl
    rw [hy, some.injEq] at hz
    have hstate := ((hj.life k y hy).finalized hdone.1).1
    exact hz ▸ settled_of_state (by simp [hstate]) hdone.2
  next hclosing =>
    split_ifs at h with hdone
    cases h
    exact .turns rfl (by simp [hclosing]) (by rw [hclosing]; rfl) (fun _ => hdone) rfl

theorem registry_step (hj : Journals s) (h : step s a = some t) : Registry s t := by
  cases a with
  | begin =>
    simp only [step, State.beginContext] at h
    split_ifs at h with hno
    cases h
    simp only [not_or, not_not] at hno
    exact .begins (put_journals_self ..) hno.2.2.2.2 rfl hno.2.2.2.1
  | submit | commitEnds =>
    obtain ⟨y, -, h⟩ := bind_eq_some_iff.mp h
    split_ifs at h
    · cases h
      exact .keeps rfl rfl rfl
    · cases h
      exact .keeps rfl rfl rfl
  | enqueue k raises =>
    obtain ⟨y, -, h⟩ := bind_eq_some_iff.mp h
    split at h
    case h_2 => cases h
    split_ifs at h
    · cases h
      exact .keeps rfl rfl rfl
    · cases h
      exact .keeps rfl rfl rfl
  | commit | abort =>
    obtain ⟨y, -, h⟩ := bind_eq_some_iff.mp h
    split_ifs at h
    cases h
    exact .keeps rfl rfl rfl
  | retire k =>
    obtain ⟨y, hy, h⟩ := bind_eq_some_iff.mp h
    split_ifs at h with hcommitted
    cases h
    obtain ⟨transactions, heq⟩ := retire_eq s k y.requestId
    refine .retires (j := k) (r := y.requestId) (fun z hz => ?_) rfl (by rw [heq]) (by rw [heq])
    rw [retire_journals, hy, some.injEq] at hz
    exact hz ▸ settled_of_state (by simp [hcommitted]) ((hj.life k y hy).committed hcommitted).2
  | abortEnds k =>
    obtain ⟨y, hy, h⟩ := bind_eq_some_iff.mp h
    split_ifs at h with hhold
    cases h
    exact registry_finishAbort (w := (s.finishAbort k y).writer)
      ((hj.life k y hy).aborting (by rw [Journal.aborts, hhold])).1
  | shutdown =>
    simp only [step] at h
    split_ifs at h
    · cases h
      exact .shuts rfl rfl rfl
    · cases h
      exact .keeps rfl rfl rfl
  | shutdownGoesOn => exact registry_shutdownGoesOn hj h
  | take =>
    simp only [step, State.take] at h
    split at h
    case h_2 => cases h
    cases h
    exact .keeps rfl rfl rfl
  | work => exact registry_work hj h

/-- An unsettled journal was unsettled before the step or is new. -/
theorem unsettled_step (hj : Journals s) (hc : Completions s) (h : step s a = some t) (hy : t.journals i = some y)
    (hun : y.unsettled) : (∃ x, s.journals i = some x ∧ x.unsettled ∧ x.requestId = y.requestId) ∨ i = s.count ∧ t.count = s.count + 1 := by
  have hfresh : ∀ i y, s.journals i = some y → s.nextCompletion ∉ y.pending :=
    fun i y hy hmem => lt_irrefl _ (pending_old hj hc hy _ hmem)
  obtain ⟨x, hx, ⟨rfl, -⟩ | hmove⟩ | ⟨-, rfl, -, -, -, hnew⟩ := local_step h hy hj.below hfresh
  · exact .inl ⟨y, hx, hun, rfl⟩
  · exact .inl ⟨x, hx, hmove.unsettled (hj.life i x hx) hun, hmove.requestId_eq.symm⟩
  · exact .inr ⟨rfl, hnew⟩

/-- Journals that have not ended stay known. -/
theorem Owned.step (ho : Owned s) (hj : Journals s) (hc : Completions s) (h : step s a = some t) : Owned t := by
  have hold := fun i y (hy : t.journals i = some y) hun => unsettled_step hj hc h hy hun
  have hbefore : t.count = s.count → ∀ i y, t.journals i = some y → y.unsettled →
      ∃ x, s.journals i = some x ∧ x.unsettled ∧ x.requestId = y.requestId := by
    intro hcount i y hy hun
    refine (hold i y hy hun).resolve_right ?_
    rintro ⟨-, hnew⟩
    omega
  have hsame : t.count = s.count → t.transactions = s.transactions → ∀ i y, t.journals i = some y → y.unsettled →
      t.transactions.get? y.requestId = some i := by
    intro hcount htransactions i y hy hun
    obtain ⟨x, hx, hunx, hr⟩ := hbefore hcount i y hy hun
    rw [htransactions, ← hr]
    exact ho.owned i x hx hunx
  cases registry_step hj h with
  | keeps htransactions hclosing hcount =>
    refine ⟨hsame hcount htransactions, fun hclosed i y hy hun => ?_⟩
    rw [hclosing] at hclosed ⊢
    obtain ⟨x, hx, hunx, -⟩ := hbefore hcount i y hy hun
    exact ho.left hclosed i x hx hunx
  | turns htransactions hclosing hleft _ hcount =>
    refine ⟨hsame hcount htransactions, fun hclosed i y hy hun => ?_⟩
    obtain ⟨x, hx, hunx, -⟩ := hbefore hcount i y hy hun
    rw [hleft]
    exact ho.left (fun hopen => hclosed (hclosing.mpr hopen)) i x hx hunx
  | @begins r d n hjournal hr htransactions hclosing =>
    constructor
    case owned =>
      intro i y hy hun
      rw [htransactions]
      obtain ⟨x, hx, hunx, hreq⟩ | ⟨rfl, -⟩ := hold i y hy hun
      · have hget := ho.owned i x hx hunx
        have hne : y.requestId ≠ r := by
          rintro rfl
          exact hr (Dict.mem_keys_iff.mpr ⟨i, hreq ▸ hget⟩)
        rw [Dict.get?_set_of_ne hne, ← hreq]
        exact hget
      rw [hjournal, some.injEq] at hy
      rw [← hy]
      exact Dict.get?_set_self
    case left => exact fun hno => absurd hclosing hno
  | @retires j r hsettled htransactions hclosing hcount =>
    constructor
    case owned =>
      intro i y hy hun
      obtain ⟨x, hx, hunx, hreq⟩ := hbefore hcount i y hy hun
      have hget := ho.owned i x hx hunx
      rw [htransactions, ← hreq]
      unfold State.retire
      split
      next hown =>
        have hne : x.requestId ≠ r := by
          rintro rfl
          rw [hown, some.injEq] at hget
          exact hsettled y (hget ▸ hy) hun
        rw [show ({ s with transactions := s.transactions.erase r } : State).transactions = s.transactions.erase r from rfl,
          Dict.get?_erase_of_ne hne]
        exact hget
      next => exact hget
    case left =>
      intro hclosed i y hy hun
      rw [hclosing] at hclosed ⊢
      obtain ⟨x, hx, hunx, -⟩ := hbefore hcount i y hy hun
      exact ho.left hclosed i x hx hunx
  | shuts htransactions hclosing hcount =>
    refine ⟨hsame hcount htransactions, fun _ i y hy hun => ?_⟩
    obtain ⟨x, hx, hunx, -⟩ := hbefore hcount i y hy hun
    rw [hclosing]
    exact Dict.mem_values_iff.mpr ⟨x.requestId, ho.owned i x hx hunx⟩
  | @ends j hsettled htransactions hclosing _ hleft hcount =>
    refine ⟨hsame hcount htransactions, fun _ i y hy hun => ?_⟩
    obtain ⟨x, hx, hunx, -⟩ := hbefore hcount i y hy hun
    have hmem := ho.left hclosing i x hx hunx
    rw [hleft, List.mem_cons] at hmem
    obtain rfl | hmem := hmem
    · exact absurd hun (hsettled y hy)
    · exact hmem

/-- A shutdown that returned left no task. -/
theorem drained_step (hd : s.closing = .returned → s.outstanding = []) (hj : Journals s) (h : step s a = some t)
    (hreturned : t.closing = .returned) : t.outstanding = [] := by
  have hkept (hclosing : t.closing = s.closing) : t.outstanding = [] := by
    have hnone := hd (hclosing ▸ hreturned)
    cases ledger_step h with
    | keeps hout | raises _ _ _ hout => exact hout.trans hnone
    | returns hopen => cases hopen.symm.trans hreturned
    | resolves hout =>
      rw [hnone] at hout
      cases hout
  cases registry_step hj h with
  | keeps _ hclosing _ | retires _ _ hclosing _ => exact hkept hclosing
  | turns _ _ _ hdone _ =>
    rw [State.outstanding, (hdone hreturned).1, (hdone hreturned).2]
    rfl
  | begins _ _ _ hopen => cases hopen.symm.trans hreturned
  | shuts _ hclosing _ => cases hclosing.symm.trans hreturned
  | ends _ _ _ hno _ _ => exact absurd hreturned hno

/-- What holds in every state of a run. -/
structure Inv (s : State) : Prop where
  /-- Journals live their lives. -/
  journals : Journals s
  /-- The books of completions. -/
  completions : Completions s
  /-- Journals that have not ended are known. -/
  owned : Owned s
  /-- A shutdown that returned left no task. -/
  drained : s.closing = .returned → s.outstanding = []

/-- Nothing has happened. -/
theorem Inv.init (n : ℕ) : Inv (State.init n) where
  journals := ⟨nofun, nofun, nofun, nofun⟩
  completions := ⟨rfl, List.nodup_nil, nofun, nofun, nofun, fun _ _ _ _ h => absurd h nofun⟩
  owned := ⟨nofun, nofun⟩
  drained := nofun

/-- Every step keeps the invariant. -/
theorem Inv.step (h : Inv s) (hs : step s a = some t) : Inv t where
  journals := h.journals.step h.completions hs
  completions := h.completions.step hs
  owned := h.owned.step h.journals h.completions hs
  drained := drained_step h.drained h.journals hs

/-- The invariant holds in every state of every run. -/
theorem Inv.of_reachable {n : ℕ} (h : Reachable Snapshot.step Unrestricted (State.init n) s) : Inv s :=
  h.invariant Inv (Inv.init n) fun _ _ _ _ hs _ ha => hs.step ha

end SparkRing.Snapshot
