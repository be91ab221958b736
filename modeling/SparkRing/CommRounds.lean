import SparkRing.CommGroup

/-!
# The rounds of one rank

A rank's close begins its first round once and its second one only after the progress
threads stopped. While a split stands between its two rounds, the rank begins no round but
those of a close.
-/

namespace SparkRing.CommGroup

open Function

variable {x x' : Comm} {t t' i : ℕ} {c : Call} {kind : Kind} {data : List Word} {rounds : List Round} {call : Option Call}

/-- Words that a round of a kind carries. -/
def Kind.words : Kind → ℕ
  | .colors => 2
  | .ids _ => 32
  | .first | .second _ => 1

/-- A split that has begun its first round. -/
def Call.inSplit : Call → Bool
  | .colors .. | .grouped .. | .ids .. => true
  | _ => false

/-- What a thread's call says of the rank's rounds. -/
def Call.Fits (x : Comm) (t : ℕ) : Call → Prop
  | .splits .. | .disposes _ | .waits _ | .closed .. => True
  | .colors color key q => x.busy = some t ∧ x.rounds[q]? = some ⟨.colors, [color, key]⟩ ∧ q + 1 = x.rounds.length
  | .grouped q _ _ => (∃ data : List Word, x.rounds[q]? = some ⟨.colors, data⟩) ∧
      ∀ (i : ℕ) (round : Round), q < i → x.rounds[i]? = some round → round.kind.closeRound ≠ none
  | .ids q q' _ _ _ => x.busy = some t ∧ ∃ data : List Word, x.rounds[q']? = some ⟨.ids q, data⟩
  | .synced _ _ => x.closing = some t ∧ x.quiesced = true ∧ ∀ (i : ℕ) (round : Round), x.rounds[i]? = some round → round.kind ≠ .first
  | .first _ result q => x.closing = some t ∧ x.quiesced = true ∧ x.busy = some t ∧
      x.rounds[q]? = some ⟨.first, [result.code]⟩
  | .stopped _ _ q => x.closing = some t ∧ x.quiesced = true ∧ x.stopped = true ∧ ∃ data : List Word, x.rounds[q]? = some ⟨.first, data⟩
  | .second _ _ q q' => x.closing = some t ∧ x.quiesced = true ∧ x.stopped = true ∧ x.busy = some t ∧
      ∃ data : List Word, x.rounds[q']? = some ⟨.second q, data⟩

/-- The rounds and calls of one rank. -/
structure Local (x : Comm) : Prop where
  calls : ∀ t c, x.threads t = some c → c.Fits x t
  /-- One split at a time has begun its first round. -/
  splits : ∀ t t' c c', x.threads t = some c → x.threads t' = some c' → c.inSplit = true → c'.inSplit = true → t = t'
  /-- A rank that has not closed began no round of a close. -/
  quiet : x.quiesced = false → ∀ (i : ℕ) (round : Round), x.rounds[i]? = some round → round.kind ≠ .first
  once : ∀ (i j : ℕ) (a b : Round), x.rounds[i]? = some a → x.rounds[j]? = some b → a.kind = .first → b.kind = .first → i = j
  /-- The second round of a close begins after its first one and after the progress threads stopped. -/
  second : ∀ (j q : ℕ) (data : List Word), x.rounds[j]? = some ⟨.second q, data⟩ → x.stopped = true ∧ ∃ data : List Word, x.rounds[q]? = some ⟨.first, data⟩
  /-- Between the two rounds of a split stand rounds of a close only. -/
  ids : ∀ (j q : ℕ) (data : List Word), x.rounds[j]? = some ⟨.ids q, data⟩ → q < j ∧ (∃ data : List Word, x.rounds[q]? = some ⟨.colors, data⟩) ∧
    ∀ (i : ℕ) (round : Round), q < i → i < j → x.rounds[i]? = some round → round.kind.closeRound ≠ none
  /-- Contributions have the words of their round. -/
  words : ∀ (i : ℕ) (round : Round), x.rounds[i]? = some round → round.data.length = round.kind.words

theorem Local.init : Local .init where
  calls t c h := by cases h
  splits t t' c c' h := by cases h
  quiet _ i round h := by simp [Comm.init] at h
  once i j a b h := by simp [Comm.init] at h
  second j q data h := by simp [Comm.init] at h
  ids j q data h := by simp [Comm.init] at h
  words i round h := by simp [Comm.init] at h

/-- A section of thread `t` that begins no round. -/
structure Turn (t : ℕ) (call : Option Call) (x x' : Comm) : Prop where
  threads : x'.threads = Function.update x.threads t call
  rounds : x'.rounds = x.rounds
  /-- Only the thread in the round ends it. -/
  busy : x'.busy = x.busy ∨ x.busy = some t
  /-- Only its holder lets go of the close lock. -/
  closing : x'.closing = x.closing ∨ x.closing = some t ∨ x.closing = none
  /-- A close is not undone. -/
  quiesced : x.quiesced = true → x'.quiesced = true
  /-- Progress threads do not start again. -/
  stopped : x.stopped = true → x'.stopped = true

/-- Another thread's call still fits. -/
theorem Turn.fits (h : Turn t call x x') (ht : t' ≠ t) (hc : c.Fits x t') : c.Fits x' t' := by
  have hbusy (hb : x.busy = some t') : x'.busy = some t' := by
    obtain hsame | hself := h.busy
    · exact hsame.trans hb
    · exact absurd (Option.some.inj (hb.symm.trans hself)) ht
  have hclosing (hb : x.closing = some t') : x'.closing = some t' := by
    obtain hsame | hself | hnone := h.closing
    · exact hsame.trans hb
    · exact absurd (Option.some.inj (hb.symm.trans hself)) ht
    · rw [hnone] at hb
      cases hb
  cases c with
  | splits | disposes | waits | closed => trivial
  | colors => exact ⟨hbusy hc.1, h.rounds ▸ hc.2.1, h.rounds ▸ hc.2.2⟩
  | grouped => exact ⟨h.rounds ▸ hc.1, h.rounds ▸ hc.2⟩
  | ids => exact ⟨hbusy hc.1, h.rounds ▸ hc.2⟩
  | synced => exact ⟨hclosing hc.1, h.quiesced hc.2.1, h.rounds ▸ hc.2.2⟩
  | first => exact ⟨hclosing hc.1, h.quiesced hc.2.1, hbusy hc.2.2.1, h.rounds ▸ hc.2.2.2⟩
  | stopped => exact ⟨hclosing hc.1, h.quiesced hc.2.1, h.stopped hc.2.2.1, h.rounds ▸ hc.2.2.2⟩
  | second =>
    exact ⟨hclosing hc.1, h.quiesced hc.2.1, h.stopped hc.2.2.1, hbusy hc.2.2.2.1, h.rounds ▸ hc.2.2.2.2⟩

/-- A section that begins no round keeps the rank's rounds in order when its own call fits. -/
theorem Local.turn (hx : Local x) (h : Turn t call x x') (hfits : ∀ c, call = some c → c.Fits x' t)
    (hsplit : ∀ c, call = some c → c.inSplit = true → ∃ old, x.threads t = some old ∧ old.inSplit = true) : Local x' where
  calls t' c hc := by
    rw [h.threads] at hc
    by_cases ht : t' = t
    · subst ht
      rw [update_self] at hc
      exact hfits c hc
    · rw [update_of_ne ht] at hc
      exact h.fits ht (hx.calls t' c hc)
  splits := by
    have hold (t' : ℕ) (c : Call) (hc : x'.threads t' = some c) (hin : c.inSplit = true) :
        ∃ old, x.threads t' = some old ∧ old.inSplit = true := by
      rw [h.threads] at hc
      by_cases ht : t' = t
      · subst ht
        rw [update_self] at hc
        exact hsplit c hc hin
      · rw [update_of_ne ht] at hc
        exact ⟨c, hc, hin⟩
    intro t₁ t₂ c₁ c₂ h₁ h₂ hin₁ hin₂
    obtain ⟨old₁, hold₁, hs₁⟩ := hold t₁ c₁ h₁ hin₁
    obtain ⟨old₂, hold₂, hs₂⟩ := hold t₂ c₂ h₂ hin₂
    exact hx.splits t₁ t₂ old₁ old₂ hold₁ hold₂ hs₁ hs₂
  quiet hq := by
    rw [h.rounds]
    exact hx.quiet (Bool.eq_false_iff.mpr fun hold => by simp [h.quiesced hold] at hq)
  once := h.rounds ▸ hx.once
  second j q data hj := by
    rw [h.rounds] at hj ⊢
    exact ⟨h.stopped (hx.second j q data hj).1, (hx.second j q data hj).2⟩
  ids := h.rounds ▸ hx.ids
  words := h.rounds ▸ hx.words

theorem getElem?_append_round {last round : Round}
    (h : (rounds ++ [last])[i]? = some round) : rounds[i]? = some round ∨ i = rounds.length ∧ round = last := by
  rw [List.getElem?_append] at h
  split_ifs at h with hi
  · exact .inl h
  obtain ⟨hi', heq⟩ := List.getElem?_eq_some_iff.mp h
  simp only [List.length_cons, List.length_nil] at hi'
  have hzero : i - rounds.length = 0 := by omega
  refine .inr ⟨by omega, ?_⟩
  rw [← heq]
  simp [hzero]

theorem getElem?_of_round {round : Round} (last : Round) (h : rounds[i]? = some round) : (rounds ++ [last])[i]? = some round := by
  rw [List.getElem?_append_left (List.getElem?_eq_some_iff.mp h).1]
  exact h

theorem getElem?_last (rounds : List Round) (last : Round) : (rounds ++ [last])[rounds.length]? = some last := by simp

theorem Local.begin (hx : Local x) (hbusy : x.busy = none) (hwords : data.length = kind.words) (hfits : c.Fits (x.begin t kind data c) t)
    (hfirst : kind = .first → ∃ destroy result, x.threads t = some (.synced destroy result))
    (hsecond : ∀ q, kind = .second q → ∃ destroy result, x.threads t = some (.stopped destroy result q))
    (hids : ∀ q, kind = .ids q → ∃ members rank, x.threads t = some (.grouped q members rank))
    (hcolors : kind = .colors → ∀ t' q members rank, x.threads t' ≠ some (.grouped q members rank))
    (hsplit : c.inSplit = true → kind.closeRound = none) : Local (x.begin t kind data c) := by
  -- no first round of a close stands before this one
  have hnofirst (hk : kind = .first) : ∀ (i : ℕ) (round : Round), x.rounds[i]? = some round → round.kind ≠ .first := by
    obtain ⟨destroy, result, ht⟩ := hfirst hk
    exact (hx.calls t _ ht).2.2
  have hthreads (t' : ℕ) (c' : Call) (hc : (x.begin t kind data c).threads t' = some c') :
      t' = t ∧ c' = c ∨ t' ≠ t ∧ x.threads t' = some c' := by
    rw [show (x.begin t kind data c).threads = update x.threads t (some c) from rfl, update_apply] at hc
    split_ifs at hc with ht
    · rw [Option.some.injEq] at hc
      exact Or.inl ⟨ht, hc.symm⟩
    · exact Or.inr ⟨ht, hc⟩
  -- while another thread stands between the rounds of a split, only a round of a close begins
  have hclose {t' q : ℕ} {members : List ℕ} {rank : Option ℕ} (ht : t' ≠ t) (hc : x.threads t' = some (.grouped q members rank)) :
      kind.closeRound ≠ none := by
    cases hkind : kind with
    | colors => exact absurd hc (hcolors hkind t' q members rank)
    | ids q' =>
      obtain ⟨members', rank', hself⟩ := hids q' hkind
      exact absurd (hx.splits t' t _ _ hc hself rfl rfl) ht
    | first | second => nofun
  -- no other thread is in a round
  have hother (t' : ℕ) (c' : Call) (ht : t' ≠ t) (hc : x.threads t' = some c') : c'.Fits (x.begin t kind data c) t' := by
    have hfit := hx.calls t' c' hc
    have hnot (hb : x.busy = some t') : False := by
      rw [hbusy] at hb
      cases hb
    cases c' with
    | splits | disposes | waits | closed => trivial
    | colors | ids => exact (hnot hfit.1).elim
    | first => exact (hnot hfit.2.2.1).elim
    | second => exact (hnot hfit.2.2.2.1).elim
    | stopped =>
      obtain ⟨data', hq⟩ := hfit.2.2.2
      exact ⟨hfit.1, hfit.2.1, hfit.2.2.1, data', getElem?_of_round _ hq⟩
    | synced =>
      refine ⟨hfit.1, hfit.2.1, fun i round hi => ?_⟩
      obtain hold | ⟨-, rfl⟩ := getElem?_append_round hi
      · exact hfit.2.2 i round hold
      intro hk
      obtain ⟨destroy', result', hself⟩ := hfirst hk
      have hlock := (hx.calls t _ hself).1
      exact ht (Option.some.inj (hfit.1.symm.trans hlock))
    | grouped =>
      obtain ⟨data', hq⟩ := hfit.1
      refine ⟨⟨data', getElem?_of_round _ hq⟩, fun i round hi hround => ?_⟩
      obtain hold | ⟨-, rfl⟩ := getElem?_append_round hround
      · exact hfit.2 i round hi hold
      · exact hclose ht hc
  constructor
  case calls =>
    intro t' c' hc
    obtain ⟨rfl, rfl⟩ | ⟨ht, hc⟩ := hthreads t' c' hc
    · exact hfits
    · exact hother t' c' ht hc
  case splits =>
    -- a split that stands in or between its rounds is the one of this thread
    have hself (t' : ℕ) (c' : Call) (ht : t' ≠ t) (hc : x.threads t' = some c') (hin : c'.inSplit = true) : ¬c.inSplit = true := by
      intro hown
      have hfit := hx.calls t' c' hc
      cases c' with
      | colors | ids => rw [Call.Fits, hbusy] at hfit; cases hfit.1
      | grouped => exact hclose ht hc (hsplit hown)
      | _ => cases hin
    intro t₁ t₂ c₁ c₂ h₁ h₂ hin₁ hin₂
    obtain ⟨rfl, rfl⟩ | ⟨ht₁, hc₁⟩ := hthreads t₁ c₁ h₁
    · obtain ⟨rfl, -⟩ | ⟨ht₂, h₂⟩ := hthreads t₂ c₂ h₂
      · rfl
      · exact absurd hin₁ (hself t₂ c₂ ht₂ h₂ hin₂)
    obtain ⟨rfl, rfl⟩ | ⟨-, h₂⟩ := hthreads t₂ c₂ h₂
    · exact absurd hin₂ (hself t₁ c₁ ht₁ hc₁ hin₁)
    · exact hx.splits t₁ t₂ c₁ c₂ hc₁ h₂ hin₁ hin₂
  case quiet =>
    intro hq i round hi
    obtain hold | ⟨-, rfl⟩ := getElem?_append_round hi
    · exact hx.quiet hq i round hold
    intro hk
    obtain ⟨destroy, result, ht⟩ := hfirst hk
    have hquiesced := (hx.calls t _ ht).2.1
    rw [show x.quiesced = false from hq] at hquiesced
    cases hquiesced
  case once =>
    intro i j a b hi hj ha hb
    obtain hi | ⟨rfl, rfl⟩ := getElem?_append_round hi
    · obtain hj | ⟨rfl, rfl⟩ := getElem?_append_round hj
      · exact hx.once i j a b hi hj ha hb
      · exact absurd ha (hnofirst hb i a hi)
    obtain hj | ⟨rfl, rfl⟩ := getElem?_append_round hj
    · exact absurd hb (hnofirst ha j b hj)
    · rfl
  case second =>
    intro j q data' hj
    obtain hold | ⟨-, heq⟩ := getElem?_append_round hj
    · obtain ⟨hstopped, data₀, hq⟩ := hx.second j q data' hold
      exact ⟨hstopped, data₀, getElem?_of_round _ hq⟩
    obtain ⟨hk, -⟩ := Round.mk.injEq .. ▸ heq
    obtain ⟨destroy, result, ht⟩ := hsecond q hk.symm
    obtain ⟨-, -, hstopped, data₀, hq⟩ := hx.calls t _ ht
    exact ⟨hstopped, data₀, getElem?_of_round _ hq⟩
  case ids =>
    intro j q data' hj
    obtain hold | ⟨rfl, heq⟩ := getElem?_append_round hj
    · obtain ⟨hlt, ⟨data₀, hq⟩, hbetween⟩ := hx.ids j q data' hold
      refine ⟨hlt, ⟨data₀, getElem?_of_round _ hq⟩, fun i round hqi hij hi => ?_⟩
      obtain hi | ⟨rfl, -⟩ := getElem?_append_round hi
      · exact hbetween i round hqi hij hi
      · have := (List.getElem?_eq_some_iff.mp hold).1
        omega
    obtain ⟨hk, -⟩ := Round.mk.injEq .. ▸ heq
    obtain ⟨members, rank, ht⟩ := hids q hk.symm
    obtain ⟨⟨data₀, hq⟩, hbetween⟩ := hx.calls t _ ht
    refine ⟨(List.getElem?_eq_some_iff.mp hq).1, ⟨data₀, getElem?_of_round _ hq⟩, fun i round hqi hij hi => ?_⟩
    obtain hi | ⟨rfl, -⟩ := getElem?_append_round hi
    · exact hbetween i round hqi hi
    · exact absurd hij (lt_irrefl _)
  case words =>
    intro i round hi
    obtain hold | ⟨-, rfl⟩ := getElem?_append_round hi
    · exact hx.words i round hold
    · exact hwords

end SparkRing.CommGroup
