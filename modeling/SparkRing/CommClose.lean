import SparkRing.CommRounds

/-!
# What a close proves

A close that meets the same close on every rank and returns success has read every rank's
success in its first round and has met every rank's second round, which begins only after
the rank's progress threads stopped. A split that joins a part has met one split of every
rank.
-/

namespace SparkRing.CommGroup

open TransitionSystem Function
open Option (map_eq_some_iff some.inj some.injEq)

variable {n a b t q q' : ℕ} {s s' : State} {x x' : Comm} {c : Call} {call : Option Call} {result : NcclResult} {destroy : Bool} {act : Act}

/-- Rounds stay, and progress threads do not start again. -/
def Advance (x x' : Comm) : Prop :=
  (∀ (i : ℕ) (round : Round), x.rounds[i]? = some round → x'.rounds[i]? = some round) ∧ (x.stopped = true → x'.stopped = true)

theorem Turn.advance (h : Turn t call x x') : Advance x x' := ⟨fun _ _ hi => h.rounds ▸ hi, h.stopped⟩

theorem advance_begin {kind : Kind} {data : List Word} : Advance x (x.begin t kind data c) :=
  ⟨fun _ _ hi => getElem?_of_round _ hi, id⟩

theorem turn_release : Turn t none x (x.release t) := ⟨rfl, rfl, .inl rfl, .inl rfl, id, id⟩

/-- The thread that closes lets go of the close lock. -/
theorem turn_close (hlock : x.closing = some t) : Turn t (some (.closed destroy result)) x (x.close t destroy result) :=
  ⟨rfl, rfl, .inl rfl, .inr (.inl hlock), id, id⟩

theorem Local.close (hx : Local x) (h : Turn t (some (.closed destroy result)) x x') : Local x' := by
  refine hx.turn h ?_ ?_
  · rintro c ⟨⟩
    trivial
  · rintro c ⟨⟩ hin
    cases hin

theorem Local.release (hx : Local x) (h : Turn t none x x') : Local x' := hx.turn h nofun nofun

/-- The calls before and in a round. -/
inductive Call.Next : Call → Call → Prop
  | splits {color key : Word} {q : ℕ} : Next (.splits color key) (.colors color key q)
  | grouped {q q' : ℕ} {members : List ℕ} {rank : Option ℕ} {result : NcclResult} :
      Next (.grouped q members rank) (.ids q q' members rank result)
  | synced {destroy : Bool} {result : NcclResult} {q : ℕ} : Next (.synced destroy result) (.first destroy result q)
  | stopped {destroy : Bool} {result : NcclResult} {q q' : ℕ} :
      Next (.stopped destroy result q) (.second destroy result q q')

/-- What a thread does when it may begin its next round. -/
inductive Begins (x : Comm) (t : ℕ) : Comm → Prop
  /-- It begins the round. -/
  | round {kind : Kind} {data : List Word} {old c : Call} : nextKind x t = some kind → x.threads t = some old →
      old.Next c → Begins x t (x.begin t kind data c)
  /-- Its split fails. -/
  | releases {x' : Comm} : Turn t none x x' → x'.closeResult = x.closeResult → x'.joined = x.joined → Begins x t x'
  | closes {x' : Comm} {destroy : Bool} {result : NcclResult} : Turn t (some (.closed destroy result)) x x' →
      result ≠ .success → x'.closeResult = some result → x'.joined = x.joined → Begins x t x'

theorem first_remoteError : result.first .remoteError ≠ .success := by
  cases result <;> nofun

theorem idRecord_length (rank : Option ℕ) (created : Except NcclResult UniqueId) :
    (idRecord rank created).1.val.length = 32 := (idRecord rank created).1.property

/-- A handle without failed rounds begins the thread's round, another refuses it. -/
theorem allgather_spec {created : Except NcclResult UniqueId} (hx : Local x) (h : allgather x t created = some x')
    (hcolors : nextKind x t = some .colors → ∀ t' q members rank, x.threads t' ≠ some (.grouped q members rank)) :
    Begins x t x' ∧ Local x' := by
  unfold allgather at h
  obtain ⟨hbusy, h⟩ := Option.ite_none_left_eq_some.mp h
  rw [not_not] at hbusy
  dsimp only at h
  split at h
  next color key ht =>
    split_ifs at h with hf
    · rw [some.injEq] at h
      subst h
      exact ⟨.releases turn_release rfl rfl, hx.release turn_release⟩
    rw [some.injEq] at h
    subst h
    have hnext : nextKind x t = some .colors := by rw [nextKind, if_neg hf, ht]
    refine ⟨.round hnext ht .splits, hx.begin hbusy rfl ⟨rfl, getElem?_last .., ?_⟩ nofun nofun nofun (fun _ => hcolors hnext) fun _ => rfl⟩
    simp [Comm.begin]
  next q₀ members rank ht =>
    split_ifs at h with hf
    · rw [some.injEq] at h
      subst h
      exact ⟨.releases turn_release rfl rfl, hx.release turn_release⟩
    rw [some.injEq] at h
    subst h
    have hnext : nextKind x t = some (.ids q₀) := by rw [nextKind, if_neg hf, ht]
    refine ⟨.round hnext ht .grouped, hx.begin hbusy (idRecord_length ..) ⟨rfl, _, getElem?_last ..⟩ nofun nofun ?_ nofun fun _ => rfl⟩
    rintro q ⟨⟩
    exact ⟨members, rank, ht⟩
  next destroy result ht =>
    obtain ⟨hlock, hquiesced, -⟩ := hx.calls t _ ht
    split_ifs at h with hf
    · rw [some.injEq] at h
      subst h
      have hturn : Turn t (some (.closed destroy (result.first .remoteError))) x
          { x.close t destroy (result.first .remoteError) with stopped := true } :=
        ⟨rfl, rfl, .inl rfl, .inr (.inl hlock), id, fun _ => rfl⟩
      exact ⟨.closes hturn first_remoteError rfl rfl, hx.close hturn⟩
    rw [some.injEq] at h
    subst h
    have hnext : nextKind x t = some .first := by rw [nextKind, if_neg hf, ht]
    refine ⟨.round hnext ht .synced, hx.begin hbusy rfl ⟨hlock, hquiesced, rfl, getElem?_last ..⟩ (fun _ => ⟨destroy, result, ht⟩)
      nofun nofun nofun nofun⟩
  next destroy result q₀ ht =>
    obtain ⟨hlock, hquiesced, hstopped, -⟩ := hx.calls t _ ht
    split_ifs at h with hf
    · rw [some.injEq] at h
      subst h
      exact ⟨.closes (turn_close hlock) first_remoteError rfl rfl, hx.close (turn_close hlock)⟩
    rw [some.injEq] at h
    subst h
    have hnext : nextKind x t = some (.second q₀) := by rw [nextKind, if_neg hf, ht]
    refine ⟨.round hnext ht .stopped, hx.begin hbusy rfl ⟨hlock, hquiesced, hstopped, rfl, _, getElem?_last ..⟩ nofun ?_ nofun nofun nofun⟩
    rintro q ⟨⟩
    exact ⟨destroy, result, ht⟩
  next => cases h

/-- The ranks' rounds of one number are the same round of a close, or none of them is. -/
def Paired (n : ℕ) (s : State) : Prop :=
  ∀ a < n, ∀ b < n, ∀ (q : ℕ) (r r' : Round), (s a).rounds[q]? = some r → (s b).rounds[q]? = some r' →
    r.kind.closeRound = r'.kind.closeRound

/-- Every rank reported success in a close's first round and stopped its progress threads. -/
def Ended (n : ℕ) (s : State) : Prop :=
  ∀ b < n, (∃ q : ℕ, (s b).rounds[q]? = some ⟨.first, [NcclResult.success.code]⟩) ∧ (s b).stopped = true

/-- Two rounds are the rounds of one split on every rank. -/
def Joint (n : ℕ) (s : State) (rounds : ℕ × ℕ) : Prop :=
  ∀ b < n, (∃ data : List Word, (s b).rounds[rounds.1]? = some ⟨.colors, data⟩) ∧
    ∃ data : List Word, (s b).rounds[rounds.2]? = some ⟨.ids rounds.1, data⟩

/-- What a call has read in its rounds. -/
def Call.Knows (n : ℕ) (s : State) : Call → Prop
  | .grouped q _ _ | .ids q _ _ _ _ => ∀ b < n, ∃ r : Round, (s b).rounds[q]? = some r ∧ r.data.length = 2
  | .stopped _ result q | .second _ result q _ =>
    result = .success → ∀ b < n, (s b).rounds[q]? = some ⟨.first, [NcclResult.success.code]⟩
  | _ => True

/-- What a rank's calls and results rest on. -/
structure Known (n : ℕ) (s : State) (x : Comm) : Prop where
  /-- Its calls have read it. -/
  calls : ∀ t c, x.threads t = some c → c.Knows n s
  /-- A close that succeeded. -/
  closed : x.closeResult = some .success → Ended n s
  /-- Splits that joined their part. -/
  joined : ∀ p ∈ x.joined, Joint n s p

/-- Every rank advances. -/
def Grows (s s' : State) : Prop := ∀ b, Advance (s b) (s' b)

theorem Ended.mono (hg : Grows s s') (h : Ended n s) : Ended n s' := fun b hb =>
  ⟨(h b hb).1.imp fun q hq => (hg b).1 q _ hq, (hg b).2 (h b hb).2⟩

theorem Joint.mono (hg : Grows s s') {p : ℕ × ℕ} (h : Joint n s p) : Joint n s' p := fun b hb =>
  ⟨(h b hb).1.imp fun _ hq => (hg b).1 _ _ hq, (h b hb).2.imp fun _ hq => (hg b).1 _ _ hq⟩

theorem Call.Knows.mono (hg : Grows s s') (h : c.Knows n s) : c.Knows n s' := by
  cases c with
  | grouped | ids => exact fun b hb => (h b hb).imp fun r hr => ⟨(hg b).1 _ _ hr.1, hr.2⟩
  | stopped | second => exact fun hs b hb => (hg b).1 _ _ (h hs b hb)
  | _ => trivial

theorem Call.Knows.next {old : Call} (h : old.Knows n s) (hnext : old.Next c) : c.Knows n s := by
  cases hnext with
  | splits => trivial
  | grouped => exact h
  | synced => trivial
  | stopped => exact h

theorem Known.mono (hg : Grows s s') (h : Known n s x) : Known n s' x where
  calls t c hc := (h.calls t c hc).mono hg
  closed hc := (h.closed hc).mono hg
  joined p hp := (h.joined p hp).mono hg

/-- A section of a thread that begins no round. -/
structure Learns (n : ℕ) (s : State) (t : ℕ) (call : Option Call) (x x' : Comm) : Prop where
  /-- It begins no round. -/
  turn : Turn t call x x'
  /-- It keeps the rank's rounds in order. -/
  keeps : Local x'
  /-- What the thread's call has read. -/
  knows : ∀ c, call = some c → c.Knows n s
  /-- What a close that succeeds has read. -/
  closed : x'.closeResult = x.closeResult ∨ (x'.closeResult = some .success → Ended n s)
  /-- What a split that joins has read. -/
  joined : ∀ p ∈ x'.joined, p ∈ x.joined ∨ Joint n s p

theorem Learns.known (h : Learns n s t call x x') (hk : Known n s x) : Known n s x' where
  calls t' c hc := by
    rw [h.turn.threads] at hc
    by_cases ht : t' = t
    · subst ht
      rw [update_self] at hc
      exact h.knows c hc
    · rw [update_of_ne ht] at hc
      exact hk.calls t' c hc
  closed hc := by
    obtain hsame | hnew := h.closed
    · exact hk.closed (hsame ▸ hc)
    · exact hnew hc
  joined p hp := (h.joined p hp).elim (hk.joined p) id

variable {all : List (List Word)}

/-- An answer holds what every rank contributed to the round. -/
theorem answer_spec (h : answer n s q = some all) :
    all.length = n ∧ ∀ b < n, ∃ r : Round, (s b).rounds[q]? = some r ∧ all.getD b [] = r.data := by
  unfold answer at h
  split_ifs at h with hbegun
  cases h
  refine ⟨by simp, fun b hb => ?_⟩
  obtain ⟨r, hr⟩ : ∃ r, (s b).rounds[q]? = some r := ⟨_, List.getElem?_eq_getElem (hbegun b hb)⟩
  exact ⟨r, hr, by simp [List.getD_eq_getElem?_getD, hb, hr]⟩

/-- Contributions of one word each stand at their rank's place. -/
theorem flatten_words : ∀ {all : List (List Word)} (i : ℕ), (∀ l ∈ all, l.length = 1) →
    wordAt all.flatten i = wordAt (all.getD i []) 0
  | [], i, _ => by simp [wordAt]
  | l :: all, i, h => by
    obtain ⟨w, rfl⟩ := List.length_eq_one_iff.mp (h l List.mem_cons_self)
    cases i with
    | zero => rfl
    | succ i =>
      have ih := flatten_words i fun l hl => h l (List.mem_cons_of_mem _ hl)
      simpa [wordAt] using ih

/-- A close's first round that succeeds has read every rank's success. -/
theorem afterFirst_success (hpair : Paired n s) (hwords : ∀ b, Local (s b))
    (ha : a < n) (hown : ∃ data, (s a).rounds[q]? = some ⟨.first, data⟩) (h : answer n s q = some all)
    (hsuccess : afterFirst n result all = .success) : ∀ b < n, (s b).rounds[q]? = some ⟨.first, [NcclResult.success.code]⟩ := by
  obtain ⟨hlen, hall⟩ := answer_spec h
  obtain ⟨data, hown⟩ := hown
  -- every contribution is the one of a close's first round
  have hfirst : ∀ b < n, ∃ w, (s b).rounds[q]? = some ⟨.first, [w]⟩ ∧ all.getD b [] = [w] := by
    intro b hb
    obtain ⟨r, hr, hget⟩ := hall b hb
    have hkind : r.kind = .first := by
      have heq := hpair a ha b hb q _ r hown hr
      cases hk : r.kind <;> rw [hk] at heq <;> first | rfl | cases heq
    have hw := (hwords b).words q r hr
    rw [hkind] at hw
    obtain ⟨w, hw⟩ := List.length_eq_one_iff.mp hw
    exact ⟨w, by rw [hr, ← hkind, ← hw], hget.trans hw⟩
  have hone : ∀ l ∈ all, l.length = 1 := by
    intro l hl
    obtain ⟨b, hb, rfl⟩ := List.mem_iff_getElem.mp hl
    obtain ⟨w, -, hget⟩ := hfirst b (hlen ▸ hb)
    rw [List.getD_eq_getElem?_getD, List.getElem?_eq_getElem hb, Option.getD_some] at hget
    rw [hget]
    rfl
  intro b hb
  obtain ⟨w, hr, hget⟩ := hfirst b hb
  have hreported : reported all b = w := by
    rw [reported, hget, if_pos (show [w].length = 1 from rfl), flatten_words b hone, hget]
    rfl
  have hnone : ¬∃ r < n, reported all r ≠ NcclResult.success.code := by
    intro hbad
    unfold afterFirst at hsuccess
    split_ifs at hsuccess with hno
    exact hno ⟨hsuccess, hbad⟩
  have hsame : w = NcclResult.success.code := by
    by_contra hne
    exact hnone ⟨b, hb, by rw [hreported]; exact hne⟩
  rw [hr, hsame]

/-- A split's second round that joins has met one split of every rank. -/
theorem joint_of_ids (hpair : Paired n s) (hlocal : ∀ b, Local (s b)) (ha : a < n)
    (hown : ∃ data, (s a).rounds[q']? = some ⟨.ids q, data⟩) (h : answer n s q' = some all)
    (hcolors : ∀ b < n, ∃ r : Round, (s b).rounds[q]? = some r ∧ r.data.length = 2)
    (hlengths : ∀ b < n, (all.getD b []).length = 32) : Joint n s (q, q') := by
  obtain ⟨-, hall⟩ := answer_spec h
  obtain ⟨data, hown⟩ := hown
  obtain ⟨hlt, -, hbetween⟩ := (hlocal a).ids q' q data hown
  intro b hb
  obtain ⟨r, hr, hget⟩ := hall b hb
  obtain ⟨r₀, hr₀, htwo⟩ := hcolors b hb
  have hkind₀ : r₀.kind = .colors := by
    have hw := (hlocal b).words q r₀ hr₀
    cases hk : r₀.kind <;> rw [hk] at hw <;> simp [Kind.words, htwo] at hw
  have hkind : ∃ q₁, r.kind = .ids q₁ := by
    have hw := (hlocal b).words q' r hr
    rw [← hget, hlengths b hb] at hw
    cases hk : r.kind with
    | ids q₁ => exact ⟨q₁, rfl⟩
    | _ => rw [hk] at hw; simp [Kind.words] at hw
  obtain ⟨q₁, hkind⟩ := hkind
  have hrb : (s b).rounds[q']? = some ⟨.ids q₁, r.data⟩ := by rw [hr, ← hkind]
  obtain ⟨hlt₁, ⟨data₁, hr₁⟩, hbetween₁⟩ := (hlocal b).ids q' q₁ r.data hrb
  -- the other rank's split began where this one did: between the rounds of either stand rounds of a close only
  have hq : q₁ = q := by
    obtain hless | heq | hmore := lt_trichotomy q₁ q
    · exact absurd (by rw [hkind₀]; rfl) (hbetween₁ q r₀ hless hlt hr₀)
    · exact heq
    have hpos : q₁ < (s a).rounds.length := hlt₁.trans (List.getElem?_eq_some_iff.mp hown).1
    have hra := List.getElem?_eq_getElem hpos
    have hsame := hpair a ha b hb q₁ _ _ hra hr₁
    exact absurd hsame (hbetween q₁ _ hmore hlt₁ hra)
  refine ⟨⟨r₀.data, by rw [hr₀, ← hkind₀]⟩, r.data, hq ▸ hrb⟩

/-- What holds in every state of a run whose rounds are in step. -/
structure Inv (n : ℕ) (s : State) : Prop where
  /-- The rounds of each rank. -/
  ranks : ∀ b, Local (s b)
  /-- What its calls rest on. -/
  known : ∀ b, Known n s (s b)
  /-- Rounds of closes meet. -/
  paired : Paired n s
  /-- No thread runs beside the ranks. -/
  outside : ∀ b, n ≤ b → ∀ t, (s b).threads t = none

section

variable (hi : Inv n s)

include hi

theorem Inv.rank_lt (h : (s a).threads t = some c) : a < n := by
  by_contra hn
  rw [hi.outside a (Nat.le_of_not_lt hn) t] at h
  cases h

theorem Inv.lt_of_thread (t : ℕ) (h : (s a).threads t ≠ none) : a < n := by
  by_contra hn
  exact h (hi.outside a (Nat.le_of_not_lt hn) t)

/-- A round ends well. -/
theorem arrives_spec (h : arrives n a (s a) t (answer n s) = some x') : ∃ call, Learns n s t call (s a) x' := by
  have hx := hi.ranks a
  unfold arrives at h
  split at h
  next color key q ht =>
    obtain ⟨all, hall, rfl⟩ := map_eq_some_iff.mp h
    obtain ⟨hbusy, hq, hlast⟩ := hx.calls t _ ht
    obtain ⟨-, hcontributions⟩ := answer_spec hall
    have hrelease : Turn t none (s a) (({ s a with busy := none } : Comm).release t) :=
      ⟨rfl, rfl, .inr hbusy, .inl rfl, id, id⟩
    split
    next hbad => exact ⟨none, hrelease, hx.release hrelease, nofun, .inl rfl, fun p hp => .inl hp⟩
    next call hcall =>
      unfold afterColors at hcall
      by_cases hbad : ∃ r < n, (all.getD r []).length ≠ 2
      · rw [if_pos hbad] at hcall
        cases hcall
      rw [if_neg hbad, some.injEq] at hcall
      subst hcall
      have hturn (call : Call) : Turn t (some call) (s a) (({ s a with busy := none } : Comm).put t (some call)) :=
        ⟨rfl, rfl, .inr hbusy, .inl rfl, id, id⟩
      refine ⟨_, hturn _, hx.turn (hturn _) ?_ ?_, ?_, .inl rfl, fun p hp => .inl hp⟩
      · rintro c ⟨⟩
        refine ⟨⟨_, hq⟩, fun i round hqi hround => ?_⟩
        have hlt := (List.getElem?_eq_some_iff.mp hround).1
        change i < (s a).rounds.length at hlt
        omega
      · rintro c ⟨⟩ -
        exact ⟨_, ht, rfl⟩
      rintro c ⟨⟩ b hb
      obtain ⟨r, hr, hget⟩ := hcontributions b hb
      refine ⟨r, hr, ?_⟩
      rw [← hget]
      by_contra hne
      exact hbad ⟨b, hb, hne⟩
  next q q' members rank result ht =>
    obtain ⟨all, hall, rfl⟩ := map_eq_some_iff.mp h
    obtain ⟨hbusy, hq⟩ := hx.calls t _ ht
    have hcolors := (hi.known a).calls t _ ht
    have hrelease : Turn t none (s a) (({ s a with busy := none } : Comm).release t) :=
      ⟨rfl, rfl, .inr hbusy, .inl rfl, id, id⟩
    split
    next hjoins =>
      have hlengths : ∀ b < n, (all.getD b []).length = 32 := by
        intro b hb
        by_contra hne
        have hbad : ∃ r < n, (all.getD r []).length ≠ 32 := ⟨b, hb, hne⟩
        unfold afterIds at hjoins
        rw [if_pos hbad] at hjoins
        cases hjoins.1
      have hturn : Turn t none (s a) { ({ s a with busy := none } : Comm).release t with joined := (s a).joined ++ [(q, q')] } :=
        ⟨rfl, rfl, .inr hbusy, .inl rfl, id, id⟩
      refine ⟨none, hturn, hx.release hturn, nofun, .inl rfl, fun p hp => ?_⟩
      obtain hold | hnew := List.mem_append.mp hp
      · exact .inl hold
      · rw [List.mem_singleton.mp hnew]
        exact .inr (joint_of_ids hi.paired hi.ranks (hi.rank_lt ht) hq hall hcolors hlengths)
    next => exact ⟨none, hrelease, hx.release hrelease, nofun, .inl rfl, fun p hp => .inl hp⟩
  next destroy result q ht =>
    obtain ⟨all, hall, rfl⟩ := map_eq_some_iff.mp h
    obtain ⟨hlock, hquiesced, hbusy, hq⟩ := hx.calls t _ ht
    have hturn : Turn t (some (.stopped destroy (afterFirst n result all) q)) (s a)
        { ({ s a with busy := none } : Comm).put t (some (.stopped destroy (afterFirst n result all) q)) with stopped := true } :=
      ⟨rfl, rfl, .inr hbusy, .inl rfl, id, fun _ => rfl⟩
    refine ⟨_, hturn, hx.turn hturn ?_ ?_, ?_, .inl rfl, fun p hp => .inl hp⟩
    · rintro c ⟨⟩
      exact ⟨hlock, hquiesced, rfl, _, hq⟩
    · rintro c ⟨⟩ hin
      cases hin
    · rintro c ⟨⟩ hsuccess
      exact afterFirst_success hi.paired hi.ranks (hi.rank_lt ht) ⟨_, hq⟩ hall hsuccess
  next destroy result q q' ht =>
    obtain ⟨all, hall, rfl⟩ := map_eq_some_iff.mp h
    obtain ⟨hlock, -, hstopped, hbusy, data, hq'⟩ := hx.calls t _ ht
    have hread := (hi.known a).calls t _ ht
    have hturn : Turn t (some (.closed destroy result)) (s a) (({ s a with busy := none } : Comm).close t destroy result) :=
      ⟨rfl, rfl, .inr hbusy, .inr (.inl hlock), id, id⟩
    refine ⟨_, hturn, hx.close hturn, ?_, .inr fun hsuccess b hb => ?_, fun p hp => .inl hp⟩
    · rintro c ⟨⟩
      trivial
    have hresult : result = .success := some.inj hsuccess
    refine ⟨⟨q, hread hresult b hb⟩, ?_⟩
    -- the rank's round of this number is the second one of its close
    obtain ⟨r, hr, -⟩ := (answer_spec hall).2 b hb
    have hpair := hi.paired a (hi.rank_lt ht) b hb q' _ r hq' hr
    cases hk : r.kind with
    | second q₁ => exact ((hi.ranks b).second q' q₁ r.data (by rw [hr, ← hk])).1
    | _ => rw [hk] at hpair; cases hpair
  next => cases h

/-- A round ends otherwise. -/
theorem fails_spec (h : fails (s a) t = some x') : ∃ call, Learns n s t call (s a) x' := by
  have hx := hi.ranks a
  -- a split that fails drops its reference
  have hrelease (hbusy : (s a).busy = some t) :
      Learns n s t none (s a) (({ s a with busy := none, failed := true } : Comm).release t) := by
    have hturn : Turn t none (s a) (({ s a with busy := none, failed := true } : Comm).release t) :=
      ⟨rfl, rfl, .inr hbusy, .inl rfl, id, id⟩
    exact ⟨hturn, hx.release hturn, nofun, .inl rfl, fun p hp => .inl hp⟩
  unfold fails at h
  split at h
  next color key q ht =>
    cases h
    exact ⟨_, hrelease (hx.calls t _ ht).1⟩
  next q q' members rank result ht =>
    cases h
    exact ⟨_, hrelease (hx.calls t _ ht).1⟩
  next destroy result q ht =>
    cases h
    obtain ⟨hlock, -, hbusy, -⟩ := hx.calls t _ ht
    have hturn : Turn t (some (.closed destroy (result.first .remoteError))) (s a)
        { ({ s a with busy := none, failed := true } : Comm).close t destroy (result.first .remoteError) with stopped := true } :=
      ⟨rfl, rfl, .inr hbusy, .inr (.inl hlock), id, fun _ => rfl⟩
    refine ⟨_, hturn, hx.close hturn, ?_, .inr fun hno => ?_, fun p hp => .inl hp⟩
    · rintro c ⟨⟩
      trivial
    · exact absurd (some.inj hno) first_remoteError
  next destroy result q q' ht =>
    cases h
    obtain ⟨hlock, -, -, hbusy, -⟩ := hx.calls t _ ht
    have hturn : Turn t (some (.closed destroy (result.first .remoteError))) (s a)
        (({ s a with busy := none, failed := true } : Comm).close t destroy (result.first .remoteError)) :=
      ⟨rfl, rfl, .inr hbusy, .inr (.inl hlock), id, id⟩
    refine ⟨_, hturn, hx.close hturn, ?_, .inr fun hno => ?_, fun p hp => .inl hp⟩
    · rintro c ⟨⟩
      trivial
    · exact absurd (some.inj hno) first_remoteError
  next => cases h

/-- A section that only sets the thread's call, to one that rests on nothing. -/
theorem learns_of_call (hturn : Turn t call (s a) x') (hfits : ∀ c, call = some c → c.Fits x' t ∧ c.inSplit = false ∧ c.Knows n s)
    (hclosed : x'.closeResult = (s a).closeResult) (hjoined : x'.joined = (s a).joined) : Learns n s t call (s a) x' where
  turn := hturn
  keeps := (hi.ranks a).turn hturn (fun c hc => (hfits c hc).1) fun c hc hin => by simp [(hfits c hc).2.1] at hin
  knows c hc := (hfits c hc).2.2
  closed := .inl hclosed
  joined _ hp := .inl (hjoined ▸ hp)

/-- A section that changes no call. -/
theorem learns_of_flags (t : ℕ) (hturn : ∀ u, Turn u ((s a).threads u) (s a) x')
    (hclosed : x'.closeResult = (s a).closeResult) (hjoined : x'.joined = (s a).joined) : Learns n s t ((s a).threads t) (s a) x' where
  turn := hturn t
  keeps := (hi.ranks a).turn (hturn t)
    (fun c hc => (hturn (t + 1)).fits (Nat.lt_succ_self t).ne ((hi.ranks a).calls t c hc)) fun c hc hin => ⟨c, hc, hin⟩
  knows c hc := (hi.known a).calls t c hc
  closed := .inl hclosed
  joined _ hp := .inl (hjoined ▸ hp)

/-- A close takes the close lock. -/
theorem quiesce_spec {synced async : NcclResult} (h : quiesce (s a) t synced async = some x') : ∃ call, Learns n s t call (s a) x' := by
  unfold quiesce at h
  obtain ⟨hlock, h⟩ := Option.ite_none_left_eq_some.mp h
  rw [not_not] at hlock
  split at h
  next destroy ht =>
    by_cases hq : (s a).quiesced = true
    · rw [if_pos hq] at h
      obtain ⟨result, -, rfl⟩ := map_eq_some_iff.mp h
      refine ⟨_, learns_of_call hi ⟨rfl, rfl, .inl rfl, .inl rfl, id, id⟩ ?_ rfl rfl⟩
      rintro c ⟨⟩
      exact ⟨trivial, rfl, trivial⟩
    rw [if_neg hq, some.injEq] at h
    subst h
    refine ⟨_, learns_of_call hi ⟨rfl, rfl, .inl rfl, .inr (.inr hlock), fun _ => rfl, id⟩ ?_ rfl rfl⟩
    rintro c ⟨⟩
    exact ⟨⟨rfl, rfl, (hi.ranks a).quiet (Bool.eq_false_iff.mpr hq)⟩, rfl, trivial⟩
  next => cases h

/-- A finalize or destroy returns. -/
theorem returns_spec (h : returns (s a) t = some x') : ∃ call, Learns n s t call (s a) x' := by
  unfold returns at h
  split at h
  · cases h
    exact ⟨none, learns_of_call hi ⟨rfl, rfl, .inl rfl, .inl rfl, id, id⟩ nofun rfl rfl⟩
  · cases h
    exact ⟨none, learns_of_call hi ⟨rfl, rfl, .inl rfl, .inl rfl, id, id⟩ nofun rfl rfl⟩
  · cases h

/-- A step of a rank either begins a round or learns what its thread has read. -/
theorem step_spec (hstep : InStep n s act) (h : step n s act = some s') : ∃ a t x', s' = update s a x' ∧ a < n ∧
      ((∃ call, Learns n s t call (s a) x') ∨ Local x' ∧ ∃ kind data c, x' = (s a).begin t kind data c ∧ c.Knows n s ∧
          ∀ b < n, ∀ round : Round, (s b).rounds[(s a).rounds.length]? = some round → round.kind.closeRound = kind.closeRound) := by
  cases act with
  | commSplit a t color key noOutput | commFinalize a t flushed | dispose a t abort =>
    simp only [step] at h
    split_ifs at h with hok
    cases h
    refine ⟨a, t, _, rfl, hok.1, .inl ⟨_, learns_of_call hi ⟨rfl, rfl, .inl rfl, .inl rfl, id, id⟩ ?_ rfl rfl⟩⟩
    rintro c ⟨⟩
    exact ⟨trivial, rfl, trivial⟩
  | alone a t =>
    simp only [step] at h
    split at h
    next abort ht =>
      split_ifs at h with hrefs
      · cases h
        exact ⟨a, t, _, rfl, hi.rank_lt ht,
          .inl ⟨none, learns_of_call hi ⟨rfl, rfl, .inl rfl, .inl rfl, id, id⟩ nofun rfl rfl⟩⟩
      cases h
      refine ⟨a, t, _, rfl, hi.rank_lt ht, .inl ⟨_, learns_of_call hi ⟨rfl, rfl, .inl rfl, .inl rfl, id, id⟩ ?_ rfl rfl⟩⟩
      rintro c ⟨⟩
      exact ⟨trivial, rfl, trivial⟩
    next => cases h
  | quiesce a t synced async =>
    obtain ⟨x', hx', rfl⟩ := map_eq_some_iff.mp h
    exact ⟨a, t, x', rfl, hi.lt_of_thread t fun ht => by simp [quiesce, ht] at hx', .inl (quiesce_spec hi hx')⟩
  | allgather a t created =>
    obtain ⟨x', hx', rfl⟩ := map_eq_some_iff.mp h
    obtain ⟨hbegins, hlocal⟩ := allgather_spec (hi.ranks a) hx' fun hcolors => (hstep _ hcolors).2 rfl
    refine ⟨a, t, x', rfl, hi.lt_of_thread t fun ht => by simp [allgather, ht] at hx', ?_⟩
    cases hbegins with
    | @round kind data old c hkind hold hnext =>
      exact .inr ⟨hlocal, kind, data, c, rfl, ((hi.known a).calls t old hold).next hnext, (hstep kind hkind).1⟩
    | releases hturn hclosed hjoined =>
      exact .inl ⟨none, hturn, hlocal, nofun, .inl hclosed, fun p hp => .inl (hjoined ▸ hp)⟩
    | closes hturn hresult hclosed hjoined =>
      refine .inl ⟨_, hturn, hlocal, ?_, .inr fun hsuccess => ?_, fun p hp => .inl (hjoined ▸ hp)⟩
      · rintro c ⟨⟩
        trivial
      · rw [hclosed, some.injEq] at hsuccess
        exact absurd hsuccess hresult
  | arrives a t =>
    obtain ⟨x', hx', rfl⟩ := map_eq_some_iff.mp h
    exact ⟨a, t, x', rfl, hi.lt_of_thread t fun ht => by simp [arrives, ht] at hx', .inl (arrives_spec hi hx')⟩
  | fails a t =>
    obtain ⟨x', hx', rfl⟩ := map_eq_some_iff.mp h
    exact ⟨a, t, x', rfl, hi.lt_of_thread t fun ht => by simp [fails, ht] at hx', .inl (fails_spec hi hx')⟩
  | returns a t =>
    obtain ⟨x', hx', rfl⟩ := map_eq_some_iff.mp h
    exact ⟨a, t, x', rfl, hi.lt_of_thread t fun ht => by simp [returns, ht] at hx', .inl (returns_spec hi hx')⟩
  | asyncError a result | revoke a =>
    simp only [step] at h
    split_ifs at h with hok
    cases h
    exact ⟨a, 0, _, rfl, hok.1, .inl ⟨_, learns_of_flags hi 0
      (fun u => ⟨(update_eq_self ..).symm, rfl, .inl rfl, .inl rfl, id, id⟩) rfl rfl⟩⟩

end

/-- Only one rank changes. -/
theorem grows_update (h : Advance (s a) x') : Grows s (update s a x') := by
  intro b
  by_cases hb : b = a
  · subst hb
    rw [update_self]
    exact h
  · rw [update_of_ne hb]
    exact ⟨fun _ _ hi => hi, id⟩

/-- A step whose rounds are in step keeps the invariant. -/
theorem Inv.step (hi : Inv n s) (hstep : InStep n s act) (h : step n s act = some s') : Inv n s' := by
  obtain ⟨a, t, x', rfl, ha, hcase⟩ := step_spec hi hstep h
  have houtside : ∀ b, n ≤ b → ∀ t, (update s a x' b).threads t = none := by
    intro b hb u
    rw [update_of_ne (by omega)]
    exact hi.outside b hb u
  obtain ⟨call, hlearns⟩ | ⟨hlocal, kind, data, c, rfl, hknows, hmeets⟩ := hcase
  · have hg : Grows s (update s a x') := grows_update hlearns.turn.advance
    have hrounds (b : ℕ) : (update s a x' b).rounds = (s b).rounds := by
      by_cases hb : b = a
      · rw [hb, update_self, hlearns.turn.rounds]
      · rw [update_of_ne hb]
    constructor
    case ranks =>
      intro b
      by_cases hb : b = a
      · rw [hb, update_self]
        exact hlearns.keeps
      · rw [update_of_ne hb]
        exact hi.ranks b
    case known =>
      intro b
      by_cases hb : b = a
      · rw [hb, update_self]
        exact (hlearns.known (hi.known a)).mono hg
      · rw [update_of_ne hb]
        exact (hi.known b).mono hg
    case paired =>
      intro b hb b' hb' q r r' hr hr'
      rw [hrounds] at hr hr'
      exact hi.paired b hb b' hb' q r r' hr hr'
    case outside => exact houtside
  · have hg : Grows s (update s a ((s a).begin t kind data c)) := grows_update advance_begin
    constructor
    case ranks =>
      intro b
      by_cases hb : b = a
      · rw [hb, update_self]
        exact hlocal
      · rw [update_of_ne hb]
        exact hi.ranks b
    case known =>
      intro b
      by_cases hb : b = a
      · subst hb
        rw [update_self]
        have hk := (hi.known b).mono hg
        refine ⟨fun u c' hc => ?_, hk.closed, hk.joined⟩
        by_cases hu : u = t
        · subst hu
          rw [show ((s b).begin u kind data c).threads = update (s b).threads u (some c) from rfl,
            update_self, some.injEq] at hc
          exact hc ▸ hknows.mono hg
        rw [show ((s b).begin t kind data c).threads = update (s b).threads t (some c) from rfl,
          update_of_ne hu] at hc
        exact hk.calls u c' hc
      · rw [update_of_ne hb]
        exact (hi.known b).mono hg
    case paired =>
      -- the new round meets the rounds of its number, and its own rank's earlier rounds are as they were
      have hnew (b : ℕ) (hb : b < n) (q : ℕ) (r : Round)
          (hr : (update s a ((s a).begin t kind data c) b).rounds[q]? = some r) :
          (s b).rounds[q]? = some r ∨ b = a ∧ q = (s a).rounds.length ∧ r.kind = kind := by
        by_cases hba : b = a
        · subst hba
          rw [update_self] at hr
          obtain hold | ⟨hq, rfl⟩ := getElem?_append_round hr
          · exact .inl hold
          · exact .inr ⟨rfl, hq, rfl⟩
        · rw [update_of_ne hba] at hr
          exact .inl hr
      intro b hb b' hb' q r r' hr hr'
      obtain hold | ⟨rfl, rfl, hk⟩ := hnew b hb q r hr
      · obtain hold' | ⟨rfl, rfl, hk'⟩ := hnew b' hb' q r' hr'
        · exact hi.paired b hb b' hb' q r r' hold hold'
        · rw [hk', hmeets b hb r hold]
      obtain hold' | ⟨-, -, hk'⟩ := hnew b' hb' _ r' hr'
      · rw [hk, hmeets b' hb' r' hold']
      · rw [hk, hk']
    case outside => exact houtside

theorem Inv.init (n : ℕ) : Inv n init where
  ranks _ := .init
  known _ := by
    constructor
    case calls => exact fun t c h => absurd h (by simp [CommGroup.init, Comm.init])
    case closed => exact fun h => absurd h (by simp [CommGroup.init, Comm.init])
    case joined => exact fun p hp => absurd hp (by simp [CommGroup.init, Comm.init])
  paired a _ b _ q r r' hr := by simp [CommGroup.init, Comm.init] at hr
  outside _ _ _ := rfl

/-- The invariant holds in every state of a run whose rounds are in step. -/
theorem Inv.of_reachable (h : Reachable (CommGroup.step n) (InStep n) CommGroup.init s) : Inv n s :=
  h.invariant (Inv n) (Inv.init n) fun _ _ _ _ hs hg ha => hs.step hg ha

end SparkRing.CommGroup
