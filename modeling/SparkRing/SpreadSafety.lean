import Mathlib.Data.List.Dedup
import Mathlib.Data.List.TakeWhile
import SparkRing.SpreadWays

/-!
# Spreads

The chains of a request are valid and no Spark is a hop twice. A Spark that lacks something is
reached exactly where its assigned way is clear, so a Spark that no chain reaches is blocked both
ways unless its assigned way alone is stopped by a Spark that nothing goes on over.
-/

namespace SparkRing.Spread

variable {layout : Layout} {request : Request} {d : Direction} {p : ℕ} {chains : List Pipeline} {unreached : List ℕ}

theorem trail_walkFrom {source limit here port : ℕ} {blocked : ℕ × ℕ → Bool} :
    layout.Trail here (walkFrom layout source blocked limit here port) := by
  induction limit generalizing here port with
  | zero => trivial
  | succ limit ih =>
    rw [walkFrom]
    split
    next far cable hfar hcable =>
      split
      · trivial
      · exact ⟨⟨port, far, hfar, rfl, hcable⟩, ih⟩
    · trivial

theorem mem_taken : p ∈ ((request.walk layout d).takeWhile (request.taken layout d)).map Prod.fst ↔
    ∃ i c, (layout.way request.source d)[i]? = some (p, c) ∧
      ∀ step ∈ (layout.way request.source d).take (i + 1), request.taken layout d step = true ∧ request.passes layout step = true := by
  rw [walk_eq, List.takeWhile_takeWhile, List.mem_map]
  constructor
  · rintro ⟨⟨_, c⟩, hstep, rfl⟩
    obtain ⟨i, hi⟩ := List.mem_iff_getElem?.mp hstep
    obtain ⟨hway, hall⟩ := getElem?_takeWhile.mp hi
    exact ⟨i, c, hway, fun step hmem => of_decide_eq_true (hall step hmem)⟩
  · rintro ⟨i, c, hway, hall⟩
    exact ⟨(p, c), List.mem_of_getElem? (getElem?_takeWhile.mpr ⟨hway, fun step hmem => decide_eq_true (hall step hmem)⟩), rfl⟩

section

variable (h : p ∈ (request.follow layout d (request.walk layout d) request.source [] none).flatMap Pipeline.hops)

include h

/-- A way's hops are steps taken of its walk. -/
theorem mem_taken_of_follow : p ∈ ((request.walk layout d).takeWhile (request.taken layout d)).map Prod.fst := by
  simpa using (follow_sublist request.source [] none).subset h

theorem nearest_of_follow : request.nearest layout p = some d := by
  obtain ⟨i, c, hway, hall⟩ := mem_taken.mp (mem_taken_of_follow h)
  have hstep := (hall (p, c) (List.mem_of_getElem? (i := i) (by rw [List.getElem?_take_of_lt (Nat.lt_succ_self i), hway]))).1
  rw [Request.taken, Bool.and_eq_true, decide_eq_true_eq] at hstep
  exact hstep.1

end

theorem mem_found {position : ℕ} : position ∈ (request.found layout).flatMap Pipeline.hops ↔
    ∃ d, position ∈ (request.follow layout d (request.walk layout d) request.source [] none).flatMap Pipeline.hops := by
  rw [Request.found, List.flatMap_assoc, List.mem_flatMap]
  constructor
  · rintro ⟨d, -, h⟩
    exact ⟨d, h⟩
  · rintro ⟨d, h⟩
    exact ⟨d, by cases d <;> simp, h⟩

/-- A Spark that lacks something is reached where its assigned way is clear. -/
theorem reached_iff (hsource : request.source < layout.size) (hwants : request.wants p = true) :
    p ∈ (request.found layout).flatMap Pipeline.hops ↔ ∃ d, request.nearest layout p = some d ∧ Clear layout request d p := by
  rw [mem_found]
  constructor
  · rintro ⟨d, h⟩
    obtain ⟨i, c, hway, hall⟩ := mem_taken.mp (mem_taken_of_follow h)
    refine ⟨d, nearest_of_follow h, i, c, hway, fun step hstep => (hall step hstep).2, fun step hstep => ?_⟩
    have htaken := (hall step (List.take_subset_take_left _ (Nat.le_succ i) hstep)).1
    rw [Request.taken, Bool.and_eq_true] at htaken
    exact htaken.2
  rintro ⟨d, hnear, i, c, hway, hpasses, hgated⟩
  refine ⟨d, follow_reaches request.source [] none (.inr ⟨mem_taken.mpr ⟨i, c, hway, fun step hstep => ⟨?_, hpasses step hstep⟩⟩, hwants⟩)⟩
  rw [Request.taken, Bool.and_eq_true, decide_eq_true_eq]
  obtain ⟨k, hk⟩ := List.mem_iff_getElem?.mp hstep
  rw [List.getElem?_take] at hk
  split at hk
  next hle =>
    rcases Nat.lt_succ_iff_lt_or_eq.mp hle with hlt | rfl
    · exact ⟨nearest_before hsource hway hnear hlt hk, hgated step (List.mem_of_getElem? (i := k) (by rw [List.getElem?_take_of_lt hlt, hk]))⟩
    rw [hway] at hk
    cases hk
    exact ⟨hnear, by rw [Request.gated, hwants]; rfl⟩
  · cases hk

/-- What a spread promises. -/
structure Spreads (layout : Layout) (request : Request) (chains : List Pipeline) (unreached : List ℕ) : Prop where
  /-- Every chain is a path of live members from a holder to a Spark that lacks something. -/
  valid : ∀ chain ∈ chains, chain.Valid layout request
  /-- No Spark is a hop twice. -/
  once : (chains.flatMap Pipeline.hops).Nodup
  /-- A hop is reached over an open way, the preferred one of two. -/
  ways : ∀ chain ∈ chains, ∀ p ∈ chain.hops, Open layout request chain.direction p ∧
    (Open layout request .next p → Open layout request .previous p → chain.direction = preferred layout request p)
  /-- Those listed as unreached lack something and are no hop. -/
  listed : ∀ p, p ∈ unreached ↔ request.wants p = true ∧ p ∉ chains.flatMap Pipeline.hops
  /-- No way is clear to a Spark listed as unreached. -/
  blocked : ∀ p ∈ unreached, ∀ d, ¬Clear layout request d p

theorem Clear.open (h : Clear layout request d p) : Open layout request d p := by
  obtain ⟨i, c, hway, hpasses, -⟩ := h
  exact ⟨i, c, hway, hpasses⟩

/-- What the chains of any request keep. -/
theorem chains_ok (hsource : request.source < layout.size) (h : request.chains layout = .ok (chains, unreached)) :
    chains = request.found layout ∧ (∀ chain ∈ chains, chain.Valid layout request) ∧ (chains.flatMap Pipeline.hops).Nodup ∧
      (∀ chain ∈ chains, ∀ p ∈ chain.hops, request.nearest layout p = some chain.direction) ∧
      ∀ p, p ∈ unreached ↔ request.wants p = true ∧ p ∉ chains.flatMap Pipeline.hops := by
  unfold Request.chains at h
  split at h
  · cases h
  next hlive =>
    rw [Bool.not_eq_false] at hlive
    cases h
    have hvalid : ∀ d, ∀ chain ∈ request.follow layout d (request.walk layout d) request.source [] none,
        chain.Valid layout request ∧ chain.direction = d := by
      intro d
      have hdead : request.source ∉ request.dead := by
        rw [Request.live, Bool.and_eq_true, decide_eq_true_eq] at hlive
        exact hlive.2
      refine valid_of_follow [] [] request.source none _ rfl ⟨rfl, rfl⟩ rfl trail_walkFrom (fun step hstep => ?_)
        ⟨by simp [Request.holds, hdead], hlive⟩ (fun _ hno => nomatch hno) (fun _ hno => nomatch hno)
      have hwalk : step ∈ request.walk layout d := hstep
      rw [walk_eq] at hwalk
      exact List.mem_takeWhile_imp hwalk
    refine ⟨rfl, fun chain hchain => ?_, ?_, fun chain hchain p hp => ?_, fun p => ?_⟩
    · obtain ⟨d, -, hchain⟩ := List.mem_flatMap.mp hchain
      exact (hvalid d chain hchain).1
    · have hnodup : ∀ d, ((request.follow layout d (request.walk layout d) request.source [] none).flatMap Pipeline.hops).Nodup := by
        intro d
        refine ((follow_sublist request.source [] none).trans ?_).nodup (opposed hsource d).first
        rw [walk_eq]
        simpa using ((List.takeWhile_sublist _).trans (List.takeWhile_sublist _)).map Prod.fst
      rw [Request.found, List.flatMap_cons, List.flatMap_cons, List.flatMap_nil, List.append_nil, List.flatMap_append]
      refine (hnodup .next).append (hnodup .previous) fun p hnext hprevious => ?_
      cases (nearest_of_follow hnext).symm.trans (nearest_of_follow hprevious)
    · obtain ⟨d, -, hchain⟩ := List.mem_flatMap.mp hchain
      rw [(hvalid d chain hchain).2]
      exact nearest_of_follow (List.mem_flatMap.mpr ⟨chain, hchain, hp⟩)
    rw [List.mem_filter, decide_eq_true_eq, Request.wanting, List.mem_insertionSort, List.mem_dedup, List.mem_filter]
    refine and_congr_left fun _ => ⟨And.right, fun hwants => ⟨?_, hwants⟩⟩
    rw [Request.wants, Bool.and_eq_true, List.any_eq_true] at hwants
    obtain ⟨-, need, hneed, hsame⟩ := hwants
    rw [Bool.and_eq_true, beq_iff_eq] at hsame
    exact List.mem_map.mpr ⟨need, hneed, hsame.2⟩

/-- A spread keeps what it promises where, of two ways open to a Spark that lacks something, the preferred one is clear if
one is. -/
theorem spreads_iff (hsource : request.source < layout.size) (h : request.chains layout = .ok (chains, unreached)) :
    Spreads layout request chains unreached ↔ ∀ p, request.wants p = true → Open layout request .next p →
      Open layout request .previous p → (∃ d, Clear layout request d p) → Clear layout request (preferred layout request p) p := by
  obtain ⟨rfl, hvalid, honce, hnearest, hlisted⟩ := chains_ok hsource h
  have hassigned : ∀ p, Open layout request .next p → Open layout request .previous p →
      request.nearest layout p = some (preferred layout request p) := by
    intro p hnext hprevious
    refine (nearest_iff hsource).mpr ⟨?_, fun _ => rfl⟩
    cases preferred layout request p with
    | next => exact hnext
    | previous => exact hprevious
  constructor
  · intro hspreads p hwants hnext hprevious ⟨d, hclear⟩
    by_contra hstopped
    refine hspreads.blocked p ((hlisted p).mpr ⟨hwants, fun hreached => ?_⟩) d hclear
    obtain ⟨d', hnear, hclear'⟩ := (reached_iff hsource hwants).mp hreached
    rw [hassigned p hnext hprevious] at hnear
    cases hnear
    exact hstopped hclear'
  intro hcond
  refine ⟨hvalid, honce, fun chain hchain p hp => ?_, hlisted, fun p hp d hclear => ?_⟩
  · have hnear := hnearest chain hchain p hp
    refine ⟨((nearest_iff hsource).mp hnear).1, fun hnext hprevious => ?_⟩
    rw [hassigned p hnext hprevious] at hnear
    exact (Option.some.inj hnear).symm
  obtain ⟨hwants, hnot⟩ := (hlisted p).mp hp
  refine hnot ((reached_iff hsource hwants).mpr ?_)
  by_cases hother : Open layout request d.other p
  · have hboth : Open layout request .next p ∧ Open layout request .previous p := by
      cases d with
      | next => exact ⟨hclear.open, hother⟩
      | previous => exact ⟨hother, hclear.open⟩
    exact ⟨_, hassigned p hboth.1 hboth.2, hcond p hwants hboth.1 hboth.2 ⟨d, hclear⟩⟩
  · exact ⟨d, (nearest_iff hsource).mpr ⟨hclear.open, fun hno => absurd hno hother⟩, hclear⟩

def four : Layout := ⟨.cycle, 4, by decide, by decide⟩

/-- The Spark across the cycle lacks something, and some Sparks forward. -/
def across (relays : Option (List ℕ)) : Request := ⟨0, [(2, true)], none, [], relays, [], [], []⟩

/-- Where every Spark forwards, the Spark across is reached the way that goes next. -/
theorem four_spreads : Spreads four (across none) [⟨.next, 0, [1, 2], [0, 1]⟩] [] := by
  refine (@spreads_iff four (across none) _ _ (by decide) (by decide +kernel)).mpr fun p hwants _ _ _ => ?_
  obtain rfl : 2 = p := by
    rw [Request.wants, Bool.and_eq_true] at hwants
    simpa [across] using hwants.2
  exact ⟨1, 1, by decide +kernel, by decide +kernel, by decide +kernel⟩

/-- Where only the third Spark forwards, the Spark across is assigned the way over the first one and is not reached, though
the other way is clear. -/
theorem four_unreached : ¬∀ layout request chains unreached, request.source < layout.size → request.chains layout = .ok (chains, unreached) →
    Spreads layout request chains unreached := by
  intro hall
  have hspreads := hall four (across (some [3])) [] [2] (by decide) (by decide +kernel)
  exact hspreads.blocked 2 (by decide) .previous ⟨1, 2, by decide +kernel, by decide +kernel, by decide +kernel⟩

end SparkRing.Spread
