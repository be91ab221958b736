import Mathlib.Algebra.Order.BigOperators.Group.Finset
import SparkRing.SplitOutcome

/-!
# Splits in step

Whatever the order of the rounds, a rank whose handle did not fail has begun exactly two of them
when its split returns, and returns with what the colors, keys and created IDs determine. While
no handle has failed, every rank's split returns.
-/

namespace SparkRing.CommSplit

open SparkRing.CommGroup (Word NcclResult UniqueId noColor)
open TransitionSystem (Reachable Unrestricted Inevitable)
open Function
open Option (map_eq_some_iff some.inj)

variable {n a : ℕ} {requests : ℕ → Request} {created : ℕ → Created} {s s' : State} {x x' : Member} {act : Act}

theorem Local.start : Local n requests created a .start := ⟨List.nil_prefix, rfl, rfl⟩

/-- A rank with a color that may be passed goes on to its first round. -/
theorem Local.call (hcolor : ¬(requests a).color.toInt < noColor.toInt) (hx : Local n requests created a x) (h : x.call (requests a) = some x') :
    Local n requests created a x' := by
  obtain ⟨phase, rounds, failed⟩ := x
  obtain ⟨hrounds, hphase⟩ := hx
  cases phase with
  | calls =>
    obtain rfl := some.inj h
    refine ⟨hrounds, ?_⟩
    rw [if_neg hcolor]
    exact hphase
  | _ => cases h

/-- A rank contributes the next of its records. -/
theorem Local.allgather (hx : Local n requests created a x) (h : x.allgather (requests a) (created a) = some x') :
    Local n requests created a x' := by
  obtain ⟨phase, rounds, failed⟩ := x
  obtain ⟨⟨rest, hrest⟩, hphase⟩ := hx
  cases phase with
  | splits =>
    obtain ⟨hfailed, hlength⟩ := hphase
    subst hfailed
    rw [List.length_eq_zero_iff] at hlength
    subst hlength
    obtain rfl := some.inj h
    exact ⟨⟨[(idTurn n requests created a).1.val], rfl⟩, rfl, rfl⟩
  | grouped =>
    obtain ⟨hfailed, hlength, rfl, rfl⟩ := hphase
    subst hfailed
    obtain ⟨record, rfl⟩ := List.length_eq_one_iff.mp hlength
    obtain rfl := some.inj h
    obtain ⟨rfl, -⟩ := hrest
    exact ⟨⟨[], rfl⟩, rfl, rfl, rfl, rfl, rfl⟩
  | _ => cases h

/-- A rank that gets an answer finds its place, and then what it is to get. -/
theorem Local.arrives (hall : ∀ b < n, Local n requests created b (s b)) (ha : a < n) (h : (s a).arrives n a (requests a) (answer n s) = some x') :
    Local n requests created a x' := by
  have hx := hall a ha
  generalize s a = x at h hx
  obtain ⟨phase, rounds, failed⟩ := x
  obtain ⟨hrounds, hphase⟩ := hx
  cases phase with
  | colors =>
    obtain ⟨hfailed, hlength⟩ := hphase
    obtain ⟨all, hanswer, rfl⟩ := map_eq_some_iff.mp h
    rw [answer_eq hall hanswer]
    refine ⟨hrounds, ?_⟩
    have hcolors : afterColors n a (requests a).color ((List.range n).map fun b => (contributions n requests created b).getD 0 []) =
        .grouped (part n requests (requests a).color) (rankIn (part n requests (requests a).color) a) := by
      unfold afterColors
      rw [if_neg]
      · exact congrArg (fun members => Phase.grouped members (rankIn members a)) (membersOf_flatten (requests a).color)
      rintro ⟨r, hr, hlength⟩
      rw [getD_map_range hr] at hlength
      exact hlength rfl
    rw [hcolors]
    exact ⟨hfailed, hlength, rfl, rfl⟩
  | ids members rank result =>
    obtain ⟨hfailed, hlength, rfl, rfl, rfl⟩ := hphase
    obtain ⟨all, hanswer, rfl⟩ := map_eq_some_iff.mp h
    rw [answer_eq hall hanswer]
    refine ⟨hrounds, ?_⟩
    obtain ⟨result, join, hreturned, houtcome⟩ :
        ∃ result join, afterIds n (part n requests (requests a).color) (rankIn (part n requests (requests a).color) a)
          (idTurn n requests created a).2 ((List.range n).map fun b => (idTurn n requests created b).1.val) = .returned result join ∧
          (result, join) = outcome n requests created a := afterIds_eq ha
    rw [show ((List.range n).map fun b => (contributions n requests created b).getD 1 []) =
      (List.range n).map fun b => (idTurn n requests created b).1.val from rfl, hreturned]
    exact fun _ => ⟨hlength, houtcome⟩
  | _ => cases h

theorem Local.fails {failure : ExchangeFailure} (hx : Local n requests created a x) (h : x.fails failure = some x') :
    Local n requests created a x' := by
  obtain ⟨phase, rounds, failed⟩ := x
  cases phase with
  | colors | ids =>
    obtain rfl := some.inj h
    exact ⟨hx.rounds, nofun⟩
  | _ => cases h

theorem step_cases (h : step n requests created s act = some s') :
    act.rank < n ∧ ∃ x, turn n requests created s act = some x ∧ s' = update s act.rank x := by
  unfold step at h
  split at h
  case isTrue hrank =>
    obtain ⟨x, hx, hs'⟩ := map_eq_some_iff.mp h
    exact ⟨hrank, x, hx, hs'.symm⟩
  case isFalse => cases h

/-- A section keeps what holds of every rank. -/
theorem local_step (hcolors : ∀ a < n, ¬(requests a).color.toInt < noColor.toInt) (hall : ∀ a < n, Local n requests created a (s a))
    (h : step n requests created s act = some s') : ∀ a < n, Local n requests created a (s' a) := by
  obtain ⟨hrank, x, hx, rfl⟩ := step_cases h
  intro a ha
  by_cases hact : a = act.rank
  · subst hact
    rw [update_self]
    cases act with
    | call a => exact (hall a ha).call (hcolors a ha) hx
    | allgather a => exact (hall a ha).allgather hx
    | arrives => exact Local.arrives hall ha hx
    | fails a failure => exact (hall a ha).fails hx
  · rw [update_of_ne hact]
    exact hall a ha

theorem local_of_reachable (hcolors : ∀ a < n, ¬(requests a).color.toInt < noColor.toInt)
    (h : Reachable (step n requests created) Unrestricted start s) : ∀ a < n, Local n requests created a (s a) :=
  Reachable.invariant (fun s => ∀ a < n, Local n requests created a (s a)) h (fun _ _ => Local.start) fun _ _ _ _ hall _ hstep => by
    exact local_step hcolors hall hstep

/-- Sections left to a split. -/
def Phase.left : Phase → ℕ
  | .calls => 5
  | .splits => 4
  | .colors => 3
  | .grouped .. => 2
  | .ids .. => 1
  | .returned .. => 0

/-- A section that is no failure. -/
def Act.Regular : Act → Prop
  | .fails .. => False
  | _ => True

/-- Every rank's split returned, and no handle failed. -/
def Settled (n : ℕ) (s : State) : Prop := ∀ a < n, (s a).failed = false ∧ ∃ result join, (s a).phase = .returned result join

theorem call_left (h : x.call (requests a) = some x') : x'.phase.left < x.phase.left ∧ x'.failed = x.failed := by
  obtain ⟨phase, rounds, failed⟩ := x
  cases phase with
  | calls =>
    obtain rfl := some.inj h
    dsimp only
    split_ifs <;> exact ⟨by decide, rfl⟩
  | _ => cases h

theorem allgather_left {c : Created} (h : x.allgather (requests a) c = some x') : x'.phase.left < x.phase.left ∧ x'.failed = x.failed := by
  obtain ⟨phase, rounds, failed⟩ := x
  unfold Member.allgather at h
  cases phase with
  | splits | grouped =>
    split_ifs at h <;> cases h <;> exact ⟨by simp [Phase.left], rfl⟩
  | _ => cases h

theorem arrives_left {answer : ℕ → Option (List (List Word))} (h : x.arrives n a (requests a) answer = some x') :
    x'.phase.left < x.phase.left ∧ x'.failed = x.failed := by
  obtain ⟨phase, rounds, failed⟩ := x
  cases phase with
  | colors =>
    obtain ⟨all, _, rfl⟩ := map_eq_some_iff.mp h
    unfold afterColors
    split_ifs <;> exact ⟨by simp [Phase.left], rfl⟩
  | ids =>
    obtain ⟨all, _, rfl⟩ := map_eq_some_iff.mp h
    unfold afterIds
    dsimp only
    split_ifs <;> exact ⟨by simp [Phase.left], rfl⟩
  | _ => cases h

/-- A regular section leaves less to do, and every handle as it is. -/
theorem step_left (hregular : act.Regular) (h : step n requests created s act = some s') :
    (∑ a ∈ Finset.range n, (s' a).phase.left) < ∑ a ∈ Finset.range n, (s a).phase.left ∧ ∀ a, (s' a).failed = (s a).failed := by
  obtain ⟨hrank, x, hx, rfl⟩ := step_cases h
  have hone : x.phase.left < (s act.rank).phase.left ∧ x.failed = (s act.rank).failed := by
    cases act with
    | call => exact call_left hx
    | allgather => exact allgather_left hx
    | arrives => exact arrives_left hx
    | fails => exact hregular.elim
  constructor
  · refine Finset.sum_lt_sum (fun a _ => ?_) ⟨act.rank, Finset.mem_range.mpr hrank, ?_⟩
    · by_cases ha : a = act.rank
      · rw [ha, update_self]
        exact hone.1.le
      · rw [update_of_ne ha]
    · rw [update_self]
      exact hone.1
  intro a
  by_cases ha : a = act.rank
  · rw [ha, update_self]
    exact hone.2
  · rw [update_of_ne ha]

theorem answer_of_begun {q : ℕ} (h : ∀ a < n, q < (s a).rounds.length) : ∃ all, answer n s q = some all := ⟨_, if_pos h⟩

theorem exists_of_turn (act : Act) (hregular : act.Regular) (hrank : act.rank < n) (h : ∃ x, turn n requests created s act = some x) :
    ∃ act s', act.Regular ∧ step n requests created s act = some s' := by
  obtain ⟨x, hx⟩ := h
  refine ⟨act, update s act.rank x, hregular, ?_⟩
  rw [step, if_pos hrank, hx]
  rfl

/-- While a split has not returned and no handle has failed, some rank can go on. -/
theorem exists_step (hall : ∀ a < n, Local n requests created a (s a)) (hgood : ∀ a < n, (s a).failed = false)
    (hopen : ∃ a < n, (s a).phase.left ≠ 0) : ∃ act s', act.Regular ∧ step n requests created s act = some s' := by
  by_cases hcall : ∃ a < n, (s a).phase = .calls
  · obtain ⟨a, ha, hphase⟩ := hcall
    refine exists_of_turn (.call a) trivial ha ?_
    rw [turn, Member.call, hphase]
    exact ⟨_, rfl⟩
  by_cases hsplits : ∃ a < n, (s a).phase = .splits
  · obtain ⟨a, ha, hphase⟩ := hsplits
    refine exists_of_turn (.allgather a) trivial ha ?_
    rw [turn, Member.allgather, hphase, hgood a ha]
    exact ⟨_, rfl⟩
  by_cases hgrouped : ∃ a < n, ∃ members rank, (s a).phase = .grouped members rank
  · obtain ⟨a, ha, members, rank, hphase⟩ := hgrouped
    refine exists_of_turn (.allgather a) trivial ha ?_
    rw [turn, Member.allgather, hphase, hgood a ha]
    exact ⟨_, rfl⟩
  -- Every rank is in a round or has returned, so the first round that some rank waits for is answered.
  have hbegun : ∀ a < n, 0 < (s a).rounds.length ∧ ((s a).phase ≠ .colors → 1 < (s a).rounds.length) := by
    intro a ha
    have hphase := (hall a ha).phase
    cases hcase : (s a).phase with
    | calls => exact absurd ⟨a, ha, hcase⟩ hcall
    | splits => exact absurd ⟨a, ha, hcase⟩ hsplits
    | grouped members rank => exact absurd ⟨a, ha, members, rank, hcase⟩ hgrouped
    | colors =>
      rw [hcase] at hphase
      exact ⟨by rw [hphase.2]; exact one_pos, fun hne => absurd rfl hne⟩
    | ids =>
      rw [hcase] at hphase
      rw [hphase.2.1]
      exact ⟨Nat.two_pos, fun _ => Nat.one_lt_two⟩
    | returned =>
      rw [hcase] at hphase
      rw [(hphase (hgood a ha)).1]
      exact ⟨Nat.two_pos, fun _ => Nat.one_lt_two⟩
  by_cases hcolors : ∃ a < n, (s a).phase = .colors
  · obtain ⟨a, ha, hphase⟩ := hcolors
    obtain ⟨all, hanswer⟩ := answer_of_begun fun b hb => (hbegun b hb).1
    refine exists_of_turn (.arrives a) trivial ha ?_
    rw [turn, Member.arrives, hphase]
    rw [hanswer]
    exact ⟨_, rfl⟩
  obtain ⟨a, ha, hleft⟩ := hopen
  cases hcase : (s a).phase with
  | ids =>
    obtain ⟨all, hanswer⟩ := answer_of_begun fun b hb => (hbegun b hb).2 fun hphase => hcolors ⟨b, hb, hphase⟩
    refine exists_of_turn (.arrives a) trivial ha ?_
    rw [turn, Member.arrives, hcase]
    rw [hanswer]
    exact ⟨_, rfl⟩
  | calls => exact absurd ⟨a, ha, hcase⟩ hcall
  | splits => exact absurd ⟨a, ha, hcase⟩ hsplits
  | grouped members rank => exact absurd ⟨a, ha, members, rank, hcase⟩ hgrouped
  | colors => exact absurd ⟨a, ha, hcase⟩ hcolors
  | returned =>
    rw [hcase] at hleft
    exact absurd rfl hleft

/-- While no handle has failed, every split returns. -/
theorem settles (hcolors : ∀ a < n, ¬(requests a).color.toInt < noColor.toInt) (hall : ∀ a < n, Local n requests created a (s a))
    (hgood : ∀ a < n, (s a).failed = false) : Inevitable (step n requests created) Act.Regular (Settled n) s := by
  refine Inevitable.of_measure wellFounded_lt (fun s => ∑ a ∈ Finset.range n, (s a).phase.left)
    (I := fun s => (∀ a < n, Local n requests created a (s a)) ∧ ∀ a < n, (s a).failed = false) (fun s act s' hs hregular hstep => ?_)
    (fun s hs hopen => ?_) ⟨hall, hgood⟩
  · obtain ⟨hless, hfailed⟩ := step_left hregular hstep
    exact ⟨⟨local_step hcolors hs.1 hstep, fun a ha => (hfailed a).trans (hs.2 a ha)⟩, hless⟩
  have hleft : ∃ a < n, (s a).phase.left ≠ 0 := by
    by_contra hnone
    refine hopen fun a ha => ⟨hs.2 a ha, ?_⟩
    have hzero : (s a).phase.left = 0 := by
      by_contra hne
      exact hnone ⟨a, ha, hne⟩
    cases hcase : (s a).phase with
    | returned result join => exact ⟨result, join, rfl⟩
    | _ => rw [hcase] at hzero; cases hzero
  obtain ⟨act, s', hregular, hstep⟩ := exists_step hs.1 hs.2 hleft
  exact ⟨act, s', hregular, hstep⟩

/-- A split whose colors may all be passed partitions the ranks and keeps them in step: in every order
of its sections, with every result of the creations of IDs and rounds that may fail at any moment. -/
theorem split_partitions (n : ℕ) (requests : ℕ → Request) (created : ℕ → Created) (hcolors : ∀ a < n, ¬(requests a).color.toInt < noColor.toInt) :
    (∀ color, color ≠ noColor → Parted n requests color (part n requests color)) ∧
    ∀ s, Reachable (step n requests created) Unrestricted start s →
      (∀ a < n, ∀ result join, (s a).phase = .returned result join → (s a).failed = false →
        (s a).rounds.length = 2 ∧ (result, join) = outcome n requests created a) ∧
      (∀ a < n, ∀ members rank, ((s a).phase = .grouped members rank ∨ ∃ result, (s a).phase = .ids members rank result) →
        members = part n requests (requests a).color ∧ rank = rankIn members a) ∧
      ((∀ a < n, (s a).failed = false) → Inevitable (step n requests created) Act.Regular (Settled n) s) := by
  refine ⟨fun color hcolor => parted_part hcolor, fun s h => ?_⟩
  have hall := local_of_reachable hcolors h
  refine ⟨fun a ha result join hreturned hgood => ?_, fun a ha members rank hphase => ?_, settles hcolors hall⟩
  · have hphase := (hall a ha).phase
    rw [hreturned] at hphase
    exact hphase hgood
  have hlocal := (hall a ha).phase
  rcases hphase with hphase | ⟨result, hphase⟩
  · rw [hphase] at hlocal
    exact hlocal.2.2
  · rw [hphase] at hlocal
    exact ⟨hlocal.2.2.1, hlocal.2.2.2.1⟩

/-- Four ranks: the second leads the first of its color, the third has no color, the fourth is alone. -/
def fourRequests (a : ℕ) : Request := if a = 0 then ⟨1, 5⟩ else if a = 1 then ⟨1, 2⟩ else if a = 2 then ⟨noColor, 0⟩ else ⟨2, 0⟩

def sampleId : IssuedId := ⟨⟨idMagic :: List.replicate 31 0, by decide⟩, rfl⟩

/-- The second rank creates an ID and the fourth one fails to. -/
def fourCreated (a : ℕ) : Created := if a = 3 then .error .usage else .ok sampleId

/-- The first and the second rank join in the order of their keys, and the fourth alone fails. -/
theorem four_partition : ((part 4 fourRequests 1 = [1, 0] ∧ outcome 4 fourRequests fourCreated 0 = (.success, some ⟨2, sampleId.val.val, 1⟩)) ∧
      outcome 4 fourRequests fourCreated 3 = (.invalidUsage, none)) ∧
    (∀ color, color ≠ noColor → Parted 4 fourRequests color (part 4 fourRequests color)) ∧
    ∀ s, Reachable (step 4 fourRequests fourCreated) Unrestricted start s →
      (∀ a < 4, ∀ result join, (s a).phase = .returned result join → (s a).failed = false →
        (s a).rounds.length = 2 ∧ (result, join) = outcome 4 fourRequests fourCreated a) ∧
      (∀ a < 4, ∀ members rank, ((s a).phase = .grouped members rank ∨ ∃ result, (s a).phase = .ids members rank result) →
        members = part 4 fourRequests (fourRequests a).color ∧ rank = rankIn members a) ∧
      ((∀ a < 4, (s a).failed = false) → Inevitable (step 4 fourRequests fourCreated) Act.Regular (Settled 4) s) :=
  ⟨by decide +kernel, split_partitions 4 fourRequests fourCreated (by decide +kernel)⟩

/-- A rank that passes a color below no color returns with no round, and its handle stays usable. -/
theorem refused_color_has_no_round : ¬∀ (n : ℕ) (requests : ℕ → Request) (created : ℕ → Created) (s : State),
    Reachable (step n requests created) Unrestricted start s → ∀ a < n, ∀ result join, (s a).phase = .returned result join →
      (s a).failed = false → (s a).rounds.length = 2 := by
  intro h
  have hcall : step 2 (fun _ => ⟨-2, 0⟩) fourCreated start (.call 0) = some (Function.update start 0 ⟨.returned .invalidArgument none, [], false⟩) := rfl
  have hrounds := h 2 (fun _ => ⟨-2, 0⟩) fourCreated _ (.next .start trivial hcall) 0 Nat.two_pos .invalidArgument none rfl rfl
  cases hrounds

end SparkRing.CommSplit
