import SparkRing.CommClose

/-!
# Closes and splits that prove what they say

In every run whose rounds are in step a close that returns success proves that every
rank's progress threads stopped, and a split that joins a part met one split of every
rank. Out of step a close takes another operation's round for a rank's success.
-/

namespace SparkRing.CommGroup

open TransitionSystem

variable {n : ℕ} {s : State}

/-- What a close's success and a split's new communicator prove. -/
structure Sound (n : ℕ) (s : State) : Prop where
  /-- A close that returned success: every rank entered it, reported success in its first round and stopped its progress threads. -/
  close : ∀ a < n, (s a).closeResult = some .success → ∀ b < n, (s b).quiesced = true ∧
    (∃ q : ℕ, (s b).rounds[q]? = some ⟨.first, [NcclResult.success.code]⟩) ∧ (s b).stopped = true
  split : ∀ a < n, ∀ rounds ∈ (s a).joined, Joint n s rounds

/-- In every run whose rounds are in step closes and splits prove what they say. -/
theorem sound_in_step (h : Reachable (step n) (InStep n) init s) : Sound n s := by
  have hi := Inv.of_reachable h
  constructor
  case close =>
    intro a ha hsuccess b hb
    obtain ⟨⟨q, hq⟩, hstopped⟩ := (hi.known a).closed hsuccess b hb
    refine ⟨?_, ⟨q, hq⟩, hstopped⟩
    by_contra hno
    exact (hi.ranks b).quiet (Bool.eq_false_iff.mpr hno) q _ hq rfl
  case split => exact fun a _ rounds hrounds => (hi.known a).joined rounds hrounds

/-- A check of a step that begins a round: it meets its own kind, and a split's first round is the rank's first one. -/
def meets (n : ℕ) (s : State) : Act → Bool
  | .allgather a t _ => (nextKind (s a) t).all fun kind =>
      ((List.range n).all fun b => ((s b).rounds[(s a).rounds.length]?).all fun round =>
        decide (round.kind.closeRound = kind.closeRound)) &&
      decide (kind = .colors → (s a).rounds = [])
  | _ => true

theorem inStep_of_meets (s : State) (act : Act) (h : Reachable (step n) (InStep n) init s) (hm : meets n s act = true) :
    InStep n s act := by
  cases act with
  | allgather a t created =>
    intro kind hkind
    rw [meets, hkind, Option.all_some, Bool.and_eq_true] at hm
    refine ⟨fun b hb round hround => ?_, fun hcolors t' q members rank hgrouped => ?_⟩
    · have hall := List.all_eq_true.mp hm.1 b (List.mem_range.mpr hb)
      rw [hround, Option.all_some] at hall
      exact of_decide_eq_true hall
    obtain ⟨⟨data, hq⟩, -⟩ := ((Inv.of_reachable h).ranks a).calls t' _ hgrouped
    rw [of_decide_eq_true hm.2 hcolors] at hq
    cases hq
  | _ => trivial

def someId : UniqueId := ⟨List.replicate 32 0x53, rfl⟩

/-- A rank without other calls destroys its communicator and begins the first round of the close. -/
def closesAlone (a : ℕ) : List Act := [.dispose a 0 false, .alone a 0, .quiesce a 0 .success .success, .allgather a 0 (.ok someId)]

/-- Two ranks split and close; both closes return success. -/
theorem split_and_close_in_step : ∃ s, Reachable (step 2) (InStep 2) init s ∧
    (decide ((s 0).closeResult = some .success ∧ (s 1).closeResult = some .success ∧ (s 0).joined = [(0, 1)])) = true ∧
    Sound 2 s := by
  obtain ⟨s, hs, hp⟩ := Reachable.exists_of_guarded_runs (meets 2) (step 2) init inStep_of_meets
    ([.commSplit 0 0 0 0 false, .commSplit 1 0 0 1 false, .allgather 0 0 (.ok someId), .allgather 1 0 (.ok someId),
      .arrives 0 0, .arrives 1 0, .allgather 1 0 (.ok someId), .allgather 0 0 (.ok someId), .arrives 1 0, .arrives 0 0] ++
      closesAlone 1 ++ closesAlone 0 ++ [.arrives 0 0, .arrives 1 0, .allgather 0 0 (.ok someId), .allgather 1 0 (.ok someId),
      .arrives 1 0, .arrives 0 0, .returns 0 0, .returns 1 0])
    (fun s => decide ((s 0).closeResult = some .success ∧ (s 1).closeResult = some .success ∧ (s 0).joined = [(0, 1)]))
    (by decide +kernel)
  exact ⟨s, hs, hp, sound_in_step hs⟩

/-- A close reads a split's exchange of colors as its peer's success, and its last round meets the peer's first one:
it returns success while the peer's progress threads run. Splits of two threads pair with each other's rounds. -/
theorem close_takes_split_for_success :
    (∃ s, Reachable (step 2) Unrestricted init s ∧ ¬Sound 2 s ∧ (s 0).closeResult = some .success ∧ (s 1).stopped = false) ∧
      ∃ s, Reachable (step 2) Unrestricted init s ∧ ¬Sound 2 s ∧ (s 0).closeResult = none := by
  constructor
  · obtain ⟨s, hs, hp⟩ := Reachable.exists_of_runs (step 2) init
      ([.commSplit 1 0 0 0 false, .allgather 1 0 (.ok someId)] ++ closesAlone 0 ++ [.arrives 0 0, .arrives 1 0] ++
        closesAlone 1 ++ [.allgather 0 0 (.ok someId), .arrives 0 0])
      (fun s : State => decide ((s 0).closeResult = some .success ∧ (s 1).stopped = false)) (by decide +kernel)
    obtain ⟨hclosed, hrunning⟩ := of_decide_eq_true hp
    refine ⟨s, hs, fun hsound => ?_, hclosed, hrunning⟩
    have hstopped := (hsound.close 0 (by omega) hclosed 1 (by omega)).2.2
    rw [hrunning] at hstopped
    cases hstopped
  · obtain ⟨s, hs, hp⟩ := Reachable.exists_of_runs (step 2) init
      [.commSplit 0 0 0 0 false, .commSplit 0 1 0 0 false, .commSplit 1 0 0 1 false, .commSplit 1 1 0 1 false,
        .allgather 0 0 (.ok someId), .allgather 1 0 (.ok someId), .arrives 0 0, .arrives 1 0, .allgather 0 1 (.ok someId),
        .allgather 1 1 (.ok someId), .arrives 0 1, .arrives 1 1, .allgather 0 0 (.ok someId), .allgather 1 1 (.ok someId),
        .arrives 0 0]
      (fun s : State => decide ((s 0).joined = [(0, 2)] ∧ ((s 1).rounds[2]?).map Round.kind = some (.ids 1) ∧
        (s 0).closeResult = none)) (by decide +kernel)
    obtain ⟨hjoined, hkind, hopen⟩ := of_decide_eq_true hp
    refine ⟨s, hs, fun hsound => ?_, hopen⟩
    obtain ⟨-, data, hids⟩ := hsound.split 0 (by omega) (0, 2) (by simp [hjoined]) 1 (by omega)
    rw [hids] at hkind
    cases hkind

end SparkRing.CommGroup
