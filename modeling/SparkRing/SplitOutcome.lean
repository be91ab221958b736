import SparkRing.CommSplit

/-!
# What a split comes to

Every rank contributes the same records whatever the order of the rounds, so every rank works out
the members of its color from the same answer. A rank whose handle did not fail has begun both
rounds when it returns, with the place and the ID, or the failure, that its color is to get.
-/

namespace SparkRing.CommSplit

open SparkRing.CommGroup (Word NcclResult UniqueId noColor wordAt idRecord leaderResult)
open TransitionSystem (Reachable Unrestricted Inevitable)

variable {n a b length : ℕ} {requests : ℕ → Request} {created : ℕ → Created} {s : State} (e : IdError) {color : Word}
  {all : List (List Word)}

/-- A record of an answer whose records have one length. -/
theorem take_drop_flatten {α : Type*} : ∀ {all : List (List α)} {r : ℕ}, (∀ record ∈ all, record.length = length) → r < all.length →
    (all.flatten.drop (length * r)).take length = all.getD r []
  | [], r, _, hr => absurd hr (Nat.not_lt_zero r)
  | record :: all, 0, hall, _ => by
    have hrecord := hall record List.mem_cons_self
    rw [List.flatten_cons, Nat.mul_zero, List.drop_zero, List.take_append_of_le_length hrecord.ge, List.take_of_length_le hrecord.le]
    rfl
  | record :: all, r + 1, hall, hr => by
    have hrecord := hall record List.mem_cons_self
    have hrest := take_drop_flatten (fun record hmem => hall record (List.mem_cons_of_mem _ hmem)) (Nat.lt_of_succ_lt_succ hr)
    rw [List.flatten_cons, Nat.mul_succ, Nat.add_comm, ← hrecord, List.drop_length_add_append, hrecord]
    exact hrest

theorem wordAt_flatten {r i : ℕ} (hall : ∀ record ∈ all, record.length = length) (hr : r < all.length)
    (hi : i < length) : wordAt all.flatten (length * r + i) = (all.getD r []).getD i 0 := by
  rw [← take_drop_flatten hall hr, wordAt, List.getD_eq_getElem?_getD, List.getD_eq_getElem?_getD, List.getElem?_take_of_lt hi, List.getElem?_drop]

theorem getD_map_range {f : ℕ → List Word} {r : ℕ} (hr : r < n) : ((List.range n).map f).getD r [] = f r := by
  simp [hr]

theorem mem_part : a ∈ part n requests color ↔ a < n ∧ color ≠ noColor ∧ (requests a).color = color := by
  rw [part, EndInsertion.mem_sort, List.mem_filter, List.mem_range, decide_eq_true_eq]

/-- The ranks of a color, in the order of their keys and then of their ranks. -/
structure Parted (n : ℕ) (requests : ℕ → Request) (color : Word) (members : List ℕ) : Prop where
  mem : ∀ a, a ∈ members ↔ a < n ∧ (requests a).color = color
  ordered : members.Pairwise fun a b =>
    (requests a).key.toInt < (requests b).key.toInt ∨ (requests a).key = (requests b).key ∧ a < b

theorem parted_part (hcolor : color ≠ noColor) : Parted n requests color (part n requests color) := by
  refine ⟨fun a => by rw [mem_part]; simp [hcolor], ?_⟩
  have hordered : (part n requests color).Pairwise fun a b => earlier (fun r => (requests r).key) a b = true :=
    EndInsertion.pairwise_sort (fun a b hab => ?_) (fun a b c hab hbc => ?_) (List.nodup_range.filter _)
  · exact hordered.imp fun h => of_decide_eq_true h
  · unfold earlier
    rw [decide_eq_true_eq, decide_eq_true_eq]
    rcases lt_trichotomy (requests a).key.toInt (requests b).key.toInt with hlt | heq | hgt
    · exact Or.inl (Or.inl hlt)
    · have hkey := BitVec.eq_of_toInt_eq heq
      rcases Nat.lt_or_gt_of_ne hab with hlt | hgt
      · exact Or.inl (Or.inr ⟨hkey, hlt⟩)
      · exact Or.inr (Or.inr ⟨hkey.symm, hgt⟩)
    · exact Or.inr (Or.inl hgt)
  · unfold earlier at *
    rw [decide_eq_true_eq] at *
    rcases hab with hab | ⟨hab, hlt⟩
    · rcases hbc with hbc | ⟨hbc, -⟩
      · exact Or.inl (hab.trans hbc)
      · exact Or.inl (hbc ▸ hab)
    rcases hbc with hbc | ⟨hbc, hlt'⟩
    · exact Or.inl (hab ▸ hbc)
    · exact Or.inr ⟨hab.trans hbc, hlt.trans hlt'⟩

/-- What a rank contributes to the exchange of IDs, and the result it goes on with. -/
def idTurn (n : ℕ) (requests : ℕ → Request) (created : ℕ → Created) (a : ℕ) : UniqueId × NcclResult :=
  idRecord (rankIn (part n requests (requests a).color) a) (issue (created a))

/-- What a rank contributes to its two rounds. -/
def contributions (n : ℕ) (requests : ℕ → Request) (created : ℕ → Created) (a : ℕ) : List (List Word) :=
  [[(requests a).color, (requests a).key], (idTurn n requests created a).1.val]

/-- What holds of a rank at every moment. -/
structure Local (n : ℕ) (requests : ℕ → Request) (created : ℕ → Created) (a : ℕ) (x : Member) : Prop where
  rounds : x.rounds <+: contributions n requests created a
  phase : match x.phase with
    | .calls | .splits => x.failed = false ∧ x.rounds.length = 0
    | .colors => x.failed = false ∧ x.rounds.length = 1
    | .grouped members rank => x.failed = false ∧ x.rounds.length = 1 ∧ members = part n requests (requests a).color ∧ rank = rankIn members a
    | .ids members rank result => x.failed = false ∧ x.rounds.length = 2 ∧ members = part n requests (requests a).color ∧
        rank = rankIn members a ∧ result = (idTurn n requests created a).2
    | .returned result join => x.failed = false → x.rounds.length = 2 ∧ (result, join) = outcome n requests created a

/-- An answer is what the ranks contribute. -/
theorem answer_eq {q : ℕ} (hlocal : ∀ a < n, Local n requests created a (s a)) (h : answer n s q = some all) :
    all = (List.range n).map fun a => (contributions n requests created a).getD q [] := by
  unfold answer at h
  split at h
  case isTrue hall =>
    rw [Option.some.injEq] at h
    rw [← h]
    refine List.map_congr_left fun a ha => ?_
    rw [List.mem_range] at ha
    obtain ⟨rest, hrest⟩ := (hlocal a ha).rounds
    rw [List.getD_eq_getElem?_getD, ← hrest, List.getElem?_append_left (hall a ha)]
  case isFalse => cases h

/-- The members that a rank finds are the ranks of its color. -/
theorem membersOf_flatten (color : Word) :
    membersOf n color (((List.range n).map fun a => [(requests a).color, (requests a).key]).flatten) = part n requests color := by
  have hword : ∀ r < n, ∀ i < 2, wordAt (((List.range n).map fun a => [(requests a).color, (requests a).key]).flatten) (2 * r + i) =
      [(requests r).color, (requests r).key].getD i 0 := by
    intro r hr i hi
    rw [wordAt_flatten (fun record hrecord => ?_) (by rwa [List.length_map, List.length_range]) hi]
    · rw [getD_map_range hr]
    · obtain ⟨a, _, rfl⟩ := List.mem_map.mp hrecord
      rfl
  have hfilter : ((List.range n).filter fun r => decide (color ≠ noColor ∧
      wordAt (((List.range n).map fun a => [(requests a).color, (requests a).key]).flatten) (2 * r) = color)) =
      (List.range n).filter fun r => decide (color ≠ noColor ∧ (requests r).color = color) := by
    refine List.filter_congr fun r hr => ?_
    have hcolor := hword r (List.mem_range.mp hr) 0 (by decide)
    rw [Nat.add_zero] at hcolor
    rw [hcolor]
    rfl
  rw [membersOf, part, hfilter]
  refine EndInsertion.sort_congr fun a ha b hb => ?_
  have hkey : ∀ {r : ℕ}, r ∈ (List.range n).filter (fun r => decide (color ≠ noColor ∧ (requests r).color = color)) →
      wordAt (((List.range n).map fun a => [(requests a).color, (requests a).key]).flatten) (2 * r + 1) = (requests r).key := fun hr =>
    hword _ (List.mem_range.mp (List.mem_filter.mp hr).1) 1 (by decide)
  rw [earlier, earlier, hkey ha, hkey hb]

theorem leaderResult_issued (id : IssuedId) : leaderResult id.val.val = .success := by
  unfold CommGroup.leaderResult
  rw [id.property]
  rfl

theorem leaderResult_failure : leaderResult (CommGroup.failureRecord e.result).val = e.result := by
  cases e <;> decide +kernel

theorem result_ne_success : e.result ≠ .success := by
  cases e <;> exact nofun

theorem headD_eq_of_idxOf {members : List ℕ} (ha : a ∈ members) (h : members.idxOf a = 0) : members.headD 0 = a := by
  cases members with
  | nil => exact absurd ha List.not_mem_nil
  | cons b members =>
    by_contra hne
    change b ≠ a at hne
    rw [List.idxOf_cons_ne members hne] at h
    cases h

/-- What a leader contributes, and goes on with. -/
theorem idTurn_leader (h : rankIn (part n requests (requests a).color) a = some 0) :
    idTurn n requests created a = match created a with
      | .ok id => (id.val, .success)
      | .error e => (CommGroup.failureRecord e.result, e.result) := by
  unfold idTurn CommGroup.idRecord
  rw [if_pos h]
  cases created a <;> rfl

/-- A rank that leads no color contributes nothing. -/
theorem idTurn_other (h : rankIn (part n requests (requests a).color) a ≠ some 0) : (idTurn n requests created a).2 = .success := by
  unfold idTurn CommGroup.idRecord
  rw [if_neg h]

/-- Every rank comes to what it is to get. -/
theorem afterIds_eq (ha : a < n) :
    ∃ result join, afterIds n (part n requests (requests a).color) (rankIn (part n requests (requests a).color) a)
      (idTurn n requests created a).2 ((List.range n).map fun b => (idTurn n requests created b).1.val) = .returned result join ∧
      (result, join) = outcome n requests created a := by
  have hlengths : ∀ record ∈ (List.range n).map (fun b => (idTurn n requests created b).1.val), record.length = 32 := by
    intro record hrecord
    obtain ⟨b, _, rfl⟩ := List.mem_map.mp hrecord
    exact (idTurn n requests created b).1.property
  have hchecked : ¬∃ r < n, (((List.range n).map fun b => (idTurn n requests created b).1.val).getD r []).length ≠ 32 := by
    rintro ⟨r, hr, hlength⟩
    rw [getD_map_range hr] at hlength
    exact hlength (idTurn n requests created r).1.property
  unfold afterIds outcome
  rw [if_neg hchecked]
  dsimp only
  by_cases hcolor : (requests a).color = noColor
  · have hnot : ∀ b, b ∉ part n requests (requests a).color := fun b hb => (mem_part.mp hb).2.1 hcolor
    have hrank : rankIn (part n requests (requests a).color) a = none := if_neg (hnot a)
    rw [if_pos hcolor, idTurn_other (by rw [hrank]; exact nofun), hrank]
    exact ⟨_, _, rfl, rfl⟩
  have hmem : a ∈ part n requests (requests a).color := mem_part.mpr ⟨ha, hcolor, rfl⟩
  have hrank : rankIn (part n requests (requests a).color) a = some ((part n requests (requests a).color).idxOf a) := if_pos hmem
  have hhead : (part n requests (requests a).color).headD 0 ∈ part n requests (requests a).color := by
    generalize part n requests (requests a).color = members at hmem
    cases members with
    | nil => exact absurd hmem List.not_mem_nil
    | cons => exact List.mem_cons_self
  obtain ⟨hleader, -, hsame⟩ := mem_part.mp hhead
  have hslice : ((((List.range n).map fun b => (idTurn n requests created b).1.val).flatten.drop
      (32 * (part n requests (requests a).color).headD 0)).take 32) =
      (idTurn n requests created ((part n requests (requests a).color).headD 0)).1.val := by
    rw [take_drop_flatten hlengths (by rwa [List.length_map, List.length_range]), getD_map_range hleader]
  have hfirst : rankIn (part n requests (requests ((part n requests (requests a).color).headD 0)).color)
      ((part n requests (requests a).color).headD 0) = some 0 := by
    rw [hsame, rankIn, if_pos hhead]
    generalize part n requests (requests a).color = members at hmem
    cases members with
    | nil => exact absurd hmem List.not_mem_nil
    | cons => rw [List.headD_cons, List.idxOf_cons_self]
  rw [if_neg hcolor, hslice, idTurn_leader hfirst, hrank]
  cases hindex : (part n requests (requests a).color).idxOf a with
  | zero =>
    have hself := headD_eq_of_idxOf hmem hindex
    rw [hself] at hfirst ⊢
    rw [idTurn_leader hfirst]
    cases created a with
    | ok => exact ⟨_, _, rfl, rfl⟩
    | error e =>
      rw [if_pos (result_ne_success e)]
      exact ⟨_, _, rfl, rfl⟩
  | succ =>
    have hother : (idTurn n requests created a).2 = .success := idTurn_other (by rw [hrank, hindex]; exact nofun)
    rw [hother]
    cases created ((part n requests (requests a).color).headD 0) with
    | ok =>
      rw [leaderResult_issued]
      exact ⟨_, _, rfl, rfl⟩
    | error e =>
      rw [leaderResult_failure, CommGroup.NcclResult.first, if_pos rfl, if_pos (result_ne_success e)]
      exact ⟨_, _, rfl, rfl⟩

end SparkRing.CommSplit
