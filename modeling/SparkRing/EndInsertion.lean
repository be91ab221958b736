import Mathlib.Data.List.Nodup
import Mathlib.Data.List.Perm.Basic

/-!
# Insertion from the end

A sort that moves each element of a list ahead, from the end of the ones before it, until one
of them comes before it.
-/

namespace SparkRing.EndInsertion

variable {α : Type*} (earlier : α → α → Bool)

/-- Move an element ahead in a sorted list that is given from its end. -/
def moveAhead : List α → α → List α
  | [], b => [b]
  | a :: rest, b => if earlier a b then b :: a :: rest else a :: moveAhead rest b

def sort (items : List α) : List α := (items.foldl (moveAhead earlier) []).reverse

variable {earlier} {items : List α} {a b : α}

theorem moveAhead_perm : ∀ items : List α, (moveAhead earlier items b).Perm (b :: items)
  | [] => List.Perm.refl _
  | a :: rest => by
    unfold moveAhead
    split_ifs
    · exact List.Perm.refl _
    · exact ((moveAhead_perm rest).cons a).trans (List.Perm.swap b a rest)

theorem foldl_moveAhead_perm (items done : List α) : (items.foldl (moveAhead earlier) done).Perm (items ++ done) := by
  induction items generalizing done with
  | nil => exact List.Perm.refl _
  | cons b items ih =>
    have hnext : (items ++ moveAhead earlier done b).Perm (items ++ (b :: done)) := (moveAhead_perm done).append_left items
    exact (ih (moveAhead earlier done b)).trans (hnext.trans List.perm_middle)

/-- A sorted list has the elements that it had. -/
theorem sort_perm : (sort earlier items).Perm items := by
  have hfold : (items.foldl (moveAhead earlier) []).Perm (items ++ []) := foldl_moveAhead_perm items []
  rw [List.append_nil] at hfold
  exact (List.reverse_perm _).trans hfold

theorem mem_sort : a ∈ sort earlier items ↔ a ∈ items := sort_perm.mem_iff

section

variable (hcompare : ∀ a b, a ≠ b → earlier a b = true ∨ earlier b a = true)
  (htrans : ∀ a b c, earlier a b = true → earlier b c = true → earlier a c = true)

include hcompare htrans

/-- Among different elements of which one always comes before the other, the order is kept. -/
theorem pairwise_moveAhead {done : List α} (hnew : b ∉ done)
    (h : done.Pairwise fun x y => earlier y x = true) : (moveAhead earlier done b).Pairwise fun x y => earlier y x = true := by
  induction done with
  | nil => exact List.pairwise_singleton _ _
  | cons a rest ih =>
    obtain ⟨hhead, hrest⟩ := List.pairwise_cons.mp h
    unfold moveAhead
    split_ifs with hab
    · refine List.pairwise_cons.mpr ⟨fun c hc => ?_, h⟩
      rcases List.mem_cons.mp hc with rfl | hc
      · exact hab
      · exact htrans c a b (hhead c hc) hab
    have hba : earlier b a = true := (hcompare a b (fun heq => hnew (heq ▸ List.mem_cons_self))).resolve_left hab
    refine List.pairwise_cons.mpr ⟨fun c hc => ?_, ih (fun hc => hnew (List.mem_cons_of_mem a hc)) hrest⟩
    rcases List.mem_cons.mp ((moveAhead_perm rest).mem_iff.mp hc) with rfl | hc
    · exact hba
    · exact hhead c hc

/-- A sorted list of different elements is in order. -/
theorem pairwise_sort (hnodup : items.Nodup) :
    (sort earlier items).Pairwise fun x y => earlier x y = true := by
  have hfold : ∀ (items done : List α), (items ++ done).Nodup → (done.Pairwise fun x y => earlier y x = true) →
      (items.foldl (moveAhead earlier) done).Pairwise fun x y => earlier y x = true := by
    intro items
    induction items with
    | nil => exact fun _ _ h => h
    | cons b items ih =>
      intro done hdone h
      have hnext : (items ++ moveAhead earlier done b).Nodup :=
        (((moveAhead_perm done).append_left items).trans List.perm_middle).nodup_iff.mpr hdone
      have hnew : b ∉ done := fun hb => (List.nodup_cons.mp hdone).1 (List.mem_append_right items hb)
      exact ih _ hnext (pairwise_moveAhead hcompare htrans hnew h)
  rw [sort, List.pairwise_reverse]
  exact hfold items [] (by rwa [List.append_nil]) List.Pairwise.nil

end

/-- Two orders that agree on the elements sort them alike. -/
theorem sort_congr {later : α → α → Bool} (h : ∀ a ∈ items, ∀ b ∈ items, earlier a b = later a b) : sort earlier items = sort later items := by
  have hmove : ∀ (done : List α) (b : α), (∀ a ∈ done, earlier a b = later a b) → moveAhead earlier done b = moveAhead later done b := by
    intro done b hdone
    induction done with
    | nil => rfl
    | cons a rest ih => rw [moveAhead, moveAhead, hdone a List.mem_cons_self, ih (fun c hc => hdone c (List.mem_cons_of_mem a hc))]
  have hfold : ∀ rest done : List α, (∀ a ∈ rest, a ∈ items) → (∀ a ∈ done, a ∈ items) →
      rest.foldl (moveAhead earlier) done = rest.foldl (moveAhead later) done := by
    intro rest
    induction rest with
    | nil => exact fun _ _ _ => rfl
    | cons b rest ih =>
      intro done hrest hdone
      have hb := hrest b List.mem_cons_self
      rw [List.foldl_cons, List.foldl_cons, hmove done b (fun a ha => h a (hdone a ha) b hb)]
      refine ih _ (fun a ha => hrest a (List.mem_cons_of_mem b ha)) fun a ha => ?_
      rcases List.mem_cons.mp ((moveAhead_perm done).mem_iff.mp ha) with rfl | ha
      · exact hb
      · exact hdone a ha
  rw [sort, sort, hfold items [] (fun _ ha => ha) (fun _ ha => absurd ha List.not_mem_nil)]

end SparkRing.EndInsertion
