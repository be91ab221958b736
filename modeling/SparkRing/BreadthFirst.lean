import Mathlib.Data.Finset.Card
import Mathlib.Order.Bounds.Basic

/-!
# Breadth-first search

A search from a root over a list of neighbours of every vertex. Vertices wait in
a queue; the vertex at its head gives every neighbour not seen before the next
distance. What the search returns is the least length of a walk from the root,
for every vertex a walk leads to.
-/

namespace SparkRing.BreadthFirst

open Function
open Option (some.inj)

variable {V : Type*} {next : V → List V} {root u v w : V} {n d fuel : ℕ} (s : Finset V) {queue vs : List V}

/-- Walks of a length from one vertex to another. -/
inductive Walk (next : V → List V) : ℕ → V → V → Prop
  | refl (v : V) : Walk next 0 v v
  /-- One more edge. -/
  | step {n : ℕ} {u v w : V} : Walk next n u v → w ∈ next v → Walk next (n + 1) u w

/-- Walks compose. -/
theorem Walk.trans {m : ℕ} (hu : Walk next m u v) (hv : Walk next n v w) : Walk next (m + n) u w := by
  induction hv with
  | refl => exact hu
  | step _ hw ih => exact .step (ih hu) hw

/-- Where edges lead both ways, so do walks. -/
theorem Walk.symm (hsymm : ∀ u v, v ∈ next u → u ∈ next v) (h : Walk next n u v) : Walk next n v u := by
  induction h with
  | refl v => exact .refl v
  | @step n u v w _ hw ih =>
    have hback := (Walk.step (.refl w) (hsymm v w hw)).trans ih
    rwa [Nat.zero_add, Nat.add_comm] at hback

/-- Distances of the vertices seen so far. -/
abbrev Distances (V : Type*) := V → Option ℕ

section Search

variable [DecidableEq V]

/-- Give every vertex of a list that was not seen before one distance, and queue it. -/
def scan (d : ℕ) : List V → List V → Distances V → List V × Distances V
  | [], queue, seen => (queue, seen)
  | v :: rest, queue, seen =>
    if seen v = none then scan d rest (queue ++ [v]) (Function.update seen v (some d))
    else scan d rest queue seen

/-- The search loop, for at most as many vertices as it has fuel; `none` when the fuel
does not last until the queue is empty. -/
def search (next : V → List V) : ℕ → List V → Distances V → Option (Distances V)
  | _, [], seen => some seen
  | 0, _ :: _, _ => none
  | fuel + 1, here :: queue, seen =>
    let found := scan ((seen here).getD 0 + 1) (next here) queue seen
    search next fuel found.1 found.2

/-- Only the root is seen, at distance zero. -/
def start (root : V) : Distances V := Function.update (fun _ => none) root (some 0)

/-- Distances after a scan: the new ones are those of the unseen vertices of the list. -/
theorem scan_seen (seen : Distances V) : (scan d vs queue seen).2 v = if v ∈ vs ∧ seen v = none then some d else seen v := by
  induction vs generalizing queue seen with
  | nil => simp [scan]
  | cons w rest ih =>
    rw [scan]
    by_cases hw : seen w = none
    · rw [if_pos hw, ih]
      by_cases hv : v = w
      · subst hv
        simp [hw]
      · simp [hv]
    rw [if_neg hw, ih]
    by_cases hv : v = w
    · subst hv
      simp [hw]
    · simp [hv]

/-- The queue after a scan: the unseen vertices of the list are appended. -/
theorem scan_queue (queue : List V) (seen : Distances V) :
    ∃ new, (scan d vs queue seen).1 = queue ++ new ∧ ∀ v, v ∈ new ↔ v ∈ vs ∧ seen v = none := by
  induction vs generalizing queue seen with
  | nil => exact ⟨[], by simp [scan]⟩
  | cons w rest ih =>
    rw [scan]
    by_cases hw : seen w = none
    · obtain ⟨new, hnew, hmem⟩ := ih (queue ++ [w]) (update seen w (some d))
      refine ⟨w :: new, by rw [if_pos hw, hnew, List.append_assoc, List.singleton_append], fun v => ?_⟩
      by_cases hv : v = w
      · simp [hv, hw]
      · simp [hmem, hv]
    obtain ⟨new, hnew, hmem⟩ := ih queue seen
    refine ⟨new, by rw [if_neg hw, hnew], fun v => ?_⟩
    by_cases hv : v = w
    · simp [hmem, hv, hw]
    · simp [hmem, hv]

/-- Vertices of a set not seen yet. -/
def unseen (s : Finset V) (seen : Distances V) : Finset V := s.filter fun v => seen v = none

/-- A scan moves vertices from the unseen ones to the queue. -/
theorem scan_count (d : ℕ) (vs queue : List V) (seen : Distances V) (hvs : ∀ v ∈ vs, v ∈ s) :
    (scan d vs queue seen).1.length + (unseen s (scan d vs queue seen).2).card = queue.length + (unseen s seen).card := by
  induction vs generalizing queue seen with
  | nil => rfl
  | cons w rest ih =>
    have hrest := fun v hv => hvs v (List.mem_cons_of_mem w hv)
    rw [scan]
    by_cases hw : seen w = none
    · have hmem : w ∈ unseen s seen := Finset.mem_filter.mpr ⟨hvs w List.mem_cons_self, hw⟩
      have herase : unseen s (update seen w (some d)) = (unseen s seen).erase w := by
        ext v
        by_cases hv : v = w
        · simp [unseen, hv]
        · simp [unseen, hv]
      have hcard := Finset.card_erase_add_one hmem
      rw [if_pos hw, ih _ _ hrest, herase, List.length_append, List.length_singleton]
      omega
    · rw [if_neg hw, ih _ _ hrest]

/-- Fuel for every queued vertex and every vertex not seen lasts to the end. -/
theorem search_total (hclosed : ∀ v, ∀ w ∈ next v, w ∈ s) (fuel : ℕ) (queue : List V)
    (seen : Distances V) (hfuel : queue.length + (unseen s seen).card ≤ fuel) : ∃ found, search next fuel queue seen = some found := by
  induction fuel generalizing queue seen with
  | zero =>
    obtain rfl : queue = [] := List.length_eq_zero_iff.mp (by omega)
    exact ⟨seen, by rw [search]⟩
  | succ fuel ih =>
    cases queue with
    | nil => exact ⟨seen, by rw [search]⟩
    | cons here queue =>
      have hcount := scan_count s ((seen here).getD 0 + 1) (next here) queue seen (hclosed here)
      rw [List.length_cons] at hfuel
      exact ih _ _ (by omega)

/-- The loop invariant: distances are lengths of walks, the queue is in order of
distance and spans two of them, and every vertex that left it has passed its
distance on to its neighbours. -/
structure Frontier (next : V → List V) (root : V) (queue : List V) (seen : Distances V) : Prop where
  origin : seen root = some 0
  /-- A distance is the length of a walk. -/
  sound : ∀ v n, seen v = some n → Walk next n root v
  queued : ∀ v ∈ queue, ∃ n, seen v = some n
  /-- The queue is in order of distance. -/
  sorted : queue.Pairwise fun u v => (seen u).getD 0 ≤ (seen v).getD 0
  /-- No vertex is more than one edge beyond a queued one. -/
  near : ∀ u ∈ queue, ∀ v n, seen v = some n → n ≤ (seen u).getD 0 + 1
  /-- Neighbours of a vertex that left the queue are at most one edge beyond it. -/
  passed : ∀ v n, seen v = some n → v ∉ queue → ∀ w ∈ next v, ∃ m ≤ n + 1, seen w = some m

/-- The search starts within its invariant. -/
theorem Frontier.start (next : V → List V) (root : V) : Frontier next root [root] (start root) where
  origin := update_self ..
  sound := by
    intro v n hv
    by_cases h : v = root
    · rw [h, BreadthFirst.start, update_self] at hv
      rw [h, ← some.inj hv]
      exact .refl root
    · rw [BreadthFirst.start, update_of_ne h] at hv
      cases hv
  queued := by
    intro v hv
    rw [List.mem_singleton.mp hv]
    exact ⟨0, update_self ..⟩
  sorted := List.pairwise_singleton ..
  near := by
    intro u _ v n hv
    by_cases h : v = root
    · rw [h, BreadthFirst.start, update_self] at hv
      rw [← some.inj hv]
      exact Nat.zero_le _
    · rw [BreadthFirst.start, update_of_ne h] at hv
      cases hv
  passed := by
    intro v n hv hout
    rw [BreadthFirst.start, update_of_ne fun h => hout (List.mem_singleton.mpr h)] at hv
    cases hv

/-- A scan never changes a distance. -/
theorem scan_keeps {seen : Distances V} (hv : seen v = some n) : (scan d vs queue seen).2 v = some n := by
  rw [scan_seen, if_neg (by simp [hv]), hv]

/-- What a scan leaves seen was seen before or is a new vertex of the list. -/
theorem scan_cases {seen : Distances V} (hv : (scan d vs queue seen).2 v = some n) : seen v = some n ∨ v ∈ vs ∧ seen v = none ∧ n = d := by
  rw [scan_seen] at hv
  split at hv
  · rename_i h
    exact .inr ⟨h.1, h.2, (some.inj hv).symm⟩
  · exact .inl hv

/-- One turn of the loop keeps the invariant. -/
theorem Frontier.scan {here : V} {seen : Distances V} (h : Frontier next root (here :: queue) seen) :
    Frontier next root (scan ((seen here).getD 0 + 1) (next here) queue seen).1
      (BreadthFirst.scan ((seen here).getD 0 + 1) (next here) queue seen).2 := by
  obtain ⟨m, hm⟩ := h.queued here List.mem_cons_self
  have hdist : (seen here).getD 0 = m := by rw [hm, Option.getD_some]
  obtain ⟨new, hqueue, hnew⟩ := scan_queue queue seen
  rw [hdist, hqueue]
  -- Distances of the old part of the queue, and of the new one.
  have hold : ∀ v ∈ queue, ((BreadthFirst.scan (m + 1) (next here) queue seen).2 v).getD 0 = (seen v).getD 0 := by
    intro v hv
    obtain ⟨n, hn⟩ := h.queued v (List.mem_cons_of_mem here hv)
    rw [scan_keeps hn, hn]
  have hfresh : ∀ v ∈ new, (BreadthFirst.scan (m + 1) (next here) queue seen).2 v = some (m + 1) := by
    intro v hv
    rw [scan_seen, if_pos ((hnew v).mp hv)]
  have hleast : ∀ v ∈ queue, m ≤ (seen v).getD 0 := by
    intro v hv
    rw [← hdist]
    exact (List.pairwise_cons.mp h.sorted).1 v hv
  have hmost : ∀ v n, (BreadthFirst.scan (m + 1) (next here) queue seen).2 v = some n → n ≤ m + 1 := by
    intro v n hv
    rcases scan_cases hv with hv | ⟨-, -, rfl⟩
    · exact hdist ▸ h.near here List.mem_cons_self v n hv
    · exact le_rfl
  constructor
  · exact scan_keeps h.origin
  · intro v n hv
    rcases scan_cases hv with hwas | ⟨hmem, -, rfl⟩
    · exact h.sound v n hwas
    · exact .step (h.sound here m hm) hmem
  · intro v hv
    rcases List.mem_append.mp hv with hv | hv
    · obtain ⟨n, hn⟩ := h.queued v (List.mem_cons_of_mem here hv)
      exact ⟨n, scan_keeps hn⟩
    · exact ⟨m + 1, hfresh v hv⟩
  · refine List.pairwise_append.mpr ⟨?_, ?_, ?_⟩
    · refine (List.pairwise_cons.mp h.sorted).2.imp_of_mem fun hu hv hle => ?_
      rwa [hold _ hu, hold _ hv]
    · refine List.pairwise_of_forall_mem_list fun u hu v hv => ?_
      rw [hfresh u hu, hfresh v hv]
    intro u hu v hv
    obtain ⟨k, hk⟩ := h.queued u (List.mem_cons_of_mem here hu)
    have hle := hmost u k (scan_keeps hk)
    rw [hold u hu, hfresh v hv, hk]
    exact hle
  · intro u hu v n hv
    have hle := hmost v n hv
    rcases List.mem_append.mp hu with hu | hu
    · rw [hold u hu]
      exact hle.trans (Nat.add_le_add_right (hleast u hu) 1)
    · rw [hfresh u hu, Option.getD_some]
      omega
  · intro v n hv hout w hw
    rw [List.mem_append, not_or] at hout
    rcases scan_cases hv with hwas | ⟨hmem, hnone, -⟩
    · by_cases hhere : v = here
      · subst hhere
        obtain rfl : m = n := some.inj (hm.symm.trans hwas)
        rcases hseen : seen w with - | k
        · exact ⟨m + 1, le_rfl, by rw [scan_seen, if_pos ⟨hw, hseen⟩]⟩
        · exact ⟨k, hdist ▸ h.near v List.mem_cons_self w k hseen, scan_keeps hseen⟩
      · obtain ⟨k, hle, hk⟩ := h.passed v n hwas (fun hmem => (List.mem_cons.mp hmem).elim hhere hout.1) w hw
        exact ⟨k, hle, scan_keeps hk⟩
    · exact absurd ((hnew v).mpr ⟨hmem, hnone⟩) hout.2

/-- The loop ends with the invariant and an empty queue. -/
theorem Frontier.search {seen found : Distances V} (h : Frontier next root queue seen)
    (hs : search next fuel queue seen = some found) : Frontier next root [] found := by
  induction fuel generalizing queue seen with
  | zero =>
    cases queue with
    | nil => exact some.inj hs ▸ h
    | cons => cases hs
  | succ fuel ih =>
    cases queue with
    | nil => exact some.inj hs ▸ h
    | cons here queue => exact ih h.scan hs

omit [DecidableEq V] in
/-- With nothing queued, a walk is at least as long as the distance of its end. -/
theorem Frontier.complete {seen : Distances V} (h : Frontier next root [] seen) (hw : Walk next n root v) : ∃ m ≤ n, seen v = some m := by
  generalize hu : root = u at hw
  induction hw with
  | refl => exact ⟨0, le_rfl, hu ▸ h.origin⟩
  | @step n u v w _ hmem ih =>
    obtain ⟨m, hle, hm⟩ := ih hu
    obtain ⟨k, hk, hseen⟩ := h.passed v m hm List.not_mem_nil w hmem
    exact ⟨k, hk.trans (Nat.add_le_add_right hle 1), hseen⟩

/-- The search returns the least lengths of the walks from its root. -/
theorem search_least {found : Distances V} (hs : search next fuel [root] (start root) = some found) :
    found v = some n ↔ IsLeast {m | Walk next m root v} n := by
  have h := (Frontier.start next root).search hs
  constructor
  · intro hv
    refine ⟨h.sound v n hv, fun k hk => ?_⟩
    obtain ⟨m, hle, hm⟩ := h.complete hk
    exact (some.inj (hv.symm.trans hm)).trans_le hle
  intro hv
  obtain ⟨m, hle, hm⟩ := h.complete hv.1
  rw [hm, le_antisymm hle (hv.2 (h.sound v m hm))]

/-- The search sees every vertex that a walk leads to. -/
theorem search_seen {found : Distances V} (hs : search next fuel [root] (start root) = some found)
    (hw : Walk next n root v) : ∃ m, found v = some m := by
  obtain ⟨m, -, hm⟩ := ((Frontier.start next root).search hs).complete hw
  exact ⟨m, hm⟩

end Search

end SparkRing.BreadthFirst
