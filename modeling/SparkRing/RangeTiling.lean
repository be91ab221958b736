import Mathlib.Data.List.Basic

/-!
# Ranges laid end to end

A list of ranges tiles an interval when the first starts where the interval does, each
next one starts where the one before stops, none is empty, and the last stops where the
interval does. Every position of the interval is then in exactly one of them.
-/

namespace SparkRing.RangeTiling

variable {α : Type*} {start stop : α → ℕ} {lo mid hi position : ℕ} {range : α} {ranges ranges' : List α}

/-- The ranges lead from `lo` to `hi`, each next one from where the one before stops. -/
def Tiles (start stop : α → ℕ) : ℕ → List α → ℕ → Prop
  | lo, [], hi => lo = hi
  | lo, range :: ranges, hi => start range = lo ∧ lo < stop range ∧ Tiles start stop (stop range) ranges hi

@[simp] theorem tiles_nil : Tiles start stop lo [] hi ↔ lo = hi := Iff.rfl

/-- A tiling leads forward. -/
theorem Tiles.le (h : Tiles start stop lo ranges hi) : lo ≤ hi := by
  induction ranges generalizing lo with
  | nil => exact Nat.le_of_eq h
  | cons range ranges ih =>
    have hrest := ih h.2.2
    have hpos := h.2.1
    omega

/-- Tilings compose. -/
theorem Tiles.append (h : Tiles start stop lo ranges mid) (h' : Tiles start stop mid ranges' hi) :
    Tiles start stop lo (ranges ++ ranges') hi := by
  induction ranges generalizing lo with
  | nil =>
    cases h
    exact h'
  | cons range ranges ih => exact ⟨h.1, h.2.1, ih h.2.2⟩

/-- Every range lies within the interval. -/
theorem Tiles.bounds (h : Tiles start stop lo ranges hi) (hr : range ∈ ranges) :
    lo ≤ start range ∧ start range < stop range ∧ stop range ≤ hi := by
  induction ranges generalizing lo with
  | nil => cases hr
  | cons first ranges ih =>
    obtain ⟨hstart, hpos, hrest⟩ := h
    cases hr with
    | head =>
      have hle := hrest.le
      omega
    | tail _ hr =>
      have hin := ih hrest hr
      omega

/-- The ranges together are the interval. -/
theorem Tiles.mem_iff (h : Tiles start stop lo ranges hi) :
    (∃ range ∈ ranges, start range ≤ position ∧ position < stop range) ↔ lo ≤ position ∧ position < hi := by
  constructor
  · rintro ⟨range, hr, hlow, hhigh⟩
    have hin := h.bounds hr
    omega
  rintro ⟨hlow, hhigh⟩
  induction ranges generalizing lo with
  | nil =>
    cases h
    omega
  | cons first ranges ih =>
    obtain ⟨hstart, hpos, hrest⟩ := h
    by_cases hin : position < stop first
    · exact ⟨first, List.mem_cons_self, by omega, hin⟩
    · obtain ⟨range, hr, hmem⟩ := ih hrest (by omega)
      exact ⟨range, List.mem_cons_of_mem _ hr, hmem⟩

/-- An earlier range stops before a later one starts. -/
theorem Tiles.pairwise (h : Tiles start stop lo ranges hi) :
    ranges.Pairwise fun earlier later => stop earlier ≤ start later := by
  induction ranges generalizing lo with
  | nil => exact .nil
  | cons first ranges ih => exact .cons (fun later hl => (h.2.2.bounds hl).1) (ih h.2.2)

end SparkRing.RangeTiling
