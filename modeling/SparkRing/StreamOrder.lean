import Mathlib.Data.List.Infix

/-!
# Work on streams

Each stream does its items in order, one after another. An item is some work, or a wait that is
over once another stream has done as many items as it had when the wait's event was recorded.
What a chain of waits puts behind the end of a stream is done when that stream is.
-/

namespace SparkRing.StreamOrder

open Function

variable {ι κ : Type*}

/-- An item of a stream. -/
inductive Item (ι κ : Type*)
  | work (w : κ)
  /-- Until a stream has done so many items. -/
  | wait (stream : ι) (mark : ℕ)
deriving DecidableEq

/-- Streams with their items, and how many of them are done. -/
structure Streams (ι κ : Type*) where
  items : ι → List (Item ι κ)
  done : ι → ℕ
  /-- The streams that ever had an item. -/
  used : List ι

/-- Streams without items. -/
def Streams.empty : Streams ι κ := ⟨fun _ => [], fun _ => 0, []⟩

namespace Streams

section Run

variable [DecidableEq ι] (s : Streams ι κ) (t : ι)

/-- Enqueue an item. -/
def push (x : Item ι κ) : Streams ι κ := { s with items := Function.update s.items t (s.items t ++ [x]), used := t :: s.used }

/-- A stream that has done its items. -/
def idle : Bool := decide (s.done t = (s.items t).length)

/-- A stream has done so many items. -/
def reached (mark : ℕ) : Bool := decide (mark ≤ s.done t)

/-- The next item of a stream is done, if it may be. -/
def finish : Option (Streams ι κ) :=
  match (s.items t)[s.done t]? with
  | none => none
  | some (.work _) => some { s with done := Function.update s.done t (s.done t + 1) }
  | some (.wait u mark) => if s.reached u mark then some { s with done := Function.update s.done t (s.done t + 1) } else none

end Run

/-- No stream is ahead of its items or of its waits. -/
structure Sound (s : Streams ι κ) : Prop where
  le : ∀ t, s.done t ≤ (s.items t).length
  waits : ∀ t i u mark, i < s.done t → (s.items t)[i]? = some (.wait u mark) → mark ≤ s.done u
  used : ∀ t, s.items t ≠ [] → t ∈ s.used

/-- An item is at a place of a stream. -/
def At (s : Streams ι κ) (t : ι) (i : ℕ) (x : Item ι κ) : Prop := (s.items t)[i]? = some x

/-- The streams went on: they kept their items and what they had done. -/
structure Grows (s s' : Streams ι κ) : Prop where
  items : ∀ t, s.items t <+: s'.items t
  done : ∀ t, s.done t ≤ s'.done t

/-- A place that is done when a stream has done so many items: it is one of them, or behind a wait among
them. -/
inductive Behind (s : Streams ι κ) (t : ι) (i : ℕ) : ι → ℕ → Prop
  | here {mark : ℕ} : i < mark → Behind s t i t mark
  | through {u v : ι} {j mark mark' : ℕ} : j < mark → s.At u j (.wait v mark') → Behind s t i v mark' → Behind s t i u mark

variable {s s' s'' : Streams ι κ} {t u v : ι} {i mark mark' : ℕ} {x : Item ι κ}

theorem Sound.empty : (Streams.empty : Streams ι κ).Sound where
  le _ := le_refl 0
  waits _ i _ _ hi := absurd hi (Nat.not_lt_zero i)
  used _ h := absurd rfl h

theorem Grows.refl (s : Streams ι κ) : s.Grows s := ⟨fun _ => List.prefix_rfl, fun _ => le_refl _⟩

theorem Grows.trans (h : s.Grows s') (h' : s'.Grows s'') : s.Grows s'' :=
  ⟨fun t => (h.items t).trans (h'.items t), fun t => (h.done t).trans (h'.done t)⟩

/-- What is at a place stays there. -/
theorem At.mono (hgrow : s.Grows s') (h : s.At t i x) : s'.At t i x := by
  obtain ⟨rest, hrest⟩ := hgrow.items t
  unfold At at *
  rw [← hrest, List.getElem?_append_left (List.getElem?_eq_some_iff.mp h).1]
  exact h

theorem Behind.mono (hgrow : s.Grows s') (h : s.Behind t i u mark) : s'.Behind t i u mark := by
  induction h with
  | here hi => exact .here hi
  | through hj hwait _ ih => exact .through hj (hwait.mono hgrow) ih

theorem Behind.le (h : s.Behind t i u mark) (hle : mark ≤ mark') : s.Behind t i u mark' := by
  cases h with
  | here hi => exact .here (hi.trans_le hle)
  | through hj hwait hbehind => exact .through (hj.trans_le hle) hwait hbehind

/-- What is behind the items that a stream has done is done. -/
theorem Behind.done (hsound : s.Sound) (h : s.Behind t i u mark) (hdone : mark ≤ s.done u) : i < s.done t := by
  induction h with
  | here hi => exact hi.trans_le hdone
  | through hj hwait _ ih => exact ih (hsound.waits _ _ _ _ (hj.trans_le hdone) hwait)

section Run

variable [DecidableEq ι]

theorem items_push (s : Streams ι κ) (t u : ι) (x : Item ι κ) : (s.push t x).items u = if u = t then s.items t ++ [x] else s.items u := by
  change update s.items t (s.items t ++ [x]) u = _
  split_ifs with h
  · rw [h, update_self]
  · rw [update_of_ne h]

theorem grows_push (s : Streams ι κ) (t : ι) (x : Item ι κ) : s.Grows (s.push t x) := by
  refine ⟨fun u => ?_, fun _ => le_refl _⟩
  rw [items_push]
  split_ifs with h
  · rw [h]
    exact List.prefix_append _ _
  · exact List.prefix_rfl

/-- A pushed item is the stream's last one. -/
theorem at_push (s : Streams ι κ) (t : ι) (x : Item ι κ) : (s.push t x).At t (s.items t).length x := by
  rw [At, items_push, if_pos rfl]
  simp

/-- An item that a push leaves at a place was there, or is the pushed one. -/
theorem At.of_push {y : Item ι κ} (h : (s.push t x).At u i y) : s.At u i y ∨ u = t ∧ i = (s.items t).length ∧ y = x := by
  rw [At, items_push] at h
  split_ifs at h with hu
  · rcases Nat.lt_trichotomy i (s.items t).length with hlt | heq | hgt
    · rw [List.getElem?_append_left hlt] at h
      exact Or.inl (hu ▸ h)
    · rw [List.getElem?_append_right heq.ge, heq, Nat.sub_self] at h
      exact Or.inr ⟨hu, heq, (Option.some.inj h).symm⟩
    · rw [List.getElem?_eq_none (by rw [List.length_append, List.length_singleton]; omega)] at h
      cases h
  · exact Or.inl h

theorem Sound.push (h : s.Sound) (t : ι) (x : Item ι κ) : (s.push t x).Sound := by
  have hgrow := grows_push s t x
  refine ⟨fun u => (h.le u).trans (hgrow.items u).length_le, fun u i v mark hi hwait => ?_, fun u hu => ?_⟩
  · have hold : s.At u i (.wait v mark) := by
      rcases At.of_push hwait with hold | ⟨rfl, rfl, -⟩
      · exact hold
      · exact absurd (h.le u) (Nat.not_le.mpr hi)
    exact h.waits u i v mark hi hold
  by_cases hut : u = t
  · exact hut ▸ List.mem_cons_self
  · rw [items_push, if_neg hut] at hu
    exact List.mem_cons_of_mem t (h.used u hu)

/-- A step of a stream goes on and stays sound. -/
theorem Sound.finish (h : s.Sound) (hfinish : s.finish t = some s') : s'.Sound ∧ s.Grows s' ∧ s'.items = s.items := by
  have hstep : ∀ {y : Item ι κ}, s.At t (s.done t) y → (∀ u mark, y = .wait u mark → mark ≤ s.done u) →
      s' = { s with done := update s.done t (s.done t + 1) } → s'.Sound ∧ s.Grows s' ∧ s'.items = s.items := by
    rintro y hy hwait rfl
    have hmono : ∀ u, s.done u ≤ update s.done t (s.done t + 1) u := by
      intro u
      by_cases hu : u = t
      · rw [hu, update_self]
        exact Nat.le_succ _
      · rw [update_of_ne hu]
    refine ⟨⟨fun u => ?_, fun u i v mark hi hat => ?_, h.used⟩, ⟨fun _ => List.prefix_rfl, hmono⟩, rfl⟩
    · by_cases hu : u = t
      · change update s.done t (s.done t + 1) u ≤ _
        rw [hu, update_self]
        exact (List.getElem?_eq_some_iff.mp hy).1
      change update s.done t (s.done t + 1) u ≤ _
      rw [update_of_ne hu]
      exact h.le u
    change i < update s.done t (s.done t + 1) u at hi
    by_cases hu : u = t
    · subst hu
      rw [update_self] at hi
      rcases Nat.lt_succ_iff_lt_or_eq.mp hi with hlt | rfl
      · exact (h.waits u i v mark hlt hat).trans (hmono v)
      · exact (hwait v mark (Option.some.inj (hy.symm.trans hat))).trans (hmono v)
    · rw [update_of_ne hu] at hi
      exact (h.waits u i v mark hi hat).trans (hmono v)
  unfold Streams.finish at hfinish
  split at hfinish
  · cases hfinish
  · next w hw => exact hstep hw (fun _ _ hwait => nomatch hwait) (Option.some.inj hfinish).symm
  next u mark hw =>
  split_ifs at hfinish with hreached
  refine hstep hw (fun v mark' hwait => ?_) (Option.some.inj hfinish).symm
  cases hwait
  exact of_decide_eq_true hreached

omit [DecidableEq ι] in
/-- What is at a place of an idle stream is done. -/
theorem done_of_idle (hidle : s.idle t = true) (h : s.At t i x) : i < s.done t := by
  rw [of_decide_eq_true hidle]
  exact (List.getElem?_eq_some_iff.mp h).1

end Run

end Streams

end SparkRing.StreamOrder
