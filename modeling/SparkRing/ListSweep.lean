import Mathlib.Data.List.Basic

/-!
# Removing items one request at a time

A sweep goes through a list of requests and removes the first item each one hits.
Every item asks for its own removal or is kept. Some of the removed items are owned,
and the request of an owned item hits owned items only. The kept items survive such a
sweep exactly when none of them stands before an unowned removed item whose request
hits it as well.
-/

namespace SparkRing.ListSweep

open Bool (eq_false_iff)

variable {α : Type*} (items : List α) {requests : List α} {class' q : α → Bool}

/-- Removing an item leaves the others of a kind when it is of another kind. -/
theorem filter_eraseP_of_find? {p : α → Bool} {l : List α} (h : ∀ a, l.find? p = some a → q a = false) :
    (l.eraseP p).filter q = l.filter q := by
  induction l with
  | nil => rfl
  | cons b l ih =>
    by_cases hb : p b = true
    · have hq : q b = false := h b (by simp [hb])
      simp [hb, hq]
    · have hrest : (l.eraseP p).filter q = l.filter q := ih fun a ha => h a (by simpa [hb] using ha)
      simp [hb, List.filter_cons, hrest]

/-- Removing an item of a kind leaves fewer of it. -/
theorem length_filter_eraseP_lt {p : α → Bool} {l : List α} {a : α} (h : l.find? p = some a) (ha : q a = true) :
    ((l.eraseP p).filter q).length < (l.filter q).length := by
  induction l with
  | nil => simp at h
  | cons b l ih =>
    by_cases hb : p b = true
    · obtain rfl : b = a := by simpa [hb] using h
      simp [hb, ha]
    have hrest := ih (by simpa [hb] using h)
    simp only [List.eraseP_cons_of_neg hb, List.filter_cons]
    split_ifs
    · simpa using hrest
    · exact hrest

/-- A part of a list keeps a kind when it keeps it inside a class and the rest outside. -/
theorem filter_eq_iff_of_sublist {s t : List α} (hts : t.Sublist s)
    (houtside : t.filter (fun a => !class' a) = s.filter fun a => !class' a) :
    t.filter q = s.filter q ↔ (t.filter class').filter q = (s.filter class').filter q := by
  have hlength : ∀ l : List α, (l.filter q).length =
      ((l.filter class').filter q).length + ((l.filter fun a => !class' a).filter q).length := by
    intro l
    induction l with
    | nil => rfl
    | cons a l ih =>
      cases hc : class' a <;> cases hq : q a <;> simp [hc, hq, ih] <;> omega
  constructor
  · intro h
    refine ((hts.filter class').filter q).eq_of_length ?_
    have ht := hlength t
    rw [h, houtside, hlength s] at ht
    omega
  intro h
  refine (hts.filter q).eq_of_length ?_
  rw [hlength t, hlength s, h, houtside]

variable (hits : α → α → Bool)

/-- Remove for every request the first item it hits. -/
def sweep (requests items : List α) : List α := requests.foldl (fun left r => left.eraseP (hits r)) items

@[simp] theorem sweep_cons (r : α) (items : List α) : sweep hits (r :: requests) items = sweep hits requests (items.eraseP (hits r)) := rfl

theorem sweep_sublist (requests items : List α) : (sweep hits requests items).Sublist items := by
  induction requests generalizing items with
  | nil => exact .refl _
  | cons r requests ih => exact (ih _).trans List.eraseP_sublist

/-- A sweep inside a class does the same to the items of the class alone. -/
theorem filter_sweep (h : ∀ r ∈ requests, ∀ a, hits r a = true → class' a = true) :
    (sweep hits requests items).filter class' = sweep hits requests (items.filter class') := by
  induction requests generalizing items with
  | nil => rfl
  | cons r requests ih =>
    obtain ⟨hr, hrest⟩ := List.forall_mem_cons.mp h
    have hboth : (fun a => hits r a && class' a) = hits r :=
      funext fun a => by
        cases ha : hits r a
        · rfl
        · simp [hr a ha]
    rw [sweep_cons, sweep_cons, ih _ hrest, List.eraseP_filter, hboth]

theorem filter_not_sweep
    (h : ∀ r ∈ requests, ∀ a, hits r a = true → class' a = true) :
    (sweep hits requests items).filter (fun a => !class' a) = items.filter fun a => !class' a := by
  induction requests generalizing items with
  | nil => rfl
  | cons r requests ih =>
    obtain ⟨hr, hrest⟩ := List.forall_mem_cons.mp h
    rw [sweep_cons, ih _ hrest]
    refine filter_eraseP_of_find? fun a ha => ?_
    rw [hr a (List.find?_some ha)]
    rfl

/-- What the marks of items say about the requests. -/
structure Marks (removed owned : α → Bool) : Prop where
  owned_removed : ∀ a, owned a = true → removed a = true
  /-- The request of an owned item hits owned items only. -/
  owned_hits : ∀ r a, owned r = true → hits r a = true → owned a = true
  /-- The request of an unowned removed item hits the item. -/
  self_hits : ∀ r, removed r = true → owned r = false → hits r r = true
  /-- The request of an owned item hits the item, unless nothing does. -/
  owned_self : ∀ r a, owned a = true → hits r a = true → hits a a = true

/-- No kept item stands before an unowned removed one that hits it. -/
def Free (removed owned : α → Bool) (items : List α) : Prop :=
  ∀ before r after, items = before ++ r :: after → removed r = true → owned r = false →
    ∀ a ∈ before, removed a = false → hits r a = false

/-- A sweep on its way: what it passed, what is left of the items ahead, and these items. -/
structure Midway (removed owned : α → Bool) (passed left ahead : List α) : Prop where
  /-- Passed items that are removed ones are hit by nothing. -/
  passed_kept : ∀ a ∈ passed, removed a = true → ∀ r, hits r a = false
  /-- Nothing is left but items ahead. -/
  left_ahead : left.Sublist ahead
  unowned_left : (ahead.filter fun a => !owned a).Sublist left

variable {hits} {removed owned : α → Bool} {passed left ahead : List α} {a : α}

namespace Midway

theorem start : Midway hits removed owned [] items items :=
  ⟨fun _ h => absurd h List.not_mem_nil, .refl _, List.filter_sublist⟩

section

variable (h : Midway hits removed owned passed left (a :: ahead))

include h

/-- An unowned item ahead is the first one left. -/
theorem head_left (ha : owned a = false) :
    ∃ rest, left = a :: rest ∧ rest.Sublist ahead ∧ (ahead.filter fun b => !owned b).Sublist rest := by
  have hun : (a :: ahead.filter fun b => !owned b).Sublist left := by simpa [ha] using h.unowned_left
  obtain hskip | ⟨rest, rfl, hrest⟩ := List.sublist_cons_iff.mp h.left_ahead
  · have hlong := ((hun.trans hskip).filter fun b => !owned b).length_le
    simp only [List.filter_cons, ha, Bool.not_false, if_true, List.length_cons, List.filter_filter, Bool.and_self] at hlong
    omega
  · exact ⟨rest, rfl, hrest, List.cons_sublist_cons.mp hun⟩

/-- The sweep passes a kept item. -/
theorem pass (ha : removed a = false) (hun : owned a = false) :
    ∃ rest, passed ++ left = (passed ++ [a]) ++ rest ∧ Midway hits removed owned (passed ++ [a]) rest ahead := by
  obtain ⟨rest, rfl, hrest, hleft⟩ := h.head_left hun
  refine ⟨rest, by simp, fun b hb hr => ?_, hrest, hleft⟩
  obtain hb | hb := List.mem_append.mp hb
  · exact h.passed_kept b hb hr
  · rw [List.mem_singleton.mp hb, ha] at hr
    cases hr

/-- The request of an unowned item takes the item when it hits none that was passed. -/
theorem take (hun : owned a = false) (hself : hits a a = true) (hfree : ∀ b ∈ passed, hits a b = false) :
    ∃ rest, left = a :: rest ∧ (passed ++ left).eraseP (hits a) = passed ++ rest ∧ Midway hits removed owned passed rest ahead := by
  obtain ⟨rest, rfl, hrest, hleft⟩ := h.head_left hun
  refine ⟨rest, rfl, ?_, h.passed_kept, hrest, hleft⟩
  rw [List.eraseP_append_right _ fun b hb => by simp [hfree b hb], List.eraseP_cons_of_pos hself]

end

/-- The request of an owned item takes an owned item, and the item itself is behind the sweep. -/
theorem take_owned (hm : Marks hits removed owned) (h : Midway hits removed owned passed left (a :: ahead)) (ha : owned a = true) :
    ∃ before rest, (passed ++ left).eraseP (hits a) = before ++ rest ∧ Midway hits removed owned before rest ahead ∧
      (∀ b ∈ passed, b ∈ before) ∧ ∀ b ∈ before, b ∈ passed ∨ b = a := by
  have hpassed : ∀ b ∈ passed, hits a b ≠ true := fun b hb hhit =>
    absurd hhit (by simp [h.passed_kept b hb (hm.owned_removed b (hm.owned_hits a b ha hhit)) a])
  have hun : (ahead.filter fun b => !owned b).Sublist left := by simpa [ha] using h.unowned_left
  have herase : (ahead.filter fun b => !owned b).eraseP (hits a) = ahead.filter fun b => !owned b :=
    List.eraseP_of_forall_not fun b hb hhit => by
      have hb' := (List.mem_filter.mp hb).2
      rw [hm.owned_hits a b ha hhit] at hb'
      cases hb'
  rw [List.eraseP_append_right _ hpassed]
  obtain hskip | ⟨rest, rfl, hrest⟩ := List.sublist_cons_iff.mp h.left_ahead
  · refine ⟨passed, _, rfl, ⟨h.passed_kept, List.eraseP_sublist.trans hskip, ?_⟩, fun _ hb => hb, fun _ hb => .inl hb⟩
    rw [← herase]
    exact hun.eraseP
  have hun' : (ahead.filter fun b => !owned b).Sublist rest := by
    have hfilter := hun.filter fun b => !owned b
    simp only [List.filter_filter, Bool.and_self, List.filter_cons, ha, Bool.not_true] at hfilter
    exact hfilter.trans List.filter_sublist
  by_cases hself : hits a a = true
  · rw [List.eraseP_cons_of_pos hself]
    exact ⟨passed, rest, rfl, ⟨h.passed_kept, hrest, hun'⟩, fun _ hb => hb, fun _ hb => .inl hb⟩
  rw [List.eraseP_cons_of_neg hself]
  refine ⟨passed ++ [a], rest.eraseP (hits a), by simp, ⟨fun b hb hr r => ?_, List.eraseP_sublist.trans hrest, ?_⟩,
    fun b hb => List.mem_append_left _ hb, fun b hb => by simpa using hb⟩
  · obtain hb | hb := List.mem_append.mp hb
    · exact h.passed_kept b hb hr r
    · rw [List.mem_singleton.mp hb]
      exact eq_false_iff.mpr fun hhit => hself (hm.owned_self r a ha hhit)
  · rw [← herase]
    exact hun'.eraseP

/-- No kept item that was passed or stands ahead of an unowned removed one is hit by it. -/
def Clear (hits : α → α → Bool) (removed owned : α → Bool) (passed ahead : List α) : Prop :=
  ∀ before r after, ahead = before ++ r :: after → removed r = true → owned r = false →
    ∀ b ∈ passed ++ before, removed b = false → hits r b = false

/-- A passed kept item is not hit by the next unowned removed one. -/
theorem Clear.passed_free (hc : Clear hits removed owned passed (a :: ahead))
    (h : Midway hits removed owned passed left (a :: ahead)) (ha : removed a = true) (hun : owned a = false) :
    ∀ b ∈ passed, hits a b = false := fun b hb => by
  by_cases hr : removed b = true
  · exact h.passed_kept b hb hr a
  · exact hc [] a ahead rfl ha hun b (by simpa using hb) (eq_false_iff.mpr hr)

/-- The items ahead stay clear of what is passed on the way. -/
theorem Clear.mono {before : List α} (hc : Clear hits removed owned passed (a :: ahead))
    (hsub : ∀ b ∈ before, b ∈ passed ∨ b = a) : Clear hits removed owned before ahead := by
  rintro first r after rfl hr hun b hb hkept
  refine hc (a :: first) r after rfl hr hun b ?_ hkept
  obtain hb | hb := List.mem_append.mp hb
  · obtain hb | rfl := hsub b hb
    · exact List.mem_append_left _ hb
    · exact List.mem_append_right _ (List.mem_cons_self ..)
  · exact List.mem_append_right _ (List.mem_cons_of_mem _ hb)

/-- Taking the item that a request of its own hits leaves the kept items. -/
theorem filter_take (hm : Marks hits removed owned) (items : List α) (ha : owned a = true) :
    (items.eraseP (hits a)).filter (fun b => !removed b) = items.filter fun b => !removed b :=
  filter_eraseP_of_find? fun b hb => by
    rw [hm.owned_removed b (hm.owned_hits a b ha (List.find?_some hb))]
    rfl

/-- A sweep keeps what it passes when the items ahead are clear of it. -/
theorem filter_sweep_of_clear (hm : Marks hits removed owned) (h : Midway hits removed owned passed left ahead)
    (hc : Clear hits removed owned passed ahead) (hr : requests <+: ahead.filter removed) :
    (sweep hits requests (passed ++ left)).filter (fun b => !removed b) = (passed ++ left).filter fun b => !removed b := by
  induction ahead generalizing passed left requests with
  | nil =>
    rw [List.prefix_nil.mp hr]
    rfl
  | cons a ahead ih =>
    by_cases ha : removed a = true
    · rw [List.filter_cons_of_pos ha] at hr
      cases requests with
      | nil => rfl
      | cons r requests =>
        obtain ⟨rfl, hrest⟩ := List.cons_prefix_cons.mp hr
        rw [sweep_cons]
        by_cases hun : owned r = true
        · obtain ⟨before, rest, heq, hmid, -, hsub⟩ := h.take_owned hm hun
          rw [← filter_take hm (passed ++ left) hun, heq]
          exact ih hmid (hc.mono hsub) hrest
        have hun := eq_false_iff.mpr hun
        obtain ⟨rest, rfl, heq, hmid⟩ := h.take hun (hm.self_hits r ha hun) (hc.passed_free h ha hun)
        rw [heq, ih hmid (hc.mono fun b hb => .inl hb) hrest]
        simp [ha]
    · have ha := eq_false_iff.mpr ha
      have hun : owned a = false := eq_false_iff.mpr fun hown => by simp [hm.owned_removed a hown] at ha
      obtain ⟨rest, heq, hmid⟩ := h.pass ha hun
      rw [List.filter_cons_of_neg (by simp [ha])] at hr
      rw [heq]
      exact ih hmid (hc.mono fun b hb => by simpa using hb) hr

/-- A whole sweep that keeps everything went through items clear of what it passed. -/
theorem clear_of_filter_sweep (hm : Marks hits removed owned) (h : Midway hits removed owned passed left ahead)
    (hkeep : (sweep hits (ahead.filter removed) (passed ++ left)).filter (fun b => !removed b) =
      (passed ++ left).filter fun b => !removed b) :
    Clear hits removed owned passed ahead := by
  induction ahead generalizing passed left with
  | nil => exact fun before r after h => by simp at h
  | cons a ahead ih =>
    -- the clearance of the items behind the head is the induction's, the head's own is left
    have hcons : ∀ {before : List α}, Clear hits removed owned before ahead →
        (∀ b ∈ passed, b ∈ before) → (removed a = false → a ∈ before) →
        (removed a = true → owned a = false → ∀ b ∈ passed, hits a b = false) →
        Clear hits removed owned passed (a :: ahead) := by
      intro before hclear hpassed hhead hfree first r after hsplit hr hun b hb hkept
      cases first with
      | nil =>
        obtain ⟨rfl, rfl⟩ := List.cons_eq_cons.mp hsplit
        exact hfree hr hun b (by simpa using hb)
      | cons c first =>
        obtain ⟨rfl, rfl⟩ := List.cons_eq_cons.mp hsplit
        refine hclear first r after rfl hr hun b ?_ hkept
        simp only [List.mem_append, List.mem_cons] at hb ⊢
        obtain hb | rfl | hb := hb
        · exact .inl (hpassed b hb)
        · exact .inl (hhead hkept)
        · exact .inr hb
    by_cases ha : removed a = true
    · rw [List.filter_cons_of_pos ha, sweep_cons] at hkeep
      by_cases hun : owned a = true
      · obtain ⟨before, rest, heq, hmid, hpassed, -⟩ := h.take_owned hm hun
        rw [← filter_take hm (passed ++ left) hun, heq] at hkeep
        exact hcons (ih hmid hkeep) hpassed (fun hno => by simp [ha] at hno) fun _ hno => by simp [hun] at hno
      have hun := eq_false_iff.mpr hun
      have hfree : ∀ b ∈ passed, hits a b = false := by
        intro b hb
        by_contra hab
        have hab : hits a b = true := by simpa using hab
        obtain ⟨c, hc⟩ := Option.isSome_iff_exists.mp (List.find?_isSome.mpr ⟨b, hb, hab⟩)
        have hfind : (passed ++ left).find? (hits a) = some c := by rw [List.find?_append, hc]; rfl
        have hkept : removed c = false := eq_false_iff.mpr fun hr => by
          have := h.passed_kept c (List.mem_of_find?_eq_some hc) hr a
          rw [List.find?_some hc] at this
          cases this
        have hless := length_filter_eraseP_lt (q := fun b => !removed b) hfind (by simp [hkept])
        have hle := ((sweep_sublist hits (ahead.filter removed) ((passed ++ left).eraseP (hits a))).filter
          fun b => !removed b).length_le
        rw [hkeep] at hle
        omega
      obtain ⟨rest, rfl, heq, hmid⟩ := h.take hun (hm.self_hits a ha hun) hfree
      rw [heq] at hkeep
      refine hcons (ih hmid (hkeep.trans ?_)) (fun _ hb => hb) (fun hno => by simp [ha] at hno) fun _ _ => hfree
      simp [ha]
    · have ha := eq_false_iff.mpr ha
      have hun : owned a = false := eq_false_iff.mpr fun hown => by simp [hm.owned_removed a hown] at ha
      obtain ⟨rest, heq, hmid⟩ := h.pass ha hun
      rw [List.filter_cons_of_neg (by simp [ha]), heq] at hkeep
      exact hcons (ih hmid hkeep) (fun b hb => List.mem_append_left _ hb) (fun _ => by simp)
        fun hno => by simp [ha] at hno

end Midway

/-- A sweep from the start keeps the kept items where none of them is in the way. -/
theorem sweep_keeps (hm : Marks hits removed owned) {items : List α} (hf : Free hits removed owned items)
    (hr : requests <+: items.filter removed) :
    (sweep hits requests items).filter (fun b => !removed b) = items.filter fun b => !removed b :=
  Midway.filter_sweep_of_clear hm (Midway.start items)
    (fun before r after h hr hun b hb => hf before r after h hr hun b (by simpa using hb)) hr

/-- Where a whole sweep keeps the kept items, none of them is in the way. -/
theorem free_of_sweep_keeps (hm : Marks hits removed owned) {items : List α}
    (h : (sweep hits (items.filter removed) items).filter (fun b => !removed b) = items.filter fun b => !removed b) :
    Free hits removed owned items := fun before r after hsplit hr hun b hb =>
  Midway.clear_of_filter_sweep hm (Midway.start items) h before r after hsplit hr hun b (by simpa using hb)

end SparkRing.ListSweep
