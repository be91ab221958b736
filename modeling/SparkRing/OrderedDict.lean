import Mathlib.Algebra.Order.BigOperators.Group.List
import Mathlib.Algebra.Order.Ring.Nat
import Mathlib.Data.List.Nodup

/-!
# Dictionaries that keep insertion order

A dictionary lists its items with distinct keys, the oldest key first. Setting a
known key keeps its place, and a new key goes to the end. Sizes and totals over
the values follow from two rearrangements: a dictionary is any one of its items
beside the rest, and a set item stands beside what the dictionary holds elsewhere.
-/

namespace SparkRing.OrderedDict

/-- Items in insertion order, one for each key. -/
structure Dict (κ α : Type*) where
  /-- The items, the oldest key first. -/
  items : List (κ × α)
  /-- No key has two items. -/
  nodup : (items.map Prod.fst).Nodup

namespace Dict

variable {κ α : Type*} {items : List (κ × α)} {p : κ × α → Bool} {g : κ → α → α}

/-- No items. -/
def empty : Dict κ α := ⟨[], List.nodup_nil⟩

/-- The keys in order. -/
def keys (d : Dict κ α) : List κ := d.items.map Prod.fst

/-- The values in the order of their keys. -/
def values (d : Dict κ α) : List α := d.items.map Prod.snd

/-- The number of items. -/
def size (d : Dict κ α) : ℕ := d.items.length

/-- What a measure of the values adds up to. -/
def total (d : Dict κ α) (f : α → ℕ) : ℕ := (d.items.map fun item => f item.2).sum

/-- The items that pass a check. -/
def filter (d : Dict κ α) (p : κ × α → Bool) : Dict κ α :=
  ⟨d.items.filter p, d.nodup.sublist (List.filter_sublist.map Prod.fst)⟩

/-- Everything but the oldest item. -/
def dropOldest (d : Dict κ α) : Dict κ α := ⟨d.items.tail, d.nodup.sublist ((List.tail_sublist _).map Prod.fst)⟩

/-- Drop the oldest items while there are too many, each turn one. -/
def trimOldest (limit : ℕ) : ℕ → Dict κ α → Dict κ α
  | 0, d => d
  | turns + 1, d => if d.size ≤ limit then d else trimOldest limit turns d.dropOldest

/-- Values change, each item's key and place stay. -/
def adjust (d : Dict κ α) (f : κ → α → α) : Dict κ α :=
  ⟨d.items.map fun item => (item.1, f item.1 item.2), by
    rw [List.map_map]
    exact d.nodup⟩

variable {d : Dict κ α} {j k : κ} {a b : α} {f : α → ℕ}

theorem mem_keys_of_mem (h : (k, a) ∈ d.items) : k ∈ d.keys := List.mem_map_of_mem h

theorem exists_mem_of_mem_keys (h : k ∈ d.keys) : ∃ a, (k, a) ∈ d.items := by
  obtain ⟨⟨j, a⟩, hmem, rfl⟩ := List.mem_map.mp h
  exact ⟨a, hmem⟩

/-- The items whose values change. -/
theorem mem_adjust : (k, a) ∈ (d.adjust g).items ↔ ∃ b, (k, b) ∈ d.items ∧ g k b = a := by
  simp only [adjust, List.mem_map, Prod.mk.injEq, Prod.exists]
  constructor
  · rintro ⟨j, b, hmem, rfl, rfl⟩
    exact ⟨b, hmem, rfl⟩
  · rintro ⟨b, hmem, rfl⟩
    exact ⟨k, b, hmem, rfl, rfl⟩

theorem nodup_items : d.items.Nodup := List.Nodup.of_map Prod.fst d.nodup

theorem size_of_perm (h : d.items.Perm items) : d.size = items.length := h.length_eq

theorem total_of_perm (h : d.items.Perm items) :
    d.total f = (items.map fun item => f item.2).sum := (h.map _).sum_eq

/-- A filter keeps at most what was there. -/
theorem size_filter_le : (d.filter p).size ≤ d.size := List.length_filter_le ..

theorem total_filter_le : (d.filter p).total f ≤ d.total f :=
  (List.filter_sublist.map _).sum_le_sum fun _ _ => Nat.zero_le _

section Lookup

variable [DecidableEq κ]

/-- The value of a key. -/
def get? (d : Dict κ α) (k : κ) : Option α := d.items.lookup k

/-- Without the item of a key. -/
def erase (d : Dict κ α) (k : κ) : Dict κ α := d.filter fun item => decide (item.1 ≠ k)

/-- A known key keeps its place and takes the value; a new key goes to the end. -/
def set (d : Dict κ α) (k : κ) (a : α) : Dict κ α :=
  if h : k ∈ d.keys then d.adjust fun j b => if j = k then a else b
  else ⟨d.items ++ [(k, a)], by
    rw [List.map_append, List.map_singleton]
    exact List.nodup_append.mpr ⟨d.nodup, List.nodup_singleton k, fun x hx y hy => by
      rintro rfl
      cases List.mem_singleton.mp hy
      exact h hx⟩⟩

/-- A key moves to the end. -/
def moveToEnd (d : Dict κ α) (k : κ) : Dict κ α :=
  match d.get? k with
  | none => d
  | some a => (d.erase k).set k a

theorem lookup_eq_some_iff (hn : (items.map Prod.fst).Nodup) : items.lookup k = some a ↔ (k, a) ∈ items := by
  induction items with
  | nil => simp
  | cons item items ih =>
    obtain ⟨j, b⟩ := item
    simp only [List.map_cons, List.nodup_cons] at hn
    rw [List.lookup_cons]
    by_cases hk : k = j
    · subst hk
      simp only [beq_self_eq_true, Option.some.injEq, List.mem_cons, Prod.mk.injEq, true_and]
      constructor
      · intro h
        exact .inl h.symm
      rintro (rfl | hmem)
      · rfl
      · exact absurd (List.mem_map_of_mem hmem) hn.1
    · simp only [beq_eq_false_iff_ne.mpr hk, ih hn.2, List.mem_cons, Prod.mk.injEq, hk, false_and, false_or]

/-- Lookups find exactly the items. -/
theorem get?_eq_some_iff : d.get? k = some a ↔ (k, a) ∈ d.items := lookup_eq_some_iff d.nodup

theorem get?_eq_none_iff : d.get? k = none ↔ k ∉ d.keys := by
  rw [Option.eq_none_iff_forall_ne_some]
  constructor
  · intro h hk
    obtain ⟨a, ha⟩ := exists_mem_of_mem_keys hk
    exact h a (get?_eq_some_iff.mpr ha)
  · intro h a ha
    exact h (mem_keys_of_mem (get?_eq_some_iff.mp ha))

/-- A key that is listed has a value. -/
theorem mem_keys_iff : k ∈ d.keys ↔ ∃ a, d.get? k = some a := by
  constructor
  · intro h
    obtain ⟨a, ha⟩ := exists_mem_of_mem_keys h
    exact ⟨a, get?_eq_some_iff.mpr ha⟩
  · rintro ⟨a, ha⟩
    exact mem_keys_of_mem (get?_eq_some_iff.mp ha)

theorem mem_values_iff : a ∈ d.values ↔ ∃ k, d.get? k = some a := by
  simp only [values, List.mem_map, Prod.exists, exists_eq_right, get?_eq_some_iff]

@[simp] theorem get?_empty : (empty : Dict κ α).get? k = none := rfl

/-- Two dictionaries with the same items look up alike. -/
theorem get?_congr {d' : Dict κ α} (h : ∀ a, (k, a) ∈ d.items ↔ (k, a) ∈ d'.items) : d.get? k = d'.get? k := by
  ext a
  rw [get?_eq_some_iff, get?_eq_some_iff, h a]

/-- A filter keeps what passes. -/
theorem get?_filter_eq_some : (d.filter p).get? k = some a ↔ d.get? k = some a ∧ p (k, a) = true := by
  simp only [get?_eq_some_iff, filter, List.mem_filter]

@[simp] theorem get?_erase_self : (d.erase k).get? k = none := by
  refine Option.eq_none_iff_forall_ne_some.mpr fun a ha => ?_
  exact absurd rfl (of_decide_eq_true (get?_filter_eq_some.mp ha).2)

theorem get?_erase_of_ne (h : j ≠ k) : (d.erase k).get? j = d.get? j :=
  get?_congr fun a => by simp [erase, filter, h]

/-- A lookup after an item is gone. -/
theorem get?_erase : (d.erase k).get? j = if j = k then none else d.get? j := by
  split
  case isTrue h => rw [h, get?_erase_self]
  case isFalse h => exact get?_erase_of_ne h

theorem get?_erase_eq_some : (d.erase k).get? j = some a ↔ j ≠ k ∧ d.get? j = some a := by
  rw [get?_erase]
  split
  case isTrue h => simp [h]
  case isFalse h => simp [h]

/-- A lookup of changed values. -/
theorem get?_adjust : (d.adjust g).get? k = (d.get? k).map (g k) := by
  ext a
  rw [get?_eq_some_iff, mem_adjust, Option.map_eq_some_iff]
  simp only [get?_eq_some_iff]

theorem mem_set : (j, b) ∈ (d.set k a).items ↔ j = k ∧ b = a ∨ j ≠ k ∧ (j, b) ∈ d.items := by
  unfold set
  split
  case isTrue h =>
    rw [mem_adjust]
    constructor
    · rintro ⟨c, hmem, rfl⟩
      by_cases hj : j = k
      · exact .inl ⟨hj, if_pos hj⟩
      · rw [if_neg hj]
        exact .inr ⟨hj, hmem⟩
    rintro (⟨rfl, rfl⟩ | ⟨hj, hmem⟩)
    · obtain ⟨c, hc⟩ := exists_mem_of_mem_keys h
      exact ⟨c, hc, if_pos rfl⟩
    · exact ⟨b, hmem, if_neg hj⟩
  case isFalse h =>
    simp only [List.mem_append, List.mem_singleton, Prod.mk.injEq]
    constructor
    · rintro (hmem | heq)
      · exact .inr ⟨fun hj => h (hj ▸ mem_keys_of_mem hmem), hmem⟩
      · exact .inl heq
    rintro (heq | ⟨-, hmem⟩)
    · exact .inr heq
    · exact .inl hmem

@[simp] theorem get?_set_self : (d.set k a).get? k = some a := get?_eq_some_iff.mpr (mem_set.mpr (.inl ⟨rfl, rfl⟩))

theorem get?_set_of_ne (h : j ≠ k) : (d.set k a).get? j = d.get? j := get?_congr fun b => by simp [mem_set, h]

/-- A lookup after an item is set. -/
theorem get?_set : (d.set k a).get? j = if j = k then some a else d.get? j := by
  split
  case isTrue h => rw [h, get?_set_self]
  case isFalse h => exact get?_set_of_ne h

theorem get?_set_eq_some : (d.set k a).get? j = some b ↔ j = k ∧ b = a ∨ j ≠ k ∧ d.get? j = some b := by
  rw [get?_eq_some_iff, mem_set, get?_eq_some_iff]

/-- A new key goes to the end. -/
theorem items_set_of_not_mem (h : k ∉ d.keys) : (d.set k a).items = d.items ++ [(k, a)] := by
  rw [set, dif_neg h]

/-- Setting a known key keeps the keys. -/
theorem keys_set_of_mem (h : k ∈ d.keys) : (d.set k a).keys = d.keys := by
  rw [set, dif_pos h, keys, adjust, List.map_map]
  rfl

theorem get?_moveToEnd : (d.moveToEnd k).get? j = d.get? j := by
  unfold moveToEnd
  split
  · rfl
  next a ha =>
    rw [get?_set]
    split
    case isTrue h => rw [h, ha]
    case isFalse h => exact get?_erase_of_ne h

/-- What is left without the oldest item was there. -/
theorem get?_of_dropOldest (h : d.dropOldest.get? k = some a) : d.get? k = some a :=
  get?_eq_some_iff.mpr (List.mem_of_mem_tail (get?_eq_some_iff.mp h))

/-- What trimming leaves was there. -/
theorem get?_of_trimOldest {limit turns : ℕ} (h : (trimOldest limit turns d).get? k = some a) : d.get? k = some a := by
  induction turns generalizing d with
  | zero => exact h
  | succ turns ih =>
    rw [trimOldest] at h
    split at h
    · exact h
    · exact get?_of_dropOldest (ih h)

/-- A dictionary without an absent key. -/
theorem erase_of_get?_none (h : d.get? k = none) : (d.erase k).items = d.items := by
  refine List.filter_eq_self.mpr fun item hmem => ?_
  refine decide_eq_true ?_
  rintro rfl
  exact get?_eq_none_iff.mp h (mem_keys_of_mem hmem)

/-- An item beside the rest. -/
theorem perm_erase (h : d.get? k = some a) : d.items.Perm ((k, a) :: (d.erase k).items) := by
  refine (List.perm_ext_iff_of_nodup nodup_items ?_).mpr fun item => ?_
  · refine List.nodup_cons.mpr ⟨fun hmem => ?_, nodup_items⟩
    exact of_decide_eq_true (List.mem_filter.mp hmem).2 rfl
  obtain ⟨j, b⟩ := item
  rw [List.mem_cons, ← get?_eq_some_iff, ← get?_eq_some_iff, get?_erase_eq_some, Prod.mk.injEq]
  by_cases hj : j = k
  · subst hj
    simp [h, eq_comm]
  · simp [hj]

/-- A set item beside what is held elsewhere. -/
theorem perm_set : (d.set k a).items.Perm ((k, a) :: (d.erase k).items) := by
  have hrest : ((d.set k a).erase k).items.Perm (d.erase k).items :=
    (List.perm_ext_iff_of_nodup nodup_items nodup_items).mpr fun item => by
      obtain ⟨j, b⟩ := item
      rw [← get?_eq_some_iff, ← get?_eq_some_iff, get?_erase_eq_some, get?_erase_eq_some, get?_set]
      refine and_congr_right fun hj => ?_
      rw [if_neg hj]
  exact (perm_erase get?_set_self).trans (hrest.cons _)

/-- An item that is gone is no longer counted. -/
theorem size_erase (h : d.get? k = some a) : d.size = (d.erase k).size + 1 := size_of_perm (perm_erase h)

theorem size_set : (d.set k a).size = (d.erase k).size + 1 := size_of_perm perm_set

theorem size_erase_of_none (h : d.get? k = none) : (d.erase k).size = d.size := congrArg List.length (erase_of_get?_none h)

/-- A new key adds one item. -/
theorem size_set_of_none (h : d.get? k = none) : (d.set k a).size = d.size + 1 := by
  rw [size_set, size_erase_of_none h]

/-- A known key adds none. -/
theorem size_set_of_some (h : d.get? k = some b) : (d.set k a).size = d.size := by
  rw [size_set, ← size_erase h]

/-- A total splits at an item. -/
theorem total_erase (h : d.get? k = some a) : d.total f = f a + (d.erase k).total f := by
  rw [total_of_perm (perm_erase h), List.map_cons, List.sum_cons, total]

theorem total_set : (d.set k a).total f = f a + (d.erase k).total f := by
  rw [total_of_perm perm_set, List.map_cons, List.sum_cons, total]

theorem total_erase_of_none (h : d.get? k = none) : (d.erase k).total f = d.total f := by
  rw [total, erase_of_get?_none h, total]

end Lookup

end Dict

end SparkRing.OrderedDict
