import SparkRing.RingBuffer
import SparkRing.SequenceWord
import Mathlib.Algebra.Order.BigOperators.Group.List

/-!
# Writes in flight on a queue pair

Every write request has an entry in a ring of 256 until it completes. A data write of a
windowed lane holds its bytes in the lane's window until it completes or a credit of the
receiver proves it delivered.
-/

namespace SparkRing.Channel

open SequenceWord

/-- Work requests a send queue holds. -/
def sendDepth : ℕ := 256

/-- Work requests in flight on a queue pair. -/
def inflight : ℕ := sendDepth / 2

/-- Values of the counter of unacknowledged bytes. -/
def byteModulus : ℕ := 2 ^ 64

/-- What a work request writes. -/
inductive Kind
  /-- Bytes of an item. -/
  | data
  | header
  /-- A lane's flag of an item. -/
  | flag
  | credit
  deriving DecidableEq

/-- A work request in flight. -/
structure Ack where
  /-- Bytes it holds in the lane's window. -/
  bytes : ℕ
  item : ℕ
  /-- What it writes. -/
  kind : Kind
  /-- A credit proved it delivered. -/
  proven : Bool
  deriving DecidableEq

/-- The entries of a queue pair and the bytes posted and not yet delivered. -/
structure Acks where
  /-- The entries. -/
  ring : RingBuffer Ack
  /-- Bytes posted and not yet delivered, as a 64-bit counter. -/
  unacked : ℕ

/-- No request. -/
def Acks.empty : Acks := ⟨⟨fun _ => ⟨0, 0, .data, false⟩, 0, 0⟩, 0⟩

/-- Entries in flight, oldest first. -/
def Acks.inFlight (q : Acks) : List Ack := q.ring.toList sendDepth

/-- There is room for work requests. -/
def Acks.room (q : Acks) (wrs : ℕ) : Bool := decide (q.ring.count + wrs ≤ inflight)

/-- A request is posted. -/
def Acks.push (q : Acks) (bytes item : ℕ) (kind : Kind) : Acks where
  ring := q.ring.push sendDepth ⟨bytes, item, kind, false⟩
  unacked := (q.unacked + bytes) % byteModulus

/-- Take bytes from the counter. -/
def Acks.retire (q : Acks) (bytes : ℕ) : ℕ := (q.unacked + byteModulus - bytes) % byteModulus

/-- A request completes: the oldest entry leaves. -/
def Acks.pop (q : Acks) : Acks :=
  if q.ring.count = 0 then q
  else
    let oldest := q.ring.cells (q.ring.index sendDepth 0)
    { ring := q.ring.pop sendDepth
      unacked := if oldest.proven then q.unacked else q.retire oldest.bytes }

/-- An entry once proven. -/
def Ack.prove (a : Ack) : Ack := { a with proven := true }

/-- A credit proves delivered the data writes of items before it, from the k-th entry
on; the first data write of a later item ends the walk. -/
def Acks.proveFrom (credit : ℕ) : ℕ → ℕ → Acks → Acks
  | 0, _, q => q
  | left + 1, k, q =>
    let a := q.ring.cells (q.ring.index sendDepth k)
    if a.kind ≠ .data ∨ a.proven = true then q.proveFrom credit left (k + 1)
    else if 0 ≤ gap a.item credit then q
    else Acks.proveFrom credit left (k + 1)
      { ring := q.ring.modify sendDepth Ack.prove k, unacked := q.retire a.bytes }

/-- A credit proves delivered the data writes of items before it. -/
def Acks.prove (q : Acks) (credit : ℕ) : Acks := q.proveFrom credit q.ring.count 0

/-- What a credit does to the entries in flight. -/
def proveList (credit : ℕ) : List Ack → List Ack
  | [] => []
  | a :: as =>
    if a.kind ≠ .data ∨ a.proven = true then a :: proveList credit as
    else if 0 ≤ gap a.item credit then a :: as
    else a.prove :: proveList credit as

/-- Window bytes of the entries not proven delivered. -/
def unproven (as : List Ack) : ℕ := (as.map fun a => if a.proven then 0 else a.bytes).sum

@[simp] theorem unproven_nil : unproven [] = 0 := rfl

@[simp] theorem unproven_cons (a : Ack) (as : List Ack) : unproven (a :: as) = (if a.proven then 0 else a.bytes) + unproven as := by
  simp only [unproven, List.map_cons, List.sum_cons]

@[simp] theorem unproven_append (as bs : List Ack) : unproven (as ++ bs) = unproven as + unproven bs := by
  simp only [unproven, List.map_append, List.sum_append]

/-- An entry not proven holds its bytes in the sum. -/
theorem bytes_le_unproven {a : Ack} (ha : a ∈ as) (hproven : a.proven = false) : a.bytes ≤ unproven as := by
  induction as with
  | nil => cases ha
  | cons b as ih =>
    rw [unproven_cons]
    rcases List.mem_cons.mp ha with rfl | ha
    · rw [hproven, if_neg Bool.false_ne_true]
      exact Nat.le_add_right _ _
    · exact (ih ha).trans (Nat.le_add_left _ _)

/-- What holds of a queue pair's entries. -/
structure Accounted (q : Acks) : Prop where
  /-- At most half the send queue is in flight. -/
  room : q.ring.count ≤ inflight
  /-- The counter is the sum of the unproven entries' bytes. -/
  unacked : q.unacked = unproven q.inFlight
  /-- Only data writes hold bytes, less than a word counts. -/
  bytes : ∀ a ∈ q.inFlight, a.bytes < 2 ^ 32 ∧ (a.kind ≠ .data → a.bytes = 0 ∧ a.proven = false)

variable {q : Acks} {credit bytes item : ℕ} {kind : Kind} {as : List Ack}

theorem Acks.length_inFlight : q.inFlight.length = q.ring.count := RingBuffer.length_toList

theorem accounted_empty : Accounted .empty where
  room := Nat.zero_le _
  unacked := rfl
  bytes a ha := by cases ha

/-- The sum stays far below the counter's range. -/
theorem unproven_lt (h : ∀ a ∈ as, a.bytes < 2 ^ 32) : unproven as ≤ as.length * 2 ^ 32 := by
  induction as with
  | nil => exact Nat.zero_le _
  | cons a as ih =>
    have ha := h a List.mem_cons_self
    have htail := ih fun b hb => h b (List.mem_cons_of_mem a hb)
    rw [unproven_cons, List.length_cons]
    split <;> omega

theorem Accounted.unacked_le (h : Accounted q) : q.unacked ≤ q.ring.count * 2 ^ 32 := by
  rw [h.unacked, ← Acks.length_inFlight]
  exact unproven_lt fun a ha => (h.bytes a ha).1

/-- A push within the room overwrites no entry in flight. -/
theorem inFlight_push (hroom : q.ring.count < sendDepth) : (q.push bytes item kind).inFlight = q.inFlight ++ [⟨bytes, item, kind, false⟩] :=
  RingBuffer.toList_push hroom _

theorem Accounted.push (h : Accounted q) (hroom : q.room 1 = true) (hbytes : bytes < 2 ^ 32) (hkind : kind ≠ .data → bytes = 0) :
    (q.push bytes item kind).inFlight = q.inFlight ++ [⟨bytes, item, kind, false⟩] ∧ Accounted (q.push bytes item kind) := by
  have hfree : q.ring.count + 1 ≤ 128 := of_decide_eq_true hroom
  have hdepth : q.ring.count < sendDepth := by
    simp only [sendDepth]
    omega
  have hlist : (q.push bytes item kind).inFlight = q.inFlight ++ [⟨bytes, item, kind, false⟩] := inFlight_push hdepth
  have hle := h.unacked_le
  refine ⟨hlist, ?_, ?_, ?_⟩
  · exact hfree
  · rw [hlist]
    simp only [Acks.push, byteModulus, h.unacked, unproven_append, unproven_cons, unproven_nil, Bool.false_eq_true,
      if_false, Nat.add_zero]
    rw [h.unacked] at hle
    refine Nat.mod_eq_of_lt ?_
    omega
  intro a ha
  rw [hlist] at ha
  rcases List.mem_append.mp ha with ha | ha
  · exact h.bytes a ha
  · obtain rfl := List.mem_singleton.mp ha
    exact ⟨hbytes, fun hk => ⟨hkind hk, rfl⟩⟩

/-- Taking bytes that the counter holds does not wrap it. -/
theorem Accounted.retire (h : Accounted q) {rest : ℕ} (hsum : unproven q.inFlight = bytes + rest) : q.retire bytes = rest := by
  have hle := h.unacked_le
  have hroom := h.room
  have hu := h.unacked
  simp only [inflight, sendDepth] at hroom
  simp only [Acks.retire, byteModulus]
  omega

/-- The oldest entry leaves. -/
theorem Accounted.pop (h : Accounted q) : q.pop.inFlight = q.inFlight.tail ∧ Accounted q.pop := by
  by_cases hc : q.ring.count = 0
  · have hpop : q.pop = q := if_pos hc
    have hnil : q.inFlight = [] := List.length_eq_zero_iff.mp (Acks.length_inFlight.trans hc)
    rw [hpop, hnil]
    exact ⟨rfl, h⟩
  have hlist : q.pop.inFlight = q.inFlight.tail := by
    simp only [Acks.pop, hc, if_false, Acks.inFlight]
    exact RingBuffer.toList_pop
  obtain ⟨n, hn⟩ := Nat.exists_eq_succ_of_ne_zero hc
  have hcons : q.inFlight = q.ring.cells (q.ring.index sendDepth 0) :: q.inFlight.tail := by
    simp [Acks.inFlight, RingBuffer.toList, hn, List.range_succ_eq_map]
  have hcount : q.pop.ring.count = q.ring.count - 1 := by
    simp [Acks.pop, RingBuffer.pop, hc]
  refine ⟨hlist, ?_, ?_, ?_⟩
  · have hroom := h.room
    omega
  · have hsum := congrArg unproven hcons
    rw [unproven_cons] at hsum
    rw [hlist]
    simp only [Acks.pop, hc, if_false]
    split at hsum
    case isTrue hp =>
      rw [if_pos hp, h.unacked, hsum, Nat.zero_add]
    case isFalse hp =>
      rw [if_neg hp]
      exact h.retire hsum
  · intro a ha
    rw [hlist] at ha
    exact h.bytes a (List.mem_of_mem_tail ha)

/-- One entry of the walk is proven. -/
theorem Accounted.proveAt (h : Accounted q) {k : ℕ} (hk : k < q.ring.count) (hdata : (q.ring.cells (q.ring.index sendDepth k)).kind = .data)
    (hp : (q.ring.cells (q.ring.index sendDepth k)).proven = false) {r : Acks}
    (hr : r = ⟨q.ring.modify sendDepth Ack.prove k, q.retire (q.ring.cells (q.ring.index sendDepth k)).bytes⟩) :
    r.inFlight = q.inFlight.set k (q.ring.cells (q.ring.index sendDepth k)).prove ∧ Accounted r := by
  have hroom := h.room
  simp only [inflight, sendDepth] at hroom
  have hdepth : q.ring.count ≤ sendDepth := by simp only [sendDepth]; omega
  subst hr
  obtain ⟨older, newer, hold, hnew⟩ := RingBuffer.toList_modify_split hdepth Ack.prove hk
  refine ⟨RingBuffer.toList_modify hdepth Ack.prove hk, h.room, ?_, ?_⟩
  · change q.retire _ = unproven (RingBuffer.toList sendDepth _)
    rw [hnew]
    refine h.retire ?_
    change unproven (RingBuffer.toList sendDepth _) = _
    rw [hold]
    simp only [unproven_append, unproven_cons, hp, Ack.prove, if_true, Bool.false_eq_true, if_false]
    omega
  intro a ha
  change a ∈ RingBuffer.toList sendDepth _ at ha
  rw [hnew] at ha
  rcases List.mem_append.mp ha with ha | ha
  · refine h.bytes a ?_
    change a ∈ RingBuffer.toList sendDepth _
    rw [hold]
    exact List.mem_append_left _ ha
  rcases List.mem_cons.mp ha with rfl | ha
  · have hmem : q.ring.cells (q.ring.index sendDepth k) ∈ q.inFlight := by
      change _ ∈ RingBuffer.toList sendDepth _
      rw [hold]
      exact List.mem_append_right _ List.mem_cons_self
    exact ⟨(h.bytes _ hmem).1, fun hk' => absurd hdata hk'⟩
  refine h.bytes a ?_
  change a ∈ RingBuffer.toList sendDepth _
  rw [hold]
  exact List.mem_append_right _ (List.mem_cons_of_mem _ ha)

/-- The walk from an entry on rewrites the entries from there. -/
theorem Accounted.proveFrom (credit : ℕ) (left k : ℕ) (h : Accounted q) (hk : k + left = q.ring.count) :
    (q.proveFrom credit left k).inFlight = q.inFlight.take k ++ proveList credit (q.inFlight.drop k) ∧
      Accounted (q.proveFrom credit left k) := by
  induction left generalizing k q with
  | zero =>
    have hlen : q.inFlight.length ≤ k := by
      rw [Acks.length_inFlight]
      omega
    rw [List.drop_eq_nil_of_le hlen, List.take_of_length_le hlen]
    exact ⟨(List.append_nil _).symm, h⟩
  | succ left ih =>
    have hlt : k < q.inFlight.length := by
      rw [Acks.length_inFlight]
      omega
    have hcell : q.inFlight[k] = q.ring.cells (q.ring.index sendDepth k) := by
      simp [Acks.inFlight, RingBuffer.toList]
    have htake : q.inFlight.take (k + 1) = q.inFlight.take k ++ [q.ring.cells (q.ring.index sendDepth k)] := by
      rw [← hcell]
      exact (List.take_append_getElem hlt).symm
    have hdrop : q.inFlight.drop k = q.ring.cells (q.ring.index sendDepth k) :: q.inFlight.drop (k + 1) := by
      rw [← hcell]
      exact List.drop_eq_getElem_cons hlt
    unfold Acks.proveFrom
    dsimp only
    rw [hdrop, proveList]
    split
    case isTrue =>
      obtain ⟨hlist, haccount⟩ := ih (k + 1) h (by omega)
      refine ⟨?_, haccount⟩
      rw [hlist, htake, List.append_assoc]
      rfl
    case isFalse hdata =>
      rw [not_or, not_not, Bool.not_eq_true] at hdata
      split
      case isTrue =>
        refine ⟨?_, h⟩
        rw [← hdrop, List.take_append_drop]
      case isFalse =>
        obtain ⟨hset, hproved⟩ := h.proveAt (by omega) hdata.1 hdata.2 rfl
        obtain ⟨hlist, haccount⟩ := ih (k + 1) hproved (by change k + 1 + left = q.ring.count; omega)
        refine ⟨?_, haccount⟩
        rw [hlist, hset, List.take_set, List.drop_set_of_lt (Nat.lt_succ_self k), htake,
          List.set_append_right _ _ (by rw [List.length_take]; omega), List.length_take,
          Nat.min_eq_left hlt.le, Nat.sub_self, List.set_cons_zero, List.append_assoc]
        rfl

/-- A credit rewrites every entry in flight once. -/
theorem Accounted.prove (h : Accounted q) (credit : ℕ) :
    (q.prove credit).inFlight = proveList credit q.inFlight ∧ Accounted (q.prove credit) := by
  have hwalk := h.proveFrom credit q.ring.count 0 (Nat.zero_add _)
  rwa [List.take_zero, List.nil_append, List.drop_zero] at hwalk

end SparkRing.Channel
