import SparkRing.RingBuffer
import SparkRing.SequenceWord
import Mathlib.Algebra.Order.BigOperators.Group.List

/-!
# Signaled work requests of one queue pair

Every signaled work request in flight has an entry that names the bytes it
retires; completions arrive in posting order and retire the oldest entry. The
bytes of an arena write can leave the count of unacknowledged bytes early, when
the flags of the peer prove it delivered; its entry stays until it completes.
-/

namespace SparkRing.SendQueue

open SequenceWord

/-- Work requests a send queue holds. -/
def sendDepth : ℕ := 256

/-- A quarter of the send depth: one more than the entries in flight. -/
def credit : ℕ := sendDepth / 4

/-- Values of the counter of unacknowledged bytes. -/
def byteModulus : ℕ := 2 ^ 64

/-- What an entry says about an arena write. -/
structure Mark where
  /-- It is an arena write. -/
  arena : Bool := false
  /-- Its flag namespace is 1. -/
  ns1 : Bool := false
  /-- It is proven delivered. -/
  proven : Bool := false
  deriving DecidableEq

/-- A signaled work request in flight. -/
structure Entry where
  bytes : ℕ
  /-- The arena write, if it is one. -/
  mark : Mark := {}
  /-- Sequence of the arena write's op. -/
  seq : ℕ := 0
  /-- Bytes it retires without its flag or credit word. -/
  payload : ℕ
  /-- Work requests it retires: itself and an unsignaled payload write before it. -/
  requests : ℕ
  deriving DecidableEq

/-- One queue pair: its entries and the sum of the unproven ones' bytes. -/
structure Queue where
  /-- The entries in flight. -/
  entries : RingBuffer Entry
  /-- Unacknowledged bytes, as a 64-bit counter. -/
  unacked : ℕ

/-- Entries in flight, oldest first. -/
def Queue.inFlight (q : Queue) : List Entry := q.entries.toList sendDepth

/-- Nothing posted. -/
def Queue.empty : Queue := ⟨⟨fun _ => ⟨0, {}, 0, 0, 0⟩, 0, 0⟩, 0⟩

/-- A signaled work request. -/
def Queue.ackPush (q : Queue) (e : Entry) : Queue :=
  { entries := q.entries.push sendDepth e, unacked := (q.unacked + e.bytes) % byteModulus }

/-- Take bytes from the counter. -/
def Queue.retire (q : Queue) (bytes : ℕ) : ℕ := (q.unacked + byteModulus - bytes) % byteModulus

/-- A completion: the oldest entry leaves. -/
def Queue.ackPop (q : Queue) : Queue :=
  if q.entries.count = 0 then q
  else
    let oldest := q.entries.cells (q.entries.index sendDepth 0)
    { entries := q.entries.pop sendDepth
      unacked := if oldest.mark.proven then q.unacked else q.retire oldest.bytes }

/-- What the newest flags of a peer prove about an arena write: a flag of namespace
0 every write of earlier ops, and a two-shot flag of namespace 1 the namespace-0
writes of its own op. -/
def proves (newest0 newest1 : Option ℕ) (phase1 : Bool) (e : Entry) : Bool :=
  (match newest0 with
    | some flag => decide (0 < gap flag e.seq)
    | none => false) ||
  (phase1 && !e.mark.ns1 && match newest1 with
    | some flag => sameWord e.seq flag
    | none => false)

/-- An arena write not yet proven that the flags prove. -/
def newlyProven (newest0 newest1 : Option ℕ) (phase1 : Bool) (e : Entry) : Bool :=
  e.mark.arena && !e.mark.proven && proves newest0 newest1 phase1 e

/-- An entry once proven. -/
def Entry.prove (e : Entry) : Entry := { e with mark := { e.mark with proven := true } }

/-- An entry after the proof loop. -/
def Entry.proveBy (newest0 newest1 : Option ℕ) (phase1 : Bool) (e : Entry) : Entry :=
  if newlyProven newest0 newest1 phase1 e then e.prove else e

/-- One entry of the proof loop. -/
def Queue.proveAt (newest0 newest1 : Option ℕ) (phase1 : Bool) (q : Queue) (i : ℕ) : Queue :=
  let e := q.entries.cells (q.entries.index sendDepth i)
  if newlyProven newest0 newest1 phase1 e then
    { entries := q.entries.modify sendDepth Entry.prove i, unacked := q.retire e.bytes }
  else q

/-- The proof loop over the entries in flight. -/
def Queue.prove (newest0 newest1 : Option ℕ) (phase1 : Bool) (q : Queue) : Queue :=
  (List.range q.entries.count).foldl (Queue.proveAt newest0 newest1 phase1) q

/-- A measure summed over the entries not proven delivered. -/
def unproven (measure : Entry → ℕ) (entries : List Entry) : ℕ :=
  (entries.map fun e => if e.mark.proven then 0 else measure e).sum

@[simp] theorem unproven_nil (measure : Entry → ℕ) : unproven measure [] = 0 := rfl

@[simp] theorem unproven_cons (measure : Entry → ℕ) (e : Entry) (es : List Entry) :
    unproven measure (e :: es) = (if e.mark.proven then 0 else measure e) + unproven measure es := by
  simp [unproven]

@[simp] theorem unproven_append (measure : Entry → ℕ) (es fs : List Entry) :
    unproven measure (es ++ fs) = unproven measure es + unproven measure fs := by
  simp [unproven]

/-- An entry's bytes are its payload and at most one word, and it retires at most
two work requests. -/
structure Entry.WellFormed (e : Entry) : Prop where
  /-- Bytes are counted in a word. -/
  bytes_lt : e.bytes < 2 ^ 32
  payload_le : e.payload ≤ e.bytes
  /-- The rest is a flag or a credit word. -/
  bytes_le : e.bytes ≤ e.payload + 4
  /-- A payload write and its flag at most. -/
  requests_le : e.requests ≤ 2

/-- What holds of a queue pair between any two work requests. -/
structure Accounted (q : Queue) : Prop where
  /-- The credit leaves room in the send queue. -/
  room : q.entries.count < credit
  /-- The counter is the sum of the unproven entries. -/
  unacked : q.unacked = unproven Entry.bytes q.inFlight
  entry : ∀ e ∈ q.inFlight, e.WellFormed

theorem Queue.length_inFlight (q : Queue) : q.inFlight.length = q.entries.count :=
  RingBuffer.length_toList

/-- The counter stays far below its range. -/
theorem unproven_bytes_lt (es : List Entry) (h : ∀ e ∈ es, e.bytes < 2 ^ 32) : unproven Entry.bytes es ≤ es.length * 2 ^ 32 := by
  have hsum := List.sum_le_card_nsmul (es.map fun e => if e.mark.proven then 0 else e.bytes) (2 ^ 32) ?_
  · simpa [unproven] using hsum
  intro n hn
  obtain ⟨e, he, rfl⟩ := List.mem_map.mp hn
  have := h e he
  split <;> omega

/-- Beyond the payload, an entry in flight adds at most one word. -/
theorem unproven_bytes_le (es : List Entry) (h : ∀ e ∈ es, e.WellFormed) :
    unproven Entry.bytes es ≤ unproven Entry.payload es + 4 * es.length := by
  induction es with
  | nil => simp
  | cons e es ih =>
    have he := (h e (by simp)).bytes_le
    have htail := ih fun f hf => h f (by simp [hf])
    simp only [unproven_cons, List.length_cons]
    split <;> omega

/-- The payload in flight is part of the bytes in flight. -/
theorem unproven_payload_le (es : List Entry) (h : ∀ e ∈ es, e.WellFormed) : unproven Entry.payload es ≤ unproven Entry.bytes es := by
  induction es with
  | nil => simp
  | cons e es ih =>
    have he := (h e (by simp)).payload_le
    have htail := ih fun f hf => h f (by simp [hf])
    simp only [unproven_cons]
    split <;> omega

/-- An unproven entry in flight is part of the sum. -/
theorem bytes_le_unproven (hm : e.mark.proven = false) (es : List Entry) (he : e ∈ es) : e.bytes ≤ unproven Entry.bytes es := by
  obtain ⟨older, newer, rfl⟩ := List.append_of_mem he
  simp only [unproven_append, unproven_cons, hm, Bool.false_eq_true, if_false]
  omega

/-- An entry retires at most two work requests. -/
theorem requests_le (es : List Entry) (h : ∀ e ∈ es, e.WellFormed) : (es.map Entry.requests).sum ≤ 2 * es.length := by
  have hsum := List.sum_le_card_nsmul (es.map Entry.requests) 2
    (by simpa using fun e he => (h e he).requests_le)
  simpa [Nat.mul_comm] using hsum

theorem Accounted.empty : Accounted .empty := by
  refine ⟨by decide, rfl, ?_⟩
  simp [Queue.inFlight, Queue.empty, RingBuffer.toList]

variable {q : Queue} {i : ℕ} {e : Entry}

theorem Accounted.unproven_lt (h : Accounted q) : unproven Entry.bytes q.inFlight ≤ q.entries.count * 2 ^ 32 := by
  have hb := unproven_bytes_lt q.inFlight fun e he => (h.entry e he).bytes_lt
  rwa [q.length_inFlight] at hb

theorem inFlight_ackPush (h : Accounted q) (e : Entry) : (q.ackPush e).inFlight = q.inFlight ++ [e] := by
  refine RingBuffer.toList_push ?_ e
  have := h.room
  simp only [credit] at this
  omega

/-- A push below the credit keeps the account; the new entry overwrites none. -/
theorem Accounted.push (h : Accounted q) (hroom : q.entries.count < credit - 1)
    (hm : e.mark.proven = false) (he : e.WellFormed) : Accounted (q.ackPush e) := by
  have hcount : (q.ackPush e).entries.count = q.entries.count + 1 := rfl
  refine ⟨by omega, ?_, ?_⟩
  · have hlt := h.unproven_lt
    have hb := he.bytes_lt
    have hroom' : q.entries.count < 63 := hroom
    rw [inFlight_ackPush h]
    simp only [Queue.ackPush, h.unacked, unproven_append, unproven_cons, unproven_nil, hm, byteModulus,
      Bool.false_eq_true, if_false, Nat.add_zero]
    refine Nat.mod_eq_of_lt ?_
    omega
  intro f hf
  rw [inFlight_ackPush h] at hf
  rcases List.mem_append.mp hf with hf | hf
  · exact h.entry f hf
  · obtain rfl : f = e := by simpa using hf
    exact he

/-- Taking bytes that the counter holds does not wrap it. -/
theorem Accounted.retire (h : Accounted q) {bytes rest : ℕ}
    (hsum : unproven Entry.bytes q.inFlight = bytes + rest) : q.retire bytes = rest := by
  have hlt := h.unproven_lt
  have hroom : q.entries.count < 64 := h.room
  have hu := h.unacked
  simp only [Queue.retire, byteModulus]
  omega

/-- The oldest entry in flight. -/
theorem inFlight_cons (hc : q.entries.count ≠ 0) : q.inFlight = q.entries.cells (q.entries.index sendDepth 0) :: q.inFlight.tail := by
  obtain ⟨n, hn⟩ := Nat.exists_eq_succ_of_ne_zero hc
  simp [Queue.inFlight, RingBuffer.toList, hn, List.range_succ_eq_map]

theorem inFlight_ackPop : q.ackPop.inFlight = q.inFlight.tail := by
  unfold Queue.ackPop
  split
  case isTrue hc => simp [Queue.inFlight, RingBuffer.toList, hc]
  case isFalse => exact RingBuffer.toList_pop

/-- A completion keeps the account. -/
theorem Accounted.pop (h : Accounted q) : Accounted q.ackPop := by
  by_cases hc : q.entries.count = 0
  · have hq : q.ackPop = q := by simp [Queue.ackPop, hc]
    rwa [hq]
  have hcons := inFlight_cons hc
  have hcount : q.ackPop.entries.count = q.entries.count - 1 := by
    simp [Queue.ackPop, RingBuffer.pop, hc]
  have hroom := h.room
  refine ⟨by omega, ?_, ?_⟩
  · have hsum := congrArg (unproven Entry.bytes) hcons
    rw [unproven_cons] at hsum
    rw [inFlight_ackPop]
    simp only [Queue.ackPop, hc, if_false]
    split at hsum
    case isTrue hm =>
      rw [if_pos hm, h.unacked, hsum, Nat.zero_add]
    case isFalse hm =>
      rw [if_neg hm]
      exact h.retire hsum
  · intro e he
    rw [inFlight_ackPop] at he
    exact h.entry e (List.mem_of_mem_tail he)

/-- What a measure loses when the oldest entry leaves. -/
theorem unproven_tail_le (measure : Entry → ℕ) (es : List Entry) : unproven measure es.tail ≤ unproven measure es := by
  cases es with
  | nil | cons => simp

section

variable (newest0 newest1 : Option ℕ) (phase1 : Bool) (h : Accounted q)

include newest0 newest1 phase1 h

/-- One entry of the proof loop: the entry is marked and its bytes leave the
counter, or nothing changes. -/
theorem proveAt_cases
    (hi : i < q.entries.count) :
    q.proveAt newest0 newest1 phase1 i = q ∨
    ∃ older e newer, q.inFlight = older ++ e :: newer ∧
      newlyProven newest0 newest1 phase1 e = true ∧
      (q.proveAt newest0 newest1 phase1 i).inFlight = older ++ e.prove :: newer ∧
      (q.proveAt newest0 newest1 phase1 i).unacked = q.retire e.bytes ∧
      (q.proveAt newest0 newest1 phase1 i).entries.count = q.entries.count := by
  unfold Queue.proveAt
  dsimp only
  split
  case isTrue hp =>
    right
    have hroom : q.entries.count < 64 := h.room
    have hdepth : q.entries.count ≤ sendDepth := by
      simp only [sendDepth]
      omega
    obtain ⟨older, newer, hold, hnew⟩ := RingBuffer.toList_modify_split hdepth Entry.prove hi
    exact ⟨older, _, newer, hold, hp, hnew, rfl, rfl⟩
  case isFalse => exact .inl rfl

/-- One entry of the proof loop keeps the account and lowers every measure. -/
theorem Accounted.proveAt (hi : i < q.entries.count) : Accounted (q.proveAt newest0 newest1 phase1 i) ∧
      (q.proveAt newest0 newest1 phase1 i).entries.count = q.entries.count ∧
      ∀ measure, unproven measure (q.proveAt newest0 newest1 phase1 i).inFlight ≤ unproven measure q.inFlight := by
  rcases proveAt_cases newest0 newest1 phase1 h hi with heq | ⟨older, e, newer, hold, hp, hnew, hu, hcount⟩
  · rw [heq]
    exact ⟨h, rfl, fun _ => le_rfl⟩
  have hm : e.mark.proven = false := by
    simp only [newlyProven, Bool.and_eq_true, Bool.not_eq_true'] at hp
    exact hp.1.2
  refine ⟨⟨hcount ▸ h.room, ?_, ?_⟩, hcount, ?_⟩
  · rw [hu, hnew]
    refine h.retire ?_
    rw [hold]
    simp only [unproven_append, unproven_cons, hm, Entry.prove, if_true, Bool.false_eq_true, if_false]
    omega
  · intro f hf
    rw [hnew] at hf
    rcases List.mem_append.mp hf with hf | hf
    · exact h.entry f (by simp [hold, hf])
    rcases List.mem_cons.mp hf with rfl | hf
    · have he := h.entry e (by simp [hold])
      exact ⟨he.bytes_lt, he.payload_le, he.bytes_le, he.requests_le⟩
    · exact h.entry f (by simp [hold, hf])
  intro measure
  rw [hnew, hold]
  simp only [unproven_append, unproven_cons, hm, Entry.prove, if_true, Bool.false_eq_true, if_false]
  omega

/-- Every prefix of the proof loop keeps the account and lowers every measure. -/
theorem Accounted.proveFirst : ∀ n ≤ q.entries.count, Accounted ((List.range n).foldl (Queue.proveAt newest0 newest1 phase1) q) ∧
      ((List.range n).foldl (Queue.proveAt newest0 newest1 phase1) q).entries.count = q.entries.count ∧ ∀ measure, unproven measure
        ((List.range n).foldl (Queue.proveAt newest0 newest1 phase1) q).inFlight ≤ unproven measure q.inFlight := by
  intro n
  induction n with
  | zero => exact fun _ => ⟨h, rfl, fun _ => le_rfl⟩
  | succ n ih =>
    intro hn
    obtain ⟨ha, hcount, hle⟩ := ih (by omega)
    have hlt : n < ((List.range n).foldl (Queue.proveAt newest0 newest1 phase1) q).entries.count := by
      omega
    have hstep := ha.proveAt newest0 newest1 phase1 hlt
    rw [List.range_succ, List.foldl_append]
    exact ⟨hstep.1, hstep.2.1.trans hcount, fun measure => (hstep.2.2 measure).trans (hle measure)⟩

end

end SparkRing.SendQueue
