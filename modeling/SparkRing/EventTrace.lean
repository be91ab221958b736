import Mathlib.Algebra.Order.Ring.Nat
import SparkRing.TransitionSystem

/-!
# The event trace of the native layer

The progress thread fills the four fields of a record in the ring and publishes
the new count; another thread takes records, one field after another, and reads
the count again before it hands them out. Stores and loads interleave in any
order.
-/

namespace SparkRing.EventTrace

open TransitionSystem Function
open Option (bind_eq_some_iff ite_none_right_eq_some)

/-- One record of the ring (`roce_trace_rec_t`). -/
structure Record where
  ns : UInt64
  value : UInt32
  event : UInt16
  stream : UInt16
  deriving DecidableEq, Inhabited

/-- The two words of a record that was taken. -/
abbrev Words := UInt64 × UInt64

def Record.words (r : Record) : Words :=
  (r.ns, r.value.toUInt64 ||| (r.event.toUInt64 <<< 32) ||| (r.stream.toUInt64 <<< 48))

/-- Store the field of one number of `source`. -/
def Record.put (source target : Record) : ℕ → Record
  | 0 => { target with ns := source.ns }
  | 1 => { target with value := source.value }
  | 2 => { target with event := source.event }
  | _ => { target with stream := source.stream }

/-- Two records have the same field of one number. -/
def Record.Same (r t : Record) : ℕ → Prop
  | 0 => r.ns = t.ns
  | 1 => r.value = t.value
  | 2 => r.event = t.event
  | _ => r.stream = t.stream

section Fields

variable {r t u : Record} {j k : ℕ}

theorem Record.put_self : (r.put t k).Same r k := by
  match k with
  | 0 | 1 | 2 | _ + 3 => rfl

theorem Record.put_other (hj : j < 4) (hk : k < 4) (hne : j ≠ k) : (r.put t k).Same t j := by
  match j, k, hj, hk with
  | 0, 0, _, _ | 1, 1, _, _ | 2, 2, _, _ | 3, 3, _, _ => exact absurd rfl hne
  | 0, 1, _, _ | 0, 2, _, _ | 0, 3, _, _ | 1, 0, _, _ | 1, 2, _, _ | 1, 3, _, _ | 2, 0, _, _ | 2, 1, _, _ | 2, 3, _, _
  | 3, 0, _, _ | 3, 1, _, _ | 3, 2, _, _ => rfl

theorem Record.Same.trans (h : r.Same t k) (h' : t.Same u k) : r.Same u k := by
  match k with
  | 0 | 1 | 2 | _ + 3 => exact Eq.trans h h'

theorem Record.same_self : r.Same r k := by
  match k with
  | 0 | 1 | 2 | _ + 3 => rfl

theorem Record.eq_of_same (h : ∀ k < 4, r.Same t k) : r = t := by
  obtain ⟨ns, value, event, stream⟩ := r
  obtain ⟨ns', value', event', stream'⟩ := t
  have h0 : ns = ns' := h 0 (by omega)
  have h1 : value = value' := h 1 (by omega)
  have h2 : event = event' := h 2 (by omega)
  have h3 : stream = stream' := h 3 (by omega)
  rw [h0, h1, h2, h3]

/-- One more field of a record that is filled or copied. -/
theorem Record.put_prefix (hk : k < 4) (h : ∀ j < k, t.Same u j) (hput : r.Same u k) : ∀ j < k + 1, (r.put t k).Same u j := by
  intro j hj
  by_cases he : j = k
  · rw [he]
    exact put_self.trans hput
  · exact (put_other (by omega) hk he).trans (h j (by omega))

end Fields

/-- A call of `roce_trace_take` after its first load of the count. -/
structure Take where
  first : ℕ
  count : ℕ
  lost : ℕ
  /-- Records copied whole. -/
  out : List Words := []
  /-- The record being copied, and how many of its fields were loaded. -/
  part : Record := default
  loaded : ℕ := 0

structure State where
  ring : ℕ → Record
  written : ℕ
  /-- The record being filled, and how many of its fields were stored. -/
  filling : Option (Record × ℕ) := none
  taken : ℕ := 0
  take : Option Take := none
  /-- Number of the record of which the call last loaded a field before the count covered it. -/
  met : Option ℕ := none
  appended : List Record := []
  /-- Every record handed out. -/
  returned : List Words := []
  /-- Records reported as lost. -/
  lost : ℕ := 0

def start : State := { ring := fun _ => default, written := 0 }

/-- Fields of the next record that are in the ring already. -/
def State.stored (s : State) : ℕ := (s.filling.map Prod.snd).getD 0

/-- Begin a call: the records between the last one taken and the count, as far as
the ring still has them. -/
def State.enter (cap max : ℕ) (s : State) : Take :=
  let written := s.written
  let first := if cap < (written + 2 ^ 64 - s.taken) % 2 ^ 64 then written - cap else s.taken
  ⟨first, min (written - first) max, first - s.taken, [], default, 0⟩

/-- Load one more field of the record in `slot`. -/
def Take.load (t : Take) (slot : Record) : Take :=
  let part := slot.put t.part t.loaded
  if t.loaded + 1 < 4 then { t with part, loaded := t.loaded + 1 }
  else { t with out := t.out ++ [part.words], part, loaded := 0 }

/-- Records reused while they were copied, by the count read after the copies. -/
def Take.torn (cap after : ℕ) (t : Take) : ℕ :=
  min ((if cap < after then after - cap else 0) - t.first) t.count

/-- What the two threads do. -/
inductive Action where
  /-- The progress thread begins a record. -/
  | event (r : Record)
  | store
  | publish
  /-- The other thread calls `roce_trace_take`. -/
  | call (max : ℕ)
  | load
  | finish

/-- The field loaded next belongs to a record that is not published. -/
def State.crosses (cap : ℕ) (s : State) (t : Take) : Bool :=
  decide (s.written = t.first + t.out.length + cap ∧ t.loaded < s.stored)

/-- Store one field of record `r`. -/
def State.store (cap : ℕ) (s : State) (r : Record) (k : ℕ) : State :=
  let slot := s.written % cap
  { s with ring := update s.ring slot (r.put (s.ring slot) k), filling := some (r, k + 1) }

def State.publish (s : State) (r : Record) : State :=
  { s with written := (s.written + 1) % 2 ^ 64, filling := none, appended := s.appended ++ [r] }

def State.load (cap : ℕ) (s : State) (t : Take) : State :=
  { s with
    take := some (t.load (s.ring ((t.first + t.out.length) % cap)))
    met := if s.crosses cap t then some s.written else s.met }

/-- Hand out what a call copied and the count does not show as reused. -/
def State.finish (cap : ℕ) (s : State) (t : Take) : State :=
  let torn := t.torn cap s.written
  { s with
    take := none
    taken := t.first + t.count
    returned := s.returned ++ t.out.drop torn
    lost := s.lost + (t.lost + torn) }

/-- One action of either thread. -/
def step (cap : ℕ) (s : State) : Action → Option State
  | .event r =>
    if cap = 0 then some s
    else if s.filling = none then some { s with filling := some (r, 0) } else none
  | .store => s.filling.bind fun (r, k) => if k < 4 then some (s.store cap r k) else none
  | .publish => s.filling.bind fun (r, k) => if ¬k < 4 then some (s.publish r) else none
  | .call max =>
    if cap = 0 then some s
    else if s.take.isNone then some { s with take := some (s.enter cap max), met := none } else none
  | .load => s.take.bind fun t => if t.out.length < t.count then some (s.load cap t) else none
  | .finish => s.take.bind fun t => if ¬t.out.length < t.count then some (s.finish cap t) else none

/-- Records are handed out as they were appended, each at most once and in order,
and every record taken off the ring was handed out or reported as lost. -/
def State.Sound (s : State) : Prop :=
  s.returned.Sublist (s.appended.map Record.words) ∧ s.returned.length + s.lost = s.taken

/-- The count stays in its word, and no call reads it again while the record that the
call last loaded a field of ahead of time is still not published. -/
def apart (s : State) : Action → Bool
  | .publish => decide (s.written + 1 < 2 ^ 64)
  | .finish => decide (s.met ≠ some s.written)
  | _ => true

/-- A record that the call under way will drop, unless the count it reads stops at it. -/
def State.Gone (cap : ℕ) (s : State) (k : ℕ) : Prop := k + cap < s.written ∨ s.met = some (k + cap)

/-- What a call has copied. -/
structure Copies (cap : ℕ) (s : State) (t : Take) : Prop where
  first : s.taken ≤ t.first
  last : t.first + t.count ≤ s.written
  lost : s.taken + t.lost = t.first
  out : t.out.length ≤ t.count
  loaded : t.loaded < 4
  copied : ∀ i r, i < t.out.length → s.appended[t.first + i]? = some r →
    t.out[i]? = some r.words ∨ s.Gone cap (t.first + i)
  part : t.out.length < t.count → ∀ r, s.appended[t.first + t.out.length]? = some r →
    (∀ j < t.loaded, t.part.Same r j) ∨ s.Gone cap (t.first + t.out.length)

/-- What holds between the steps. -/
structure Holds (cap : ℕ) (s : State) : Prop where
  appended : s.appended.length = s.written
  word : s.written < 2 ^ 64
  stored : s.stored ≤ 4
  filled : ∀ r k, s.filling = some (r, k) → ∀ j < k, (s.ring (s.written % cap)).Same r j
  slots : ∀ k r, s.appended[k]? = some r → s.written ≤ k + cap → ∀ j < 4,
    (s.written = k + cap → s.stored ≤ j) → (s.ring (k % cap)).Same r j
  met : ∀ w, s.met = some w → w ≤ s.written
  copies : ∀ t, s.take = some t → Copies cap s t
  taken : s.taken ≤ s.written
  returned : s.returned.Sublist ((s.appended.take s.taken).map Record.words)
  counted : s.returned.length + s.lost = s.taken

section Steps

variable {cap : ℕ} {s s' : State} {t : Take} {k : ℕ} {r : Record}

theorem State.Gone.grow (hwritten : s.written ≤ s'.written) (hmet : s'.met = s.met) (h : s.Gone cap k) : s'.Gone cap k := by
  exact h.imp (fun hlt => Nat.lt_of_lt_of_le hlt hwritten) fun hk => hmet.trans hk

/-- The progress thread takes nothing from a call. -/
theorem Copies.grow (h : Copies cap s t) (hlength : s.appended.length = s.written) (hwritten : s.written ≤ s'.written)
    (htaken : s'.taken = s.taken) (hmet : s'.met = s.met) (happended : ∃ more, s'.appended = s.appended ++ more) : Copies cap s' t := by
  obtain ⟨more, hmore⟩ := happended
  have hlast := h.last
  have hout := h.out
  have hold : ∀ i < t.count, s'.appended[t.first + i]? = s.appended[t.first + i]? := fun i hi => by
    rw [hmore, List.getElem?_append_left (by omega)]
  exact
    { h with
      first := htaken ▸ h.first
      last := Nat.le_trans hlast hwritten
      lost := htaken ▸ h.lost
      copied := fun i r hi hr =>
        (h.copied i r hi (hold i (by omega) ▸ hr)).imp_right (State.Gone.grow hwritten hmet)
      part := fun hcount r hr =>
        (h.part hcount r (hold _ hcount ▸ hr)).imp_right (State.Gone.grow hwritten hmet) }

/-- Two record numbers at most one turn of the ring apart share a slot only a whole turn apart. -/
theorem next_of_slot {w : ℕ} (hlt : k < w) (hle : w ≤ k + cap) (hslot : k % cap = w % cap) : w = k + cap := by
  have hzero := Nat.sub_mod_eq_zero_of_mod_eq hslot.symm
  by_contra hne
  rw [Nat.mod_eq_of_lt (by omega)] at hzero
  omega

section

variable (h : Holds cap s)

include h

/-- The progress thread stores one field. -/
theorem Holds.store (hf : s.filling = some (r, k)) (hk : k < 4) : Holds cap (s.store cap r k) := by
  have hstored : s.stored = k := by rw [State.stored, hf]; rfl
  refine { h with stored := hk, filled := ?_, slots := ?_, copies := ?_ }
  · rintro r k ⟨⟩ j hj
    dsimp only [State.store]
    rw [update_self]
    exact Record.put_prefix hk (h.filled _ _ hf) Record.same_self j hj
  · intro i t hi hle j hj hlate
    have hlt : i < s.written := h.appended ▸ (List.getElem?_eq_some_iff.mp hi).1
    dsimp only [State.store]
    by_cases hslot : i % cap = s.written % cap
    · have hnext := next_of_slot hlt hle hslot
      have hlate : k + 1 ≤ j := hlate hnext
      rw [hslot, update_self]
      exact (Record.put_other hj hk (by omega)).trans (hslot ▸ h.slots i t hi hle j hj fun _ => by omega)
    rw [update_of_ne hslot]
    exact h.slots i t hi hle j hj fun hnext => by
      have hlate : k + 1 ≤ j := hlate hnext
      omega
  · exact fun t ht => (h.copies t ht).grow h.appended Nat.le.refl rfl rfl ⟨[], (List.append_nil _).symm⟩

/-- The progress thread publishes a record whose fields are stored. -/
theorem Holds.publish (hf : s.filling = some (r, k)) (hk : ¬k < 4) (hword : s.written + 1 < 2 ^ 64) : Holds cap (s.publish r) := by
  have hlength := h.appended
  rw [State.publish, Nat.mod_eq_of_lt hword]
  exact
    { appended := by rw [List.length_append, hlength]; rfl
      word := hword
      stored := Nat.zero_le 4
      filled := nofun
      slots := by
        intro i t hi hle j hj _
        dsimp only at hi hle
        by_cases hlt : i < s.appended.length
        · rw [List.getElem?_append_left hlt] at hi
          exact h.slots i t hi (by omega) j hj fun _ => by omega
        have hend : i = s.written := by
          have := (List.getElem?_eq_some_iff.mp hi).1
          rw [List.length_append, List.length_singleton] at this
          omega
        rw [hend, ← hlength, List.getElem?_concat_length] at hi
        cases hi
        rw [hend]
        exact h.filled r k hf j (by omega)
      met := fun w hw => Nat.le_succ_of_le (h.met w hw)
      copies := fun t ht => (h.copies t ht).grow hlength (Nat.le_succ _) rfl rfl ⟨[r], rfl⟩
      taken := Nat.le_succ_of_le h.taken
      returned := by
        have htaken := h.taken
        dsimp only
        rw [List.take_append_of_le_length (by omega)]
        exact h.returned
      counted := h.counted }

/-- A call begins at the oldest record that the ring still has. -/
theorem Holds.call (max : ℕ) :
    Holds cap { s with take := some (s.enter cap max), met := none } := by
  have htaken := h.taken
  have hword := h.word
  have hdistance : (s.written + 2 ^ 64 - s.taken) % 2 ^ 64 = s.written - s.taken := by
    rw [show s.written + 2 ^ 64 - s.taken = s.written - s.taken + 2 ^ 64 by omega, Nat.add_mod_right,
      Nat.mod_eq_of_lt (by omega)]
  have hfirst : s.taken ≤ (s.enter cap max).first ∧ (s.enter cap max).first ≤ s.written := by
    dsimp only [State.enter]
    rw [hdistance]
    split <;> omega
  refine { h with met := nofun, copies := ?_ }
  rintro t ⟨⟩
  refine ⟨hfirst.1, ?_, Nat.add_sub_cancel' hfirst.1, Nat.zero_le _, Nat.zero_lt_succ 3, nofun, fun _ _ _ => .inl nofun⟩
  have : (s.enter cap max).count = min (s.written - (s.enter cap max).first) max := rfl
  dsimp only
  omega

/-- A call loads a field: it is the field that was appended, or the record will be dropped. -/
theorem Holds.load (ht : s.take = some t) (hcount : t.out.length < t.count) : Holds cap (s.load cap t) := by
  have hc := h.copies t ht
  have hgone : ∀ k, s.Gone cap k → (s.load cap t).Gone cap k := by
    rintro k (hk | hk)
    · exact .inl hk
    have hle := h.met _ hk
    by_cases hx : s.crosses cap t = true
    · rcases Nat.lt_or_eq_of_le hle with hlt | heq
      · exact .inl hlt
      · exact .inr (by rw [State.load, if_pos hx, heq])
    · exact .inr (by rw [State.load, if_neg hx, hk])
  have hfield : ∀ r, s.appended[t.first + t.out.length]? = some r →
      (s.ring ((t.first + t.out.length) % cap)).Same r t.loaded ∨
        (s.load cap t).Gone cap (t.first + t.out.length) := by
    intro r hr
    by_cases hlt : t.first + t.out.length + cap < s.written
    · exact .inr (.inl hlt)
    by_cases hx : s.crosses cap t = true
    · refine .inr (.inr ?_)
      rw [State.load, if_pos hx, (of_decide_eq_true hx).1]
    refine .inl (h.slots _ r hr (by omega) _ hc.loaded fun hnext => ?_)
    by_contra hlate
    exact hx (decide_eq_true ⟨hnext, by omega⟩)
  refine { h with met := ?_, copies := ?_ }
  · intro w hw
    dsimp only [State.load] at hw
    split at hw
    · cases hw
      exact Nat.le.refl
    · exact h.met w hw
  rintro t' ⟨⟩
  have hfields : ∀ r, s.appended[t.first + t.out.length]? = some r →
      (∀ j < t.loaded + 1, ((s.ring ((t.first + t.out.length) % cap)).put t.part t.loaded).Same r j) ∨ _ :=
    fun r hr => (hc.part hcount r hr).elim
      (fun hpart => (hfield r hr).imp_left (Record.put_prefix hc.loaded hpart)) fun hg => .inr (hgone _ hg)
  unfold Take.load
  split_ifs with hmore
  · exact { hc with
      loaded := hmore
      copied := fun i r hi hr => (hc.copied i r hi hr).imp_right (hgone _)
      part := fun _ => hfields }
  refine { hc with out := ?_, loaded := Nat.zero_lt_succ 3, copied := ?_, part := fun _ _ _ => .inl nofun }
  · rw [List.length_append]
    exact hcount
  intro i r hi hr
  by_cases hold : i < t.out.length
  · rw [List.getElem?_append_left hold]
    exact (hc.copied i r hold hr).imp_right (hgone _)
  have hend : i = t.out.length := by
    rw [List.length_append, List.length_singleton] at hi
    omega
  rw [hend] at hr ⊢
  rw [List.getElem?_concat_length]
  refine (hfields r hr).imp_left fun hall => ?_
  rw [Record.eq_of_same fun j hj => hall j (by omega)]

/-- A call hands out what it copied and the count does not show as reused. -/
theorem Holds.finish (ht : s.take = some t) (hcount : ¬t.out.length < t.count)
    (hmet : s.met ≠ some s.written) : Holds cap (s.finish cap t) := by
  have hc := h.copies t ht
  have hout : t.out.length = t.count := Nat.le_antisymm hc.out (by omega)
  have htorn : t.torn cap s.written ≤ t.count := Nat.min_le_right _ _
  have hlength := h.appended
  have hlast := hc.last
  have hlost := hc.lost
  have hkept : t.out.drop (t.torn cap s.written) =
      ((s.appended.drop (t.first + t.torn cap s.written)).take (t.count - t.torn cap s.written)).map
        Record.words := by
    refine List.ext_getElem? fun i => ?_
    rw [List.getElem?_drop, List.getElem?_map]
    by_cases hi : i < t.count - t.torn cap s.written
    · rw [List.getElem?_take_of_lt hi, List.getElem?_drop, Nat.add_assoc]
      have hlt : t.first + (t.torn cap s.written + i) < s.appended.length := by omega
      rw [List.getElem?_eq_getElem hlt, Option.map_some]
      refine (hc.copied _ _ (by omega) (List.getElem?_eq_getElem hlt)).resolve_right fun hgone => ?_
      have hreused : ¬t.first + (t.torn cap s.written + i) + cap < s.written := by
        unfold Take.torn at hi ⊢
        split at hi <;> split <;> omega
      rcases hgone with hgone | hgone
      · exact hreused hgone
      · have hle := h.met _ hgone
        exact hmet (hgone.trans (congrArg some (by omega)))
    · rw [List.getElem?_eq_none (by omega), List.getElem?_eq_none (by rw [List.length_take]; omega)]
      rfl
  refine { h with copies := nofun, taken := hlast, returned := ?_, counted := ?_ }
  · have htake : t.first + t.count = t.first + t.torn cap s.written + (t.count - t.torn cap s.written) := by omega
    rw [State.finish, hkept, htake, List.take_add, List.map_append]
    refine .append (h.returned.trans (List.Sublist.map _ ?_)) (.refl _)
    exact (List.take_prefix_take_left (by omega)).sublist
  have hcounted := h.counted
  change (s.returned ++ t.out.drop _).length + (s.lost + (t.lost + _)) = t.first + t.count
  rw [List.length_append, List.length_drop]
  omega

/-- The progress thread begins a record. -/
theorem Holds.event (hf : s.filling = none) : Holds cap { s with filling := some (r, 0) } := by
  have hnone : s.stored = 0 := by rw [State.stored, hf]; rfl
  exact { h with
    stored := Nat.zero_le 4
    filled := by
      rintro r k ⟨⟩ j hj
      exact absurd hj (Nat.not_lt_zero j)
    slots := fun k r hk hle j hj _ => h.slots k r hk hle j hj fun _ => hnone ▸ Nat.zero_le j
    copies := fun t ht => (h.copies t ht).grow h.appended Nat.le.refl rfl rfl ⟨[], (List.append_nil _).symm⟩ }

/-- Every step of either thread under the condition keeps what holds. -/
theorem Holds.step {a : Action} (hapart : apart s a = true) (hstep : step cap s a = some s') : Holds cap s' := by
  cases a with
  | event r =>
    by_cases hcap : cap = 0
    · cases (if_pos hcap).symm.trans hstep
      exact h
    · obtain ⟨hf, ⟨⟩⟩ := ite_none_right_eq_some.mp ((if_neg hcap).symm.trans hstep)
      exact h.event hf
  | store =>
    obtain ⟨_, hf, hstep⟩ := bind_eq_some_iff.mp hstep
    obtain ⟨hk, ⟨⟩⟩ := ite_none_right_eq_some.mp hstep
    exact h.store hf hk
  | publish =>
    obtain ⟨_, hf, hstep⟩ := bind_eq_some_iff.mp hstep
    obtain ⟨hk, ⟨⟩⟩ := ite_none_right_eq_some.mp hstep
    exact h.publish hf hk (of_decide_eq_true hapart)
  | call max =>
    by_cases hcap : cap = 0
    · cases (if_pos hcap).symm.trans hstep
      exact h
    · obtain ⟨_, ⟨⟩⟩ := ite_none_right_eq_some.mp ((if_neg hcap).symm.trans hstep)
      exact h.call max
  | load =>
    obtain ⟨_, ht, hstep⟩ := bind_eq_some_iff.mp hstep
    obtain ⟨hcount, ⟨⟩⟩ := ite_none_right_eq_some.mp hstep
    exact h.load ht hcount
  | finish =>
    obtain ⟨_, ht, hstep⟩ := bind_eq_some_iff.mp hstep
    obtain ⟨hcount, ⟨⟩⟩ := ite_none_right_eq_some.mp hstep
    exact h.finish ht hcount (of_decide_eq_true hapart)

end

/-- In every run in which the count stays in its word and no call reads it again while a
record that it ran into is not published, the records handed out are whole. -/
theorem records_are_whole (h : Reachable (EventTrace.step cap) (fun s a => apart s a = true) start s) : s.Sound := by
  have hholds : Holds cap s := by
    refine h.invariant (Holds cap) ?_ fun s a t _ hs ha hstep => hs.step ha hstep
    exact ⟨rfl, by decide, Nat.zero_le 4, nofun, nofun, nofun, nofun, Nat.le.refl, .slnil, rfl⟩
  exact ⟨hholds.returned.trans ((List.take_sublist _ _).map _), hholds.counted⟩

end Steps

/-- A run of one record that is taken whole. -/
theorem records_are_whole_taken : ∃ s : State, s.returned = [(7, 0)] ∧ s.Sound := by
  obtain ⟨s, hs, hreturned⟩ := Reachable.exists_of_checked_runs apart (fun _ _ => id) (step 1) start
    [.event ⟨7, 0, 0, 0⟩, .store, .store, .store, .store, .publish, .call 4, .load, .load, .load, .load, .finish]
    (fun s => decide (s.returned = [(7, 0)])) (by decide +kernel)
  exact ⟨s, of_decide_eq_true hreturned, records_are_whole hs⟩

/-- A record of a full ring is handed out with the time of the record that the progress thread
is filling over it. -/
theorem torn_record_returned : ¬∀ cap s, Reachable (step cap) Unrestricted start s → s.Sound := by
  intro hsound
  obtain ⟨s, hs, hreturned⟩ := Reachable.exists_of_runs (step 1) start
    [.event ⟨7, 0, 0, 0⟩, .store, .store, .store, .store, .publish, .event ⟨8, 1, 0, 0⟩, .store, .call 4, .load, .load,
      .load, .load, .finish]
    (fun s => decide (s.returned = [(8, 0)] ∧ s.appended = [⟨7, 0, 0, 0⟩])) (by decide +kernel)
  obtain ⟨hreturned, happended⟩ := of_decide_eq_true hreturned
  have hmem := (hsound 1 s hs).1.subset (hreturned ▸ List.mem_singleton_self _)
  rw [happended] at hmem
  revert hmem
  decide

end SparkRing.EventTrace
