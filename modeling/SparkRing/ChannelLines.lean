import SparkRing.ChannelStaging

/-!
# Writes of a lane, from posting to completion

A lane posts the bytes, the header and the flag of item after item. Its writes in flight
lead from the place up to which its writes completed, over the place up to which they are
delivered, to the place up to which they are posted.
-/

namespace SparkRing.Channel

open SequenceWord
open List (map_cons mem_cons)

/-- How far the writes of a lane have come: all of the items before one, and of that item
some bytes of the stripe and perhaps the header. -/
structure Place where
  item : ℕ
  /-- Bytes of its stripe. -/
  bytes : ℕ
  header : Bool

/-- The item of a write of the lane's own channel. -/
def Write.item : Write → Option ℕ
  | data item _ _ _ | header item _ _ | flag item _ _ => some item
  | credit _ => none

variable {β : Type*} {C : Config} {start : ℕ} {message : ℕ → List β} {l : ℕ} (as : List Ack)

def Config.stripeOf (C : Config) (message : ℕ → List β) (l k i : ℕ) : ℕ × ℕ :=
  stripe C.lanes l (itemPacks C.slotBytes (message k).length i * 16)

/-- A write takes a lane from a place to the next. -/
def Config.Advance (C : Config) (start : ℕ) (message : ℕ → List β) (l : ℕ) (p : Place) : Write → Place → Prop
  | .data g m offset length, q => g = p.item ∧ m = C.index g ∧ q = ⟨g, p.bytes + length, p.header⟩ ∧ 0 < length ∧
      ∀ k i, i < C.count message k → C.number start message k i = g →
        offset = (C.stripeOf message l k i).1 + p.bytes ∧ p.bytes + length ≤ (C.stripeOf message l k i).2
  | .header g m value, q => l = 0 ∧ g = p.item ∧ m = C.index g ∧ q = ⟨g, p.bytes, true⟩ ∧
      ∀ k i, i < C.count message k → C.number start message k i = g →
        value = itemHeader C.slotBytes (message k).length i
  | .flag g m tag, q => g = p.item ∧ m = C.index g ∧ tag = g + 1 ∧ q = ⟨g + 1, 0, false⟩ ∧
      (l = 0 → p.header = true) ∧
      ∀ k i, i < C.count message k → C.number start message k i = g → (C.stripeOf message l k i).2 ≤ p.bytes
  | .credit _, q => l = 0 ∧ q = p

/-- Writes take a lane from a place to another. -/
def Config.Path (C : Config) (start : ℕ) (message : ℕ → List β) (l : ℕ) : Place → List Write → Place → Prop
  | p, [], q => p = q
  | p, w :: ws, q => ∃ r, C.Advance start message l p w r ∧ C.Path start message l r ws q

variable {p q r : Place} {w : Write} {ws vs : List Write}

theorem path_append : C.Path start message l p (ws ++ vs) r ↔ ∃ q, C.Path start message l p ws q ∧ C.Path start message l q vs r := by
  induction ws generalizing p with
  | nil =>
    constructor
    · exact fun h => ⟨p, rfl, h⟩
    · rintro ⟨q, rfl, h⟩
      exact h
  | cons w ws ih =>
    simp only [List.cons_append, Config.Path, ih]
    constructor
    · rintro ⟨q, hadvance, s, hs, hr⟩
      exact ⟨s, ⟨q, hadvance, hs⟩, hr⟩
    · rintro ⟨s, ⟨q, hadvance, hs⟩, hr⟩
      exact ⟨q, hadvance, s, hs, hr⟩

theorem path_concat : C.Path start message l p (ws ++ [w]) r ↔ ∃ q, C.Path start message l p ws q ∧ C.Advance start message l q w r := by
  rw [path_append]
  constructor
  · rintro ⟨q, hq, s, hs, rfl⟩
    exact ⟨q, hq, hs⟩
  · rintro ⟨q, hq, hs⟩
    exact ⟨q, hq, r, hs, rfl⟩

/-- A write is of the item of its place, and takes the lane to the next item at most. -/
theorem advance_item (h : C.Advance start message l p w q) : p.item ≤ q.item ∧ ∀ g, w.item = some g → g = p.item := by
  cases w with
  | data =>
    obtain ⟨rfl, -, rfl, -⟩ := h
    exact ⟨le_rfl, fun a ha => (Option.some.inj ha).symm⟩
  | header =>
    obtain ⟨-, rfl, -, rfl, -⟩ := h
    exact ⟨le_rfl, fun a ha => (Option.some.inj ha).symm⟩
  | flag =>
    obtain ⟨rfl, -, -, rfl, -⟩ := h
    exact ⟨Nat.le_succ _, fun a ha => (Option.some.inj ha).symm⟩
  | credit =>
    obtain ⟨-, rfl⟩ := h
    exact ⟨le_rfl, fun a ha => by cases ha⟩

/-- The items of a lane's writes lie between its places. -/
theorem path_items (h : C.Path start message l p ws q) : p.item ≤ q.item ∧ ∀ w ∈ ws, ∀ g, w.item = some g → p.item ≤ g ∧ g ≤ q.item := by
  induction ws generalizing p with
  | nil =>
    obtain rfl := h
    exact ⟨le_rfl, fun w hw => by cases hw⟩
  | cons w ws ih =>
    obtain ⟨r, hadvance, hpath⟩ := h
    obtain ⟨hle, hitem⟩ := advance_item hadvance
    obtain ⟨hrest, hitems⟩ := ih hpath
    refine ⟨hle.trans hrest, fun v hv g hg => ?_⟩
    rcases mem_cons.mp hv with rfl | hv
    · obtain rfl := hitem g hg
      exact ⟨le_rfl, hle.trans hrest⟩
    · obtain ⟨hlow, hhigh⟩ := hitems v hv g hg
      exact ⟨hle.trans hlow, hhigh⟩

/-- Where a write of an item is on its way, or was before, the lane has begun to post the item. -/
theorem advance_mono (h : C.Advance start message l p w q) (hp : w.item ≠ none ∨ 0 < p.bytes ∨ p.header = true) :
    p.item < q.item ∨ p.item = q.item ∧ (0 < q.bytes ∨ q.header = true) := by
  cases w with
  | data =>
    obtain ⟨rfl, -, rfl, hpos, -⟩ := h
    exact .inr ⟨rfl, .inl (Nat.add_pos_right _ hpos)⟩
  | header =>
    obtain ⟨-, rfl, -, rfl, -⟩ := h
    exact .inr ⟨rfl, .inr rfl⟩
  | flag =>
    obtain ⟨rfl, -, -, rfl, -⟩ := h
    exact .inl (Nat.lt_succ_self _)
  | credit =>
    obtain ⟨-, rfl⟩ := h
    exact .inr ⟨rfl, hp.resolve_left fun hno => hno rfl⟩

theorem path_mono (h : C.Path start message l p ws q) (hp : 0 < p.bytes ∨ p.header = true) :
    p.item < q.item ∨ p.item = q.item ∧ (0 < q.bytes ∨ q.header = true) := by
  induction ws generalizing p with
  | nil =>
    obtain rfl := h
    exact .inr ⟨rfl, hp⟩
  | cons w ws ih =>
    obtain ⟨r, hadvance, hpath⟩ := h
    rcases advance_mono hadvance (.inr hp) with hlt | ⟨heq, hr⟩
    · exact .inl (hlt.trans_le (path_items hpath).1)
    · rw [heq]
      exact ih hpath hr

/-- The item of the oldest write is posted, or begun. -/
theorem path_begun (h : C.Path start message l p (w :: ws) q) (hw : w.item ≠ none) :
    p.item < q.item ∨ p.item = q.item ∧ (0 < q.bytes ∨ q.header = true) := by
  obtain ⟨r, hadvance, hpath⟩ := h
  rcases advance_mono hadvance (.inl hw) with hlt | ⟨heq, hr⟩
  · exact .inl (hlt.trans_le (path_items hpath).1)
  · rw [heq]
    exact path_mono hpath hr

/-- Kind, item and window bytes of an entry. -/
def Ack.request (a : Ack) : Kind × ℕ × ℕ := (a.kind, a.item, a.bytes)

/-- Bytes that a write holds in its lane's window. -/
def Write.bytes (window : ℕ) : Write → ℕ
  | data _ _ _ length => if window ≠ 0 then length else 0
  | _ => 0

/-- Kind, item and window bytes of a write. -/
def Write.request (window : ℕ) (w : Write) : Kind × ℕ × ℕ := (w.id.1, w.id.2, w.bytes window)

/-- The write of a data entry is of the entry's item. -/
theorem item_of_request {a : Ack} {window : ℕ} (h : w.request window = a.request) (hdata : a.kind = .data) : w.item = some a.item := by
  obtain ⟨hkind, hitem⟩ := Prod.mk.inj h
  obtain ⟨hitem, -⟩ := Prod.mk.inj hitem
  cases w with
  | credit =>
    rw [hdata] at hkind
    cases hkind
  | _ => exact congrArg some hitem

/-- What holds of a lane's queue pair, whose writes completed up to an item, are delivered
up to `d` and posted up to `e`. -/
structure Carrying (C : Config) (start : ℕ) (message : ℕ → List β) (l window done : ℕ) (d e : Place) (Q : Line) : Prop where
  /-- The entries are those of the writes in flight, in order. -/
  ids : Q.acks.inFlight.map Ack.request = (Q.landed ++ Q.flying).map (Write.request window)
  /-- The entries are accounted for. -/
  accounted : Accounted Q.acks
  /-- Writes delivered. -/
  landed : ∃ p, p.item = done ∧ C.Path start message l p Q.landed d
  /-- Writes posted. -/
  flying : C.Path start message l d Q.flying e
  /-- What a credit proved is delivered. -/
  proven : ∀ a ∈ Q.acks.inFlight, a.proven = true → a.item < d.item
  /-- The window holds what is not proven. -/
  window_le : window ≠ 0 → Q.acks.unacked ≤ window

variable {window done bytes credit : ℕ} {d e : Place} {Q : Line}

namespace Carrying

theorem initial (l window : ℕ) : Carrying C start message l window start ⟨start, 0, false⟩ ⟨start, 0, false⟩ ⟨.empty, [], []⟩ where
  ids := rfl
  accounted := accounted_empty
  landed := ⟨⟨start, 0, false⟩, rfl, rfl⟩
  flying := rfl
  proven a ha := by cases ha
  window_le _ := Nat.zero_le _

section

variable (h : Carrying C start message l window done d e Q)

include h

theorem done_le : done ≤ d.item := by
  obtain ⟨p, rfl, hpath⟩ := h.landed
  exact (path_items hpath).1

theorem item_le : d.item ≤ e.item := (path_items h.flying).1

/-- The lane's entries are of items between the completed and the posted. -/
theorem entry_item {a : Ack} (ha : a ∈ Q.acks.inFlight) (hdata : a.kind = .data) : done ≤ a.item ∧ a.item ≤ e.item := by
  have hmem : a.request ∈ (Q.landed ++ Q.flying).map (Write.request window) := h.ids ▸ List.mem_map_of_mem ha
  obtain ⟨w, hw, hid⟩ := List.mem_map.mp hmem
  have hitem := item_of_request hid hdata
  obtain ⟨p, hp, hpath⟩ := h.landed
  obtain ⟨hlow, hhigh⟩ := (path_items (path_append.mpr ⟨d, hpath, h.flying⟩)).2 w hw a.item hitem
  exact ⟨hp ▸ hlow, hhigh⟩

theorem landed_of_proven {k : ℕ} {a : Ack} (hk : Q.acks.inFlight[k]? = some a) (hproven : a.proven = true) : k < Q.landed.length := by
  by_contra hge
  have hmem : a ∈ Q.acks.inFlight := List.mem_of_getElem? hk
  have hdata : a.kind = .data := by
    by_contra hne
    have hclear := ((h.accounted.bytes a hmem).2 hne).2
    rw [hproven] at hclear
    cases hclear
  have hids := congrArg (fun requests => requests[k]?) h.ids
  simp only [List.getElem?_map, hk, Option.map_some] at hids
  rw [List.getElem?_append_right (Nat.not_lt.mp hge)] at hids
  obtain ⟨w, hw, hid⟩ := Option.map_eq_some_iff.mp hids.symm
  have hlow := ((path_items h.flying).2 w (List.mem_of_getElem? hw) a.item (item_of_request hid hdata)).1
  exact Nat.lt_irrefl _ ((h.proven a hmem hproven).trans_le hlow)

/-- A lane posts a write. -/
theorem post (hroom : Q.acks.room 1 = true)
    (hadvance : C.Advance start message l e w r) (hbytes : bytes < 2 ^ 32) (hheld : bytes = w.bytes window)
    (hwindow : window ≠ 0 → Q.acks.unacked + bytes ≤ window) : Carrying C start message l window done d r (Q.post bytes w) := by
  have hkind : w.id.1 ≠ .data → bytes = 0 := by
    intro hne
    cases w with
    | data => exact absurd rfl hne
    | _ => exact hheld
  obtain ⟨hlist, haccount⟩ := h.accounted.push hroom hbytes hkind
  constructor
  case ids =>
    change (Q.acks.push bytes w.id.2 w.id.1).inFlight.map Ack.request =
      (Q.landed ++ (Q.flying ++ [w])).map (Write.request window)
    rw [hlist, ← List.append_assoc, List.map_append, List.map_append, h.ids, hheld]
    rfl
  case accounted => exact haccount
  case landed => exact h.landed
  case flying => exact path_concat.mpr ⟨e, h.flying, hadvance⟩
  case proven =>
    intro a ha hproven
    change a ∈ (Q.acks.push bytes w.id.2 w.id.1).inFlight at ha
    rw [hlist] at ha
    rcases List.mem_append.mp ha with ha | ha
    · exact h.proven a ha hproven
    · obtain rfl := List.mem_singleton.mp ha
      cases hproven
  case window_le =>
    intro hw
    exact (Nat.mod_le _ _).trans (hwindow hw)

end

/-- The receiving rank posts a credit on its own first lane. -/
theorem postCredit (h : Carrying C start message 0 window done d e Q) (hroom : Q.acks.room 1 = true) (value : ℕ) :
    Carrying C start message 0 window done d e (Q.post 0 (.credit value)) :=
  h.post hroom ⟨rfl, rfl⟩ (by decide) rfl fun hw => h.window_le hw

section

variable (h : Carrying C start message l window done d e Q)

include h

/-- The oldest write is delivered. -/
theorem deliver (hflying : Q.flying = w :: ws) :
    ∃ d', C.Advance start message l d w d' ∧
      Carrying C start message l window done d' e { Q with flying := ws, landed := Q.landed ++ [w] } := by
  have hpath := h.flying
  rw [hflying] at hpath
  obtain ⟨d', hadvance, hrest⟩ := hpath
  refine ⟨d', hadvance, ?_⟩
  constructor
  case ids =>
    rw [h.ids, hflying, List.append_assoc]
    rfl
  case accounted => exact h.accounted
  case landed =>
    obtain ⟨p, hp, hlanded⟩ := h.landed
    exact ⟨p, hp, path_concat.mpr ⟨d, hlanded, hadvance⟩⟩
  case flying => exact hrest
  case proven => exact fun a ha hproven => (h.proven a ha hproven).trans_le (advance_item hadvance).1
  case window_le => exact h.window_le

/-- The entry that a completion pops is that of the write completed. -/
theorem oldest (hlanded : Q.landed = w :: ws) : ∃ a, Q.acks.inFlight = a :: Q.acks.pop.inFlight ∧ a.request = w.request window := by
  have hids := h.ids
  rw [hlanded, List.cons_append, map_cons] at hids
  obtain ⟨hpop, -⟩ := h.accounted.pop
  cases hlist : Q.acks.inFlight with
  | nil =>
    rw [hlist] at hids
    cases hids
  | cons a as =>
    rw [hlist, map_cons] at hids
    rw [hlist, List.tail_cons] at hpop
    exact ⟨a, by rw [hpop], (List.cons.inj hids).1⟩

/-- The oldest delivered write completes. -/
theorem complete (hlanded : Q.landed = w :: ws) {S : Sender β}
    (hdone : S.laneDone l = done) : Carrying C start message l window ((S.complete l w).laneDone l) d e Q.complete := by
  obtain ⟨a, hlist, -⟩ := h.oldest hlanded
  obtain ⟨hpop, haccount⟩ := h.accounted.pop
  have hids := h.ids
  rw [hlanded, hlist, List.cons_append, map_cons, map_cons] at hids
  constructor
  case ids =>
    change Q.acks.pop.inFlight.map Ack.request = (Q.landed.tail ++ Q.flying).map (Write.request window)
    rw [hlanded]
    exact (List.cons.inj hids).2
  case accounted => exact haccount
  case landed =>
    obtain ⟨p, hp, hpath⟩ := h.landed
    rw [hlanded] at hpath
    obtain ⟨r, hadvance, hrest⟩ := hpath
    refine ⟨r, ?_, ?_⟩
    · cases w with
      | data =>
        obtain ⟨rfl, -, rfl, -⟩ := hadvance
        exact hp.trans hdone.symm
      | header =>
        obtain ⟨-, rfl, -, rfl, -⟩ := hadvance
        exact hp.trans hdone.symm
      | flag =>
        obtain ⟨rfl, -, -, rfl, -⟩ := hadvance
        simp only [Sender.complete, Function.update_self, hdone, hp]
      | credit =>
        obtain ⟨-, rfl⟩ := hadvance
        exact hp.trans hdone.symm
    · change C.Path start message l r Q.landed.tail d
      rw [hlanded]
      exact hrest
  case flying => exact h.flying
  case proven =>
    intro b hb hproven
    exact h.proven b (hlist ▸ List.mem_cons_of_mem a hb) hproven
  case window_le =>
    intro hw
    have hunacked := h.accounted.unacked
    change Q.acks.pop.unacked ≤ window
    rw [hlist, unproven_cons] at hunacked
    rw [haccount.unacked]
    exact le_trans (by omega) (h.window_le hw)

end

end Carrying

/-- A credit proves nothing twice. -/
theorem unproven_proveList : unproven (proveList credit as) ≤ unproven as := by
  induction as with
  | nil => exact le_rfl
  | cons a as ih =>
    simp only [proveList]
    split
    case isTrue =>
      exact Nat.add_le_add_left ih _
    case isFalse =>
      split
      case isTrue => exact le_rfl
      case isFalse =>
        rw [unproven_cons, unproven_cons]
        simp only [Ack.prove, if_true, Nat.zero_add]
        exact ih.trans (Nat.le_add_left _ _)

theorem map_request_proveList : (proveList credit as).map Ack.request = as.map Ack.request := by
  induction as with
  | nil => rfl
  | cons a as ih =>
    simp only [proveList]
    split
    case isTrue => rw [map_cons, map_cons, ih]
    case isFalse =>
      split
      case isTrue => rfl
      case isFalse =>
        rw [map_cons, map_cons, ih]
        rfl

/-- What a credit proves are data writes of items before it. -/
theorem mem_proveList {as : List Ack} {a : Ack} (ha : a ∈ proveList credit as) (hproven : a.proven = true) :
    a ∈ as ∨ ∃ b ∈ as, b.kind = .data ∧ gap b.item credit < 0 ∧ a = b.prove := by
  induction as with
  | nil => cases ha
  | cons b as ih =>
    have hrest : a ∈ proveList credit as → a ∈ b :: as ∨ ∃ c ∈ b :: as, c.kind = .data ∧ gap c.item credit < 0 ∧ a = c.prove := by
      intro hmem
      rcases ih hmem with hmem | ⟨c, hc, hspec⟩
      · exact .inl (List.mem_cons_of_mem b hmem)
      · exact .inr ⟨c, List.mem_cons_of_mem b hc, hspec⟩
    simp only [proveList] at ha
    split at ha
    case isTrue =>
      rcases mem_cons.mp ha with rfl | ha
      · exact .inl List.mem_cons_self
      · exact hrest ha
    case isFalse hdata =>
      rw [not_or, not_not] at hdata
      split at ha
      case isTrue => exact .inl ha
      case isFalse hgap =>
        rcases mem_cons.mp ha with rfl | ha
        · exact .inr ⟨b, List.mem_cons_self, hdata.1, not_le.mp hgap, rfl⟩
        · exact hrest ha

/-- A credit of delivered items proves delivered writes. -/
theorem Carrying.prove (h : Carrying C start message l window done d e Q) (hcredit : credit ≤ d.item)
    (hposted : e.item ≤ credit + C.slots) (hdone : e.item ≤ done + C.slots) :
    Carrying C start message l window done d e { Q with acks := Q.acks.prove credit } := by
  obtain ⟨hlist, haccount⟩ := h.accounted.prove credit
  constructor
  case ids =>
    rw [hlist, map_request_proveList]
    exact h.ids
  case accounted => exact haccount
  case landed => exact h.landed
  case flying => exact h.flying
  case proven =>
    intro a ha hproven
    rw [hlist] at ha
    rcases mem_proveList ha hproven with ha | ⟨b, hb, hdata, hgap, rfl⟩
    · exact h.proven a ha hproven
    obtain ⟨hlow, hhigh⟩ := h.entry_item hb hdata
    have hle := h.item_le
    have hslots := C.slotsValid.2.1
    rw [gap_of_near (by omega) (by omega)] at hgap
    change b.item < d.item
    omega
  case window_le =>
    intro hw
    have hunacked : unproven (proveList credit Q.acks.inFlight) ≤ unproven Q.acks.inFlight := unproven_proveList _
    rw [← hlist, ← haccount.unacked, ← h.accounted.unacked] at hunacked
    exact hunacked.trans (h.window_le hw)

end SparkRing.Channel
