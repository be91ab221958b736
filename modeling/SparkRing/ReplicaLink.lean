import SparkRing.BuddySender
import SparkRing.ReceiverSafety

/-!
# A sender and a receiver of buddy replication

The two are joined by a channel each way, lossless and in order, where any number of
frames may be under way. The sender offers frames and applies the answers one by one,
the receiver processes frames one by one, and any of these may come next. Frames are
numbered as they are emitted and answers carry the number of what they answer. These
numbers are no part of the wire: they only say what happened before what.
-/

namespace SparkRing.Replication

open OrderedDict

/-- A frame on its way to the receiver. -/
structure Sent where
  frame : Frame
  /-- Its number among the emitted ones. -/
  number : ℕ
  /-- It was not in flight when it was emitted. One that was is the same frame again. -/
  fresh : Bool
  deriving DecidableEq

/-- An answer on its way to the sender. -/
structure Returned where
  /-- The answer. -/
  frame : Frame
  /-- The number of the frame it answers. -/
  number : ℕ
  deriving DecidableEq

/-- The state of both and of what is between them. -/
structure Link (τ : Type) where
  sender : Sender := {}
  receiver : Receiver τ := {}
  /-- The frames under way, the first emitted first. -/
  forward : List Sent := []
  /-- The answers under way, the first made first. -/
  reverse : List Returned := []
  /-- The number of emitted frames. -/
  emitted : ℕ := 0
  /-- The number of the last chunk emitted, zero where there is none. -/
  lastChunk : ℕ := 0
  /-- A frame was aborted because what is staged would exceed a bound. -/
  overran : Bool := false

/-- What can happen next. -/
inductive LinkAct (τ : Type)
  /-- The sender is offered a frame. -/
  | offer (frame : Frame)
  /-- The receiver processes the next frame. -/
  | process (expireAt now : τ) (outcome : CallbackOutcome)
  /-- The sender applies the next answer. -/
  | apply
  /-- The receiver discards abandoned transactions. -/
  | expireInactive (now : τ)

variable {τ : Type}

def Link.emit (l : Link τ) (sender : Sender) (frame : Frame) (fresh : Bool) : Link τ :=
  { l with
    sender := sender
    forward := l.forward ++ [⟨frame, l.emitted + 1, fresh⟩]
    emitted := l.emitted + 1
    lastChunk := if frame.isPutChunk then l.emitted + 1 else l.lastChunk }

local instance : LawfulBEq (Key × ℕ) := inferInstance

/-- The sender is offered a frame. -/
def Link.offer (config : SenderConfig) (l : Link τ) (frame : Frame) : Link τ :=
  match l.sender.offer config frame with
  | (sender, .emitted wire) =>
    l.emit sender wire.frame (decide ((frame.key, frame.sequence) ∉ l.sender.inflight.keys))
  | (sender, _) => { l with sender := sender }

/-- The receiver processes a frame. -/
def Link.process (host : Host τ) (config : ReceiverConfig) (l : Link τ) (sent : Sent) (expireAt now : τ)
    (outcome : CallbackOutcome) : Link τ :=
  let received := l.receiver.receive host config sent.frame expireAt now outcome
  { l with
    receiver := received.1.receiver
    reverse := l.reverse ++ received.2.map fun frame => ⟨frame, sent.number⟩
    overran := l.overran || received.1.overrun }

/-- The sender applies an answer. -/
def Sender.apply (config : SenderConfig) (s : Sender) (frame : Frame) : Sender × Applied :=
  match frame.body with
  | .credit .. => s.applyCredit frame
  | _ => s.acknowledge config frame

/-- One step of either. -/
def linkStep (host : Host τ) (senderConfig : SenderConfig) (config : ReceiverConfig) (l : Link τ) : LinkAct τ → Option (Link τ)
  | .offer frame => some (l.offer senderConfig frame)
  | .process expireAt now outcome =>
    match l.forward with
    | [] => none
    | sent :: forward => some ({ l with forward := forward }.process host config sent expireAt now outcome)
  | .apply =>
    match l.reverse with
    | [] => none
    | returned :: reverse => some { l with sender := (l.sender.apply senderConfig returned.frame).1, reverse := reverse }
  | .expireInactive now => some { l with receiver := l.receiver.expireInactive host now }

def Frame.isCredit (frame : Frame) : Bool :=
  match frame.body with
  | .credit .. => true
  | _ => false

/-- A credit that the sender takes answers no frame emitted before its last chunk. -/
def Settled (l : Link τ) : LinkAct τ → Prop
  | .apply => ∀ returned ∈ l.reverse.head?, returned.frame.isCredit = true →
    l.sender.lastCreditSequence < returned.frame.sequence → l.lastChunk ≤ returned.number
  | _ => True

instance (l : Link τ) (act : LinkAct τ) : Decidable (Settled l act) :=
  match act with
  | .apply => inferInstanceAs (Decidable (∀ returned ∈ l.reverse.head?, returned.frame.isCredit = true →
      l.sender.lastCreditSequence < returned.frame.sequence → l.lastChunk ≤ returned.number))
  | .offer _ => isTrue trivial
  | .process .. => isTrue trivial
  | .expireInactive _ => isTrue trivial

variable {config : SenderConfig} {s s' : Sender} {frame : Frame} {wire : Wire}

/-- A sender that keeps its credit and at most forgets frames in flight. -/
structure Sender.Forgets (s s' : Sender) : Prop where
  /-- The credit for bytes. -/
  availableBytes : s'.availableBytes = s.availableBytes
  /-- The credit for chunks. -/
  availableFrames : s'.availableFrames = s.availableFrames
  /-- What is in flight was in flight. -/
  inflight : ∀ place wire, s'.inflight.get? place = some wire → s.inflight.get? place = some wire

theorem Sender.Forgets.refl (s : Sender) : s.Forgets s := ⟨rfl, rfl, fun _ _ h => h⟩

theorem Sender.forgets_markLocalOnly (config : SenderConfig) (s : Sender) (key : Key) : s.Forgets (s.markLocalOnly config key).1 := by
  have hfilter : ∀ place wire, (s.inflight.filter fun item => decide (item.1.1 ≠ key)).get? place = some wire →
      s.inflight.get? place = some wire := fun place wire h => (Dict.get?_filter_eq_some.mp h).1
  unfold Sender.markLocalOnly
  dsimp only
  split
  · exact ⟨rfl, rfl, hfilter⟩
  · exact ⟨rfl, rfl, hfilter⟩

theorem Sender.forgets_degrade (config : SenderConfig) (s : Sender) (key : Key) :
    s.Forgets (s.degrade config key).1 ∧ ∀ wire, (s.degrade config key).2 ≠ .emitted wire := by
  have hmark := s.forgets_markLocalOnly config key
  unfold Sender.degrade
  split
  next hmarked =>
    rw [hmarked] at hmark
    exact ⟨hmark, nofun⟩
  next hmarked =>
    rw [hmarked] at hmark
    exact ⟨hmark, nofun⟩

/-- The sender with one more frame in flight, a chunk being paid from the credit. -/
def Sender.spend (s : Sender) (wire : Wire) : Sender :=
  { s with
    availableFrames := if wire.frame.isPutChunk then s.availableFrames - 1 else s.availableFrames
    availableBytes := if wire.frame.isPutChunk then s.availableBytes - wire.frame.payload.length else s.availableBytes
    inflight := s.inflight.set (wire.frame.key, wire.frame.sequence) wire }

/-- What an offer can do. -/
inductive Sender.Offers (s : Sender) (frame : Frame) : Sender → Offered → Prop
  | nothing {s' : Sender} {offered : Offered} : s.Forgets s' → (∀ wire, offered ≠ .emitted wire) → Offers s frame s' offered
  | again {wire : Wire} : s.inflight.get? (frame.key, frame.sequence) = some wire → Offers s frame s (.emitted wire)
  /-- The frame is emitted, a chunk within the credit. -/
  | fresh {encoded : Bytes} : frame.encode = .ok encoded → s.inflight.get? (frame.key, frame.sequence) = none →
      (frame.isPutChunk = true → 1 ≤ s.availableFrames ∧ frame.payload.length ≤ s.availableBytes) →
      Offers s frame (s.spend ⟨frame, encoded⟩) (.emitted ⟨frame, encoded⟩)

theorem Sender.offers (config : SenderConfig) (s : Sender) (frame : Frame) :
    s.Offers frame (s.offer config frame).1 (s.offer config frame).2 := by
  have hdegrade : s.Offers frame (s.degrade config frame.key).1 (s.degrade config frame.key).2 :=
    .nothing (s.forgets_degrade config frame.key).1 (s.forgets_degrade config frame.key).2
  unfold Sender.offer
  split
  · exact .nothing (.refl s) nofun
  split
  · exact .nothing (.refl s) nofun
  split
  · exact .nothing (.refl s) nofun
  next encoded hencoded =>
    split
    next existing hexisting =>
      split
      · exact .again hexisting
      · exact hdegrade
    next hnone =>
      split
      · exact hdegrade
      split
      · exact hdegrade
      next hcredit =>
        refine .fresh hencoded hnone fun hput => ?_
        rw [not_and, not_or, Nat.not_lt, Nat.not_lt] at hcredit
        exact hcredit hput

/-- An answer that is no credit at most forgets frames in flight, the one it answers among
them. -/
theorem Sender.forgets_acknowledge (config : SenderConfig) (s : Sender) (frame : Frame) :
    s.Forgets (s.acknowledge config frame).1 ∧ ∀ ackSequence status, frame.body = .ack ackSequence status →
      (s.acknowledge config frame).1.inflight.get? (frame.key, ackSequence) = none := by
  unfold Sender.acknowledge
  split
  next ackSequence status hbody =>
    have hgone : ∀ s' : Sender, { s with inflight := s.inflight.erase (frame.key, ackSequence) }.Forgets s' →
        s.Forgets s' ∧ s'.inflight.get? (frame.key, ackSequence) = none := by
      intro s' hforgets
      refine ⟨⟨hforgets.availableBytes, hforgets.availableFrames, fun place wire h => ?_⟩, ?_⟩
      · exact (Dict.get?_erase_eq_some.mp (hforgets.inflight place wire h)).2
      · refine Option.eq_none_iff_forall_ne_some.mpr fun wire h => ?_
        exact (Dict.get?_erase_eq_some.mp (hforgets.inflight _ wire h)).1 rfl
    have hack : ∀ s' : Sender, s.Forgets s' ∧ s'.inflight.get? (frame.key, ackSequence) = none →
        s.Forgets s' ∧ ∀ sequence answer, frame.body = .ack sequence answer → s'.inflight.get? (frame.key, sequence) = none := by
      rintro s' ⟨hforgets, hnone⟩
      refine ⟨hforgets, fun sequence answer h => ?_⟩
      rw [hbody, Body.ack.injEq] at h
      exact h.1 ▸ hnone
    split
    · dsimp only
      split
      · exact hack _ (hgone _ (Sender.forgets_markLocalOnly ..))
      · exact hack _ (hgone _ (Sender.forgets_markLocalOnly ..))
      · exact hack _ (hgone _ (.refl _))
    next hnone => exact hack _ ⟨.refl s, Dict.get?_eq_none_iff.mpr hnone⟩
  next hbody => exact ⟨.refl s, fun ackSequence status h => absurd h (hbody ackSequence status)⟩

end SparkRing.Replication
