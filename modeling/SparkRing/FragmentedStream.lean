import Mathlib.Data.List.Forall2
import Mathlib.Data.List.Infix

/-!
# Streams that arrive in fragments

A decoder keeps what arrived in a buffer of bounded size and takes one item after another
from its front, until it needs more. Where the encodings of items are told apart by their
fronts, every way of cutting a stream of them gives the same items, and where a taken item
was encoded, nothing else gives items.
-/

namespace SparkRing.FragmentedStream

open List (append_assoc flatten_cons length_append)

variable {α β φ : Type*} {failure : φ} {left : List β}

/-- What the front of a buffer is. -/
inductive Next (α β φ : Type*)
  /-- The beginning of an item. -/
  | waits
  /-- No item; what the buffer keeps. -/
  | fails (failure : φ) (rest : List β)
  /-- An item, and what is behind it. -/
  | item (a : α) (rest : List β)

/-- What a decoder is: how it takes an item, and the bound of its buffer. -/
structure Decoder (α β φ : Type*) where
  /-- The front of a buffer. -/
  next : List β → Next α β φ
  /-- The bound of the buffer. -/
  limit : ℕ
  /-- What it fails with when the buffer would grow beyond it. -/
  overflow : φ

variable (d : Decoder α β φ)

/-- Take items from a buffer until it needs more. -/
def Decoder.drain : ℕ → List β → Except φ (List α) × List β
  | 0, buffer => (.ok [], buffer)
  | fuel + 1, buffer =>
    match d.next buffer with
    | .waits => (.ok [], buffer)
    | .fails failure rest => (.error failure, rest)
    | .item a rest => ((drain fuel rest).1.map fun found => a :: found, (drain fuel rest).2)

/-- One fragment arrives. -/
def Decoder.feed (buffer data : List β) : Except φ (List α) × List β :=
  if d.limit < buffer.length + data.length then (.error d.overflow, buffer) else d.drain (buffer ++ data).length (buffer ++ data)

/-- Fragments arrive one after another, until one fails. -/
def Decoder.feeds : List β → List (List β) → Except φ (List α) × List β
  | buffer, [] => (.ok [], buffer)
  | buffer, cut :: cuts =>
    match d.feed buffer cut with
    | (.error failure, rest) => (.error failure, rest)
    | (.ok found, rest) => ((feeds rest cuts).1.map fun later => found ++ later, (feeds rest cuts).2)

/-- Every fragment fits the buffer when it arrives. -/
def Decoder.Fits : List β → List (List β) → Prop
  | _, [] => True
  | buffer, cut :: cuts => buffer.length + cut.length ≤ d.limit ∧ Fits (d.feed buffer cut).2 cuts

variable {d} {encodes : α → List β → Prop} {same : α → α → Prop} {items found : List α} {wire cuts : List (List β)}
  {buffer rest front data : List β} {fuel : ℕ}

/-- Encodings are told apart by their fronts. -/
structure Takes (d : Decoder α β φ) (encodes : α → List β → Prop) (same : α → α → Prop) : Prop where
  /-- An encoding is taken, whatever follows it. -/
  whole : ∀ a b, encodes a b → ∃ a', same a a' ∧ ∀ rest, d.next (b ++ rest) = .item a' rest
  part : ∀ a b front, encodes a b → front <+: b → front ≠ b → d.next front = .waits
  /-- It is not empty. -/
  nonempty : ∀ a b, encodes a b → b ≠ []
  nothing : d.next [] = .waits

/-- A buffer's items are taken, and the part of the next one is kept. -/
structure Taken (encodes : α → List β → Prop) (same : α → α → Prop) (items : List α) (wire : List (List β)) (buffer : List β)
    (taken : List (List β)) (later : List α) (left : List (List β)) (found : List α) (result : Except φ (List α) × List β) : Prop where
  /-- The encodings that were taken. -/
  splits : wire = taken ++ left
  /-- The buffer was made of them and of what is kept. -/
  keeps : buffer = taken.flatten ++ result.2
  /-- What was taken. -/
  gives : result.1 = .ok found
  /-- These are the items. -/
  takes : ∃ earlier, items = earlier ++ later ∧ List.Forall₂ same earlier found
  /-- The other items are encoded by what is left. -/
  leaves : List.Forall₂ encodes later left
  /-- What is kept begins them. -/
  begins : result.2 <+: left.flatten
  /-- It has not the whole next item. -/
  part : ∀ b ∈ left.head?, ¬b <+: result.2

/-- The items that a buffer begins with are taken, and the part of the next one is kept. -/
theorem Takes.drain (h : Takes d encodes same) (hwire : List.Forall₂ encodes items wire) (hbuffer : buffer <+: wire.flatten)
    (hfuel : buffer.length ≤ fuel) :
    ∃ taken later left found, Taken encodes same items wire buffer taken later left found (d.drain fuel buffer) := by
  induction hwire generalizing buffer fuel with
  | nil =>
    obtain rfl : buffer = [] := List.prefix_nil.mp hbuffer
    have hdrain : d.drain fuel [] = (.ok [], []) := by
      cases fuel with
      | zero => rfl
      | succ => rw [Decoder.drain, h.nothing]
    rw [hdrain]
    exact ⟨[], [], [], [], rfl, rfl, rfl, ⟨[], rfl, .nil⟩, .nil, List.nil_prefix, fun b hb => nomatch hb⟩
  | @cons a b items wire hencodes hwire ih =>
    by_cases hwhole : b <+: buffer
    · obtain ⟨rest, rfl⟩ := hwhole
      rw [flatten_cons, List.prefix_append_right_inj] at hbuffer
      obtain ⟨a', hsame, hnext⟩ := h.whole a b hencodes
      have hpos : 0 < b.length := List.length_pos_iff.mpr (h.nonempty a b hencodes)
      rw [length_append] at hfuel
      obtain ⟨fuel, rfl⟩ := Nat.exists_eq_add_one_of_ne_zero (show fuel ≠ 0 by omega)
      have hless : rest.length ≤ fuel := by omega
      obtain ⟨taken, later, left, found, htaken⟩ := ih hbuffer hless
      have hdrain : d.drain (fuel + 1) (b ++ rest) =
          ((d.drain fuel rest).1.map fun found => a' :: found, (d.drain fuel rest).2) := by
        rw [Decoder.drain, hnext]
      rw [hdrain]
      obtain ⟨earlier, hitems, hearlier⟩ := htaken.takes
      refine ⟨b :: taken, later, left, a' :: found, congrArg (b :: ·) htaken.splits, ?_, ?_, ?_, htaken.leaves, htaken.begins, htaken.part⟩
      · rw [flatten_cons, append_assoc]
        exact congrArg (b ++ ·) htaken.keeps
      · rw [htaken.gives]
        rfl
      · exact ⟨a :: earlier, congrArg (a :: ·) hitems, .cons hsame hearlier⟩
    · -- the buffer is a proper part of the first encoding
      have hb : b <+: (b :: wire).flatten := by
        exact List.prefix_append b _
      have hpart : buffer <+: b := (List.prefix_or_prefix_of_prefix hb hbuffer).resolve_left hwhole
      have hne : buffer ≠ b := by
        rintro rfl
        exact hwhole (List.prefix_refl buffer)
      have hdrain : d.drain fuel buffer = (.ok [], buffer) := by
        cases fuel with
        | zero => rfl
        | succ => rw [Decoder.drain, h.part a b buffer hencodes hpart hne]
      rw [hdrain]
      refine ⟨[], a :: items, b :: wire, [], rfl, rfl, rfl, ⟨[], rfl, .nil⟩, .cons hencodes hwire, hbuffer, ?_⟩
      intro one hone
      exact Option.some.inj hone ▸ hwhole

/-- Every way of cutting a stream of encoded items gives the items, and nothing is left. -/
theorem Takes.feeds (h : Takes d encodes same) (hwire : List.Forall₂ encodes items wire) (hcuts : buffer ++ cuts.flatten = wire.flatten)
    (hpart : ∀ b ∈ wire.head?, ¬b <+: buffer) (hfits : d.Fits buffer cuts) :
    ∃ found, d.feeds buffer cuts = (.ok found, []) ∧ List.Forall₂ same items found := by
  induction cuts generalizing items wire buffer with
  | nil =>
    rw [List.flatten_nil, List.append_nil] at hcuts
    cases hwire with
    | nil => exact ⟨[], by rw [Decoder.feeds, hcuts]; rfl, .nil⟩
    | @cons a b items wire hencodes hwire =>
      refine absurd ?_ (hpart b rfl)
      rw [hcuts, flatten_cons]
      exact List.prefix_append b _
  | cons cut cuts ih =>
    rw [flatten_cons, ← append_assoc] at hcuts
    have hfeed : d.feed buffer cut = d.drain (buffer ++ cut).length (buffer ++ cut) := if_neg (not_lt.mpr hfits.1)
    obtain ⟨taken, later, left, found, htaken⟩ := h.drain hwire ⟨_, hcuts⟩ le_rfl
    rw [← hfeed] at htaken
    have hrest : (d.feed buffer cut).2 ++ cuts.flatten = left.flatten := by
      have hsplit := hcuts
      rw [htaken.keeps, htaken.splits, List.flatten_append, append_assoc] at hsplit
      exact List.append_cancel_left hsplit
    obtain ⟨others, hothers, hlater⟩ := ih htaken.leaves hrest htaken.part hfits.2
    obtain ⟨earlier, rfl, hearlier⟩ := htaken.takes
    refine ⟨found ++ others, ?_, List.rel_append hearlier hlater⟩
    have hpair : d.feed buffer cut = (.ok found, (d.feed buffer cut).2) := Prod.ext htaken.gives rfl
    rw [Decoder.feeds, hpair]
    dsimp only
    rw [hothers]
    rfl

/-- What is taken was encoded, and a failure keeps no more than there was. -/
structure Gives (d : Decoder α β φ) (encodes : α → List β → Prop) : Prop where
  /-- An item that is taken. -/
  item : ∀ buffer a rest, d.next buffer = .item a rest → ∃ b, encodes a b ∧ buffer = b ++ rest
  fails : ∀ buffer failure rest, d.next buffer = .fails failure rest → rest.length ≤ buffer.length

theorem Gives.drain (h : Gives d encodes) (hok : (d.drain fuel buffer).1 = .ok found) :
    ∃ wire, List.Forall₂ encodes found wire ∧ buffer = wire.flatten ++ (d.drain fuel buffer).2 := by
  induction fuel generalizing buffer found with
  | zero =>
    cases hok
    exact ⟨[], .nil, rfl⟩
  | succ fuel ih =>
    rw [Decoder.drain] at hok ⊢
    cases hnext : d.next buffer with
    | waits =>
      rw [hnext] at hok
      cases hok
      exact ⟨[], .nil, rfl⟩
    | fails =>
      rw [hnext] at hok
      cases hok
    | item a rest =>
      rw [hnext] at hok
      dsimp only at hok ⊢
      cases hrest : (d.drain fuel rest).1 with
      | error =>
        rw [hrest] at hok
        cases hok
      | ok later =>
        rw [hrest] at hok
        cases hok
        obtain ⟨wire, hwire, hsplit⟩ := ih hrest
        obtain ⟨b, hencodes, rfl⟩ := h.item buffer a rest hnext
        refine ⟨b :: wire, .cons hencodes hwire, ?_⟩
        rw [flatten_cons, append_assoc]
        exact congrArg (b ++ ·) hsplit

/-- What fragments gave was encoded, and what is left is kept. -/
theorem Gives.feeds (h : Gives d encodes) (hok : (d.feeds buffer cuts).1 = .ok found) :
    ∃ wire, List.Forall₂ encodes found wire ∧ buffer ++ cuts.flatten = wire.flatten ++ (d.feeds buffer cuts).2 := by
  induction cuts generalizing buffer found with
  | nil =>
    cases hok
    exact ⟨[], .nil, List.append_nil buffer⟩
  | cons cut cuts ih =>
    rw [Decoder.feeds] at hok ⊢
    rcases hfeed : d.feed buffer cut with ⟨first, rest⟩
    cases first with
    | error =>
      rw [hfeed] at hok
      cases hok
    | ok earlier =>
      rw [hfeed] at hok
      dsimp only at hok ⊢
      cases hrest : (d.feeds rest cuts).1 with
      | error =>
        rw [hrest] at hok
        cases hok
      | ok later =>
        rw [hrest] at hok
        cases hok
        obtain ⟨wire, hwire, hsplit⟩ := ih hrest
        unfold Decoder.feed at hfeed
        split_ifs at hfeed with hfull
        · cases hfeed
        obtain ⟨taken, htaken, hbuffer⟩ := h.drain (congrArg Prod.fst hfeed)
        rw [hfeed] at hbuffer
        refine ⟨taken ++ wire, List.rel_append htaken hwire, ?_⟩
        rw [flatten_cons, ← append_assoc, hbuffer, append_assoc, hsplit, List.flatten_append, append_assoc]

/-- What is left of a buffer when some of its items have been taken. -/
inductive Decoder.Reaches (d : Decoder α β φ) (buffer : List β) : List β → Prop
  | refl : Reaches d buffer buffer
  | item {middle rest : List β} {a : α} : Reaches d buffer middle → d.next middle = .item a rest → Reaches d buffer rest

theorem Decoder.Reaches.head {a : α} (hnext : d.next buffer = .item a rest) (h : d.Reaches rest left) : d.Reaches buffer left := by
  induction h with
  | refl => exact .item .refl hnext
  | item _ hitem ih => exact .item ih hitem

theorem Gives.length_drain (h : Gives d encodes) : (d.drain fuel buffer).2.length ≤ buffer.length := by
  induction fuel generalizing buffer with
  | zero => exact le_rfl
  | succ fuel ih =>
    rw [Decoder.drain]
    cases hnext : d.next buffer with
    | waits => exact le_rfl
    | fails failure rest => exact h.fails buffer failure rest hnext
    | item a rest =>
      obtain ⟨b, -, rfl⟩ := h.item buffer a rest hnext
      have hle : (d.drain fuel rest).2.length ≤ rest.length := ih
      rw [length_append]
      dsimp only
      omega

/-- The buffer stays within its bound, whatever arrives. -/
theorem Gives.length_feed (h : Gives d encodes) (hbuffer : buffer.length ≤ d.limit) : (d.feed buffer data).2.length ≤ d.limit := by
  unfold Decoder.feed
  split_ifs with hfull
  · exact hbuffer
  have hle : (d.drain (buffer ++ data).length (buffer ++ data)).2.length ≤ (buffer ++ data).length := h.length_drain
  rw [length_append] at hle ⊢
  exact hle.trans (not_lt.mp hfull)

end SparkRing.FragmentedStream
