import Mathlib.Data.Prod.Lex
import SparkRing.Admission
import SparkRing.TransitionSystem

/-!
# Admission is exclusive and never refused without reason

What every call owns is what the lock table says of it, so admitted holds do not
overlap, a refusal names a hold that is there, a call that ended holds nothing, and the
call that owns the admission lock never waits.
-/

namespace SparkRing.Admission

open LockTable Rollout TransitionSystem Function
open List (mem_cons mem_cons_self mem_map mem_reverse not_mem_nil)

variable {ι π : Type} {process : ι → π} {w v : State ι} {c d : ι} {l : Lock} {m : Mode}
  {selected a : Placement} {held todo rest : List Lock}

/-- The locks that a hold owns. -/
def lent (selected : Placement) (held : List Lock) : List (Lock × Mode) := held.map fun l => (l, modeFor selected l)

/-- What a call owns. -/
def Stage.owned : Stage ι → List (Lock × Mode)
  | .acquiring selected held _ | .closing selected held => (.admission, .exclusive) :: lent selected held
  | .selecting .. | .scanning .. | .probing .. | .exiting .. => [(.admission, .exclusive)]
  | .gated _ => [(.admission, .exclusive), (.gate, .shared)]
  | .probed _ position _ _ => [(.admission, .exclusive), (.spark position, .exclusive)]
  | .admitted selected held | .leaving selected held => lent selected held
  | .idle | .entering _ | .done _ => []

/-- A hold's locks are the first of those it needs, newest first. -/
def Stage.Ok : Stage ι → Prop
  | .acquiring selected held todo => held.reverse ++ todo = needed selected
  | .closing selected held => ∃ rest, held.reverse ++ rest = needed selected
  | .admitted selected held => held.reverse = needed selected
  | .leaving selected held => held ≠ [] ∧ ∃ rest, held.reverse ++ rest = needed selected
  | _ => True

/-- What holds in every state. -/
structure Inv (w : State ι) : Prop where
  /-- Exclusive holders are alone. -/
  sound : Sound w.locks
  /-- The table says what the calls say. -/
  agrees : Agrees w.locks Stage.owned w.stage
  /-- Holds acquire their locks in order. -/
  ok : ∀ c, (w.stage c).Ok

theorem needed_nodup (selected : Placement) : (needed selected).Nodup := by
  refine List.nodup_cons.mpr ⟨?_, ?_⟩
  · intro h
    obtain ⟨p, -, hp⟩ := mem_map.mp h
    cases hp
  have hsorted : (sortedSet (selected.getD [])).Nodup :=
    (List.perm_insertionSort _ _).nodup_iff.mpr (List.nodup_dedup _)
  exact hsorted.map fun a b hab => by injection hab

theorem mem_needed : l ∈ needed selected ↔ l = .gate ∨ ∃ p ∈ selected.getD [], l = .spark p := by
  simp only [needed, sortedSet, mem_cons, mem_map, List.mem_insertionSort, List.mem_dedup]
  constructor
  · rintro (rfl | ⟨p, hp, rfl⟩)
    · exact .inl rfl
    · exact .inr ⟨p, hp, rfl⟩
  rintro (rfl | ⟨p, hp, rfl⟩)
  · exact .inl rfl
  · exact .inr ⟨p, hp, rfl⟩

theorem admission_not_mem_needed : Lock.admission ∉ needed selected := by
  intro h
  rcases mem_needed.mp h with h | ⟨p, -, h⟩ <;> cases h

/-- The locks held and those left are different, and none is the admission lock. -/
theorem held_nodup (h : held.reverse ++ rest = needed selected) : held.Nodup ∧ (∀ l ∈ held, l ∈ needed selected ∧ l ∉ rest) := by
  have hnodup := needed_nodup selected
  rw [← h] at hnodup
  obtain ⟨hheld, -, hapart⟩ := List.nodup_append.mp hnodup
  refine ⟨List.nodup_reverse.mp hheld, fun l hl => ⟨?_, fun hr => ?_⟩⟩
  · rw [← h]
    exact List.mem_append_left _ (mem_reverse.mpr hl)
  · exact hapart l (mem_reverse.mpr hl) l hr rfl

theorem mem_lent : (l, m) ∈ lent selected held ↔ l ∈ held ∧ m = modeFor selected l := by
  simp only [lent, mem_map, Prod.mk.injEq]
  constructor
  · rintro ⟨k, hk, rfl, rfl⟩
    exact ⟨hk, rfl⟩
  · rintro ⟨hl, rfl⟩
    exact ⟨l, hl, rfl, rfl⟩

/-- A hold releases its newest lock. -/
theorem lent_pop (h : (l :: held).Nodup) (x : Lock × Mode) : x ∈ lent selected held ↔ x ∈ lent selected (l :: held) ∧ x.1 ≠ l := by
  obtain ⟨k, n⟩ := x
  rw [mem_lent, mem_lent, mem_cons]
  constructor
  · rintro ⟨hk, hn⟩
    exact ⟨⟨.inr hk, hn⟩, fun heq => (List.nodup_cons.mp h).1 (heq ▸ hk)⟩
  · rintro ⟨⟨hk, hn⟩, hne⟩
    exact ⟨hk.resolve_left hne, hn⟩

theorem held_ne_admission (h : held.reverse ++ rest = needed selected) (hl : l ∈ held) : l ≠ .admission := by
  rintro rfl
  exact admission_not_mem_needed ((held_nodup h).2 _ hl).1

/-- A call that has the admission lock starts with no other. -/
theorem owned_inside (request : Request) :
    (request.inside : Stage ι).owned = [(.admission, .exclusive)] ∧ (request.inside : Stage ι).Ok := by
  cases request <;> exact ⟨rfl, trivial⟩

theorem inv_initial (records : List SlotRecords) (files : List Lock) (content : Lock → Option (Owner ι)) :
    Inv (initial records files content) where
  sound _ _ hc := absurd hc not_mem_nil
  agrees _ _ _ := iff_of_false not_mem_nil not_mem_nil
  ok _ := trivial

variable {s : Stage ι}

/-- A call that owns the admission lock is neither admitted nor leaving. -/
theorem entrance (hok : s.Ok) (h : (.admission, m) ∈ s.owned) :
    (.admission, .exclusive) ∈ s.owned ∧ ∀ selected held, s ≠ .admitted selected held ∧ s ≠ .leaving selected held := by
  cases s with
  | admitted selected held =>
    have hall : held.reverse ++ [] = needed selected := (List.append_nil _).trans hok
    exact absurd rfl (held_ne_admission hall (mem_lent.mp h).1)
  | leaving =>
    obtain ⟨-, rest, hall⟩ := hok
    exact absurd rfl (held_ne_admission hall (mem_lent.mp h).1)
  | idle | entering | done => cases h
  | _ => exact ⟨mem_cons_self, fun _ _ => ⟨nofun, nofun⟩⟩

/-- The positions that an admitted hold has not released. -/
def Stage.positions : Stage ι → Option Placement
  | .admitted selected _ => some selected
  | .leaving selected held => some (selected.map fun _ => held.filterMap Lock.position)
  | _ => none

theorem mem_positions {p : ℕ} : p ∈ held.filterMap Lock.position ↔ .spark p ∈ held := by
  rw [List.mem_filterMap]
  constructor
  · rintro ⟨l, hl, hp⟩
    cases l with
    | spark =>
      cases hp
      exact hl
    | admission | gate => cases hp
  · intro hp
    exact ⟨_, hp, rfl⟩

theorem overlap_some {a b : List ℕ} : overlap (some a) (some b) = true ↔ ∃ p ∈ a, p ∈ b := by
  simp only [overlap, List.any_eq_true, decide_eq_true_eq]

/-- An admitted hold owns the gate, alone when it is ring-wide, and the locks of its
positions. -/
theorem owned_of_positions (hok : s.Ok) (hp : s.positions = some a) : (.gate, if a = none then Mode.exclusive else Mode.shared) ∈ s.owned ∧
      ∀ p ∈ a.getD [], (.spark p, .exclusive) ∈ s.owned := by
  cases s with
  | admitted selected held =>
    simp only [Stage.positions, Option.some.injEq] at hp
    subst hp
    have hall : held.reverse = needed selected := hok
    have hheld : ∀ {l}, l ∈ needed selected → l ∈ held := by
      intro l hl
      rw [← hall, mem_reverse] at hl
      exact hl
    exact ⟨mem_lent.mpr ⟨hheld (mem_needed.mpr (.inl rfl)), rfl⟩,
      fun p hp => mem_lent.mpr ⟨hheld (mem_needed.mpr (.inr ⟨p, hp, rfl⟩)), rfl⟩⟩
  | leaving selected held =>
    obtain ⟨hne, rest, hall⟩ := hok
    have hgate : .gate ∈ held := by
      cases hrev : held.reverse with
      | nil => exact absurd (List.reverse_eq_nil_iff.mp hrev) hne
      | cons =>
        rw [hrev, needed, List.cons_append, List.cons.injEq] at hall
        rw [← mem_reverse, hrev, hall.1]
        exact mem_cons_self
    simp only [Stage.positions, Option.some.injEq] at hp
    subst hp
    cases selected with
    | none => exact ⟨mem_lent.mpr ⟨hgate, rfl⟩, fun p hp => absurd hp not_mem_nil⟩
    | some => exact ⟨mem_lent.mpr ⟨hgate, rfl⟩, fun p hp => mem_lent.mpr ⟨mem_positions.mp hp, rfl⟩⟩
  | _ => cases hp

/-- Two holds overlap only where they ask for one lock, one of them alone. -/
theorem Inv.exclusive {b : Placement} (h : Inv w) (hne : c ≠ d) (ha : (w.stage c).positions = some a)
    (hb : (w.stage d).positions = some b) : overlap a b = false := by
  obtain ⟨hgateA, hsparksA⟩ := owned_of_positions (h.ok c) ha
  obtain ⟨hgateB, hsparksB⟩ := owned_of_positions (h.ok d) hb
  cases a with
  | none => exact absurd (h.sound.eq_of_mem ((h.agrees _ c _).mpr hgateA) ((h.agrees _ d _).mpr hgateB)) hne.symm
  | some =>
    cases b with
    | none => exact absurd (h.sound.eq_of_mem ((h.agrees _ d _).mpr hgateB) ((h.agrees _ c _).mpr hgateA)) hne
    | some =>
      by_contra hover
      rw [Bool.not_eq_false, overlap_some] at hover
      obtain ⟨p, hpa, hpb⟩ := hover
      exact hne (h.sound.eq_of_mem ((h.agrees _ d _).mpr (hsparksB p hpb)) ((h.agrees _ c _).mpr (hsparksA p hpa)))

/-- A call that owns a lock beside the admission lock's owner is an admitted hold. -/
theorem Inv.admitted_of_owned (h : Inv w) (hne : d ≠ c) (hc : (.admission, .exclusive) ∈ (w.stage c).owned)
    (hd : (l, m) ∈ (w.stage d).owned) : ∃ selected held, (l, m) ∈ lent selected held ∧
      (w.stage d = .admitted selected held ∨ w.stage d = .leaving selected held) := by
  have hout : (.admission, .exclusive) ∉ (w.stage d).owned := fun hin =>
    hne (h.sound.eq_of_mem ((h.agrees _ c _).mpr hc) ((h.agrees _ d _).mpr hin))
  cases hs : w.stage d with
  | admitted selected held => exact ⟨selected, held, by rwa [hs] at hd, .inl rfl⟩
  | leaving selected held => exact ⟨selected, held, by rwa [hs] at hd, .inr rfl⟩
  | idle | entering | done => rw [hs] at hd; cases hd
  | _ =>
    rw [hs] at hout
    exact absurd mem_cons_self hout

/-- A lock is refused only where an admitted hold overlaps. -/
theorem Inv.refused (h : Inv w) (hs : w.stage c = .acquiring selected held (l :: todo))
    (hg : w.locks.grants l (modeFor selected l) = false) : ∃ d b, d ≠ c ∧ (w.stage d).positions = some b ∧ overlap selected b = true := by
  have hok := h.ok c
  rw [hs] at hok
  have hall : held.reverse ++ l :: todo = needed selected := hok
  have hneed : l ∈ needed selected := hall ▸ List.mem_append_right _ mem_cons_self
  obtain ⟨d, n, hd, hmode⟩ := exists_of_not_grants hg
  rw [h.agrees] at hd
  have hne : d ≠ c := by
    rintro rfl
    rw [hs, Stage.owned, mem_cons, mem_lent] at hd
    rcases hd with hd | hd
    · cases hd
      exact admission_not_mem_needed hneed
    · exact ((held_nodup hall).2 l hd.1).2 mem_cons_self
  have hc : (.admission, .exclusive) ∈ (w.stage c).owned := by
    rw [hs]
    exact mem_cons_self
  obtain ⟨other, owned, hlent, hstage⟩ := h.admitted_of_owned hne hc hd
  obtain ⟨howned, rfl⟩ := mem_lent.mp hlent
  have hokd := h.ok d
  refine ⟨d, ?_⟩
  rcases mem_needed.mp hneed with rfl | ⟨p, hp, rfl⟩
  · -- the gate: one of the two is ring-wide
    have hwide : selected = none ∨ other = none := by
      simp only [modeFor] at hmode
      by_cases hn : selected = none
      · exact .inl hn
      by_cases ho : other = none
      · exact .inr ho
      · simp only [hn, ho, if_false] at hmode
        rcases hmode with hf | hf <;> cases hf
    have hoverlap : ∀ b : Placement, (other = none → b = none) → overlap selected b = true := by
      intro b hb
      rcases hwide with rfl | ho
      · rfl
      · rw [hb ho]
        cases selected <;> rfl
    rcases hstage with hstage | hstage
    · exact ⟨other, hne, by rw [hstage]; rfl, hoverlap other id⟩
    refine ⟨_, hne, by rw [hstage]; rfl, hoverlap _ fun ho => ?_⟩
    rw [ho]
    rfl
  · obtain ⟨a, rfl⟩ : ∃ a, selected = some a := by
      cases selected with
      | none => cases hp
      | some a => exact ⟨a, rfl⟩
    rcases hstage with hstage | hstage
    · refine ⟨other, hne, by rw [hstage]; rfl, ?_⟩
      rw [hstage] at hokd
      have hothers : owned.reverse = needed other := hokd
      have hp' : .spark p ∈ needed other := hothers ▸ mem_reverse.mpr howned
      rcases mem_needed.mp hp' with hgate | ⟨q, hq, heq⟩
      · cases hgate
      cases heq
      cases other with
      | none => rfl
      | some => exact overlap_some.mpr ⟨p, hp, hq⟩
    · refine ⟨_, hne, by rw [hstage]; rfl, ?_⟩
      cases other with
      | none => rfl
      | some => exact overlap_some.mpr ⟨p, hp, mem_positions.mpr howned⟩

variable [DecidableEq ι] [DecidableEq π]

/-- A call moves on with what it owns. -/
theorem Inv.move (h : Inv w) (hown : ∀ x, x ∈ s.owned ↔ x ∈ (w.stage c).owned) (hok : s.Ok) : Inv (w.move c s) := { h with
  agrees := h.agrees.move hown
  ok d := by
    by_cases hd : d = c
    · subst hd
      simp only [State.move, update_self]
      exact hok
    · simp only [State.move, update_of_ne hd]
      exact h.ok d }

/-- A call is granted a lock. -/
theorem Inv.take {owner : Option (Owner ι)} (h : Inv w) (hg : w.locks.grants l m = true)
    (hown : ∀ x, x ∈ s.owned ↔ x = (l, m) ∨ x ∈ (w.stage c).owned) (hok : s.Ok) : Inv ((w.take c l m owner).move c s) where
  sound := h.sound.acquire hg
  agrees := h.agrees.acquire hown
  ok d := by
    by_cases hd : d = c
    · subst hd
      simp only [State.move, update_self]
      exact hok
    · simp only [State.move, State.take, update_of_ne hd]
      exact h.ok d

/-- A call releases a lock. -/
theorem Inv.free (h : Inv w) (hown : ∀ x, x ∈ s.owned ↔ x ∈ (w.stage c).owned ∧ x.1 ≠ l) (hok : s.Ok) : Inv ((w.free c l).move c s) where
  sound := h.sound.release
  agrees := h.agrees.release hown
  ok d := by
    by_cases hd : d = c
    · subst hd
      simp only [State.move, update_self]
      exact hok
    · simp only [State.move, State.free, update_of_ne hd]
      exact h.ok d

/-- Every step of a call keeps the invariant. -/
theorem Inv.next (h : Inv w) (hn : w.next c = some v) : Inv v := by
  have hok := h.ok c
  unfold State.next at hn
  split at hn
  case h_1 request hs =>
    obtain ⟨hg, rfl⟩ := Option.ite_some_none_eq_some.mp hn
    refine h.take hg (fun x => ?_) (owned_inside request).2
    rw [(owned_inside request).1, hs, List.mem_singleton]
    exact (or_iff_left not_mem_nil).symm
  case h_2 positions expand hs =>
    cases hn
    refine h.move (fun x => ?_) rfl
    rw [hs]
    rfl
  case h_3 selected held l todo hs =>
    rw [hs] at hok
    have hall : held.reverse ++ l :: todo = needed selected := hok
    split at hn
    case isTrue hg =>
      cases hn
      refine h.take hg (fun x => ?_) ?_
      · rw [hs]
        simp only [Stage.owned, lent, List.map_cons, mem_cons]
        tauto
      · simp only [Stage.Ok, List.reverse_cons, List.append_assoc, List.singleton_append]
        exact hall
    case isFalse =>
      cases hn
      refine h.move (fun x => ?_) ⟨_, hall⟩
      rw [hs]
      rfl
  case h_4 selected held hs =>
    rw [hs] at hok
    have hall : held.reverse ++ [] = needed selected := hok
    cases hn
    refine h.free (fun x => ?_) ?_
    · rw [hs]
      simp only [Stage.owned, mem_cons]
      constructor
      · intro hx
        obtain ⟨l, m⟩ := x
        exact ⟨.inr hx, held_ne_admission hall (mem_lent.mp hx).1⟩
      rintro ⟨rfl | hx, hne⟩
      · exact absurd rfl hne
      · exact hx
    · simpa only [Stage.Ok, List.append_nil] using hall
  case h_5 selected l held hs =>
    rw [hs] at hok
    obtain ⟨rest, hall⟩ := hok
    cases hn
    refine h.free (fun x => ?_) ⟨l :: rest, ?_⟩
    · rw [hs]
      simp only [Stage.owned, mem_cons]
      rw [lent_pop (held_nodup hall).1 x]
      have hne : Lock.admission ≠ l := (held_ne_admission hall mem_cons_self).symm
      constructor
      · rintro (rfl | hx)
        · exact ⟨.inl rfl, hne⟩
        · exact ⟨.inr hx.1, hx.2⟩
      rintro ⟨hx | hx, hl⟩
      · exact .inl hx
      · exact .inr ⟨hx, hl⟩
    · simpa only [List.reverse_cons, List.append_assoc, List.singleton_append] using hall
  case h_6 selected hs =>
    cases hn
    refine h.move (fun x => ?_) trivial
    rw [hs]
    rfl
  case h_7 purpose hs =>
    split at hn
    case isTrue =>
      split at hn
      case isTrue hg =>
        cases hn
        refine h.take hg (fun x => ?_) trivial
        rw [hs]
        simp only [Stage.owned, mem_cons, not_mem_nil, or_false]
        tauto
      case isFalse =>
        cases hn
        refine h.move (fun x => ?_) trivial
        rw [hs]
        rfl
    case isFalse =>
      cases hn
      refine h.move (fun x => ?_) trivial
      rw [hs]
      rfl
  case h_8 purpose hs =>
    cases hn
    refine h.free (fun x => ?_) trivial
    rw [hs]
    simp only [Stage.owned, mem_cons, not_mem_nil, or_false]
    constructor
    · rintro rfl
      exact ⟨.inl rfl, by decide⟩
    rintro ⟨rfl | rfl, hne⟩
    · rfl
    · exact absurd rfl hne
  case h_9 purpose position todo rows hs =>
    split at hn
    case isTrue hg =>
      cases hn
      refine h.take hg (fun x => ?_) trivial
      rw [hs]
      simp only [Stage.owned, mem_cons, not_mem_nil, or_false]
      tauto
    case isFalse =>
      cases hn
      refine h.move (fun x => ?_) trivial
      rw [hs]
      rfl
  case h_10 purpose rows hs =>
    cases hn
    refine h.move (fun x => ?_) trivial
    rw [hs]
    rfl
  case h_11 purpose position todo rows hs =>
    cases hn
    refine h.free (fun x => ?_) trivial
    rw [hs]
    simp only [Stage.owned, mem_cons, not_mem_nil, or_false]
    constructor
    · rintro rfl
      exact ⟨.inl rfl, nofun⟩
    rintro ⟨rfl | rfl, hne⟩
    · rfl
    · exact absurd rfl hne
  case h_12 outcome hs =>
    cases hn
    refine h.free (fun x => ?_) trivial
    rw [hs]
    simp only [Stage.owned, mem_cons, not_mem_nil, or_false, false_iff, not_and, not_not]
    rintro rfl
    rfl
  case h_13 selected l held hs =>
    rw [hs] at hok
    obtain ⟨-, rest, hall⟩ := hok
    cases hn
    have hpop : ∀ x, x ∈ lent selected held ↔ x ∈ lent selected (l :: held) ∧ x.1 ≠ l :=
      lent_pop (held_nodup hall).1
    split
    case isTrue hnil =>
      subst hnil
      refine h.free (fun x => ?_) trivial
      rw [hs]
      exact hpop x
    case isFalse hne =>
      refine h.free (fun x => ?_) ⟨hne, l :: rest, ?_⟩
      · rw [hs]
        exact hpop x
      · simpa only [List.reverse_cons, List.append_assoc, List.singleton_append] using hall
  case h_14 => cases hn

/-- Every step keeps the invariant. -/
theorem Inv.step {a : Move ι π} (h : Inv w) (hs : step process w a = some v) : Inv v := by
  unfold Admission.step at hs
  split at hs
  case h_1 c request =>
    split at hs
    case h_1 hidle =>
      cases hs
      have hstart : (request.start : Stage ι).owned = [] ∧ (request.start : Stage ι).Ok := by
        cases request with
        | transfer =>
          simp only [Request.start]
          split <;> exact ⟨rfl, trivial⟩
        | hold | active | conflict | busy => exact ⟨rfl, trivial⟩
      refine h.move (fun x => ?_) hstart.2
      rw [hstart.1, hidle]
      rfl
    case h_2 => cases hs
  case h_2 c => exact h.next hs
  case h_3 c =>
    split at hs
    case h_1 positions hselecting =>
      cases hs
      refine h.move (fun x => ?_) trivial
      rw [hselecting]
      rfl
    case h_2 => cases hs
  case h_4 c =>
    split at hs
    case h_1 selected held hadmitted =>
      cases hs
      have hok := h.ok c
      rw [hadmitted] at hok
      have hall : held.reverse = needed selected := hok
      refine h.move (fun x => ?_) ⟨?_, [], ?_⟩
      · rw [hadmitted]
        rfl
      · rintro rfl
        cases hall
      · rw [List.append_nil]
        exact hall
    case h_2 => cases hs
  case h_5 p =>
    cases hs
    have hdrop : Agrees (w.locks.drop fun c => decide (process c = p)) Stage.owned
        fun c => if decide (process c = p) = true then Stage.idle else w.stage c := h.agrees.drop rfl
    have hsound : Sound (w.locks.drop fun c => decide (process c = p)) := h.sound.drop
    refine ⟨hsound, hdrop, fun c => ?_⟩
    simp only
    split
    · trivial
    · exact h.ok c
  case h_6 records =>
    cases hs
    exact ⟨h.sound, h.agrees, h.ok⟩

/-- What a call that owns the admission lock still has to do before it releases it. -/
def Stage.left : Stage ι → ℕ ×ₗ ℕ
  | .selecting .. => toLex (8, 0)
  | .acquiring _ _ todo => toLex (7, todo.length)
  | .closing _ held => toLex (6, held.length)
  | .scanning _ => toLex (5, 0)
  | .gated _ => toLex (4, 0)
  | .probing _ todo _ => toLex (3, 2 * todo.length)
  | .probed _ _ todo _ => toLex (3, 2 * todo.length + 1)
  | .exiting _ => toLex (2, 0)
  | _ => toLex (1, 0)

/-- A call is between its start and its end, and not in the body of a hold. -/
def Stage.calling : Stage ι → Bool
  | .idle | .admitted .. | .done _ => false
  | _ => true

/-- A call cannot take its next step. -/
def Waits (w : State ι) (c : ι) : Prop := (w.stage c).calling = true ∧ w.next c = none

/-- A call owns the admission lock. -/
def Inside (w : State ι) (c : ι) : Prop := (c, .exclusive) ∈ w.locks .admission

theorem left_lt_of_fst {a b m n : ℕ} (h : a < b) : toLex (a, m) < toLex (b, n) :=
  Prod.Lex.toLex_lt_toLex.mpr (.inl h)

theorem left_lt_of_snd {a m n : ℕ} (h : m < n) : toLex (a, m) < toLex (a, n) :=
  Prod.Lex.toLex_lt_toLex.mpr (.inr ⟨rfl, h⟩)

theorem stage_move : (w.move c s).stage c = s := by
  simp only [State.move, update_self]

theorem stage_other (h : d ≠ c) : (w.move c s).stage d = w.stage d := by
  simp only [State.move, update_of_ne h]

/-- A call's own step moves it and no other call. -/
theorem next_eq_move (hn : w.next c = some v) : ∃ (u : State ι) (s : Stage ι), v = u.move c s ∧ u.stage = w.stage := by
  unfold State.next at hn
  split at hn <;> try split at hn
  case h_7.isTrue =>
    split at hn
    all_goals
      cases hn
      exact ⟨_, _, rfl, rfl⟩
  all_goals
    first
      | exact ⟨_, _, (Option.some.inj hn).symm, rfl⟩
      | cases hn

theorem stage_next (hn : w.next c = some v) (hd : d ≠ c) : v.stage d = w.stage d := by
  obtain ⟨u, s, rfl, hu⟩ := next_eq_move hn
  rw [stage_other hd, hu]

/-- A step to a stage with less to do. -/
theorem nearer {s s' : Stage ι} (h : s.left < s'.left) : ∃ v, some (w.move c s) = some v ∧ (v.stage c).left < s'.left := by
  refine ⟨_, rfl, ?_⟩
  rw [stage_move]
  exact h

/-- A call that owns the admission lock takes a step, and has less to do then. -/
theorem Inv.next_inside (h : Inv w) (hin : Inside w c) : ∃ v, w.next c = some v ∧ (v.stage c).left < (w.stage c).left := by
  obtain ⟨-, hout⟩ := entrance (h.ok c) ((h.agrees _ c _).mp hin)
  have hown : (.admission, .exclusive) ∈ (w.stage c).owned := (h.agrees _ c _).mp hin
  unfold State.next
  cases hs : w.stage c with
  | idle | entering | done => rw [hs] at hown; cases hown
  | admitted selected held => exact absurd hs (hout selected held).1
  | leaving selected held => exact absurd hs (hout selected held).2
  | selecting => exact nearer (left_lt_of_fst (by decide))
  | acquiring selected held todo =>
    cases todo with
    | nil => exact nearer (left_lt_of_fst (by decide))
    | cons =>
      simp only
      split
      · exact nearer (left_lt_of_snd (Nat.lt_succ_self _))
      · exact nearer (left_lt_of_fst (by decide))
  | closing selected held =>
    cases held with
    | nil => exact nearer (left_lt_of_fst (by decide))
    | cons => exact nearer (left_lt_of_snd (Nat.lt_succ_self _))
  | scanning =>
    simp only
    split
    · split
      · exact nearer (left_lt_of_fst (by decide))
      · exact nearer (left_lt_of_fst (by decide))
    · exact nearer (left_lt_of_fst (by decide))
  | gated => exact nearer (left_lt_of_fst (by decide))
  | probing purpose todo rows =>
    cases todo with
    | nil => exact nearer (left_lt_of_fst (by decide))
    | cons position todo =>
      have hfewer : 2 * todo.length + 1 < 2 * (position :: todo).length := by
        rw [List.length_cons]
        omega
      simp only
      split
      · exact nearer (left_lt_of_snd hfewer)
      · exact nearer (left_lt_of_snd (Nat.lt_of_succ_lt hfewer))
  | probed => exact nearer (left_lt_of_snd (Nat.lt_succ_self _))
  | exiting => exact nearer (left_lt_of_fst (by decide))

/-- A call that waits does so for the admission lock, which another call owns. -/
theorem Inv.waits (h : Inv w) (hw : Waits w c) : ∃ d, Inside w d := by
  obtain ⟨hcalling, hnext⟩ := hw
  have hout : (.admission, .exclusive) ∉ (w.stage c).owned := by
    intro hin
    obtain ⟨v, hv, -⟩ := h.next_inside ((h.agrees _ c _).mpr hin)
    rw [hnext] at hv
    cases hv
  have hok := h.ok c
  cases hs : w.stage c with
  | idle | done | admitted => rw [hs] at hcalling; cases hcalling
  | leaving selected held =>
    rw [hs] at hok
    cases held with
    | nil => exact absurd rfl hok.1
    | cons l held =>
      simp only [State.next, hs] at hnext
      cases hnext
  | entering request =>
    have hg : w.locks.grants .admission .exclusive = false := by
      simp only [State.next, hs] at hnext
      split at hnext
      case isTrue => cases hnext
      case isFalse hg => exact Bool.not_eq_true _ ▸ hg
    obtain ⟨d, n, hd, -⟩ := exists_of_not_grants hg
    exact ⟨d, (h.agrees _ d _).mpr (entrance (h.ok d) ((h.agrees _ d _).mp hd)).1⟩
  | _ =>
    rw [hs] at hout
    exact absurd mem_cons_self hout

/-- While a call owns the admission lock, no step gives it more to do. -/
theorem Inv.step_inside {a : Move ι π} (h : Inv w) (hin : Inside w d) (hs : Admission.step process w a = some v) :
    v.stage d = w.stage d ∧ a ≠ .next d ∨ (v.stage d).left < (w.stage d).left := by
  obtain ⟨u, hu, hless⟩ := h.next_inside hin
  have hown : (.admission, .exclusive) ∈ (w.stage d).owned := (h.agrees _ d _).mp hin
  obtain ⟨-, hout⟩ := entrance (h.ok d) hown
  unfold Admission.step at hs
  split at hs
  case h_1 c request =>
    split at hs
    case h_1 hidle =>
      cases hs
      refine .inl ⟨stage_other ?_, nofun⟩
      rintro rfl
      rw [hidle] at hown
      cases hown
    case h_2 => cases hs
  case h_2 c =>
    by_cases hc : d = c
    · subst hc
      rw [hu, Option.some.injEq] at hs
      exact .inr (hs ▸ hless)
    · exact .inl ⟨stage_next hs hc, fun heq => hc (by injection heq with heq; exact heq.symm)⟩
  case h_3 c =>
    split at hs
    case h_1 positions hselecting =>
      cases hs
      by_cases hc : d = c
      · subst hc
        rw [stage_move, hselecting]
        exact .inr (left_lt_of_fst (by decide))
      · exact .inl ⟨stage_other hc, nofun⟩
    case h_2 => cases hs
  case h_4 c =>
    split at hs
    case h_1 selected held hadmitted =>
      cases hs
      refine .inl ⟨stage_other ?_, nofun⟩
      rintro rfl
      exact (hout selected held).1 hadmitted
    case h_2 => cases hs
  case h_5 p =>
    cases hs
    simp only
    split
    · refine .inr ?_
      cases hsd : w.stage d with
      | idle | entering | done => rw [hsd] at hown; cases hown
      | admitted selected held => exact absurd hsd (hout selected held).1
      | leaving selected held => exact absurd hsd (hout selected held).2
      | _ => exact left_lt_of_fst (by decide)
    · exact .inl ⟨rfl, nofun⟩
  case h_6 records =>
    cases hs
    exact .inl ⟨rfl, nofun⟩

/-- What admission keeps in a state. -/
structure Admits (process : ι → π) (w : State ι) : Prop where
  /-- Holds that were admitted and have not left do not overlap. -/
  exclusive : ∀ c d a b, c ≠ d → (w.stage c).positions = some a → (w.stage d).positions = some b → overlap a b = false
  /-- A hold is refused only where another one that is admitted overlaps it. -/
  refused : ∀ c v selected held todo, w.stage c = .acquiring selected held todo → w.next c = some v →
    v.stage c = .closing selected held →
      ∃ d b, d ≠ c ∧ (w.stage d).positions = some b ∧ overlap selected b = true
  /-- A call that ended, refused or not, holds nothing. -/
  freed : ∀ c outcome, w.stage c = .done outcome → ∀ l m, (c, m) ∉ w.locks l
  /-- Calls wait only for the one that owns the admission lock. -/
  waits : ∀ c, Waits w c → ∃ d, Inside w d
  /-- That one does not wait, and its next step leaves it less to do. -/
  moves : ∀ d, Inside w d → ¬Waits w d ∧ ∃ v, w.next d = some v ∧ (v.stage d).left < (w.stage d).left
  /-- No step of another gives it more to do. -/
  nears : ∀ d, Inside w d → ∀ a v, step process w a = some v →
    v.stage d = w.stage d ∧ a ≠ .next d ∨ (v.stage d).left < (w.stage d).left

theorem Inv.admits (h : Inv w) : Admits process w where
  exclusive _ _ _ _ hne ha hb := h.exclusive hne ha hb
  refused c v selected held todo hs hn hv := by
    cases todo with
    | nil =>
      simp only [State.next, hs, Option.some.injEq] at hn
      rw [← hn, stage_move] at hv
      cases hv
    | cons l todo =>
      cases hg : w.locks.grants l (modeFor selected l) with
      | false => exact h.refused hs hg
      | true =>
        simp only [State.next, hs, hg, if_true, Option.some.injEq] at hn
        rw [← hn, stage_move] at hv
        cases hv
  freed c outcome hs l m := by
    rw [h.agrees, hs]
    exact not_mem_nil
  waits _ hw := h.waits hw
  moves d hin := by
    obtain ⟨v, hv, hless⟩ := h.next_inside hin
    refine ⟨fun hw => ?_, v, hv, hless⟩
    rw [hw.2] at hv
    cases hv
  nears _ hin _ _ hs := h.step_inside hin hs

/-- In every run of calls of any number of processes, admission is exclusive, a hold is
refused only for one that overlaps it, calls that end hold nothing, and no calls wait
for each other. -/
theorem admission_exclusive {records : List SlotRecords} {files : List Lock} {content : Lock → Option (Owner ι)}
    (h : Reachable (step process) Unrestricted (initial records files content) w) : Admits process w := by
  have hinv : Inv w := h.invariant Inv (inv_initial records files content) fun _ _ _ _ hi _ hs => hi.step hs
  exact hinv.admits

/-- One hold is admitted, and another is about to be refused. -/
def twoHolds : List (Move ℕ ℕ) :=
  [.start 0 (.hold (some [1, 0]) false)] ++ List.replicate 6 (.next 0) ++
    [.start 1 (.hold (some [1, 2]) false)] ++ List.replicate 3 (.next 1)

/-- The first hold is what the second one is refused for. -/
theorem admission_exclusive_twoHolds :
    ∃ w : State ℕ, Reachable (step id) Unrestricted (initial [] [] fun _ => none) w ∧
      (w.stage 0).positions = some (some [1, 0]) ∧ (w.next 1).map (fun v => (v.stage 1).owned) =
        some [(.admission, .exclusive), (.gate, .shared)] ∧ Admits id w := by
  obtain ⟨w, hs, hp⟩ := Reachable.exists_of_runs (step id) (initial [] [] fun _ => none) twoHolds
    (fun w => decide ((w.stage 0).positions = some (some [1, 0])) &&
      decide ((w.next 1).map (fun v => (v.stage 1).owned) = some [(.admission, .exclusive), (.gate, .shared)]))
    (by decide +kernel)
  simp only [Bool.and_eq_true, decide_eq_true_eq] at hp
  exact ⟨w, hs, hp.1, hp.2, admission_exclusive hs⟩

end SparkRing.Admission
