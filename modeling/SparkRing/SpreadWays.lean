import Mathlib.Data.Int.ModEq
import SparkRing.SpreadChains

/-!
# The two ways round

A walk is the part of a plain way before its first block. Where both ways reach a Spark, the
cables of one and of the other make up the cycle, so what one way reaches before it the other
reaches behind it; the Sparks assigned to a way therefore come first on it.
-/

namespace SparkRing.Spread

open Request (before better nearest rank)

variable {layout : Layout} {request : Request} {direction : Direction} {source port n p here : ℕ} {turn : ℕ → ℕ}

theorem getElem?_takeWhile {α : Type*} {pass : α → Bool} {l : List α} {i : ℕ} {x : α} :
    (l.takeWhile pass)[i]? = some x ↔ l[i]? = some x ∧ ∀ y ∈ l.take (i + 1), pass y = true := by
  induction l generalizing i with
  | nil => simp
  | cons a l ih =>
    by_cases ha : pass a = true
    · cases i with
      | zero => simp [ha]
      | succ i => simp [ih, ha]
    · simp [ha]

/-- What comes before an element whose position occurs once. -/
theorem before_eq_take {l : List (ℕ × ℕ)} (hl : (l.map Prod.fst).Nodup) {i : ℕ} {x : ℕ × ℕ} (h : l[i]? = some x) :
    before l x.1 = l.take i := by
  induction l generalizing i with
  | nil => cases h
  | cons a l ih =>
    rw [List.map_cons, List.nodup_cons] at hl
    cases i with
    | zero =>
      cases h
      simp [before]
    | succ i =>
      have hne : a.1 ≠ x.1 := fun heq => hl.1 (heq ▸ List.mem_map_of_mem (List.mem_of_getElem? h))
      rw [before, List.takeWhile_cons, if_pos (decide_eq_true hne), List.take_succ_cons]
      exact congrArg _ (ih hl.2 h)

/-- The cable of a port runs from port 0 of a position to port 1 of the next one. -/
theorem peer_spec (hshape : layout.shape ≠ .pair) {far : ℕ × ℕ} (h : layout.peer here port = some far) :
    ∃ e < layout.size, here = e ∧ port = 0 ∧ far = ((e + 1) % layout.size, 1) ∨ here = (e + 1) % layout.size ∧ port = 1 ∧ far = (e, 0) := by
  have hsize := layout.sized.1
  rw [Layout.peer, Layout.cableAt, Option.map_eq_some_iff] at h
  obtain ⟨cable, hcable, rfl⟩ := h
  have hmem := List.mem_of_find?_eq_some hcable
  have hends := of_decide_eq_true (List.find?_some (p := fun cable : Cable => decide (cable.2.1 = (here, port) ∨ cable.2.2 = (here, port))) hcable)
  rw [Layout.cables, if_neg hshape, List.mem_map] at hmem
  obtain ⟨e, he, rfl⟩ := hmem
  have hlt : e < layout.size := by
    rw [List.mem_range, Layout.cableCount] at he
    split at he
    · omega
    · omega
    · exact he
  refine ⟨e, hlt, ?_⟩
  split
  next hfirst =>
    cases hfirst
    exact .inl ⟨rfl, rfl, rfl⟩
  next hfirst =>
    cases hends.resolve_left hfirst
    exact .inr ⟨rfl, rfl, rfl⟩

/-- The whole way from a source, as far as it does not come back. -/
def Layout.way (layout : Layout) (source : ℕ) (direction : Direction) : List (ℕ × ℕ) :=
  walkFrom layout source (fun _ => false) layout.size source direction.port

theorem walkFrom_eq {blocked : ℕ × ℕ → Bool} {limit : ℕ} : walkFrom layout source blocked limit here port =
    (walkFrom layout source (fun _ => false) limit here port).takeWhile fun step => !blocked step := by
  induction limit generalizing here port with
  | zero => rfl
  | succ limit ih =>
    rw [walkFrom, walkFrom]
    split
    next far cable _ _ =>
      by_cases hback : far.1 = source
      · simp [hback]
      cases hblocked : blocked (far.1, cable) with
      | true => simp [hback, hblocked]
      | false => simp [hback, hblocked, ih]
    · rfl

/-- A way along some positions, which comes back to its source. -/
theorem walkFrom_turns (hport : 1 - (1 - port) = port) (hback : turn n = source)
    (hturn : ∀ k < n, ∀ far, layout.peer (turn k) port = some far → far = (turn (k + 1), 1 - port))
    {limit k i : ℕ} {x : ℕ × ℕ} (hk : k < n) (h : (walkFrom layout source (fun _ => false) limit (turn k) port)[i]? = some x) :
    k + 1 + i < n ∧ x.1 = turn (k + 1 + i) := by
  induction limit generalizing k i with
  | zero => cases h
  | succ limit ih =>
    rw [walkFrom] at h
    split at h
    next far cable hfar _ =>
      obtain rfl := hturn k hk far hfar
      by_cases heq : turn (k + 1) = source
      · rw [if_pos (.inr heq)] at h
        cases h
      have hlt : k + 1 < n := lt_of_le_of_ne hk fun hlast => heq (hlast ▸ hback)
      rw [if_neg (by simpa using heq), hport] at h
      cases i with
      | zero =>
        cases h
        exact ⟨hlt, rfl⟩
      | succ i =>
        rw [← Nat.add_assoc, Nat.add_right_comm]
        exact ih hlt h
    · cases h

theorem turn_inj {i j : ℕ} (hi : i < n) (hj : j < n) (h : (source + i) % n = (source + j) % n) : i = j := by
  have hmod : i % n = j % n := Nat.ModEq.add_left_cancel' source h
  rwa [Nat.mod_eq_of_lt hi, Nat.mod_eq_of_lt hj] at hmod

/-- Two lists of steps that meet where their cables make up a cycle. -/
structure Opposed (n : ℕ) (a b : List (ℕ × ℕ)) : Prop where
  /-- Positions of the first occur once. -/
  first : (a.map Prod.fst).Nodup
  /-- Positions of the second occur once. -/
  second : (b.map Prod.fst).Nodup
  /-- They are shorter than the cycle. -/
  length : a.length < n ∧ b.length < n
  /-- They meet where the cables to both make up the cycle. -/
  meets : ∀ i j x y, a[i]? = some x → b[j]? = some y → (x.1 = y.1 ↔ i + j + 2 = n)

theorem Opposed.symm {a b : List (ℕ × ℕ)} (h : Opposed n a b) : Opposed n b a :=
  ⟨h.second, h.first, h.length.symm, fun i j x y hx hy => by rw [eq_comm, h.meets j i y x hy hx, Nat.add_comm j i]⟩

/-- A list along the turns of a cycle. -/
theorem along_turns (hsource : source < n) {l : List (ℕ × ℕ)} (hinj : ∀ i j, i + 1 < n → j + 1 < n → turn i = turn j → i = j)
    (hlt : ∀ i, i + 1 < n → turn i < n) (h : ∀ i x, l[i]? = some x → i + 1 < n ∧ x.1 = (source + turn i) % n) :
    (l.map Prod.fst).Nodup ∧ l.length < n := by
  have hget : ∀ i (hi : i < l.length), i + 1 < n ∧ l[i].1 = (source + turn i) % n := fun i hi => h i _ (List.getElem?_eq_getElem hi)
  constructor
  · refine List.nodup_iff_injective_getElem.mpr fun i j heq => Fin.ext ?_
    obtain ⟨hi, hxi⟩ := hget i (by simpa using i.2)
    obtain ⟨hj, hxj⟩ := hget j (by simpa using j.2)
    dsimp only at heq
    rw [List.getElem_map, List.getElem_map, hxi, hxj] at heq
    exact hinj i j hi hj (turn_inj (hlt i hi) (hlt j hj) heq)
  rcases Nat.eq_zero_or_pos l.length with hnil | hpos
  · omega
  · have := (hget (l.length - 1) (by omega)).1
    omega

/-- The two ways of a layout meet where their cables make up the cycle. -/
theorem opposed_ways (hsource : source < layout.size) : Opposed layout.size (layout.way source .next) (layout.way source .previous) := by
  by_cases hshape : layout.shape = .pair
  · have htwo := layout.sized.2 hshape
    obtain ⟨shape, size, hsized⟩ := layout
    dsimp only at hshape htwo hsource ⊢
    subst hshape htwo
    have hways : Layout.way ⟨.pair, 2, hsized⟩ source .next = [(1 - source, 0)] ∧ Layout.way ⟨.pair, 2, hsized⟩ source .previous = [] := by
      obtain rfl | rfl : source = 0 ∨ source = 1 := by omega
      · decide +revert
      · decide +revert
    rw [hways.1, hways.2]
    exact ⟨by simp, by simp, by simp, fun _ _ _ _ _ hno => nomatch hno⟩
  · have hnext : ∀ i x, (layout.way source .next)[i]? = some x → i + 1 < layout.size ∧ x.1 = (source + (i + 1)) % layout.size := by
      intro i x h
      have hway := @walkFrom_turns layout source 0 layout.size (fun k => (source + k) % layout.size) rfl
        (by rw [Nat.add_mod_right, Nat.mod_eq_of_lt hsource]) (fun k _ far hfar => ?_) layout.size 0 i x (by omega)
        (by rwa [Nat.add_zero, Nat.mod_eq_of_lt hsource])
      · rwa [Nat.zero_add, Nat.add_comm 1 i] at hway
      obtain ⟨e, -, ⟨rfl, -, rfl⟩ | ⟨-, hport, -⟩⟩ := peer_spec hshape hfar
      · rw [Nat.mod_add_mod, Nat.add_assoc]
      · cases hport
    have hprevious : ∀ i x, (layout.way source .previous)[i]? = some x →
        i + 1 < layout.size ∧ x.1 = (source + (layout.size - (i + 1))) % layout.size := by
      intro i x h
      have hway := @walkFrom_turns layout source 1 layout.size (fun k => (source + (layout.size - k)) % layout.size) rfl
        (by rw [Nat.sub_self, Nat.add_zero, Nat.mod_eq_of_lt hsource]) (fun k hk far hfar => ?_) layout.size 0 i x (by omega)
        (by rwa [Nat.sub_zero, Nat.add_mod_right, Nat.mod_eq_of_lt hsource])
      · rwa [Nat.zero_add, Nat.add_comm 1 i] at hway
      obtain ⟨e, he, ⟨-, hport, -⟩ | ⟨hhere, -, rfl⟩⟩ := peer_spec hshape hfar
      · cases hport
      -- one turn less of `previous` is one more of `next`
      rw [show source + (layout.size - k) = source + (layout.size - (k + 1)) + 1 by omega] at hhere
      have hmod := Nat.ModEq.add_right_cancel' 1 hhere
      rw [Nat.ModEq, Nat.mod_eq_of_lt he] at hmod
      rw [hmod]
    have hfirst := along_turns hsource (fun i j _ _ h => Nat.succ_injective h) (fun i hi => hi) hnext
    have hsecond := along_turns hsource (fun i j _ _ h => by omega) (fun i hi => by omega) hprevious
    refine ⟨hfirst.1, hsecond.1, ⟨hfirst.2, hsecond.2⟩, fun i j x y hx hy => ?_⟩
    obtain ⟨hi, hx⟩ := hnext i x hx
    obtain ⟨hj, hy⟩ := hprevious j y hy
    rw [hx, hy]
    constructor
    · intro heq
      have := turn_inj (by omega) (by omega) heq
      omega
    · intro heq
      rw [show i + 1 = layout.size - (j + 1) by omega]

/-- The other way. -/
def Direction.other : Direction → Direction
  | .next => .previous
  | .previous => .next

/-- No down cable, dead Spark or non-member is on the way to a position, nor the end of a path. -/
def Open (layout : Layout) (request : Request) (direction : Direction) (p : ℕ) : Prop :=
  ∃ i c, (layout.way request.source direction)[i]? = some (p, c) ∧
    ∀ step ∈ (layout.way request.source direction).take (i + 1), request.passes layout step = true

/-- The way to a position is open, and every Spark before it lacks something, holds the asset or forwards. -/
def Clear (layout : Layout) (request : Request) (direction : Direction) (p : ℕ) : Prop :=
  ∃ i c, (layout.way request.source direction)[i]? = some (p, c) ∧
    (∀ step ∈ (layout.way request.source direction).take (i + 1), request.passes layout step = true) ∧
    ∀ step ∈ (layout.way request.source direction).take i, request.gated layout step.1 = true

/-- The way that passes no Spark outside the deployment, where only one does not, else the shorter one, ties going next. -/
def preferred (layout : Layout) (request : Request) (p : ℕ) : Direction :=
  match request.rank (layout.way request.source .next) p, request.rank (layout.way request.source .previous) p with
  | some next, some previous => if Request.better previous next then .previous else .next
  | _, _ => .next

section

variable {d : Direction} {i j q c c' : ℕ}

theorem walk_eq : request.walk layout d = (layout.way request.source d).takeWhile (request.passes layout) := by
  rw [Request.walk, walkFrom_eq]
  simp only [Bool.not_not]
  rfl

theorem opposed (hsource : request.source < layout.size) (d : Direction) :
    Opposed layout.size (layout.way request.source d) (layout.way request.source d.other) := by
  cases d with
  | next => exact opposed_ways hsource
  | previous => exact (opposed_ways hsource).symm

/-- A position of a walk has the rank of its place on the plain way. -/
theorem rank_walk (hsource : request.source < layout.size)
    (h : (request.walk layout d)[i]? = some (p, c)) : request.rank (request.walk layout d) p =
      some (((layout.way request.source d).take i).any fun step => step.1 ∈ request.outside, i) ∧
    request.rank (layout.way request.source d) p =
      some (((layout.way request.source d).take i).any fun step => step.1 ∈ request.outside, i) := by
  have hway := h
  rw [walk_eq, getElem?_takeWhile] at hway
  have hnodup := (opposed hsource d).first
  have hlead : request.walk layout d <+: layout.way request.source d := walk_eq ▸ List.takeWhile_prefix _
  have hlt := (List.getElem?_eq_some_iff.mp h).1
  have htake : (request.walk layout d).take i = (layout.way request.source d).take i := by
    rw [List.prefix_iff_eq_take.mp hlead, List.take_take, min_eq_left hlt.le]
  have hlt' := (List.getElem?_eq_some_iff.mp hway.1).1
  have hmem : p ∈ (request.walk layout d).map Prod.fst := List.mem_map.mpr ⟨_, List.mem_of_getElem? h, rfl⟩
  have hmem' : p ∈ (layout.way request.source d).map Prod.fst := List.mem_map.mpr ⟨_, List.mem_of_getElem? hway.1, rfl⟩
  have hbefore : before (request.walk layout d) p = (layout.way request.source d).take i :=
    (before_eq_take ((hlead.sublist.map _).nodup hnodup) h).trans htake
  have hbefore' : before (layout.way request.source d) p = (layout.way request.source d).take i := before_eq_take hnodup hway.1
  constructor
  · rw [rank, if_pos hmem, hbefore, List.length_take, min_eq_left hlt'.le]
  · rw [rank, if_pos hmem', hbefore', List.length_take, min_eq_left hlt'.le]

theorem open_iff : Open layout request d p ↔ ∃ i c : ℕ, (request.walk layout d)[i]? = some (p, c) := by
  simp only [Open, walk_eq, getElem?_takeWhile]

theorem rank_none (h : ¬Open layout request d p) : request.rank (request.walk layout d) p = none := by
  rw [rank, if_neg]
  intro hmem
  obtain ⟨⟨_, c⟩, hstep, rfl⟩ := List.mem_map.mp hmem
  obtain ⟨i, hi⟩ := List.mem_iff_getElem?.mp hstep
  exact h (open_iff.mpr ⟨i, c, hi⟩)

/-- A position is assigned a way that is open to it, and the preferred one of two. -/
theorem nearest_iff (hsource : request.source < layout.size) : request.nearest layout p = some d ↔
    Open layout request d p ∧ (Open layout request d.other p → preferred layout request p = d) := by
  by_cases hnext : Open layout request .next p
  · obtain ⟨i, c, hi⟩ := open_iff.mp hnext
    obtain ⟨hwalk, hway⟩ := rank_walk hsource hi
    by_cases hprevious : Open layout request .previous p
    · obtain ⟨j, c', hj⟩ := open_iff.mp hprevious
      obtain ⟨hwalk', hway'⟩ := rank_walk hsource hj
      have hboth : Open layout request d p ∧ Open layout request d.other p := by
        cases d with
        | next => exact ⟨hnext, hprevious⟩
        | previous => exact ⟨hprevious, hnext⟩
      rw [nearest, hwalk, hwalk', preferred, hway, hway']
      dsimp only
      rw [← apply_ite some, Option.some_inj]
      exact ⟨fun h => ⟨hboth.1, fun _ => h⟩, fun h => h.2 hboth.2⟩
    · rw [nearest, hwalk, rank_none hprevious]
      cases d with
      | next => exact ⟨fun _ => ⟨hnext, fun hno => absurd hno hprevious⟩, fun _ => rfl⟩
      | previous => exact ⟨fun hno => (nomatch hno), fun h => absurd h.1 hprevious⟩
  · rw [nearest, rank_none hnext]
    by_cases hprevious : Open layout request .previous p
    · obtain ⟨j, c', hj⟩ := open_iff.mp hprevious
      rw [(rank_walk hsource hj).1]
      cases d with
      | next => exact ⟨fun hno => (nomatch hno), fun h => absurd h.1 hnext⟩
      | previous => exact ⟨fun _ => ⟨hprevious, fun hno => absurd hno hnext⟩, fun _ => rfl⟩
    rw [rank_none hprevious]
    cases d with
    | next => exact ⟨fun hno => (nomatch hno), fun h => absurd h.1 hnext⟩
    | previous => exact ⟨fun hno => (nomatch hno), fun h => absurd h.1 hprevious⟩

/-- A rank that is worse on one side and better on the other stays better. -/
theorem better_mono {a a' b b' : Bool × ℕ} (h : better a b = true) (ha : (a'.1 → a.1) ∧ a'.2 ≤ a.2) (hb : (b.1 → b'.1) ∧ b.2 ≤ b'.2) :
    better a' b' = true := by
  obtain ⟨a1, a2⟩ := a
  obtain ⟨a1', a2'⟩ := a'
  obtain ⟨b1, b2⟩ := b
  obtain ⟨b1', b2'⟩ := b'
  simp only [better, Bool.or_eq_true, Bool.and_eq_true, Bool.not_eq_true', beq_iff_eq, decide_eq_true_eq] at *
  cases a1' <;> cases b1' <;> simp_all
  · omega
  · omega

/-- What comes before an assigned Spark on its way is assigned the same way. -/
theorem nearest_before (hsource : request.source < layout.size) (hq : (layout.way request.source d)[j]? = some (q, c'))
    (hnear : request.nearest layout q = some d) (hij : i < j) (hp : (layout.way request.source d)[i]? = some (p, c)) :
    request.nearest layout p = some d := by
  obtain ⟨hopen, hprefer⟩ := (nearest_iff hsource).mp hnear
  have hopposed := opposed hsource d
  obtain ⟨j', c₀, hj', hpass⟩ := hopen
  have hj : j' = j := by
    have hlt := (List.getElem?_eq_some_iff.mp hj').1
    refine (List.getElem?_inj (by rwa [List.length_map]) hopposed.first).mp ?_
    rw [List.getElem?_map, List.getElem?_map, hj', hq]
    rfl
  subst hj
  have hopen' : Open layout request d p := ⟨i, c, hp, fun step hstep => hpass step (List.take_subset_take_left _ (by omega) hstep)⟩
  refine (nearest_iff hsource).mpr ⟨hopen', fun ⟨k, c₁, hk, hpassk⟩ => ?_⟩
  -- the other way reaches the later Spark first
  have hmeet := (hopposed.meets i k _ _ hp hk).mp rfl
  obtain ⟨⟨r, c₂⟩, hr⟩ : ∃ step, (layout.way request.source d.other)[k - (j' - i)]? = some step :=
    ⟨_, List.getElem?_eq_getElem ((Nat.sub_le _ _).trans_lt (List.getElem?_eq_some_iff.mp hk).1)⟩
  have hlong := (List.getElem?_eq_some_iff.mp hq).1
  have hlength := hopposed.length.1
  have hsame : q = r := (hopposed.meets j' _ _ _ hq hr).mpr (by omega)
  subst hsame
  have hqother : Open layout request d.other q :=
    ⟨_, c₂, hr, fun step hstep => hpassk step (List.take_subset_take_left _ (by omega) hstep)⟩
  have hpreferq := hprefer hqother
  have hany : ∀ (l : List (ℕ × ℕ)) {a b : ℕ}, a ≤ b → ((l.take a).any fun step => step.1 ∈ request.outside) = true →
      ((l.take b).any fun step => step.1 ∈ request.outside) = true := fun l a b hab h => by
    obtain ⟨x, hx, hout⟩ := List.any_eq_true.mp h
    exact List.any_eq_true.mpr ⟨x, List.take_subset_take_left l hab hx, hout⟩
  have hwalk : ∀ {d i p c}, (layout.way request.source d)[i]? = some (p, c) →
      (∀ step ∈ (layout.way request.source d).take (i + 1), request.passes layout step = true) →
      request.rank (layout.way request.source d) p = some (((layout.way request.source d).take i).any fun step => step.1 ∈ request.outside, i) :=
    fun hi hpass => (rank_walk hsource (by rw [walk_eq, getElem?_takeWhile]; exact ⟨hi, hpass⟩)).2
  have hqd := hwalk hq hpass
  have hqo := hwalk hr fun step hstep => hpassk step (List.take_subset_take_left _ (by omega) hstep)
  have hpd := hwalk hp fun step hstep => hpass step (List.take_subset_take_left _ (by omega) hstep)
  have hpo := hwalk hk hpassk
  cases d with
  | next =>
    rw [Direction.other] at hqo hpo
    rw [preferred, hqd, hqo] at hpreferq
    rw [preferred, hpd, hpo]
    dsimp only at hpreferq ⊢
    refine if_neg fun hbetter => ?_
    rw [if_pos (better_mono hbetter ⟨hany _ (by omega), by omega⟩ ⟨hany _ hij.le, hij.le⟩)] at hpreferq
    cases hpreferq
  | previous =>
    rw [Direction.other] at hqo hpo
    rw [preferred, hqd, hqo] at hpreferq
    rw [preferred, hpd, hpo]
    dsimp only at hpreferq ⊢
    split at hpreferq
    next hbetter => exact if_pos (better_mono hbetter ⟨hany _ hij.le, hij.le⟩ ⟨hany _ (by omega), by omega⟩)
    · cases hpreferq

end

end SparkRing.Spread
