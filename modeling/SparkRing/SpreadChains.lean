import Mathlib.Data.List.Sort

/-!
# Chains of a spread

An asset flows from its source both ways along the cables. A walk one way stops before a down
cable, a dead Spark and a Spark that is no member; each Spark is assigned the better way that
reaches it, and the Sparks of a way form chains that start at the source or at a holder.
-/

namespace SparkRing.Spread

open List (map_append map_cons mem_append mem_cons)

/-- The shape of a fabric. -/
inductive Shape
  /-- Two Sparks with one cable. -/
  | pair
  /-- Sparks in a line. -/
  | path
  /-- Sparks in a loop. -/
  | cycle
  deriving DecidableEq

/-- A layout of Sparks. -/
structure Layout where
  shape : Shape
  /-- Its Sparks. -/
  size : ℕ
  /-- It has two at least, a pair exactly two. -/
  sized : 2 ≤ size ∧ (shape = .pair → size = 2)

/-- A cable and its ends, each a position and a port. -/
abbrev Cable := ℕ × (ℕ × ℕ) × (ℕ × ℕ)

namespace Layout

variable (layout : Layout)

def cableCount : ℕ :=
  match layout.shape with
  | .pair => 1
  | .path => layout.size - 1
  | .cycle => layout.size

/-- Each cable with its first and second end. -/
def cables : List Cable :=
  if layout.shape = .pair then [(0, (0, 0), (1, 0))]
  else (List.range layout.cableCount).map fun e => (e, (e, 0), ((e + 1) % layout.size, 1))

/-- The first cable with an end at a position's port. -/
def cableAt (position port : ℕ) : Option Cable :=
  layout.cables.find? fun cable => cable.2.1 = (position, port) ∨ cable.2.2 = (position, port)

/-- The cable at a position's port, none for a free port. -/
def cableOf (position port : ℕ) : Option ℕ := (layout.cableAt position port).map Prod.fst

/-- The other end of a position's port, none for a free port. -/
def peer (position port : ℕ) : Option (ℕ × ℕ) :=
  (layout.cableAt position port).map fun cable => if cable.2.1 = (position, port) then cable.2.2 else cable.2.1

end Layout

/-- A way round. -/
inductive Direction
  /-- It leaves the source through port 0. -/
  | next
  /-- It leaves the source through port 1. -/
  | previous
  deriving DecidableEq

/-- The port that a way leaves the source through. -/
def Direction.port : Direction → ℕ
  | .next => 0
  | .previous => 1

/-- Positions and the cables into them, up to a block or back to the source. -/
def walkFrom (layout : Layout) (source : ℕ) (blocked : ℕ × ℕ → Bool) : ℕ → ℕ → ℕ → List (ℕ × ℕ)
  | 0, _, _ => []
  | limit + 1, here, port =>
    match layout.peer here port, layout.cableOf here port with
    | some far, some cable =>
      if blocked (far.1, cable) ∨ far.1 = source then []
      else (far.1, cable) :: walkFrom layout source blocked limit far.1 (1 - far.2)
    | _, _ => []

/-- What an asset is to be brought to. -/
structure Request where
  /-- The Spark that holds it. -/
  source : ℕ
  /-- Positions, and whether they lack something. -/
  needs : List (ℕ × Bool)
  /-- The members; all positions by default. -/
  members : Option (List ℕ)
  /-- Sparks that hold the whole asset. -/
  holders : List ℕ
  /-- Sparks that may forward; every member by default. -/
  relays : Option (List ℕ)
  /-- Cables that are down. -/
  down : List ℕ
  /-- Sparks that stopped answering. -/
  dead : List ℕ
  /-- Sparks outside the deployment. -/
  outside : List ℕ

/-- One chain. -/
structure Pipeline where
  /-- Its way. -/
  direction : Direction
  start : ℕ
  /-- The positions after the start, in order. -/
  hops : List ℕ
  /-- The cable into each. -/
  cables : List ℕ
  deriving DecidableEq

namespace Request

variable (layout : Layout) (request : Request)

def member (position : ℕ) : Bool := position ∈ request.members.getD (List.range layout.size)

/-- A member that answers. -/
def live (position : ℕ) : Bool := request.member layout position && decide (position ∉ request.dead)

/-- A position lacks something. -/
def wants (position : ℕ) : Bool := decide (position ≠ request.source) && request.needs.any fun need => need.2 && need.1 == position

/-- A position holds the whole asset. -/
def holds (position : ℕ) : Bool := decide (position ∈ request.holders ∨ position = request.source) && decide (position ∉ request.dead)

/-- A position may forward. -/
def relay (position : ℕ) : Bool := decide (position ∈ request.relays.getD (request.members.getD (List.range layout.size)))

/-- A chain goes on over a position. -/
def gated (position : ℕ) : Bool := request.wants position || request.holds position || request.relay layout position

/-- A step of a walk is over a cable that is not down, to a member that answers. -/
def passes (step : ℕ × ℕ) : Bool := decide (step.2 ∉ request.down) && request.live layout step.1

/-- The walk one way. -/
def walk (direction : Direction) : List (ℕ × ℕ) :=
  walkFrom layout request.source (fun step => !request.passes layout step) layout.size request.source direction.port

def before (walk : List (ℕ × ℕ)) (position : ℕ) : List (ℕ × ℕ) := walk.takeWhile fun step => step.1 ≠ position

/-- How good a walk's way to a position is: whether it passes a Spark outside the deployment, and its cables. -/
def rank (walk : List (ℕ × ℕ)) (position : ℕ) : Option (Bool × ℕ) :=
  if position ∈ walk.map Prod.fst then
    some ((before walk position).any fun step => step.1 ∈ request.outside, (before walk position).length)
  else none

/-- A rank is smaller than another. -/
def better (a b : Bool × ℕ) : Bool := (!a.1 && b.1) || (a.1 == b.1 && decide (a.2 < b.2))

/-- The way a position is assigned: the better one that reaches it, ties going next. -/
def nearest (position : ℕ) : Option Direction :=
  match request.rank (request.walk layout .next) position, request.rank (request.walk layout .previous) position with
  | some next, some previous => if better previous next then some .previous else some .next
  | some _, none => some .next
  | none, some _ => some .previous
  | none, none => none

/-- The chains of one way: its steps, where a chain starts, what waits to be forwarded and the chain so far. -/
def follow (direction : Direction) : List (ℕ × ℕ) → ℕ → List (ℕ × ℕ) → Option Pipeline → List Pipeline
  | [], _, _, current => current.toList
  | (position, cable) :: rest, start, pending, current =>
    if request.nearest layout position ≠ some direction then current.toList
    else if request.wants position then
      let chain := current.getD ⟨direction, start, [], []⟩
      let added := pending ++ [(position, cable)]
      follow direction rest start []
        (some { chain with hops := chain.hops ++ added.map Prod.fst, cables := chain.cables ++ added.map Prod.snd })
    else if request.holds position then current.toList ++ follow direction rest position [] none
    else if request.relay layout position then follow direction rest start (pending ++ [(position, cable)]) current
    else current.toList

/-- The chains of both ways. -/
def found : List Pipeline :=
  [Direction.next, .previous].flatMap fun direction => request.follow layout direction (request.walk layout direction) request.source [] none

/-- The positions that lack something, each once and in order. -/
def wanting : List ℕ := ((request.needs.map Prod.fst).filter fun position => request.wants position).dedup.insertionSort (· ≤ ·)

/-- The chains that bring each position what it lacks, and the positions that none reaches. -/
def chains : Except String (List Pipeline × List ℕ) :=
  if request.live layout request.source = false then
    .error s!"The spread's source, position {request.source}, is not an answering member of the fabric"
  else
    .ok (request.found layout, request.wanting.filter fun position => position ∉ (request.found layout).flatMap Pipeline.hops)

end Request

/-- Steps that follow one another over cables. -/
def Layout.Trail (layout : Layout) : ℕ → List (ℕ × ℕ) → Prop
  | _, [] => True
  | here, step :: rest =>
    (∃ port far, layout.peer here port = some far ∧ far.1 = step.1 ∧ layout.cableOf here port = some step.2) ∧ layout.Trail step.1 rest

/-- A chain over cables that carry, from a holder, of Sparks that lack something or forward. -/
structure Pipeline.Valid (layout : Layout) (request : Request) (chain : Pipeline) : Prop where
  /-- It is a path over cables that are not down, of members that answer. -/
  path : ∃ steps, chain.hops = steps.map Prod.fst ∧ chain.cables = steps.map Prod.snd ∧ layout.Trail chain.start steps ∧
    ∀ step ∈ steps, request.passes layout step = true
  starts : request.holds chain.start = true ∧ request.live layout chain.start = true
  /-- Its Sparks lack something or forward. -/
  hops : ∀ position ∈ chain.hops, request.wants position = true ∨ request.relay layout position = true
  /-- The last one lacks something. -/
  ends : ∃ position, chain.hops.getLast? = some position ∧ request.wants position = true

section

variable {layout : Layout} {request : Request} {direction : Direction} {walk : List (ℕ × ℕ)} {here : ℕ}

theorem trail_append {a b : List (ℕ × ℕ)} (h : layout.Trail here (a ++ b)) : layout.Trail here a := by
  induction a generalizing here with
  | nil => trivial
  | cons step a ih => exact ⟨h.1, ih h.2⟩

theorem trail_behind {a b : List (ℕ × ℕ)} {step : ℕ × ℕ} (h : layout.Trail here (a ++ step :: b)) : layout.Trail step.1 b := by
  induction a generalizing here with
  | nil => exact h.2
  | cons _ a ih => exact ih h.2

/-- Every chain of a walk is valid and goes its way, where the chain so far and what waits lead to the walk. -/
theorem valid_of_follow (steps pending : List (ℕ × ℕ)) (start : ℕ) (current : Option Pipeline) (chain : Pipeline)
    (hchain : chain = current.getD ⟨direction, start, [], []⟩) (hsteps : chain.hops = steps.map Prod.fst ∧ chain.cables = steps.map Prod.snd)
    (hdirection : chain.direction = direction)
    (htrail : layout.Trail chain.start (steps ++ pending ++ walk)) (hpasses : ∀ step ∈ steps ++ pending ++ walk, request.passes layout step = true)
    (hstart : request.holds chain.start = true ∧ request.live layout chain.start = true)
    (hgates : ∀ step ∈ steps ++ pending, request.wants step.1 = true ∨ request.relay layout step.1 = true)
    (hcurrent : ∀ chain ∈ current.toList, chain.Valid layout request ∧ chain.direction = direction) :
    ∀ chain ∈ request.follow layout direction walk start pending current, chain.Valid layout request ∧ chain.direction = direction := by
  induction walk generalizing steps pending start current chain with
  | nil => exact hcurrent
  | cons step rest ih =>
    obtain ⟨position, cable⟩ := step
    rw [Request.follow]
    have hassoc : steps ++ pending ++ (position, cable) :: rest = steps ++ (pending ++ [(position, cable)]) ++ rest := by simp
    split
    · exact hcurrent
    split
    next hwants =>
      have hall : (steps ++ (pending ++ [(position, cable)])) ++ [] ++ rest = steps ++ (pending ++ [(position, cable)]) ++ rest := by simp
      have hgates' : ∀ step ∈ steps ++ (pending ++ [(position, cable)]), request.wants step.1 = true ∨ request.relay layout step.1 = true := by
        intro step hstep
        rw [← List.append_assoc] at hstep
        rcases mem_append.mp hstep with hold | hnew
        · exact hgates step hold
        · exact .inl (List.mem_singleton.mp hnew ▸ hwants)
      have hnew : ({ chain with
          hops := chain.hops ++ (pending ++ [(position, cable)]).map Prod.fst
          cables := chain.cables ++ (pending ++ [(position, cable)]).map Prod.snd } : Pipeline).Valid layout request := by
        refine ⟨⟨steps ++ (pending ++ [(position, cable)]), ?_, ?_, trail_append (hassoc ▸ htrail), fun step hstep => ?_⟩, hstart, ?_, position, ?_, hwants⟩
        · rw [hsteps.1, ← map_append]
        · rw [hsteps.2, ← map_append]
        · exact hpasses step (hassoc ▸ List.mem_append_left rest hstep)
        · intro p hp
          rw [hsteps.1, ← map_append] at hp
          obtain ⟨step, hstep, rfl⟩ := List.mem_map.mp hp
          exact hgates' step hstep
        · simp
      subst hchain
      refine ih (steps ++ (pending ++ [(position, cable)])) [] start _ _ rfl ?_ hdirection ?_ ?_ hstart ?_ fun chain hmem => ?_
      · exact ⟨by rw [Option.getD_some, hsteps.1, ← map_append], by rw [Option.getD_some, hsteps.2, ← map_append]⟩
      · exact hall ▸ hassoc ▸ htrail
      · exact hall ▸ hassoc ▸ hpasses
      · rwa [List.append_nil]
      · exact List.mem_singleton.mp hmem ▸ ⟨hnew, hdirection⟩
    · split
      next hholds =>
        intro other hother
        rcases mem_append.mp hother with hold | hlater
        · exact hcurrent other hold
        have hlive := hpasses (position, cable) (List.mem_append_right _ List.mem_cons_self)
        refine ih [] [] position none _ rfl ⟨rfl, rfl⟩ rfl (trail_behind htrail) (fun step hstep => ?_)
          ⟨hholds, (Bool.and_eq_true _ _ ▸ hlive).2⟩ (fun _ hno => nomatch hno) (fun _ hno => nomatch hno) other hlater
        exact hpasses step (List.mem_append_right _ (List.mem_cons_of_mem _ hstep))
      · split
        next hrelay =>
          refine ih steps _ start current chain hchain hsteps hdirection (hassoc ▸ htrail) (hassoc ▸ hpasses) hstart (fun step hstep => ?_) hcurrent
          rw [← List.append_assoc] at hstep
          rcases mem_append.mp hstep with hold | hnew
          · exact hgates step hold
          · exact .inr (List.mem_singleton.mp hnew ▸ hrelay)
        · exact hcurrent

/-- The chain goes on over a step. -/
def Request.taken (request : Request) (layout : Layout) (direction : Direction) (step : ℕ × ℕ) : Bool :=
  decide (request.nearest layout step.1 = some direction) && request.gated layout step.1

/-- The hops of the chains of a walk, in order, are those so far, what waits and the steps taken, less some. -/
theorem follow_sublist (start : ℕ) (pending : List (ℕ × ℕ)) (current : Option Pipeline) :
    ((request.follow layout direction walk start pending current).flatMap Pipeline.hops).Sublist
      (current.toList.flatMap Pipeline.hops ++ pending.map Prod.fst ++ (walk.takeWhile (request.taken layout direction)).map Prod.fst) := by
  induction walk generalizing start pending current with
  | nil => simp [Request.follow]
  | cons step rest ih =>
    obtain ⟨position, cable⟩ := step
    rw [Request.follow, List.takeWhile_cons, Request.taken, Request.gated]
    split
    next hother => simp [hother]
    next hnear =>
      rw [not_not] at hnear
      rw [hnear, decide_eq_true rfl, Bool.true_and]
      split
      next hwants =>
        rw [hwants, Bool.true_or, Bool.true_or, if_pos rfl]
        cases current with
        | none => simpa using ih start [] (some ⟨direction, start, (pending ++ [(position, cable)]).map Prod.fst, _⟩)
        | some chain => simpa using ih start [] (some { chain with hops := chain.hops ++ (pending ++ [(position, cable)]).map Prod.fst, cables := _ })
      next hwants =>
        rw [Bool.not_eq_true] at hwants
        split
        next hholds =>
          rw [hwants, hholds, Bool.false_or, Bool.true_or, if_pos rfl, List.flatMap_append, List.append_assoc]
          refine List.Sublist.append_left ((ih position [] none).trans ?_) _
          exact ((List.sublist_cons_self _ _).trans (List.sublist_append_right _ _))
        next hholds =>
          rw [Bool.not_eq_true] at hholds
          rw [hwants, hholds, Bool.false_or, Bool.false_or]
          split
          next hrelay => simpa using ih start (pending ++ [(position, cable)]) current
          next hrelay => simp

/-- What the chains had is kept, and every step taken that lacks something becomes a hop. -/
theorem follow_reaches (start : ℕ) (pending : List (ℕ × ℕ)) (current : Option Pipeline) {p : ℕ}
    (h : p ∈ current.toList.flatMap Pipeline.hops ∨
      p ∈ (walk.takeWhile (request.taken layout direction)).map Prod.fst ∧ request.wants p = true) :
    p ∈ (request.follow layout direction walk start pending current).flatMap Pipeline.hops := by
  induction walk generalizing start pending current with
  | nil => simpa [Request.follow] using h
  | cons step rest ih =>
    obtain ⟨position, cable⟩ := step
    rw [List.takeWhile_cons, Request.taken, Request.gated] at h
    rw [Request.follow]
    split
    next hother => simpa [hother] using h
    next hnear =>
      rw [not_not] at hnear
      rw [hnear, decide_eq_true rfl, Bool.true_and] at h
      split
      next hwants =>
        rw [hwants, Bool.true_or, Bool.true_or, if_pos rfl, map_cons, mem_cons] at h
        refine ih start [] _ ?_
        rcases h with hold | ⟨rfl | hlater, hp⟩
        · refine .inl ?_
          cases current with
          | none => cases hold
          | some =>
            rw [Option.toList_some, List.flatMap_singleton] at hold
            simp [hold]
        · exact .inl (by simp)
        · exact .inr ⟨hlater, hp⟩
      next hwants =>
        rw [Bool.not_eq_true] at hwants
        split
        next hholds =>
          rw [hwants, hholds, Bool.false_or, Bool.true_or, if_pos rfl, map_cons, mem_cons] at h
          rw [List.flatMap_append, mem_append]
          rcases h with hold | ⟨rfl | hlater, hp⟩
          · exact .inl hold
          · rw [hwants] at hp
            cases hp
          · exact .inr (ih position [] none (.inr ⟨hlater, hp⟩))
        next hholds =>
          rw [Bool.not_eq_true] at hholds
          rw [hwants, hholds, Bool.false_or, Bool.false_or] at h
          split
          next hrelay =>
            rw [if_pos hrelay, map_cons, mem_cons] at h
            refine ih start _ current (h.imp id fun hlater => ⟨hlater.1.resolve_left ?_, hlater.2⟩)
            rintro rfl
            rw [hwants] at hlater
            cases hlater.2
          next hrelay => simpa [hrelay] using h

end

end SparkRing.Spread
