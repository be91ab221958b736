import SparkRing.FabricRoutes

/-!
# Shortest paths of a fabric

Crossing a cable back leads to where it was left, so paths reverse. The search
gives the distance of every position, and the enumeration along falling
distances gives exactly the shortest paths. A shortest path never turns back, so
it leaves every relay through the port it did not arrive on, and its first port
determines it: it is the walk out of that port.
-/

namespace SparkRing.Routes

open BreadthFirst
open List (mem_cons nodup_nil)

variable {fabric : Fabric} {a b here there v : ℤ} {port : Port} {step : Step} {path other : List Step} {n limit : ℕ}

/-- Both ports are tried. -/
theorem mem_ports : port ∈ ports := by
  revert port
  decide

/-- Of two ports that differ, one is the other port of a Spark. -/
theorem port_eq_of_ne {p q : Port} (h : p ≠ q) : p = 1 - q := by
  revert p q
  decide

/-- The cable at its own ends is found there. -/
theorem Fabric.cableAt_eq {cable : Cable} (hc : cable ∈ fabric.cables) (hend : (here, port) ∈ cable.ends) :
    fabric.cableAt here port = some cable := by
  rw [Fabric.cableAt]
  cases hfound : fabric.cables.find? fun cable => (here, port) ∈ cable.ends with
  | none => exact absurd hend (by simpa using List.find?_eq_none.mp hfound cable hc)
  | some found =>
    have hmem := List.mem_of_find?_eq_some hfound
    have hat : (here, port) ∈ found.ends := by simpa using List.find?_some hfound
    have hpair := (List.nodup_flatMap.mp fabric.once).2
    have hsymm : Std.Symm (Function.onFun List.Disjoint Cable.ends) := ⟨fun _ _ h => h.symm⟩
    by_contra hne
    have hdisjoint := hpair.forall hmem hc fun heq => hne (congrArg some heq)
    exact hdisjoint hat hend

section

variable (h : fabric.cross here port = some step)

include h

/-- A crossing leaves where it was told to, over a cable of the fabric, from one of its
ends to the other. -/
theorem Fabric.cross_spec : step.src = here ∧ step.srcPort = port ∧ step.cable ∈ fabric.cables ∧
      (step.src, step.srcPort) ∈ step.cable.ends ∧ (step.dst, step.dstPort) ∈ step.cable.ends ∧ step.src ≠ step.dst := by
  rw [Fabric.cross] at h
  cases hcable : fabric.cableAt here port with
  | none => simp [hcable] at h
  | some cable =>
    have hmem : cable ∈ fabric.cables := List.mem_of_find?_eq_some hcable
    have hat : (here, port) ∈ cable.ends := by simpa using List.find?_some hcable
    simp only [hcable] at h
    split at h
    · rename_i heq
      obtain rfl := Option.some.inj h
      obtain ⟨hpos, -⟩ := Prod.mk.inj heq
      exact ⟨rfl, rfl, hmem, hat, by simp [Cable.ends], hpos ▸ cable.distinct⟩
    rename_i hne
    obtain rfl := Option.some.inj h
    have hother : (here, port) = (cable.b, cable.bPort) := by
      simp only [Cable.ends, mem_cons, List.not_mem_nil, or_false] at hat
      exact hat.resolve_left fun h => hne h.symm
    obtain ⟨hpos, -⟩ := Prod.mk.inj hother
    exact ⟨rfl, rfl, hmem, hat, by simp [Cable.ends], hpos ▸ cable.distinct.symm⟩

/-- Crossing back leads to where the cable was left. -/
theorem Fabric.cross_reverse : fabric.cross step.dst step.dstPort = some step.reverse := by
  obtain ⟨hsrc, hport, hmem, hat, hto, hne⟩ := fabric.cross_spec h
  rw [Fabric.cross, fabric.cableAt_eq hmem hto]
  obtain ⟨cable, src, srcPort, dst, dstPort⟩ := step
  simp only [Cable.ends, mem_cons, List.not_mem_nil, or_false, Prod.mk.injEq] at hat hto hne
  simp only [Step.reverse, Prod.mk.injEq]
  rcases hto with ⟨rfl, rfl⟩ | ⟨rfl, rfl⟩
  · rw [if_pos ⟨rfl, rfl⟩]
    obtain ⟨rfl, rfl⟩ := hat.resolve_left fun h => hne h.1
    rfl
  rw [if_neg fun h => cable.distinct h.1]
  obtain ⟨rfl, rfl⟩ := hat.resolve_right fun h => hne h.1
  rfl

/-- Both ends of a crossing are on the fabric. -/
theorem Fabric.cross_positions : here ∈ fabric.positions ∧ step.dst ∈ fabric.positions := by
  obtain ⟨hsrc, -, hmem, hat, hto, -⟩ := fabric.cross_spec h
  have hon : ∀ place : ℤ × Port, place ∈ step.cable.ends → place.1 ∈ fabric.positions := by
    intro place hplace
    rw [Fabric.positions, List.mem_insertionSort, List.mem_dedup]
    exact List.mem_map_of_mem (List.mem_flatMap_of_mem hmem hplace)
  exact ⟨hsrc ▸ hon _ hat, hon _ hto⟩

end

/-- The neighbours of a position are where its cables lead. -/
theorem Fabric.mem_neighbours : there ∈ fabric.neighbours here ↔ ∃ port step, fabric.cross here port = some step ∧ step.dst = there := by
  simp only [Fabric.neighbours, List.mem_filterMap, Option.map_eq_some_iff]
  constructor
  · rintro ⟨port, -, step, hstep, hdst⟩
    exact ⟨port, step, hstep, hdst⟩
  · rintro ⟨port, step, hstep, hdst⟩
    exact ⟨port, mem_ports, step, hstep, hdst⟩

/-- Cables lead both ways. -/
theorem Fabric.neighbours_symm (u v : ℤ) (h : v ∈ fabric.neighbours u) : u ∈ fabric.neighbours v := by
  obtain ⟨port, step, hstep, rfl⟩ := Fabric.mem_neighbours.mp h
  refine Fabric.mem_neighbours.mpr ⟨step.dstPort, step.reverse, fabric.cross_reverse hstep, ?_⟩
  exact (fabric.cross_spec hstep).1

/-- Cables crossed one after another, from a position to a position. -/
inductive Path (fabric : Fabric) : ℤ → List Step → ℤ → Prop
  /-- No cable. -/
  | nil (a : ℤ) : Path fabric a [] a
  /-- One cable before a path. -/
  | cons {here b : ℤ} {port : Port} {step : Step} {path : List Step} : fabric.cross here port = some step →
      Path fabric step.dst path b → Path fabric here (step :: path) b

/-- The first cable of a path, and the path after it. -/
theorem Path.uncons (h : Path fabric here (step :: path) b) : fabric.cross here step.srcPort = some step ∧ Path fabric step.dst path b := by
  cases h with
  | cons hstep hrest => exact ⟨(fabric.cross_spec hstep).2.1.symm ▸ hstep, hrest⟩

/-- Paths compose. -/
theorem Path.append (h : Path fabric a path here) (hother : Path fabric here other b) : Path fabric a (path ++ other) b := by
  induction h with
  | nil => exact hother
  | cons hstep _ ih => exact .cons hstep (ih hother)

theorem Path.reverse (h : Path fabric a path b) : Path fabric b (reversePath path) a := by
  induction h with
  | nil a => exact .nil a
  | @cons here b port step path hstep _ ih =>
    have hback : Path fabric step.dst [step.reverse] here :=
      .cons (fabric.cross_reverse hstep) ((fabric.cross_spec hstep).1 ▸ .nil step.src)
    have hpath := ih.append hback
    rwa [reversePath, List.map_cons, List.reverse_cons]

/-- Reversing twice gives the path back. -/
theorem reversePath_reversePath (path : List Step) : reversePath (reversePath path) = path := by
  simp [reversePath, List.map_reverse, Function.comp_def, Step.reverse]

theorem length_reversePath : (reversePath path).length = path.length := by
  simp [reversePath]

theorem Path.walk (h : Path fabric a path b) : Walk fabric.neighbours path.length a b := by
  induction h with
  | nil a => exact .refl a
  | @cons here b port step path hstep _ ih =>
    have hfirst : Walk fabric.neighbours 1 here step.dst :=
      .step (.refl here) (Fabric.mem_neighbours.mpr ⟨port, step, hstep, rfl⟩)
    rw [List.length_cons, Nat.add_comm]
    exact hfirst.trans ih

/-- A walk over neighbours crosses cables. -/
theorem exists_path (h : Walk fabric.neighbours n a b) : ∃ path, Path fabric a path b ∧ path.length = n := by
  induction h with
  | refl a => exact ⟨[], .nil a, rfl⟩
  | step _ hmem ih =>
    obtain ⟨path, hpath, hlength⟩ := ih
    obtain ⟨port, step, hstep, rfl⟩ := Fabric.mem_neighbours.mp hmem
    refine ⟨path ++ [step], hpath.append (.cons hstep (.nil _)), ?_⟩
    rw [List.length_append, hlength, List.length_singleton]

def Shortest (fabric : Fabric) (a : ℤ) (path : List Step) (b : ℤ) : Prop :=
  Path fabric a path b ∧ ∀ other, Path fabric a other b → path.length ≤ other.length

/-- Some path leads from one position to the other. -/
def Connected (fabric : Fabric) (a b : ℤ) : Prop := ∃ path, Path fabric a path b

/-- Connected positions have a shortest path. -/
theorem Connected.exists_shortest (h : Connected fabric a b) : ∃ path, Shortest fabric a path b := by
  classical
  obtain ⟨path, hpath⟩ := h
  have hlength : ∃ n, ∃ path, Path fabric a path b ∧ path.length = n := ⟨_, path, hpath, rfl⟩
  obtain ⟨short, hshort, hleast⟩ := Nat.find_spec hlength
  exact ⟨short, hshort, fun other hother => hleast ▸ Nat.find_min' hlength ⟨other, hother, rfl⟩⟩

theorem Shortest.reverse (h : Shortest fabric a path b) : Shortest fabric b (reversePath path) a := by
  refine ⟨h.1.reverse, fun other hother => ?_⟩
  have hle := h.2 _ hother.reverse
  rwa [length_reversePath] at hle ⊢

/-- A shortest path goes on along a shortest path. -/
theorem Shortest.tail (h : Shortest fabric here (step :: path) b) : Shortest fabric step.dst path b := by
  obtain ⟨hstep, hrest⟩ := h.1.uncons
  refine ⟨hrest, fun other hother => ?_⟩
  exact Nat.le_of_succ_le_succ (h.2 (step :: other) (.cons hstep hother))

/-- Between different positions a shortest path has a first cable. -/
theorem Path.exists_cons (hab : a ≠ b) (h : Path fabric a path b) : ∃ step rest, path = step :: rest := by
  cases h with
  | nil => exact absurd rfl hab
  | cons => exact ⟨_, _, rfl⟩

/-- A shortest path leaves a relay through the port it did not arrive on. -/
theorem Shortest.turn {next : Step} (h : Shortest fabric here (step :: next :: path) b) : next.srcPort = 1 - step.dstPort := by
  apply port_eq_of_ne
  intro hback
  obtain ⟨hstep, hrest⟩ := h.1.uncons
  obtain ⟨hnext, hafter⟩ := hrest.uncons
  rw [hback, fabric.cross_reverse hstep] at hnext
  obtain rfl := Option.some.inj hnext
  have hhere : step.reverse.dst = here := (fabric.cross_spec hstep).1
  have hle := h.2 path (hhere ▸ hafter)
  simp only [List.length_cons] at hle
  omega

/-- A shortest path is the walk out of its first port. -/
theorem Shortest.walk (h : Shortest fabric here (step :: path) b) (hlimit : (step :: path).length ≤ limit) :
    fabric.walk here step.srcPort b limit = some (step :: path) := by
  induction path generalizing here step limit with
  | nil =>
    obtain ⟨hstep, hrest⟩ := h.1.uncons
    obtain ⟨limit, rfl⟩ := Nat.exists_eq_succ_of_ne_zero (Nat.ne_of_gt (Nat.lt_of_lt_of_le Nat.zero_lt_one hlimit))
    have hdst : step.dst = b := by cases hrest; rfl
    simp only [Fabric.walk, hstep, if_pos hdst]
  | cons next path ih =>
    obtain ⟨hstep, hrest⟩ := h.1.uncons
    obtain ⟨limit, rfl⟩ := Nat.exists_eq_succ_of_ne_zero (Nat.ne_of_gt (Nat.lt_of_lt_of_le (Nat.succ_pos _) hlimit))
    have hdst : step.dst ≠ b := by
      intro heq
      have hle := h.2 [step] (.cons hstep (heq ▸ .nil step.dst))
      simp at hle
    have hwalk := ih h.tail (Nat.le_of_succ_le_succ hlimit)
    rw [h.turn] at hwalk
    simp only [Fabric.walk, hstep, if_neg hdst, hwalk, Option.map_some]

/-- Two shortest paths that leave through one port are the same. -/
theorem Shortest.eq_of_port {step' : Step} {path' : List Step} (h : Shortest fabric a (step :: path) b)
    (h' : Shortest fabric a (step' :: path') b) (hport : step.srcPort = step'.srcPort) : step :: path = step' :: path' := by
  have hwalk := h.walk le_rfl
  rw [hport, h'.walk (h'.2 _ h.1)] at hwalk
  exact (Option.some.inj hwalk).symm

/-- Every position on a path is closer to its end than where it starts. -/
theorem Path.closer (h : Path fabric here path b) (hv : v ∈ path.map Step.dst) :
    ∃ rest, Path fabric v rest b ∧ rest.length < path.length := by
  induction h with
  | nil => cases hv
  | @cons here b port step path hstep hrest ih =>
    rcases mem_cons.mp hv with rfl | hv
    · exact ⟨path, hrest, Nat.lt_succ_self _⟩
    · obtain ⟨rest, hpath, hless⟩ := ih hv
      exact ⟨rest, hpath, Nat.lt_succ_of_lt hless⟩

/-- A shortest path visits no position twice. -/
theorem Shortest.nodup (h : Shortest fabric here path b) : (here :: path.map Step.dst).Nodup := by
  induction path generalizing here with
  | nil => exact List.nodup_singleton here
  | cons step path ih =>
    refine List.nodup_cons.mpr ⟨fun hmem => ?_, ih h.tail⟩
    obtain ⟨rest, hrest, hless⟩ := h.1.closer hmem
    exact absurd (h.2 rest hrest) (Nat.not_le_of_lt hless)

/-- Positions a path leads to are on the fabric. -/
theorem Path.positions (h : Path fabric here path b) (hv : v ∈ path.map Step.dst) : v ∈ fabric.positions := by
  induction h with
  | nil => cases hv
  | cons hstep _ ih =>
    rcases mem_cons.mp hv with rfl | hv
    · exact (fabric.cross_positions hstep).2
    · exact ih hv

/-- A shortest path crosses fewer cables than its fabric has positions. -/
theorem Shortest.length_lt (hab : a ≠ b) (h : Shortest fabric a path b) : path.length < fabric.positions.length := by
  obtain ⟨step, rest, rfl⟩ := h.1.exists_cons hab
  have hsub : a :: (step :: rest).map Step.dst ⊆ fabric.positions := by
    intro v hv
    rcases mem_cons.mp hv with rfl | hv
    · exact (fabric.cross_positions h.1.uncons.1).1
    · exact h.1.positions hv
  have hle := (h.nodup.subperm hsub).length_le
  rwa [List.length_cons, List.length_map] at hle

/-- The search for distances ends. -/
theorem Fabric.distances_total (fabric : Fabric) (b : ℤ) : ∃ distance, fabric.distances b = some distance := by
  refine search_total fabric.positions.toFinset (fun v w hw => ?_) _ _ _ ?_
  · obtain ⟨port, step, hstep, rfl⟩ := Fabric.mem_neighbours.mp hw
    exact List.mem_toFinset.mpr (fabric.cross_positions hstep).2
  have hcard : (unseen fabric.positions.toFinset (start b)).card ≤ fabric.positions.length :=
    (Finset.card_filter_le _ _).trans (List.toFinset_card_le _)
  rw [List.length_singleton]
  omega

variable {distance : Distances ℤ}

section

variable (h : fabric.distances b = some distance)

include h

/-- A distance is the length of the shortest paths. -/
theorem Fabric.distances_eq : distance a = some n ↔ (∃ path, Path fabric a path b ∧ path.length = n) ∧
      ∀ path, Path fabric a path b → n ≤ path.length := by
  rw [search_least h]
  constructor
  · rintro ⟨hwalk, hleast⟩
    exact ⟨exists_path (hwalk.symm fabric.neighbours_symm), fun path hpath =>
      hleast (hpath.walk.symm fabric.neighbours_symm)⟩
  rintro ⟨⟨path, hpath, rfl⟩, hleast⟩
  refine ⟨hpath.walk.symm fabric.neighbours_symm, fun k hk => ?_⟩
  obtain ⟨path', hpath', rfl⟩ := exists_path (Walk.symm fabric.neighbours_symm hk)
  exact hleast path' hpath'

/-- The next position of a shortest path is one cable closer. -/
theorem Fabric.distances_next (hhere : distance here = some (n + 1)) (hstep : fabric.cross here port = some step)
    (hpath : Path fabric step.dst path b) (hlength : path.length = n) : distance step.dst = some n := by
  refine (Fabric.distances_eq h).mpr ⟨⟨path, hpath, hlength⟩, fun other hother => ?_⟩
  have hle := ((Fabric.distances_eq h).mp hhere).2 (step :: other) (.cons hstep hother)
  exact Nat.le_of_succ_le_succ hle

/-- Only the target is at distance zero. -/
theorem Fabric.distances_pos (hhere : distance here = some (n + 1)) : here ≠ b := by
  rintro rfl
  have hle := ((Fabric.distances_eq h).mp hhere).2 [] (.nil here)
  simp at hle

/-- The enumeration lists the paths that are as long as the distance, each once. -/
theorem Fabric.mem_extend (hhere : distance here = some n) (steps found : List Step) : found ∈ fabric.extend b distance n here steps ↔
      ∃ path, found = steps ++ path ∧ Path fabric here path b ∧ path.length = n := by
  induction n generalizing here steps with
  | zero =>
    obtain ⟨path, hpath, hlength⟩ := ((Fabric.distances_eq h).mp hhere).1
    obtain rfl := List.length_eq_zero_iff.mp hlength
    have heq : here = b := by cases hpath; rfl
    rw [Fabric.extend, if_pos heq, List.mem_singleton]
    constructor
    · intro hfound
      exact ⟨[], by rw [hfound, List.append_nil], hpath, rfl⟩
    · rintro ⟨path, rfl, -, hlength⟩
      rw [List.length_eq_zero_iff.mp hlength, List.append_nil]
  | succ n ih =>
    rw [Fabric.extend, if_neg (Fabric.distances_pos h hhere), List.mem_flatMap]
    constructor
    · rintro ⟨port, -, hfound⟩
      cases hcross : fabric.cross here port with
      | none => simp [hcross] at hfound
      | some step =>
        simp only [hcross] at hfound
        split at hfound
        · rename_i hdst
          obtain ⟨path, rfl, hpath, rfl⟩ := (ih hdst (steps ++ [step])).mp hfound
          exact ⟨step :: path, by simp, .cons hcross hpath, rfl⟩
        · cases hfound
    · rintro ⟨path, rfl, hpath, hlength⟩
      cases hpath with
      | nil => cases hlength
      | @cons _ _ port step path hcross hpath =>
        have hlength := Nat.succ.inj hlength
        have hdst := Fabric.distances_next h hhere hcross hpath hlength
        refine ⟨port, mem_ports, ?_⟩
        simp only [hcross, if_pos hdst]
        exact (ih hdst (steps ++ [step])).mpr ⟨path, by simp, hpath, hlength⟩

/-- The enumeration lists no path twice. -/
theorem Fabric.extend_nodup (hhere : distance here = some n) (steps : List Step) : (fabric.extend b distance n here steps).Nodup := by
  induction n generalizing here steps with
  | zero =>
    rw [Fabric.extend]
    split
    · exact List.nodup_singleton steps
    · exact nodup_nil
  | succ n ih =>
    rw [Fabric.extend, if_neg (Fabric.distances_pos h hhere)]
    -- Every path of a port's branch has that port's cable next.
    have hbranch : ∀ port branch found, (fabric.cross here port = none → branch = []) →
        (∀ step, fabric.cross here port = some step →
          branch = if distance step.dst = some n then fabric.extend b distance n step.dst (steps ++ [step]) else []) →
        found ∈ branch → ∃ step path, fabric.cross here port = some step ∧ found = steps ++ step :: path := by
      intro port branch found hnone hsome hfound
      cases hcross : fabric.cross here port with
      | none => simp [hnone hcross] at hfound
      | some step =>
        rw [hsome step hcross] at hfound
        split at hfound
        · rename_i hdst
          obtain ⟨path, rfl, -, -⟩ := (Fabric.mem_extend h hdst (steps ++ [step]) found).mp hfound
          exact ⟨step, path, rfl, by simp⟩
        · cases hfound
    refine List.nodup_flatMap.mpr ⟨fun port _ => ?_, ?_⟩
    · cases hcross : fabric.cross here port with
      | none => exact nodup_nil
      | some step =>
        dsimp only
        split
        · rename_i hdst
          exact ih hdst _
        · exact nodup_nil
    refine (List.Pairwise.imp_of_mem ?_ (show ports.Pairwise (· ≠ ·) by decide))
    intro p q _ _ hpq found hp hq
    obtain ⟨step, path, hstep, hfound⟩ := hbranch p _ found (fun hs => by simp only [hs]) (fun _ hs => by simp only [hs]) hp
    obtain ⟨step', path', hstep', heq⟩ := hbranch q _ found (fun hs => by simp only [hs]) (fun _ hs => by simp only [hs]) hq
    obtain ⟨rfl, -⟩ := List.cons.inj (List.append_cancel_left (hfound.symm.trans heq))
    exact hpq ((fabric.cross_spec hstep).2.1.symm.trans (fabric.cross_spec hstep').2.1)

end

/-- The paths found between two different positions are exactly the shortest ones, each
once. -/
theorem Fabric.shortestPaths_spec (fabric : Fabric) (hab : a ≠ b) :
    ∃ paths, fabric.shortestPaths a b = .ok paths ∧ paths.Nodup ∧ ∀ path, path ∈ paths ↔ Shortest fabric a path b := by
  obtain ⟨distance, hdistance⟩ := fabric.distances_total b
  simp only [Fabric.shortestPaths, if_neg hab, hdistance]
  cases ha : distance a with
  | none =>
    refine ⟨[], rfl, nodup_nil, fun path => ?_⟩
    refine ⟨fun hmem => absurd hmem List.not_mem_nil, fun hpath => ?_⟩
    obtain ⟨n, hn⟩ := search_seen hdistance (hpath.1.walk.symm fabric.neighbours_symm)
    rw [ha] at hn
    cases hn
  | some =>
    refine ⟨_, rfl, Fabric.extend_nodup hdistance ha [], fun path => ?_⟩
    obtain ⟨⟨least, hleast, hlength⟩, hle⟩ := (Fabric.distances_eq hdistance).mp ha
    rw [Fabric.mem_extend hdistance ha]
    constructor
    · rintro ⟨path, rfl, hpath, rfl⟩
      exact ⟨hpath, hle⟩
    · intro hpath
      exact ⟨path, rfl, hpath.1, le_antisymm (hlength ▸ hpath.2 least hleast) (hle path hpath.1)⟩

end SparkRing.Routes
