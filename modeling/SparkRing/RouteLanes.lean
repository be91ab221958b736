import SparkRing.FabricPaths

/-!
# The lanes derived between two positions

At most two paths are shortest, and two of them leave through different ports, so
exactly one leaves the smaller position through port 0. Which path is lane 0's
does not depend on the end it is derived from, so a lane and its counterpart
cross the same cables between the same two functions.
-/

namespace SparkRing.Routes

open Option (any_map map_map some.inj)
open Except (ok.inj)

section Results

variable {ε α β : Type*} {f : α → Except ε β} {routes : List LaneRoute} {ys : List β}

variable {l : List α}

/-- Results of a list are those of its elements, in order. -/
theorem mapM_ok_iff :
    l.mapM f = .ok ys ↔ List.Forall₂ (fun x y => f x = .ok y) l ys := by
  induction l generalizing ys with
  | nil =>
    rw [List.forall₂_nil_left_iff, List.mapM_nil]
    exact ⟨fun h => (ok.inj h).symm, fun h => h ▸ rfl⟩
  | cons x l ih =>
    rw [List.mapM_cons, List.forall₂_cons_left_iff]
    cases hx : f x with
    | error =>
      constructor
      · rintro ⟨⟩
      · rintro ⟨_, _, ⟨⟩, _⟩
    | ok y =>
      cases hl : l.mapM f with
      | error e =>
        constructor
        · rintro ⟨⟩
        rintro ⟨_, ys, _, hys, _⟩
        rw [ih.mpr hys] at hl
        cases hl
      | ok rest =>
        constructor
        · intro h
          exact ⟨y, rest, rfl, ih.mp hl, (ok.inj h).symm⟩
        rintro ⟨y', ys', hy, hys, rfl⟩
        rw [ih.mpr hys] at hl
        rw [← ok.inj hy, ← ok.inj hl]
        rfl

/-- Results of a list exist where those of its elements do, with what holds of each. -/
theorem exists_mapM {P : β → Prop} (h : ∀ x ∈ l, ∃ y, f x = .ok y ∧ P y) : ∃ ys, l.mapM f = .ok ys ∧ ∀ y ∈ ys, P y := by
  induction l with
  | nil => exact ⟨[], rfl, fun y hy => absurd hy List.not_mem_nil⟩
  | cons x l ih =>
    obtain ⟨y, hy, hP⟩ := h x List.mem_cons_self
    obtain ⟨ys, hys, hall⟩ := ih fun z hz => h z (List.mem_cons_of_mem x hz)
    exact ⟨y :: ys, mapM_ok_iff.mpr (.cons hy (mapM_ok_iff.mp hys)), List.forall_mem_cons.mpr ⟨hP, hall⟩⟩

/-- Results of a list that all pass are results of its elements that pass. -/
theorem mapM_forall_iff {P : β → Prop} : (∃ ys, l.mapM f = .ok ys ∧ ∀ y ∈ ys, P y) ↔ ∀ x ∈ l, ∃ y, f x = .ok y ∧ P y := by
  refine ⟨?_, exists_mapM⟩
  rintro ⟨ys, hys, hP⟩ x hmem
  induction mapM_ok_iff.mp hys with
  | nil => cases hmem
  | @cons x y l ys hx hrest ih =>
    rcases List.mem_cons.mp hmem with rfl | hmem
    · exact ⟨y, hx, hP y List.mem_cons_self⟩
    · exact ih (mapM_ok_iff.mpr hrest) (fun y hy => hP y (List.mem_cons_of_mem _ hy)) hmem

/-- What a list of results is made of. -/
theorem mem_of_mapM (h : l.mapM f = .ok ys) : (∀ x ∈ l, ∃ y, f x = .ok y) ∧ ∀ y ∈ ys, ∃ x ∈ l, f x = .ok y := by
  induction mapM_ok_iff.mp h with
  | nil => simp
  | @cons x y l ys hx hrest ih =>
    obtain ⟨hitems, hresults⟩ := ih (mapM_ok_iff.mpr hrest)
    refine ⟨List.forall_mem_cons.mpr ⟨⟨y, hx⟩, hitems⟩, List.forall_mem_cons.mpr ⟨⟨x, List.mem_cons_self, hx⟩, ?_⟩⟩
    intro other hother
    obtain ⟨source, hsource, heq⟩ := hresults other hother
    exact ⟨source, List.mem_cons_of_mem x hsource, heq⟩

end Results

variable {roles : Roles} {role : Role} {port : Port} {secondary : Bool}

/-- Every port has a function of either class. -/
theorem Roles.roleAt_ok (roles : Roles) (port : Port) (secondary : Bool) :
    ∃ role ∈ roles.all, roles.roleAt port secondary = .ok role ∧ role.port = port ∧ role.secondary = secondary := by
  have hdefault : ∀ port secondary, ∃ role ∈ defaultRoles, role.port = port ∧ role.secondary = secondary := by decide
  obtain ⟨default, hmem, hport, hclass⟩ := hdefault port secondary
  have hplace : default.place ∈ roles.all.map Role.place := roles.place ▸ List.mem_map_of_mem hmem
  obtain ⟨known, hknown, hsame⟩ := List.mem_map.mp hplace
  simp only [Role.place, Prod.mk.injEq] at hsame
  rw [Roles.roleAt]
  cases hfound : roles.all.find? fun role => role.port = port ∧ role.secondary = secondary with
  | none =>
    have hno := List.find?_eq_none.mp hfound known hknown
    simp [hsame.2.1, hsame.2.2, hport, hclass] at hno
  | some role =>
    have hat := List.find?_some hfound
    rw [decide_eq_true_eq] at hat
    exact ⟨role, List.mem_of_find?_eq_some hfound, rfl, hat.1, hat.2⟩

/-- The function at a port and class is one of them. -/
theorem Roles.roleAt_spec (h : roles.roleAt port secondary = .ok role) :
    role ∈ roles.all ∧ role.port = port ∧ role.secondary = secondary := by
  obtain ⟨found, hmem, hfound, hport, hclass⟩ := roles.roleAt_ok port secondary
  rw [hfound] at h
  obtain rfl := ok.inj h
  exact ⟨hmem, hport, hclass⟩

/-- A device names its function. -/
theorem Roles.eq_of_device {other : Role} (h : role ∈ roles.all) (hother : other ∈ roles.all)
    (hdevice : role.device = other.device) : role = other :=
  List.inj_on_of_nodup_map roles.device_distinct h hother hdevice

/-- The function of a device is found where no mapping names the device. -/
theorem Roles.roleOf_device {mapping : String → Option Role} (h : role ∈ roles.all)
    (hmapping : mapping role.device = none) : roles.roleOf mapping role.device = some role := by
  simp only [Roles.roleOf, hmapping]
  cases hfound : roles.all.find? fun other => other.device = role.device with
  | none =>
    have hno := List.find?_eq_none.mp hfound role h
    simp at hno
  | some other =>
    have hdevice : other.device = role.device := by simpa using List.find?_some hfound
    rw [roles.eq_of_device (List.mem_of_find?_eq_some hfound) h hdevice]

variable {entry : DocumentPosition} {positions : List DocumentPosition} {named : List Role}

/-- A function is named at its place, by a device and an interface that are not empty. -/
theorem DocumentPosition.role_ok_iff {named : Role} : entry.role role = .ok named ↔
    (entry.names named.port named.secondary = some (named.device, named.netdev) ∧ named.device ≠ "" ∧ named.netdev ≠ "") ∧
      named.place = role.place := by
  unfold DocumentPosition.role
  constructor
  · intro h
    split at h
    · cases h
    · rename_i names hnames
      split_ifs at h with hempty
      obtain rfl := ok.inj h
      exact ⟨⟨hnames, not_or.mp hempty⟩, rfl⟩
  · rintro ⟨⟨hnames, hfull⟩, hplace⟩
    obtain ⟨name, device, netdev, port, secondary⟩ := named
    obtain ⟨rfl, rfl, rfl⟩ : name = role.name ∧ port = role.port ∧ secondary = role.secondary := by
      simpa only [Role.place, Prod.mk.injEq] using hplace
    rw [hnames]
    exact if_neg (not_or.mpr hfull)

/-- A position names one function at each default place. -/
theorem DocumentPosition.roles_ok_iff : entry.roles = .ok named ↔
    (∀ role ∈ named, entry.names role.port role.secondary = some (role.device, role.netdev) ∧ role.device ≠ "" ∧ role.netdev ≠ "") ∧
      named.map Role.place = defaultRoles.map Role.place := by
  have hflip : entry.roles = .ok named ↔ List.Forall₂ (fun named role => entry.role role = .ok named) named defaultRoles :=
    mapM_ok_iff.trans ⟨.flip, .flip⟩
  simp only [hflip, DocumentPosition.role_ok_iff]
  rw [List.forall₂_and_left, ← List.forall₂_eq_eq_eq, List.forall₂_map_left_iff, List.forall₂_map_right_iff]

/-- The other positions agree when they name the functions of the first. -/
theorem agreeWithFirst_ok_iff (hnamed : named.map Role.place = defaultRoles.map Role.place) :
    agreeWithFirst named positions = .ok () ↔ ∀ entry ∈ positions, entry.roles = .ok named := by
  induction positions with
  | nil => exact ⟨fun _ _ hmem => absurd hmem List.not_mem_nil, fun _ => rfl⟩
  | cons entry rest ih =>
    rw [agreeWithFirst, List.forall_mem_cons, ← ih]
    cases hroles : entry.roles with
    | error => exact ⟨fun h => (by cases h), fun h => (by cases h.1)⟩
    | ok found =>
      have hlength : found.length = named.length := by
        simpa only [List.length_map] using congrArg List.length ((DocumentPosition.roles_ok_iff.mp hroles).2.trans hnamed.symm)
      have hsame : (found.zip named).find? (fun pair => pair.1 ≠ pair.2) = none ↔ found = named := by
        rw [List.find?_eq_none, ← List.forall₂_eq_eq_eq, List.forall₂_iff_zip]
        simp [hlength]
      simp only [bind, Except.bind]
      split
      · rename_i hnone
        rw [hsame.mp hnone]
        exact (and_iff_right rfl).symm
      · rename_i hsome
        refine ⟨fun h => (by cases h), fun h => ?_⟩
        rw [hsame.mpr (ok.inj h.1)] at hsome
        cases hsome

/-- A fabric document gives a process its functions exactly when every position names all four of them alike, each by
a device and an interface of its own. -/
theorem rolesFromFabricDocument_ok_iff : rolesFromFabricDocument positions = .ok named ↔
    positions ≠ [] ∧ (∃ roles : Roles, roles.all = named) ∧ (named.map Role.netdev).Nodup ∧
      ∀ entry ∈ positions, ∀ role ∈ named, entry.names role.port role.secondary = some (role.device, role.netdev) ∧ role.netdev ≠ "" := by
  have hall : rolesFromFabricDocument positions = .ok named ↔ positions ≠ [] ∧ (∀ entry ∈ positions, entry.roles = .ok named) ∧
      (named.map Role.device).Nodup ∧ (named.map Role.netdev).Nodup := by
    cases positions with
    | nil => exact ⟨fun h => (by cases h), fun h => absurd rfl h.1⟩
    | cons first rest =>
      rw [rolesFromFabricDocument, List.forall_mem_cons]
      cases hfirst : first.roles with
      | error => exact ⟨fun h => (by cases h), fun h => (by cases h.2.1.1)⟩
      | ok found =>
        have hrest : agreeWithFirst found rest = .ok () ↔ ∀ entry ∈ rest, entry.roles = .ok found :=
          agreeWithFirst_ok_iff (DocumentPosition.roles_ok_iff.mp hfirst).2
        simp only [bind, Except.bind]
        constructor
        · intro h
          cases hagree : agreeWithFirst found rest with
          | error =>
            rw [hagree] at h
            cases h
          | ok =>
            simp only [hagree] at h
            split_ifs at h with hdistinct
            obtain rfl := ok.inj h
            exact ⟨List.cons_ne_nil _ _, ⟨rfl, hrest.mp hagree⟩, hdistinct⟩
        · rintro ⟨-, ⟨hnamed, hothers⟩, hdistinct⟩
          obtain rfl := ok.inj hnamed
          simp only [hrest.mpr hothers, if_pos hdistinct]
  rw [hall]
  simp only [DocumentPosition.roles_ok_iff]
  constructor
  · rintro ⟨hsome, hnames, hdevice, hnetdev⟩
    obtain ⟨first, rest, rfl⟩ := List.exists_cons_of_ne_nil hsome
    have hfirst := hnames first List.mem_cons_self
    exact ⟨hsome, ⟨⟨named, hfirst.2, fun role hrole => (hfirst.1 role hrole).2.1, hdevice⟩, rfl⟩, hnetdev,
      fun entry hentry role hrole => ⟨((hnames entry hentry).1 role hrole).1, ((hnames entry hentry).1 role hrole).2.2⟩⟩
  · rintro ⟨hsome, ⟨roles, rfl⟩, hnetdev, hnames⟩
    exact ⟨hsome, fun entry hentry => ⟨fun role hrole => ⟨(hnames entry hentry role hrole).1, roles.device_named role hrole,
      (hnames entry hentry role hrole).2⟩, roles.place⟩, roles.device_distinct, hnetdev⟩

variable {fabric : Fabric} {a b : ℤ} {path other pathA pathB : List Step} {lane lanes : ℕ} {route : LaneRoute}

/-- The last step of a path is the first of its reverse. -/
theorem head?_reversePath : (reversePath path).head? = path.getLast?.map Step.reverse := by
  rw [reversePath, List.head?_reverse, List.getLast?_map]

/-- The first step of a path is the last of its reverse. -/
theorem getLast?_reversePath : (reversePath path).getLast? = path.head?.map Step.reverse := by
  rw [reversePath, List.getLast?_reverse, List.head?_map]

section

variable (hab : a ≠ b)

include hab

section

variable (h : Shortest fabric a path b) (hother : Shortest fabric a other b)

include h hother

/-- Two shortest paths that leave through one port are the same. -/
theorem Shortest.eq_of_head (hport : path.head?.map Step.srcPort = other.head?.map Step.srcPort) : path = other := by
  obtain ⟨step, rest, rfl⟩ := h.1.exists_cons hab
  obtain ⟨step', rest', rfl⟩ := hother.1.exists_cons hab
  exact h.eq_of_port hother (some.inj hport)

/-- Two shortest paths that arrive on one port are the same. -/
theorem Shortest.eq_of_getLast (hport : path.getLast?.map Step.dstPort = other.getLast?.map Step.dstPort) : path = other := by
  have hreverse : reversePath path = reversePath other := by
    refine h.reverse.eq_of_head hab.symm hother.reverse ?_
    rw [head?_reversePath, head?_reversePath, map_map, map_map]
    exact hport
  rw [← reversePath_reversePath path, hreverse, reversePath_reversePath]

omit h hother in
/-- Whether a path leaves the smaller position through port 0 does not depend on the end
it is read from. -/
theorem leavesSmaller_reverse (path : List Step) :
    leavesSmallerThroughPort0 b a (reversePath path) = leavesSmallerThroughPort0 a b path := by
  rw [leavesSmallerThroughPort0, leavesSmallerThroughPort0]
  rcases lt_or_gt_of_ne hab with h | h
  · rw [min_eq_right h.le, min_eq_left h.le, if_neg hab, if_pos rfl, getLast?_reversePath, any_map]
    rfl
  · rw [min_eq_left h.le, min_eq_right h.le, if_pos rfl, if_neg hab.symm, head?_reversePath, any_map]
    rfl

/-- Of two shortest paths, one leaves the smaller position through port 0. -/
theorem leavesSmaller_ne (hne : path ≠ other) : leavesSmallerThroughPort0 a b path ≠ leavesSmallerThroughPort0 a b other := by
  wlog hmin : min a b = a generalizing a b path other
  · rw [← leavesSmaller_reverse hab path, ← leavesSmaller_reverse hab other]
    refine this hab.symm h.reverse hother.reverse (fun heq => hne ?_) ?_
    · rw [← reversePath_reversePath path, heq, reversePath_reversePath]
    · rw [min_comm]
      exact (min_choice a b).resolve_left hmin
  rw [leavesSmallerThroughPort0, leavesSmallerThroughPort0, if_pos hmin, if_pos hmin]
  obtain ⟨step, rest, rfl⟩ := h.1.exists_cons hab
  obtain ⟨step', rest', rfl⟩ := hother.1.exists_cons hab
  have hports : step.srcPort ≠ step'.srcPort := fun heq => hne (h.eq_of_port hother heq)
  have hpair : ∀ p q : Port, p ≠ q → decide (p = 0) ≠ decide (q = 0) := by decide
  exact hpair _ _ hports

end

/-- The paths of lanes 0 and 1: the only shortest path, or the one that leaves the
smaller position through port 0 and the other one. -/
structure Chosen (fabric : Fabric) (a b : ℤ) (pathA pathB : List Step) : Prop where
  /-- Lane 0 has a shortest path. -/
  shortestA : Shortest fabric a pathA b
  /-- Lane 1 has a shortest path. -/
  shortestB : Shortest fabric a pathB b
  /-- The lanes share a path only where no other is as short. -/
  single : pathA = pathB → ∀ path, Shortest fabric a path b → path = pathA
  /-- Lane 0 has path A. -/
  leaves : pathA ≠ pathB → leavesSmallerThroughPort0 a b pathA = true

/-- The choice is the same from the other end. -/
theorem Chosen.reverse (h : Chosen fabric a b pathA pathB) : Chosen fabric b a (reversePath pathA) (reversePath pathB) where
  shortestA := h.shortestA.reverse
  shortestB := h.shortestB.reverse
  single := by
    intro heq path hpath
    have hsame : pathA = pathB := by rw [← reversePath_reversePath pathA, heq, reversePath_reversePath]
    rw [← h.single hsame _ hpath.reverse, reversePath_reversePath]
  leaves := by
    intro hne
    rw [leavesSmaller_reverse hab]
    exact h.leaves fun heq => hne (congrArg reversePath heq)

theorem Chosen.unique {pathA' pathB' : List Step} (h : Chosen fabric a b pathA pathB)
    (h' : Chosen fabric a b pathA' pathB') : pathA = pathA' ∧ pathB = pathB' := by
  by_cases hone : pathA = pathB
  · have hall := h.single hone
    exact ⟨(hall pathA' h'.shortestA).symm, hone ▸ (hall pathB' h'.shortestB).symm⟩
  have hone' : pathA' ≠ pathB' := by
    intro heq
    exact hone ((h'.single heq pathA h.shortestA).trans (h'.single heq pathB h.shortestB).symm)
  have hA := h.leaves hone
  have hA' := h'.leaves hone'
  have hB := leavesSmaller_ne hab h.shortestA h.shortestB hone
  have hB' := leavesSmaller_ne hab h'.shortestA h'.shortestB hone'
  constructor
  · by_contra hne
    exact leavesSmaller_ne hab h.shortestA h'.shortestA hne (hA.trans hA'.symm)
  by_contra hne
  refine leavesSmaller_ne hab h.shortestB h'.shortestB hne ?_
  rw [hA] at hB
  rw [hA'] at hB'
  rw [Bool.eq_false_iff.mpr hB.symm, Bool.eq_false_iff.mpr hB'.symm]

/-- Between different positions at most two paths are shortest. -/
theorem shortest_length_le_two {paths : List (List Step)} (hnodup : paths.Nodup)
    (hall : ∀ path ∈ paths, Shortest fabric a path b) : paths.length ≤ 2 := by
  have hports : (paths.map fun path => path.head?.map Step.srcPort).Nodup :=
    hnodup.map_on fun p hp q hq heq => (hall p hp).eq_of_head hab (hall q hq) heq
  have hsub : (paths.map fun path => path.head?.map Step.srcPort) ⊆ [some 0, some 1] := by
    intro port hport
    obtain ⟨path, hpath, rfl⟩ := List.mem_map.mp hport
    obtain ⟨step, rest, rfl⟩ := (hall path hpath).1.exists_cons hab
    have htwo : ∀ p : Port, some p ∈ [some (0 : Port), some 1] := by decide
    exact htwo step.srcPort
  have hle := (hports.subperm hsub).length_le
  rwa [List.length_map] at hle

/-- From the shortest paths, the choice is made without ambiguity. -/
theorem chosenPaths_ok {paths : List (List Step)} (hnodup : paths.Nodup)
    (hall : ∀ path, path ∈ paths ↔ Shortest fabric a path b) (hsome : paths ≠ []) :
    ∃ pathA pathB, chosenPaths a b paths = .ok (pathA, pathB) ∧ Chosen fabric a b pathA pathB := by
  have hlength := shortest_length_le_two hab hnodup fun path => (hall path).mp
  match paths, hsome with
  | [path], _ =>
    have hpath := (hall path).mp List.mem_cons_self
    refine ⟨path, path, rfl, hpath, hpath, fun _ other hother => ?_, fun hne => absurd rfl hne⟩
    exact List.mem_singleton.mp ((hall other).mpr hother)
  | [p, q], _ =>
    have hp := (hall p).mp List.mem_cons_self
    have hq := (hall q).mp (List.mem_cons_of_mem p List.mem_cons_self)
    have hpq : p ≠ q := fun heq => (List.nodup_cons.mp hnodup).1 (heq ▸ List.mem_cons_self)
    have hne := leavesSmaller_ne hab hp hq hpq
    cases hfirst : leavesSmallerThroughPort0 a b p with
    | true =>
      have hsecond : leavesSmallerThroughPort0 a b q = false := by
        rw [hfirst] at hne
        exact Bool.eq_false_iff.mpr hne.symm
      refine ⟨p, q, by simp [chosenPaths, hfirst, hsecond, hpq.symm], hp, hq, fun heq => absurd heq hpq, fun _ => hfirst⟩
    | false =>
      have hsecond : leavesSmallerThroughPort0 a b q = true := by
        rw [hfirst] at hne
        exact Bool.eq_true_of_not_eq_false hne.symm
      refine ⟨q, p, by simp [chosenPaths, hfirst, hsecond, hpq], hq, hp, fun heq => absurd heq.symm hpq, fun _ => hsecond⟩
  | _ :: _ :: _ :: _, _ => simp at hlength

end

def lanePath (pathA pathB : List Step) (lane : ℕ) : List Step := if lane = 0 then pathA else pathB

/-- A lane over a path has the functions of its class at the path's ends. -/
theorem laneOver_ok (hab : a ≠ b) (h : Path fabric a path b) : ∃ route, laneOver roles lane path = .ok route := by
  obtain ⟨step, rest, rfl⟩ := h.exists_cons hab
  obtain ⟨localRole, -, hlocal, -⟩ := roles.roleAt_ok step.srcPort (lane == 1)
  obtain ⟨remoteRole, -, hremote, -⟩ := roles.roleAt_ok ((step :: rest).getLast (List.cons_ne_nil _ _)).dstPort (lane == 1)
  refine ⟨⟨lane, localRole, remoteRole, step :: rest⟩, ?_⟩
  simp only [laneOver, List.head?_cons, List.getLast?_eq_getLast_of_ne_nil (List.cons_ne_nil step rest), hlocal, hremote,
    bind, Except.bind]

theorem laneOver_spec (h : laneOver roles lane path = .ok route) :
    ∃ first last, path.head? = some first ∧ path.getLast? = some last ∧ route.lane = lane ∧ route.steps = path ∧
      roles.roleAt first.srcPort (lane == 1) = .ok route.localRole ∧ roles.roleAt last.dstPort (lane == 1) = .ok route.remoteRole := by
  rw [laneOver] at h
  cases hfirst : path.head? with
  | none => simp [hfirst] at h
  | some first =>
    cases hlast : path.getLast? with
    | none => simp [hfirst, hlast] at h
    | some last =>
      obtain ⟨localRole, -, hlocal, -⟩ := roles.roleAt_ok first.srcPort (lane == 1)
      obtain ⟨remoteRole, -, hremote, -⟩ := roles.roleAt_ok last.dstPort (lane == 1)
      simp only [hfirst, hlast, hlocal, hremote, bind, Except.bind] at h
      obtain rfl := ok.inj h
      exact ⟨first, last, rfl, rfl, rfl, rfl, hlocal, hremote⟩

/-- The lane over the reverse of a path joins the same functions. -/
theorem laneOver_reverse {back : LaneRoute} (h : laneOver roles lane path = .ok route)
    (hback : laneOver roles lane (reversePath path) = .ok back) :
    back.steps = reversePath route.steps ∧ back.localRole = route.remoteRole ∧ back.remoteRole = route.localRole := by
  obtain ⟨first, last, hfirst, hlast, -, hsteps, hlocal, hremote⟩ := laneOver_spec h
  obtain ⟨first', last', hfirst', hlast', -, hsteps', hlocal', hremote'⟩ := laneOver_spec hback
  rw [head?_reversePath, hlast] at hfirst'
  rw [getLast?_reversePath, hfirst] at hlast'
  obtain rfl := some.inj hfirst'
  obtain rfl := some.inj hlast'
  refine ⟨by rw [hsteps', hsteps], ?_, ?_⟩
  · exact ok.inj (hlocal'.symm.trans hremote)
  · exact ok.inj (hremote'.symm.trans hlocal)

/-- The lanes between two connected positions are those over the chosen paths. -/
theorem deriveLanes_ok (roles : Roles) (hab : a ≠ b) (hconnected : Connected fabric a b) (hlanes : lanes = 1 ∨ lanes = 2) :
    ∃ pathA pathB routes, Chosen fabric a b pathA pathB ∧ deriveLanes roles fabric a b lanes = .ok routes ∧
      List.Forall₂ (fun lane route => laneOver roles lane (lanePath pathA pathB lane) = .ok route)
        (List.range lanes) routes := by
  obtain ⟨paths, hpaths, hnodup, hall⟩ := fabric.shortestPaths_spec hab
  have hsome : paths ≠ [] := by
    rintro rfl
    obtain ⟨path, hpath⟩ := hconnected.exists_shortest
    exact List.not_mem_nil ((hall path).mpr hpath)
  obtain ⟨pathA, pathB, hchosen, hspec⟩ := chosenPaths_ok hab hnodup hall hsome
  have hover : ∀ lane ∈ List.range lanes,
      ∃ route, laneOver roles lane (lanePath pathA pathB lane) = .ok route ∧ True := by
    intro lane _
    rw [lanePath]
    split
    · exact (laneOver_ok hab hspec.shortestA.1).imp fun _ h => ⟨h, trivial⟩
    · exact (laneOver_ok hab hspec.shortestB.1).imp fun _ h => ⟨h, trivial⟩
  obtain ⟨routes, hroutes, -⟩ := exists_mapM hover
  refine ⟨pathA, pathB, routes, hspec, ?_, mapM_ok_iff.mp hroutes⟩
  rw [deriveLanes, if_neg (by omega), hpaths]
  simp only [bind, Except.bind, hchosen]
  exact hroutes

/-- Lanes are derived only between connected positions. -/
theorem deriveLanes_connected (h : deriveLanes roles fabric a b lanes = .ok routes) :
    a ≠ b ∧ Connected fabric a b ∧ (lanes = 1 ∨ lanes = 2) := by
  rw [deriveLanes] at h
  split at h
  · cases h
  rename_i hlanes
  have hab : a ≠ b := by
    rintro rfl
    simp [Fabric.shortestPaths, bind, Except.bind] at h
  obtain ⟨paths, hpaths, -, hall⟩ := fabric.shortestPaths_spec hab
  refine ⟨hab, ?_, by omega⟩
  cases paths with
  | nil => simp [hpaths, chosenPaths, bind, Except.bind] at h
  | cons path rest => exact ⟨path, ((hall path).mp List.mem_cons_self).1⟩

/-- A derived lane. -/
structure IsLane (roles : Roles) (fabric : Fabric) (a b : ℤ) (lane : ℕ) (route : LaneRoute) : Prop where
  /-- It crosses a shortest path. -/
  shortest : Shortest fabric a route.steps b
  /-- It leaves through a function of its class. -/
  localRole : route.localRole ∈ roles.all ∧ route.localRole.secondary = (lane == 1)
  /-- It arrives on a function of its class. -/
  remoteRole : route.remoteRole ∈ roles.all ∧ route.remoteRole.secondary = (lane == 1)
  arrives : ∃ last, route.steps.getLast? = some last ∧ roles.roleAt last.dstPort (lane == 1) = .ok route.remoteRole
  walk : ∀ limit, route.steps.length ≤ limit → fabric.walk a route.localRole.port b limit = some route.steps

/-- A lane over a shortest path is a derived lane. -/
theorem laneOver_isLane (hab : a ≠ b) (hpath : Shortest fabric a path b) (h : laneOver roles lane path = .ok route) :
    IsLane roles fabric a b lane route := by
  obtain ⟨first, last, hfirst, hlast, -, hsteps, hlocal, hremote⟩ := laneOver_spec h
  obtain ⟨hlocalMem, hport, hlocalClass⟩ := Roles.roleAt_spec hlocal
  obtain ⟨hremoteMem, -, hremoteClass⟩ := Roles.roleAt_spec hremote
  obtain ⟨step, rest, rfl⟩ := hpath.1.exists_cons hab
  obtain rfl := some.inj hfirst
  refine ⟨hsteps ▸ hpath, ⟨hlocalMem, hlocalClass⟩, ⟨hremoteMem, hremoteClass⟩, ⟨last, hsteps ▸ hlast, hremote⟩, ?_⟩
  intro limit hlimit
  rw [hsteps] at hlimit
  rw [hport, hpath.walk hlimit, hsteps]

/-- Every lane derived between two positions is a derived lane, and its counterpart from
the other end crosses the same cables between the same functions. -/
theorem deriveLanes_pair {back : List LaneRoute} (h : deriveLanes roles fabric a b lanes = .ok routes)
    (hback : deriveLanes roles fabric b a lanes = .ok back) : routes.length = lanes ∧ ∀ lane route, routes[lane]? = some route →
      IsLane roles fabric a b lane route ∧ ∃ counterpart, back[lane]? = some counterpart ∧
        counterpart.steps = reversePath route.steps ∧ counterpart.localRole = route.remoteRole ∧
        counterpart.remoteRole = route.localRole := by
  obtain ⟨hab, hconnected, hlanes⟩ := deriveLanes_connected h
  obtain ⟨-, hconnected', -⟩ := deriveLanes_connected hback
  obtain ⟨pathA, pathB, found, hchosen, hfound, hover⟩ := deriveLanes_ok roles hab hconnected hlanes
  obtain ⟨pathA', pathB', found', hchosen', hfound', hover'⟩ := deriveLanes_ok roles hab.symm hconnected' hlanes
  obtain rfl := ok.inj (hfound.symm.trans h)
  obtain rfl := ok.inj (hfound'.symm.trans hback)
  obtain ⟨rfl, rfl⟩ := hchosen'.unique hab.symm (hchosen.reverse hab)
  have hlength := hover.length_eq
  have hlength' := hover'.length_eq
  rw [List.length_range] at hlength hlength'
  refine ⟨hlength.symm, fun lane route hroute => ?_⟩
  obtain ⟨hlt, rfl⟩ := List.getElem?_eq_some_iff.mp hroute
  have hlane : laneOver roles lane (lanePath pathA pathB lane) = .ok found[lane] := by
    simpa using (List.forall₂_iff_get.mp hover).2 lane (by rw [List.length_range]; omega) hlt
  have hlt' : lane < found'.length := by omega
  have hlane' : laneOver roles lane (lanePath (reversePath pathA) (reversePath pathB) lane) = .ok found'[lane] := by
    simpa using (List.forall₂_iff_get.mp hover').2 lane (by rw [List.length_range]; omega) hlt'
  have hreverse : lanePath (reversePath pathA) (reversePath pathB) lane = reversePath (lanePath pathA pathB lane) := by
    rw [lanePath, lanePath]
    split <;> rfl
  rw [hreverse] at hlane'
  have hshort : Shortest fabric a (lanePath pathA pathB lane) b := by
    rw [lanePath]
    split
    · exact hchosen.shortestA
    · exact hchosen.shortestB
  exact ⟨laneOver_isLane hab hshort hlane, _, List.getElem?_eq_getElem hlt', laneOver_reverse hlane hlane'⟩

end SparkRing.Routes
