import SparkRing.ListSweep
import SparkRing.RelayDiff

/-!
# What a script leaves alone on a Spark

Filters, qdiscs and neighbours are named exactly by their commands, so each command
on its own leaves the other objects as they are. A route deletion takes the first
route its words fit, so the deletions of a script are taken together as one sweep
over the routes.
-/

namespace SparkRing.Relay

open Routes (Roles)
open Function

namespace HostState

variable (state : HostState) (roles : Roles) (adopt : Bool) {commands : List Command}

/-- A route that stays as it is: unmarked, and no relay route where those are adopted. -/
def protectedRoute (r : RouteEntry) : Bool := !r.owned && !(adopt && state.isRelayRoute roles r)

/-- A permanent neighbour that stays as it is. -/
def protectedNeighbour (n : NeighbourEntry) : Bool :=
  n.permanent && !n.owned && !(adopt && state.isRelayNeighbour roles n)

/-- Everything that is not the installer's is as it was read. -/
structure Untouched (host : Host) : Prop where
  routes : host.routes.filter (state.protectedRoute roles adopt) = state.routes.filter (state.protectedRoute roles adopt)
  /-- Permanent neighbours that stay. -/
  neighbours : host.neighbours.filter (state.protectedNeighbour roles adopt) =
    state.neighbours.filter (state.protectedNeighbour roles adopt)
  /-- Filters outside the reserved preferences of chain 0. -/
  filters : ∀ netdev, ((host.filters netdev).filter fun f => !f.reserved) =
    (state.filters netdev).filter fun f => !f.reserved
  qdiscs : ∀ netdev kind, state.ingressQdisc netdev = some kind → netdev ∉ recordedQdiscs state.record →
    host.ingressQdisc netdev = some kind

end HostState

namespace Host

@[simp] theorem run_cons (host : Host) (c : Command) (commands : List Command) :
    host.run (c :: commands) = (host.exec c).run commands := rfl

theorem run_append (host : Host) (first second : List Command) :
    host.run (first ++ second) = (host.run first).run second := List.foldl_append ..

/-- What every command of a run keeps holds after the run. -/
theorem run_keeps {P : Host → Prop} {host : Host}
    (h : ∀ c ∈ commands, ∀ host, P host → P (host.exec c)) (h0 : P host) : P (host.run commands) := by
  induction commands generalizing host with
  | nil => exact h0
  | cons c commands ih =>
    obtain ⟨hc, hrest⟩ := List.forall_mem_cons.mp h
    exact ih hrest (hc host h0)

end Host

variable {state : HostState} {roles : Roles} {adopt : Bool} {host : Host} {c : Command}

/-- A command keeps the filters outside the reserved preferences. -/
def FilterSafe (state : HostState) : Command → Prop
  | .filterDel _ pref _ => pref ∈ reservedPrefs
  | .qdiscDel netdev => ∀ f ∈ state.filters netdev, f.reserved = true
  | _ => True

/-- A command keeps the qdiscs the record does not list. -/
def QdiscSafe (state : HostState) : Command → Prop
  | .qdiscDel netdev => netdev ∈ recordedQdiscs state.record
  | _ => True

/-- An added filter has a reserved preference of chain 0. -/
theorem RelayFilter.entry_reserved (f : RelayFilter) : f.entry.reserved = true :=
  decide_eq_true ⟨rfl, f.pref_reserved⟩

theorem filters_exec (hc : FilterSafe state c)
    (h : ∀ netdev, ((host.filters netdev).filter fun f => !f.reserved) =
      (state.filters netdev).filter fun f => !f.reserved) (netdev : String) :
    (((host.exec c).filters netdev).filter fun f => !f.reserved) =
      (state.filters netdev).filter fun f => !f.reserved := by
  cases c with
  | filterDel dev pref identity =>
    by_cases hdev : netdev = dev
    · subst hdev
      have hkeep : ∀ f : FilterEntry, (!f.reserved && !f.deletedBy pref identity) = !f.reserved := by
        intro f
        cases hr : f.reserved with
        | true => rfl
        | false =>
          have hpref : ¬(f.chain = 0 ∧ f.pref = pref) := fun hf =>
            of_decide_eq_false hr ⟨hf.1, hf.2 ▸ hc⟩
          simp [FilterEntry.deletedBy, hpref]
      simp only [Host.exec, update_self, List.filter_filter, hkeep, h]
    · simp only [Host.exec, update_of_ne hdev, h]
  | filterAdd f =>
    by_cases hdev : netdev = f.inNetdev
    · subst hdev
      simp [Host.exec, f.entry_reserved, h]
    · simp only [Host.exec, update_of_ne hdev, h]
  | qdiscDel dev =>
    by_cases hdev : netdev = dev
    · subst hdev
      simp only [Host.exec, update_self, List.filter_nil]
      exact (List.filter_eq_nil_iff.mpr fun f hf => by simp [hc f hf]).symm
    · simp only [Host.exec, update_of_ne hdev, h]
  | _ => exact h netdev

theorem qdiscs_exec (hc : QdiscSafe state c)
    (h : ∀ netdev kind, state.ingressQdisc netdev = some kind → netdev ∉ recordedQdiscs state.record →
      host.ingressQdisc netdev = some kind) (netdev : String) (kind : IngressKind)
    (hkind : state.ingressQdisc netdev = some kind) (hrec : netdev ∉ recordedQdiscs state.record) :
    (host.exec c).ingressQdisc netdev = some kind := by
  cases c with
  | qdiscAdd dev =>
    by_cases hdev : netdev = dev
    · subst hdev
      simp [Host.exec, h netdev kind hkind hrec]
    · simp only [Host.exec, update_of_ne hdev, h netdev kind hkind hrec]
  | qdiscDel dev =>
    have hdev : netdev ≠ dev := fun heq => hrec (heq ▸ hc)
    simp only [Host.exec, update_of_ne hdev, h netdev kind hkind hrec]
  | _ => exact h netdev kind hkind hrec

/-- The neighbour a command sets or deletes. -/
def Command.neighbourKey : Command → Option (String × String)
  | .neighReplace destination _ netdev => some (destination, netdev)
  | .neighDel destination netdev => some (destination, netdev)
  | _ => none

/-- A command keeps the neighbours that stay. -/
def NeighbourSafe (state : HostState) (roles : Roles) (adopt : Bool) (c : Command) : Prop :=
  ∀ n ∈ state.neighbours, c.neighbourKey = some n.key → state.protectedNeighbour roles adopt n = false

/-- Replacing an entry of another kind by one of another kind keeps the kind. -/
theorem filter_replaceFirst {α : Type*} {fits q : α → Bool} {a : α} {l : List α} (ha : q a = false)
    (h : ∀ b ∈ l, fits b = true → q b = false) : (replaceFirst fits a l).filter q = l.filter q := by
  induction l with
  | nil => simp [replaceFirst, ha]
  | cons b l ih =>
    obtain ⟨hb, hrest⟩ := List.forall_mem_cons.mp h
    by_cases hfit : fits b = true
    · simp [replaceFirst, hfit, ha, hb hfit]
    · rw [replaceFirst, if_neg hfit, List.filter_cons, List.filter_cons, ih hrest]

theorem protectedNeighbour_owned {destination mac netdev : String} :
    state.protectedNeighbour roles adopt (ownedNeighbour destination mac netdev) = false := by
  simp [HostState.protectedNeighbour, NeighbourEntry.owned, ownedNeighbour]

theorem neighbours_exec (hc : NeighbourSafe state roles adopt c)
    (h : host.neighbours.filter (state.protectedNeighbour roles adopt) =
      state.neighbours.filter (state.protectedNeighbour roles adopt)) :
    (host.exec c).neighbours.filter (state.protectedNeighbour roles adopt) =
      state.neighbours.filter (state.protectedNeighbour roles adopt) := by
  have hnone : ∀ n ∈ host.neighbours, c.neighbourKey = some n.key → state.protectedNeighbour roles adopt n = false := by
    intro n hn hkey
    by_contra hprot
    have hmem := List.mem_filter.mpr ⟨hn, by simpa using hprot⟩
    rw [h] at hmem
    exact hprot (hc n (List.mem_filter.mp hmem).1 hkey)
  cases c with
  | neighReplace =>
    rw [← h]
    exact filter_replaceFirst protectedNeighbour_owned fun n hn hfit =>
      hnone n hn (congrArg some (of_decide_eq_true hfit).symm)
  | neighDel destination netdev =>
    rw [← h]
    simp only [Host.exec, Host.dropNeighbour, List.filter_filter]
    refine List.filter_congr fun n hn => ?_
    by_cases hkey : n.key = (destination, netdev)
    · simp [hnone n hn (congrArg some hkey.symm)]
    · simp [hkey]
  | _ => exact h

/-- Once a command named a neighbour, none that stays is under its key. -/
theorem no_protected_exec {key : String × String}
    (h : c.neighbourKey = some key ∨ ∀ n ∈ host.neighbours, n.key = key → state.protectedNeighbour roles adopt n = false) :
    ∀ n ∈ (host.exec c).neighbours, n.key = key → state.protectedNeighbour roles adopt n = false := by
  have hreplace : ∀ (d m x : String) (entries : List NeighbourEntry), (entries.map NeighbourEntry.key).Nodup →
      ((d, x) = key ∨ ∀ n ∈ entries, n.key = key → state.protectedNeighbour roles adopt n = false) →
      ∀ n ∈ replaceFirst (fun e => decide (e.key = (ownedNeighbour d m x).key)) (ownedNeighbour d m x) entries,
        n.key = key → state.protectedNeighbour roles adopt n = false := by
    intro d m x entries hnodup hold n hn hkey
    induction entries with
    | nil =>
      rw [List.mem_singleton.mp hn]
      exact protectedNeighbour_owned
    | cons e entries ih =>
      obtain ⟨hfresh, hrest⟩ := List.nodup_cons.mp hnodup
      by_cases he : e.key = (ownedNeighbour d m x).key
      · rw [replaceFirst, if_pos (decide_eq_true he)] at hn
        obtain rfl | hn := List.mem_cons.mp hn
        · exact protectedNeighbour_owned
        obtain hdx | hold := hold
        · have hsame : n.key = e.key := hkey.trans (hdx.symm.trans he.symm)
          exact absurd (hsame ▸ List.mem_map_of_mem hn) hfresh
        · exact hold n (List.mem_cons_of_mem _ hn) hkey
      rw [replaceFirst, if_neg (by simpa using he)] at hn
      obtain rfl | hn := List.mem_cons.mp hn
      · obtain hdx | hold := hold
        · exact absurd (hkey.trans hdx.symm) he
        · exact hold n (List.mem_cons_self ..) hkey
      · exact ih hrest (hold.imp_right fun hold b hb => hold b (List.mem_cons_of_mem _ hb)) hn
  cases c with
  | neighReplace d m x =>
    exact hreplace d m x host.neighbours host.neighbours_distinct (h.imp_left fun hk => Option.some.inj hk)
  | neighDel =>
    intro n hn hkey
    obtain ⟨hn, hne⟩ := List.mem_filter.mp hn
    obtain hk | hold := h
    · exact absurd (hkey.trans (Option.some.inj hk).symm) (of_decide_eq_true hne)
    · exact hold n hn hkey
  | _ =>
    intro n hn hkey
    exact h.elim (fun hno => by simp [Command.neighbourKey] at hno) fun hold => hold n hn hkey

/-- A script that names a neighbour that stays does not keep it. -/
theorem neighbours_run_ne {n : NeighbourEntry} (hc : c ∈ commands) (hkey : c.neighbourKey = some n.key) (hn : n ∈ state.neighbours)
    (hprot : state.protectedNeighbour roles adopt n = true) : (host.run commands).neighbours.filter (state.protectedNeighbour roles adopt) ≠
      state.neighbours.filter (state.protectedNeighbour roles adopt) := by
  have hgone : ∀ m ∈ (host.run commands).neighbours, m.key = n.key → state.protectedNeighbour roles adopt m = false := by
    obtain ⟨before, after, rfl⟩ := List.append_of_mem hc
    rw [Host.run_append, Host.run_cons]
    exact Host.run_keeps
      (P := fun h => ∀ m ∈ h.neighbours, m.key = n.key → state.protectedNeighbour roles adopt m = false)
      (fun _ _ _ h => no_protected_exec (.inr h)) (no_protected_exec (.inl hkey))
  intro h
  have hmem := List.mem_filter.mpr ⟨hn, hprot⟩
  rw [← h] at hmem
  have hfalse := hgone n (List.mem_filter.mp hmem).1 rfl
  rw [hprot] at hfalse
  cases hfalse

end SparkRing.Relay
