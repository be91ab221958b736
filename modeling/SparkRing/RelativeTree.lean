import Mathlib.Data.List.Infix
import Mathlib.Data.List.Sort
import SparkRing.OrderedDict

/-!
# Trees of relative names

The entries below a directory, under names that are the lists of their components: every
entry lies in a directory. A name is reached by opening its parent directories one after
another, and an entry is removed only when it holds no other.
-/

namespace SparkRing.RelativeTree

open OrderedDict

variable {Part File : Type*} {todo : List (List Part)} {file : File}

/-- An entry of a directory. -/
inductive Node (File : Type*) where
  | directory
  /-- Anything else. -/
  | file (file : File)

/-- A name lies below another. -/
def Below (name under : List Part) : Prop := ∃ rest, rest ≠ [] ∧ under ++ rest = name

variable [DecidableEq Part]

/-- The directories that a name lies below. -/
def ancestors (name : List Part) : List (List Part) := name.inits.filter fun above => decide (above ≠ [] ∧ above ≠ name)

theorem mem_ancestors {name above : List Part} : above ∈ ancestors name ↔ above ≠ [] ∧ Below name above := by
  unfold ancestors
  rw [List.mem_filter, List.mem_inits, decide_eq_true_eq]
  constructor
  · rintro ⟨⟨rest, rfl⟩, hne, hproper⟩
    exact ⟨hne, rest, fun hrest => hproper (by rw [hrest, List.append_nil]), rfl⟩
  · rintro ⟨hne, rest, hrest, rfl⟩
    exact ⟨List.prefix_append above rest, hne, fun hsame => hrest (List.append_right_eq_self.mp hsame.symm)⟩

/-- The entries below a directory. -/
structure Tree (Part File : Type*) [DecidableEq Part] where
  /-- The entries by name. -/
  nodes : Dict (List Part) (Node File)
  /-- No entry has the directory's own name. -/
  rooted : nodes.get? [] = none
  /-- Every entry lies in a directory. -/
  closed : ∀ name part node, name ≠ [] → nodes.get? (name ++ [part]) = some node → nodes.get? name = some .directory

namespace Tree

/-- The entry of a name. -/
def get? (tree : Tree Part File) (name : List Part) : Option (Node File) := tree.nodes.get? name

/-- The names of the entries of a directory. -/
def children (tree : Tree Part File) (name : List Part) : List (List Part) :=
  tree.nodes.keys.filter fun key => decide (key ≠ [] ∧ key.dropLast = name)

variable {tree : Tree Part File} {name other rest : List Part} {node : Node File} {part : Part}

theorem mem_children : other ∈ tree.children name ↔ ∃ part, other = name ++ [part] ∧ (tree.get? other).isSome = true := by
  unfold children
  rw [List.mem_filter, decide_eq_true_eq, Dict.mem_keys_iff, Option.isSome_iff_exists]
  constructor
  · rintro ⟨hget, hne, hname⟩
    refine ⟨other.getLast hne, ?_, hget⟩
    rw [← hname, List.dropLast_append_getLast hne]
  · rintro ⟨part, rfl, hget⟩
    exact ⟨hget, List.append_ne_nil_of_right_ne_nil name (List.cons_ne_nil part []), List.dropLast_concat⟩

/-- An entry is removed if it holds no other. -/
def remove (tree : Tree Part File) (name : List Part) : Tree Part File :=
  if h : tree.children name = [] then
    { nodes := tree.nodes.erase name
      rooted := by
        rw [Dict.get?_erase]
        split_ifs
        · rfl
        · exact tree.rooted
      closed := by
        intro under part node hunder hget
        obtain ⟨-, hchild⟩ := Dict.get?_erase_eq_some.mp hget
        rw [Dict.get?_erase]
        by_cases hsame : under = name
        · subst hsame
          have hmem : under ++ [part] ∈ tree.children under := mem_children.mpr ⟨part, rfl, Option.isSome_iff_exists.mpr ⟨node, hchild⟩⟩
          rw [h] at hmem
          exact absurd hmem List.not_mem_nil
        · rw [if_neg hsame]
          exact tree.closed under part node hunder hchild }
  else tree

theorem get?_remove (h : tree.children name = []) : (tree.remove name).get? other = if other = name then none else tree.get? other := by
  unfold remove
  rw [dif_pos h]
  exact Dict.get?_erase

theorem get?_of_remove (h : (tree.remove name).get? other = some node) : tree.get? other = some node := by
  by_cases hchildren : tree.children name = []
  · rw [get?_remove hchildren] at h
    split_ifs at h
    exact h
  unfold remove at h
  rw [dif_neg hchildren] at h
  exact h

theorem ne_nil_of_get? (hget : tree.get? name = some node) : name ≠ [] := by
  rintro rfl
  exact absurd (hget.symm.trans tree.rooted) nofun

end Tree

/-- How opening the parent directories of a name ends. -/
inductive Descent where
  | opened
  | absent
  /-- One is no directory. -/
  | blocked
  deriving DecidableEq

namespace Tree

/-- The parent directories of a name below an open one are opened. -/
def descend (tree : Tree Part File) : List Part → List Part → Descent
  | _, [] => .opened
  | _, [_] => .opened
  | here, part :: rest =>
    match tree.get? (here ++ [part]) with
    | none => .absent
    | some .directory => descend tree (here ++ [part]) rest
    | some (.file _) => .blocked

variable {tree : Tree Part File} {here name rest : List Part} {node : Node File}

/-- The names of the entries that are no directories. -/
def files (tree : Tree Part File) : List (List Part × File) :=
  tree.nodes.items.filterMap fun item => match item.2 with
    | .directory => none
    | .file file => some (item.1, file)

/-- The names of the directories. -/
def directories (tree : Tree Part File) : List (List Part) :=
  tree.nodes.items.filterMap fun item => match item.2 with
    | .directory => some item.1
    | .file _ => none

/-- There are no entries. -/
def Empty (tree : Tree Part File) : Prop := ∀ name, tree.get? name = none

instance : Decidable tree.Empty := decidable_of_iff (tree.nodes.keys = []) (by
  rw [List.eq_nil_iff_forall_not_mem]
  exact forall_congr' fun name => Dict.get?_eq_none_iff.symm)

/-- The entries that are left are directories that are still to go. -/
def Remains (tree : Tree Part File) (todo : List (List Part)) : Prop := ∀ name, name ∈ todo ↔ (tree.get? name).isSome = true

/-- The deepest directory that is left holds no entry. -/
theorem Remains.children (h : Remains tree (name :: todo))
    (hsorted : (name :: todo).Pairwise fun a b => b.length ≤ a.length) : tree.children name = [] := by
  rw [List.eq_nil_iff_forall_not_mem]
  intro other hother
  obtain ⟨part, rfl, hchild⟩ := mem_children.mp hother
  rcases List.mem_cons.mp ((h _).mpr hchild) with hsame | hmem
  · have hlength := congrArg List.length hsame
    rw [List.length_append, List.length_singleton] at hlength
    omega
  have hlength := (List.pairwise_cons.mp hsorted).1 _ hmem
  rw [List.length_append, List.length_singleton] at hlength
  omega

theorem Remains.remove (h : Remains tree (name :: todo))
    (hsorted : (name :: todo).Pairwise fun a b => b.length ≤ a.length) (hnodup : (name :: todo).Nodup) : Remains (tree.remove name) todo := by
  intro other
  rw [get?_remove (h.children hsorted)]
  by_cases hsame : other = name
  · subst hsame
    rw [if_pos rfl]
    exact iff_of_false (List.nodup_cons.mp hnodup).1 Bool.false_ne_true
  · rw [if_neg hsame, ← h other, List.mem_cons, or_iff_right hsame]

end Tree

end SparkRing.RelativeTree
