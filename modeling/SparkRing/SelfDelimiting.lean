import Mathlib.Data.List.Basic

/-!
# Self-delimiting encodings

An encoding is self-delimiting when what follows an encoded value does not change how it is
read: a value and the rest are known from their concatenation. Encodings of one length, bytes
behind their length and counted lists are, so a concatenation of such parts is unambiguous.
-/

namespace SparkRing.Delimited

variable {α β : Type*} {P : α → Prop} {enc : α → List β} {as bs : List α} {x y : List β} {size : ℕ}

/-- A value that satisfies `P` and the rest are known from their concatenation. -/
def SelfDelimiting (P : α → Prop) (enc : α → List β) : Prop :=
  ∀ a b, P a → P b → ∀ x y, enc a ++ x = enc b ++ y → a = b ∧ x = y

/-- An injective encoding of one length is self-delimiting. -/
theorem of_length (hsize : ∀ a, P a → (enc a).length = size) (hinj : ∀ a b, P a → P b → enc a = enc b → a = b) : SelfDelimiting P enc := by
  intro a b ha hb x y h
  have hlength : (enc a).length = (enc b).length := (hsize a ha).trans (hsize b hb).symm
  obtain ⟨henc, hrest⟩ := List.append_inj h hlength
  exact ⟨hinj a b ha hb henc, hrest⟩

/-- Lists of one length of self-delimiting values are known from their concatenation. -/
theorem SelfDelimiting.flatMap (h : SelfDelimiting P enc) (hlength : as.length = bs.length) (has : ∀ a ∈ as, P a)
    (hbs : ∀ b ∈ bs, P b) (heq : as.flatMap enc ++ x = bs.flatMap enc ++ y) : as = bs ∧ x = y := by
  induction as generalizing bs with
  | nil =>
    cases bs with
    | nil => exact ⟨rfl, heq⟩
    | cons => cases hlength
  | cons a as ih =>
    cases bs with
    | nil => cases hlength
    | cons b bs =>
      rw [List.flatMap_cons, List.flatMap_cons, List.append_assoc, List.append_assoc] at heq
      obtain ⟨hfirst, hrest⟩ := h a b (has a List.mem_cons_self) (hbs b List.mem_cons_self) _ _ heq
      obtain ⟨hmore, hend⟩ := ih (Nat.succ.inj hlength) (fun a ha => has a (List.mem_cons_of_mem _ ha))
        (fun b hb => hbs b (List.mem_cons_of_mem _ hb)) hrest
      exact ⟨by rw [hfirst, hmore], hend⟩

end SparkRing.Delimited
