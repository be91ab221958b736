import Mathlib.Logic.Relation

/-!
# Programs that may be cut after any operation

A program reads a state and changes it by operations, each of which takes place at once or
not at all. It may fail. A run that is cut leaves the state that some first operations leave,
so what a program guarantees is told by the steps of its operations: a triple says that every
operation of a run from a state takes a step of a relation, and what holds when the run ends
or fails.
-/

namespace SparkRing.CutProgram

universe u

variable {σ ε : Type*} {α β : Type u}

/-- What a run passes and how it ends. -/
structure Trace (σ ε α : Type*) where
  /-- The state after every operation. -/
  passed : List σ
  /-- The result or the failure. -/
  result : Except ε α

def Program (σ ε α : Type*) := σ → Trace σ ε α

/-- The state that a run leaves. -/
def Trace.last (trace : Trace σ ε α) (s : σ) : σ := trace.passed.getLastD s

namespace Program

/-- The program that changes nothing. -/
protected def pure (a : α) : Program σ ε α := fun _ => ⟨[], .ok a⟩

/-- One program after another that did not fail. -/
protected def bind (p : Program σ ε α) (f : α → Program σ ε β) : Program σ ε β := fun s =>
  match (p s).result with
  | .ok a => ⟨(p s).passed ++ (f a ((p s).last s)).passed, (f a ((p s).last s)).result⟩
  | .error e => ⟨(p s).passed, .error e⟩

instance : Monad (Program σ ε) where
  pure := Program.pure
  bind := Program.bind

/-- A state that a run leaves when it is cut or ends. -/
def Leaves (p : Program σ ε α) (s t : σ) : Prop := t ∈ s :: (p s).passed

end Program

/-- The program that fails with an error. -/
def raise (e : ε) : Program σ ε α := fun _ => ⟨[], .error e⟩

/-- The state is read. -/
def look : Program σ ε σ := fun s => ⟨[], .ok s⟩

/-- An operation. -/
def change (f : σ → σ) : Program σ ε Unit := fun s => ⟨[f s], .ok ()⟩

/-- The program fails unless a condition holds. -/
def require (c : Prop) [Decidable c] (e : ε) : Program σ ε Unit := if c then pure () else raise e

/-- A program that runs only if a condition holds. -/
def onlyIf (c : Prop) [Decidable c] (p : Program σ ε Unit) : Program σ ε Unit := if c then p else pure ()

/-- A result that was computed. -/
def ofExcept : Except ε α → Program σ ε α
  | .ok a => pure a
  | .error e => raise e

/-- Every operation takes a step. -/
def Steps (R : σ → σ → Prop) : σ → List σ → Prop
  | _, [] => True
  | s, t :: rest => R s t ∧ Steps R t rest

section Steps

variable {R S : σ → σ → Prop} {I : σ → Prop} {s t : σ} {passed rest : List σ}

theorem getLastD_append : (passed ++ rest).getLastD s = rest.getLastD (passed.getLastD s) := by
  induction passed generalizing s with
  | nil => rfl
  | cons t passed ih => rw [List.cons_append, List.getLastD_cons, List.getLastD_cons, ih]

theorem Steps.append (h : Steps R s passed) (hrest : Steps R (passed.getLastD s) rest) : Steps R s (passed ++ rest) := by
  induction passed generalizing s with
  | nil => exact hrest
  | cons t passed ih =>
    refine ⟨h.1, ih h.2 ?_⟩
    rw [List.getLastD_cons] at hrest
    exact hrest

theorem Steps.mono (h : Steps R s passed) (himp : ∀ s t, R s t → S s t) : Steps S s passed := by
  induction passed generalizing s with
  | nil => trivial
  | cons t passed ih => exact ⟨himp s t h.1, ih h.2⟩

/-- What steps keep holds after each of them. -/
theorem Steps.keep (h : Steps R s passed) (hkeep : ∀ s t, I s → R s t → I t) (hs : I s) : Steps (fun s t => R s t ∧ I t) s passed := by
  induction passed generalizing s with
  | nil => trivial
  | cons t passed ih => exact ⟨⟨h.1, hkeep s t hs h.1⟩, ih h.2 (hkeep s t hs h.1)⟩

/-- Steps are taken under what they leave. -/
theorem Steps.under (h : Steps (fun s t => I s → R s t) s passed) (hkeep : ∀ s t, R s t → I t) (hs : I s) : Steps R s passed := by
  induction passed generalizing s with
  | nil => trivial
  | cons t passed ih => exact ⟨h.1 hs, ih h.2 (hkeep s t (h.1 hs))⟩

/-- What steps keep holds in every state passed. -/
theorem Steps.invariant (h : Steps R s passed) (hkeep : ∀ s t, I s → R s t → I t) (hs : I s) : ∀ t ∈ s :: passed, I t := by
  induction passed generalizing s with
  | nil =>
    intro t ht
    rw [List.mem_singleton.mp ht]
    exact hs
  | cons next passed ih =>
    intro t ht
    rcases List.mem_cons.mp ht with rfl | ht
    · exact hs
    · exact ih h.2 (hkeep s next hs h.1) t ht

end Steps

/-- What holds when a run ends. -/
def Ends (Q : α → σ → Prop) (E : ε → σ → Prop) (s : σ) : Except ε α → Prop
  | .ok a => Q a s
  | .error e => E e s

/-- From every state of a precondition, every operation of a program takes a step, and a condition holds of the state that it
leaves: one with its result, another with its failure. -/
def Triple (R : σ → σ → Prop) (P : σ → Prop) (p : Program σ ε α) (Q : α → σ → Prop) (E : ε → σ → Prop) : Prop :=
  ∀ s, P s → Steps R s (p s).passed ∧ Ends Q E ((p s).last s) (p s).result

namespace Triple

variable {R : σ → σ → Prop} {P P' : σ → Prop} {p : Program σ ε α} {f : α → Program σ ε β} {Q Q' : α → σ → Prop} {E E' : ε → σ → Prop}
  {S : β → σ → Prop} {a : α} {e : ε} {c : Prop} [Decidable c]

theorem weaken (h : Triple R P p Q E) (hpre : ∀ s, P' s → P s) (hpost : ∀ a s, Q a s → Q' a s) (herror : ∀ e s, E e s → E' e s) :
    Triple R P' p Q' E' := by
  intro s hs
  obtain ⟨hsteps, hends⟩ := h s (hpre s hs)
  refine ⟨hsteps, ?_⟩
  cases hresult : (p s).result with
  | ok a =>
    rw [hresult] at hends
    exact hpost a _ hends
  | error e =>
    rw [hresult] at hends
    exact herror e _ hends

/-- The steps are of a weaker relation. -/
theorem steps {S : σ → σ → Prop} (h : Triple R P p Q E) (himp : ∀ s t, R s t → S s t) : Triple S P p Q E :=
  fun s hs => ⟨(h s hs).1.mono himp, (h s hs).2⟩

/-- What every step keeps holds at every step. -/
theorem keep {I : σ → Prop} (h : Triple R P p Q E) (hkeep : ∀ s t, I s → R s t → I t) (hpre : ∀ s, P s → I s) :
    Triple (fun s t => R s t ∧ I t) P p Q E :=
  fun s hs => ⟨(h s hs).1.keep hkeep (hpre s hs), (h s hs).2⟩

/-- Steps are taken under what they leave. -/
theorem under {I : σ → Prop} (h : Triple (fun s t => I s → R s t) P p Q E) (hkeep : ∀ s t, R s t → I t) (hpre : ∀ s, P s → I s) :
    Triple R P p Q E :=
  fun s hs => ⟨(h s hs).1.under hkeep (hpre s hs), (h s hs).2⟩

theorem pre (h : Triple R P p Q E) (hpre : ∀ s, P' s → P s) : Triple R P' p Q E := h.weaken hpre (fun _ _ h => h) fun _ _ h => h

theorem post (h : Triple R P p Q E) (hpost : ∀ a s, Q a s → Q' a s) : Triple R P p Q' E := h.weaken (fun _ h => h) hpost fun _ _ h => h

theorem error (h : Triple R P p Q E) (herror : ∀ e s, E e s → E' e s) : Triple R P p Q E' :=
  h.weaken (fun _ h => h) (fun _ _ h => h) herror

theorem pure (h : ∀ s, P s → Q a s) : Triple R P (pure a : Program σ ε α) Q E := fun s hs => ⟨trivial, h s hs⟩

theorem raise (h : ∀ s, P s → E e s) : Triple R P (CutProgram.raise e : Program σ ε α) Q E := fun s hs => ⟨trivial, h s hs⟩

theorem look : Triple R P (CutProgram.look : Program σ ε σ) (fun a s => P s ∧ s = a) E := fun _ hs => ⟨trivial, hs, rfl⟩

theorem change {g : σ → σ} {Q : Unit → σ → Prop} (h : ∀ s, P s → R s (g s) ∧ Q () (g s)) : Triple R P (CutProgram.change g : Program σ ε Unit) Q E :=
  fun s hs => ⟨⟨(h s hs).1, trivial⟩, (h s hs).2⟩

theorem bind (h : Triple R P p Q E) (hnext : ∀ a, Triple R (Q a) (f a) S E) : Triple R P (p >>= f) S E := by
  intro s hs
  obtain ⟨hsteps, hends⟩ := h s hs
  change Steps R s (p.bind f s).passed ∧ Ends S E ((p.bind f s).last s) (p.bind f s).result
  unfold Program.bind
  cases hresult : (p s).result with
  | error =>
    rw [hresult] at hends
    exact ⟨hsteps, hends⟩
  | ok a =>
    rw [hresult] at hends
    obtain ⟨hsteps', hends'⟩ := hnext a _ hends
    refine ⟨hsteps.append hsteps', ?_⟩
    have hlast : ((p s).passed ++ (f a ((p s).last s)).passed).getLastD s = (f a ((p s).last s)).last ((p s).last s) :=
      getLastD_append
    change Ends S E (((p s).passed ++ (f a ((p s).last s)).passed).getLastD s) _
    rw [hlast]
    exact hends'

theorem require (herror : ∀ s, P s → ¬c → E e s) : Triple R P (CutProgram.require c e : Program σ ε Unit) (fun _ s => P s ∧ c) E := by
  intro s hs
  unfold CutProgram.require
  split
  case isTrue hc => exact ⟨trivial, hs, hc⟩
  case isFalse hc => exact ⟨trivial, herror s hs hc⟩

theorem onlyIf {p : Program σ ε Unit} {Q : Unit → σ → Prop} (h : c → Triple R P p Q E) (hskip : ∀ s, P s → ¬c → Q () s) :
    Triple R P (CutProgram.onlyIf c p : Program σ ε Unit) Q E := by
  intro s hs
  unfold CutProgram.onlyIf
  split
  case isTrue hc => exact h hc s hs
  case isFalse hc => exact ⟨trivial, hskip s hs hc⟩

theorem ofExcept {r : Except ε α} (herror : ∀ e s, P s → r = .error e → E e s) :
    Triple R P (CutProgram.ofExcept r : Program σ ε α) (fun a s => P s ∧ r = .ok a) E := by
  intro s hs
  cases hr : r with
  | ok => exact ⟨trivial, hs, rfl⟩
  | error e => exact ⟨trivial, herror e s hs hr⟩

theorem assume {fact : Prop} (h : fact → Triple R P p Q E) : Triple R (fun s => P s ∧ fact) p Q E := fun s hs => h hs.2 s hs.1

/-- A loop keeps an invariant of what it has done, its result and the state. -/
theorem foldlM {γ : Type*} {g : β → γ → Program σ ε β} {I : List γ → β → σ → Prop} (all : List γ)
    (h : ∀ done c rest b, all = done ++ c :: rest → Triple R (I done b) (g b c) (I (done ++ [c])) E) (b : β) :
    Triple R (I [] b) (all.foldlM g b) (I all) E := by
  have hloop : ∀ todo done b, all = done ++ todo → Triple R (I done b) (todo.foldlM g b) (I all) E := by
    intro todo
    induction todo with
    | nil =>
      intro done b hall
      rw [List.append_nil] at hall
      exact Triple.pure fun s hs => hall ▸ hs
    | cons c todo ih =>
      intro done b hall
      exact (h done c todo b hall).bind fun b' => ih (done ++ [c]) b' (by rw [hall, List.append_cons])
  exact hloop all [] b rfl

end Triple

/-- Runs one after another, each of which is cut at some point or ends. -/
def Repeated {ι : Type*} (runs : ι → Program σ ε α) : σ → σ → Prop := Relation.ReflTransGen fun s t => ∃ i, (runs i).Leaves s t

/-- What every run of every program keeps at each of its steps holds however often they are cut and repeated. -/
theorem Repeated.invariant {ι : Type*} {runs : ι → Program σ ε α} {I : σ → Prop} {s t : σ} (h : Repeated runs s t)
    (hruns : ∀ i s, I s → Steps (fun _ t => I t) s (runs i s).passed) (hs : I s) : I t := by
  induction h with
  | refl => exact hs
  | tail _ hleaves ih =>
    obtain ⟨i, hleaves⟩ := hleaves
    exact (hruns i _ ih).invariant (fun _ _ _ h => h) ih _ hleaves

end SparkRing.CutProgram
