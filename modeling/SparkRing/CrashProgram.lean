import Mathlib.Logic.Basic

/-!
# Programs that may raise and crash

A program takes its steps on a durable state. Every effect asks its environment for
an answer; the answers come from a list, and the program crashes at the first effect
that finds the list empty. A triple says what holds when a program returns, when it
raises, and wherever it crashes, so that one proof speaks of every interruption.
-/

namespace SparkRing.CrashProgram

/-- How a program ends. -/
inductive Ending (ε α : Type)
  /-- It returns. -/
  | done (a : α)
  | raised (e : ε)
  | crashed

/-- A program over a state `σ` that reads answers `ι`, raises `ε` and returns `α`. -/
def Program (σ ι ε α : Type) := σ → List ι → Ending ε α × σ × List ι

variable {σ ι ε α β : Type}

/-- Return a value. -/
def Program.ret (a : α) : Program σ ι ε α := fun s script => (.done a, s, script)

/-- One program after another. -/
def Program.seq (p : Program σ ι ε α) (k : α → Program σ ι ε β) : Program σ ι ε β := fun s script =>
  match p s script with
  | (.done a, t, rest) => k a t rest
  | (.raised e, t, rest) => (.raised e, t, rest)
  | (.crashed, t, rest) => (.crashed, t, rest)

instance : Monad (Program σ ι ε) where
  pure := Program.ret
  bind := Program.seq

def raise (e : ε) : Program σ ι ε α := fun s script => (.raised e, s, script)

/-- Run a program and answer what it raises. -/
def handle (p : Program σ ι ε α) (h : ε → Program σ ι ε α) : Program σ ι ε α := fun s script =>
  match p s script with
  | (.raised e, t, rest) => h e t rest
  | other => other

/-- Look at the state. -/
def look (f : σ → α) : Program σ ι ε α := fun s script => (.done (f s), s, script)

/-- Change what a crash loses. -/
def note (f : σ → σ) : Program σ ι ε Unit := fun s script => (.done (), f s, script)

/-- One effect, by the environment's answer. -/
def effect (f : ι → σ → Ending ε α × σ) : Program σ ι ε α := fun s script =>
  match script with
  | [] => (.crashed, s, [])
  | i :: rest => ((f i s).1, (f i s).2, rest)

/-- A program for every element of a list, in order. -/
def forEach (f : β → Program σ ι ε Unit) : List β → Program σ ι ε Unit
  | [] => pure ()
  | x :: xs => do
    f x
    forEach f xs

/-- What an ending leaves: `crash` wherever the program crashed, `post` of what it
returned, `raises` of what it raised. -/
def Ending.Leaves (crash : σ → Prop) (post : α → σ → Prop) (raises : ε → σ → Prop) : Ending ε α → σ → Prop
  | .done a, t => post a t
  | .raised e, t => raises e t
  | .crashed, t => crash t

/-- From every state of `pre`, with any answers, a program leaves what is said. -/
def Triple (crash pre : σ → Prop) (p : Program σ ι ε α) (post : α → σ → Prop) (raises : ε → σ → Prop) : Prop :=
  ∀ s script, pre s → (p s script).1.Leaves crash post raises (p s script).2.1

namespace Triple

variable {crash pre pre' : σ → Prop} {post post' : α → σ → Prop} {raises raises' : ε → σ → Prop}
  {p : Program σ ι ε α}

theorem ret {a : α} (h : ∀ s, pre s → post a s) : Triple crash pre (pure a : Program σ ι ε α) post raises :=
  fun s _ hs => h s hs

theorem raise {e : ε} (h : ∀ s, pre s → raises e s) : Triple crash pre (CrashProgram.raise e : Program σ ι ε α) post raises :=
  fun s _ hs => h s hs

theorem look {f : σ → α} (h : ∀ s, pre s → post (f s) s) : Triple crash pre (CrashProgram.look f : Program σ ι ε α) post raises :=
  fun s _ hs => h s hs

theorem note {f : σ → σ} {post : Unit → σ → Prop} (h : ∀ s, pre s → post () (f s)) :
    Triple crash pre (CrashProgram.note f : Program σ ι ε Unit) post raises :=
  fun s _ hs => h s hs

theorem effect {f : ι → σ → Ending ε α × σ} (hcrash : ∀ s, pre s → crash s)
    (h : ∀ i s, pre s → (f i s).1.Leaves crash post raises (f i s).2) : Triple crash pre (CrashProgram.effect f) post raises := by
  intro s script hs
  cases script with
  | nil => exact hcrash s hs
  | cons i rest => exact h i s hs

theorem seq {k : α → Program σ ι ε β} {m : α → σ → Prop} {post : β → σ → Prop}
    (hp : Triple crash pre p m raises) (hk : ∀ a, Triple crash (m a) (k a) post raises) : Triple crash pre (p >>= k) post raises := by
  intro s script hs
  have hstart := hp s script hs
  change (Program.seq p k s script).1.Leaves crash post raises (Program.seq p k s script).2.1
  unfold Program.seq
  split
  case h_1 a t rest heq =>
    rw [heq] at hstart
    exact hk a t rest hstart
  case h_2 e t rest heq =>
    rw [heq] at hstart
    exact hstart
  case h_3 t rest heq =>
    rw [heq] at hstart
    exact hstart

theorem handle {h : ε → Program σ ι ε α} {m : ε → σ → Prop} (hp : Triple crash pre p post m)
    (hh : ∀ e, Triple crash (m e) (h e) post raises) : Triple crash pre (CrashProgram.handle p h) post raises := by
  intro s script hs
  have hstart := hp s script hs
  unfold CrashProgram.handle
  split
  case h_1 e t rest heq =>
    rw [heq] at hstart
    exact hh e t rest hstart
  case h_2 other hne =>
    cases hending : (p s script).1 with
    | done =>
      rw [hending] at hstart
      exact hstart
    | raised e => exact (hne e _ _ (Prod.ext hending rfl)).elim
    | crashed =>
      rw [hending] at hstart
      exact hstart

theorem weaken (hp : Triple crash pre p post raises) (hpre : ∀ s, pre' s → pre s) (hpost : ∀ a s, post a s → post' a s)
    (hraises : ∀ e s, raises e s → raises' e s) : Triple crash pre' p post' raises' := by
  intro s script hs
  have hstart := hp s script (hpre s hs)
  cases hending : (p s script).1 with
  | done a =>
    rw [hending] at hstart
    exact hpost a _ hstart
  | raised e =>
    rw [hending] at hstart
    exact hraises e _ hstart
  | crashed =>
    rw [hending] at hstart
    exact hstart

/-- A stronger precondition. -/
theorem strengthen (hp : Triple crash pre p post raises) (hpre : ∀ s, pre' s → pre s) : Triple crash pre' p post raises :=
  hp.weaken hpre (fun _ _ h => h) fun _ _ h => h

/-- A fact that does not depend on the state. -/
theorem assume {fact : Prop} (hp : fact → Triple crash pre p post raises) :
    Triple crash (fun s => fact ∧ pre s) p post raises :=
  fun s script hs => hp hs.1 s script hs.2

/-- A loop over a list keeps an invariant of what is left of it. -/
theorem forEach {f : β → Program σ ι ε Unit} (inv : List β → σ → Prop) {xs : List β}
    (h : ∀ x ∈ xs, ∀ rest, Triple crash (inv (x :: rest)) (f x) (fun _ => inv rest) raises) :
    Triple crash (inv xs) (CrashProgram.forEach f xs) (fun _ => inv []) raises := by
  induction xs with
  | nil => exact ret fun _ hs => hs
  | cons x rest ih =>
    have hfirst := h x List.mem_cons_self rest
    exact hfirst.seq fun _ => ih fun y hy => h y (List.mem_cons_of_mem x hy)

end Triple

end SparkRing.CrashProgram
