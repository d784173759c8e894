import Mathlib
import IcilOrchestrator.Program

/-!
# Threads

Any number of threads run programs on one state, one act at a time (`Pool`). An act waits
until its condition is met, as for a lock that is free; threads may be killed, any of them
at once, between two acts; and the world around them may change the state (`Pool.others`).

`Share` says of each thread what it relies on, and `Pool.Reach.inv` is the rule of threads :
when every program does what its guarantee allows, relying on what is shared, and whatever
one thread may do is what every other relies on, the invariant holds in every state reached,
of each thread that runs what is left of its promise, and of the others that they are idle.
-/

namespace Python

open Prog

/-- Programs that threads run, by the thread and the command given to it. -/
structure Pool (σ τ ε α γ : Type) where
  prog : ℕ → γ → Prog σ τ ε α
  /-- When a command may be given to a thread. -/
  starts : ℕ → γ → σ → Prop
  /-- When an act need not wait. -/
  meets : τ → σ → Prop
  /-- The state once threads have been killed. -/
  reset : List ℕ → σ → σ
  /-- What the world around makes of a state. -/
  others : σ → σ → Prop

namespace Pool

variable {σ τ ε α γ : Type}

/-- The state, and what is left of the command of each thread that has one. -/
structure Conf (σ τ ε α γ : Type) where
  state : σ
  threads : ℕ → Option (γ × Prog σ τ ε α)

/-- No thread has a command. -/
def Conf.idle (s : σ) : Conf σ τ ε α γ := ⟨s, fun _ => none⟩

/-- One step of a run. -/
inductive Step (P : Pool σ τ ε α γ) : Conf σ τ ε α γ → Conf σ τ ε α γ → Prop
  | start {s T i c} : T i = none → P.starts i c s →
      Step P ⟨s, T⟩ ⟨s, Function.update T i (some (c, P.prog i c))⟩
  | act {s T i c t f k} : T i = some (c, .act t f k) → P.meets t s →
      Step P ⟨s, T⟩ ⟨f s, Function.update T i (some (c, k s))⟩
  | finish {s T i c r} : T i = some (c, .ret r) → Step P ⟨s, T⟩ ⟨s, Function.update T i none⟩
  | kill {s T} (dead : List ℕ) :
      Step P ⟨s, T⟩ ⟨P.reset dead s, fun i => if i ∈ dead then none else T i⟩
  | others {s s' T} : P.others s s' → Step P ⟨s, T⟩ ⟨s', T⟩

/-- The configurations that runs from a state reach. -/
def Reach (P : Pool σ τ ε α γ) (s : σ) (c : Conf σ τ ε α γ) : Prop :=
  Relation.ReflTransGen (Step P) (.idle s) c

/-- No act of a program has to wait, with nobody else at the state. -/
def Clear (P : Pool σ τ ε α γ) : Prog σ τ ε α → σ → Prop
  | .ret _, _ => True
  | .act t f k, s => P.meets t s ∧ P.Clear (k s) (f s)

instance decidableClear (P : Pool σ τ ε α γ) [∀ t s, Decidable (P.meets t s)] :
    (p : Prog σ τ ε α) → (s : σ) → Decidable (P.Clear p s)
  | .ret _, _ => inferInstanceAs (Decidable True)
  | .act t f k, s =>
    have := P.decidableClear (k s) (f s)
    inferInstanceAs (Decidable (P.meets t s ∧ P.Clear (k s) (f s)))

/-- A thread may run its command to the end. -/
theorem Reach.exec {P : Pool σ τ ε α γ} {s₀ s : σ} {T : ℕ → Option (γ × Prog σ τ ε α)} {i : ℕ}
    {c : γ} {p : Prog σ τ ε α} (h : P.Reach s₀ ⟨s, T⟩) (hi : T i = some (c, p))
    (hp : P.Clear p s) :
    P.Reach s₀ ⟨(p.exec s).2, Function.update T i (some (c, .ret (p.exec s).1))⟩ := by
  induction p generalizing s T with
  | ret r =>
    rw [Prog.exec, Function.update_eq_self_iff.2 hi.symm]
    exact h
  | act t f k ih =>
    have hstep := ih s (h.tail (.act hi hp.1)) (Function.update_self ..) hp.2
    rwa [Function.update_idem] at hstep

/-- A command from its start to its end. -/
theorem Reach.command {P : Pool σ τ ε α γ} {s₀ s : σ} {T : ℕ → Option (γ × Prog σ τ ε α)}
    (h : P.Reach s₀ ⟨s, T⟩) (i : ℕ) (c : γ) (hi : T i = none) (hc : P.starts i c s)
    (hp : P.Clear (P.prog i c) s) : P.Reach s₀ ⟨((P.prog i c).exec s).2, T⟩ := by
  have hexec := Reach.exec (h.tail (.start hi hc)) (Function.update_self ..) hp
  have hend := Relation.ReflTransGen.tail hexec (.finish (Function.update_self ..))
  rwa [Function.update_idem, Function.update_idem, Function.update_eq_self_iff.2 hi.symm] at hend

/-! ## The rule of threads -/

/-- What each thread relies on. -/
structure Share (σ : Type) where
  rely : ℕ → σ → σ → Prop
  refl : ∀ i s, rely i s s
  trans : ∀ i {s t u}, rely i s t → rely i t u → rely i s u

/-- What a thread's program may rely on. -/
def Share.env (R : Share σ) (meets : τ → σ → Prop) (i : ℕ) : Env σ τ where
  rely := R.rely i
  refl := R.refl i
  trans := R.trans i
  meets := meets

variable {P : Pool σ τ ε α γ} {R : Share σ} {G : ℕ → τ → σ → σ → Prop} {I : σ → Prop}
  {Q : ℕ → γ → Except ε α → σ → Prop} {Z : ℕ → σ → Prop}

/-- What holds in every configuration of a run : `Z` of a thread without a command. -/
structure Keeps (P : Pool σ τ ε α γ) (R : Share σ) (G : ℕ → τ → σ → σ → Prop) (I : σ → Prop)
    (Q : ℕ → γ → Except ε α → σ → Prop) (Z : ℕ → σ → Prop) (c : Conf σ τ ε α γ) : Prop where
  inv : I c.state
  wp : ∀ i g p, c.threads i = some (g, p) → Wp (R.env P.meets i) (G i) (Q i g) p c.state
  idle : ∀ i, c.threads i = none → Z i c.state

/-- The premises of the rule : programs keep their guarantee, and what a thread may do, a
kill or the world around keeps the invariant and is what the others rely on. -/
structure Rule (P : Pool σ τ ε α γ) (R : Share σ) (G : ℕ → τ → σ → σ → Prop) (I : σ → Prop)
    (Q : ℕ → γ → Except ε α → σ → Prop) (Z : ℕ → σ → Prop) : Prop where
  prog : ∀ i g s, P.starts i g s → I s → Z i s →
    Wp (R.env P.meets i) (G i) (Q i g) (P.prog i g) s
  act : ∀ i t s s', I s → P.meets t s → G i t s s' → I s' ∧ ∀ j, j ≠ i → R.rely j s s'
  kill : ∀ dead s, I s → I (P.reset dead s) ∧ ∀ j, j ∉ dead → R.rely j s (P.reset dead s)
  others : ∀ s s', I s → P.others s s' → I s' ∧ ∀ j, R.rely j s s'
  idle : ∀ i s s', Z i s → R.rely i s s' → Z i s'
  ended : ∀ i g r s, Q i g r s → Z i s
  killed : ∀ dead i s, i ∈ dead → Z i (P.reset dead s)

/-- What one step keeps. -/
theorem Keeps.step (hrule : Rule P R G I Q Z) {c d : Conf σ τ ε α γ} (hc : Keeps P R G I Q Z c)
    (h : Step P c d) : Keeps P R G I Q Z d := by
  obtain ⟨hI, hw, hZ⟩ := hc
  cases h with
  | @start s T i g hi hs =>
    refine ⟨hI, fun j h p hp => ?_, fun j hj => ?_⟩
    · by_cases hj : j = i
      · subst hj
        obtain ⟨rfl, rfl⟩ : g = h ∧ P.prog j g = p := by simpa using hp
        exact hrule.prog j g s hs hI (hZ j hi)
      · exact hw j h p (by simpa [hj] using hp)
    · have hji : j ≠ i := by
        rintro rfl
        simp at hj
      exact hZ j (by simpa [hji] using hj)
  | @act s T i g t f k hi ht =>
    obtain ⟨ha, hk⟩ := (hw i g _ hi).act ht
    obtain ⟨hI', hrely⟩ := hrule.act i t s _ hI ht ha
    refine ⟨hI', fun j h p hp => ?_, fun j hj => ?_⟩
    · by_cases hj : j = i
      · subst hj
        obtain ⟨rfl, rfl⟩ : g = h ∧ k s = p := by simpa using hp
        exact hk
      · exact (hw j h p (by simpa [hj] using hp)).rely (hrely j hj)
    · have hji : j ≠ i := by
        rintro rfl
        simp at hj
      exact hrule.idle j s _ (hZ j (by simpa [hji] using hj)) (hrely j hji)
  | @finish s T i g r hi =>
    refine ⟨hI, fun j h p hp => ?_, fun j hj => ?_⟩
    · by_cases hj : j = i
      · subst hj
        simp at hp
      · exact hw j h p (by simpa [hj] using hp)
    · by_cases hji : j = i
      · subst hji
        exact hrule.ended j g r s (hw j g _ hi).ended
      · exact hZ j (by simpa [hji] using hj)
  | @kill s T dead =>
    obtain ⟨hI', hrely⟩ := hrule.kill dead s hI
    refine ⟨hI', fun j h p hp => ?_, fun j hj => ?_⟩
    · dsimp only at hp
      split_ifs at hp with hj
      exact (hw j h p hp).rely (hrely j hj)
    · by_cases hd : j ∈ dead
      · exact hrule.killed dead j s hd
      · exact hrule.idle j s _ (hZ j (by simpa [hd] using hj)) (hrely j hd)
  | @others s s' T ho =>
    obtain ⟨hI', hrely⟩ := hrule.others s s' hI ho
    exact ⟨hI', fun j h p hp => (hw j h p hp).rely (hrely j),
      fun j hj => hrule.idle j s s' (hZ j hj) (hrely j)⟩

/-- What every thread keeps act by act, every run keeps. -/
theorem Reach.inv (hrule : Rule P R G I Q Z) {s : σ} (hs : I s) (hidle : ∀ i, Z i s)
    {c : Conf σ τ ε α γ} (h : P.Reach s c) : Keeps P R G I Q Z c := by
  induction h with
  | refl => exact ⟨hs, by simp [Conf.idle], fun i _ => hidle i⟩
  | tail _ hstep ih => exact ih.step hrule hstep

end Pool

end Python
