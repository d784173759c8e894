import Mathlib
import IcilOrchestrator.Program

/-!
# Programs that keep an invariant

Others change the state, but for a part of it (`Frame.core`), and keep an invariant. A program
that keeps the invariant act by act is described by what it needs of that part, and what it
leaves of it with a result or an exception (`Frame.Goes`). The rules are one for each way to build
a program, and `Frame.inv_of_reach` is that of runs.
-/

namespace Python

namespace Prog

variable {σ τ ε α β κ : Type}

/-- An invariant, and a part of the state that others leave as it is. -/
structure Frame (σ τ κ : Type) where
  env : Env σ τ
  core : σ → κ
  inv : σ → Prop
  core_eq : ∀ {s s'}, env.rely s s' → core s' = core s
  inv_rely : ∀ {s s'}, env.rely s s' → inv s → inv s'

namespace Frame

variable (Φ : Frame σ τ κ)

/-- What is said of a result or of an exception. -/
def Either (A : α → κ → Prop) (B : ε → κ → Prop) : Except ε α → κ → Prop
  | .ok a => A a
  | .error e => B e

/-- What a program ends in. -/
def Ends (A : α → κ → Prop) (B : ε → κ → Prop) (r : Except ε α) (s : σ) : Prop :=
  Φ.inv s ∧ Either A B r (Φ.core s)

/-- From `P` a program keeps the invariant, and returns in `A` or raises in `B`. -/
def Goes (P : κ → Prop) (A : α → κ → Prop) (B : ε → κ → Prop) (p : Prog σ τ ε α) : Prop :=
  ∀ s, Φ.inv s → P (Φ.core s) → Wp Φ.env (fun _ _ s' => Φ.inv s') (Φ.Ends A B) p s

/-- It may raise in whatever keeps the invariant. -/
abbrev Runs (P : κ → Prop) (A : α → κ → Prop) (p : Prog σ τ ε α) : Prop :=
  Φ.Goes P A (fun _ _ => True) p

variable {Φ} {P P' : κ → Prop} {A A' : α → κ → Prop} {B B' : ε → κ → Prop} {C : β → κ → Prop}
  {p q : Prog σ τ ε α}

/-- What holds of a state outlasts what others do. -/
theorem rely_core {R : κ → Prop} {s s' : σ} (hs : Φ.inv s ∧ R (Φ.core s)) (hr : Φ.env.rely s s') :
    Φ.inv s' ∧ R (Φ.core s') :=
  ⟨Φ.inv_rely hr hs.1, by rw [Φ.core_eq hr]; exact hs.2⟩

theorem goes_ret {a : α} (h : ∀ k, P k → A a k) : Φ.Goes P A B (.ret (.ok a)) :=
  fun _ hinv hp => Wp.done (P := fun s => Φ.inv s ∧ P (Φ.core s)) ⟨hinv, hp⟩
    (fun _ _ => rely_core) fun _ hs => ⟨hs.1, h _ hs.2⟩

theorem goes_raise {e : ε} (h : ∀ k, P k → B e k) : Φ.Goes P A B (raise e : Prog σ τ ε α) :=
  fun _ hinv hp => Wp.done (P := fun s => Φ.inv s ∧ P (Φ.core s)) ⟨hinv, hp⟩
    (fun _ _ => rely_core) fun _ hs => ⟨hs.1, h _ hs.2⟩

theorem runs_raise (e : ε) : Φ.Runs P A (raise e : Prog σ τ ε α) := goes_raise fun _ _ => trivial

theorem Goes.bind {f : α → Prog σ τ ε β} (hp : Φ.Goes P A B p) (hf : ∀ a, Φ.Goes (A a) C B (f a)) :
    Φ.Goes P C B (p >>= f) := by
  refine fun s hinv hP => wp_bind.2 ((hp s hinv hP).mono fun r s' hr => ?_)
  cases r with
  | ok a => exact hf a s' hr.1 hr.2
  | error e => exact hr

theorem Goes.weaken (h : Φ.Goes P A B p) (hP : ∀ k, P' k → P k) (hA : ∀ a k, A a k → A' a k)
    (hB : ∀ e k, B e k → B' e k) : Φ.Goes P' A' B' p := by
  refine fun s hinv hp => (h s hinv (hP _ hp)).mono fun r s' hr => ?_
  cases r with
  | ok a => exact ⟨hr.1, hA a _ hr.2⟩
  | error e => exact ⟨hr.1, hB e _ hr.2⟩

/-- From more. -/
theorem Goes.from (h : Φ.Goes P A B p) (hP : ∀ k, P' k → P k) : Φ.Goes P' A B p :=
  h.weaken hP (fun _ _ h => h) fun _ _ h => h

/-- To less. -/
theorem Goes.to (h : Φ.Goes P A B p) (hA : ∀ a k, A a k → A' a k) : Φ.Goes P A' B p :=
  h.weaken (fun _ h => h) hA fun _ _ h => h

/-- What does not depend on the state is known. -/
theorem Goes.assume {φ : Prop} (h : φ → Φ.Goes P A B p) : Φ.Goes (fun k => φ ∧ P k) A B p :=
  fun s hinv hp => h hp.1 s hinv hp.2

/-- What is there is named. -/
theorem Goes.exist {ι : Sort*} {Q : ι → κ → Prop} (h : ∀ i, Φ.Goes (Q i) A B p) :
    Φ.Goes (fun k => ∃ i, Q i k) A B p :=
  fun s hinv hp => hp.elim fun i hi => h i s hinv hi

/-- What the invariant says of the core is known. -/
theorem Goes.known {φ : Prop} (hφ : ∀ s, Φ.inv s → P (Φ.core s) → φ) (h : φ → Φ.Goes P A B p) :
    Φ.Goes P A B p :=
  fun s hinv hp => h (hφ s hinv hp) s hinv hp

theorem Goes.ite {b : Prop} [Decidable b] (hp : b → Φ.Goes P A B p) (hq : ¬b → Φ.Goes P A B q) :
    Φ.Goes P A B (if b then p else q) := by
  split_ifs with hb
  · exact hp hb
  · exact hq hb

/-- An exception is handled. -/
theorem Goes.catch {h : ε → Prog σ τ ε α} (hp : Φ.Goes P A B p)
    (hh : ∀ e, Φ.Goes (B e) A B' (h e)) : Φ.Goes P A B' (p.catch' h) := by
  refine fun s hinv hP => wp_catch.2 ((hp s hinv hP).mono fun r s' hr => ?_)
  cases r with
  | ok a => exact hr
  | error e => exact hh e s' hr.1 hr.2

/-- One act. -/
theorem goes_act {t : τ} {f : σ → σ} {k : σ → Prog σ τ ε α} {R : σ → κ → Prop}
    (hact : ∀ s, Φ.inv s → P (Φ.core s) → Φ.env.meets t s → Φ.inv (f s) ∧ R s (Φ.core (f s)))
    (hk : ∀ s, Φ.Goes (R s) A B (k s)) : Φ.Goes P A B (.act t f k) := by
  intro s hinv hp
  refine Wp.step (P := fun s => Φ.inv s ∧ P (Φ.core s)) ⟨hinv, hp⟩ (fun _ _ => rely_core)
    fun s hs ht => ?_
  obtain ⟨hinv', hR⟩ := hact s hs.1 hs.2 ht
  exact ⟨hinv', hk s _ hinv' hR⟩

/-- One act, which is done or raises and does nothing. -/
theorem goes_fallible {bad : σ → Option ε} {t : τ} {f : σ → σ} {g : σ → α}
    (hact : ∀ s, Φ.inv s → P (Φ.core s) → Φ.env.meets t s →
      Φ.inv (f s) ∧ A (g s) (Φ.core (f s)))
    (hbad : ∀ s e, Φ.inv s → P (Φ.core s) → Φ.env.meets t s → bad s = some e →
      B e (Φ.core s)) :
    Φ.Goes P A B (fallible bad (.act t f fun s => .ret (.ok (g s)))) := by
  intro s hinv hp
  refine Wp.step (P := fun s => Φ.inv s ∧ P (Φ.core s)) ⟨hinv, hp⟩ (fun _ _ => rely_core)
    fun s hs ht => ?_
  cases hf : bad s with
  | none =>
    obtain ⟨hinv', hA⟩ := hact s hs.1 hs.2 ht
    simpa [hf] using ⟨hinv', goes_ret (P := A (g s)) (fun _ hk => hk) _ hinv' hA⟩
  | some e =>
    simp only [Option.isSome_some, if_true]
    exact ⟨hs.1, goes_raise (P := B e) (fun _ hk => hk) s hs.1 (hbad s e hs.1 hs.2 ht hf)⟩

/-- What every command keeps, and leaves for the next, every run keeps, and a command that runs
keeps what is left of its promise. -/
theorem keeps_of_reach {γ : Type} {S : System σ τ ε α γ} {J : κ → Prop} {A : γ → α → κ → Prop}
    {B : γ → ε → κ → Prop}
    (hprog : ∀ g s, S.starts g s → Φ.inv s → J (Φ.core s) →
      Wp Φ.env (fun _ _ s' => Φ.inv s') (Φ.Ends (A g) (B g)) (S.prog g) s)
    (hA : ∀ g a k, A g a k → J k) (hB : ∀ g e k, B g e k → J k)
    (hkill : ∀ s, Φ.inv s → S.mayDie s → Φ.inv (S.reset s) ∧ J (Φ.core (S.reset s))) {s : σ}
    (hs : Φ.inv s) (hJ : J (Φ.core s)) {c : System.Conf σ τ ε α γ} (h : S.Reach Φ.env s c) :
    Φ.inv c.state ∧ (c.running = none → J (Φ.core c.state)) ∧
      ∀ g p, c.running = some (g, p) →
        Wp Φ.env (fun _ _ s' => Φ.inv s') (Φ.Ends (A g) (B g)) p c.state := by
  induction h with
  | refl => exact ⟨hs, fun _ => hJ, by simp⟩
  | tail _ hstep ih =>
    obtain ⟨hinv, hidle, hwp⟩ := ih
    cases hstep with
    | start hg =>
      refine ⟨hinv, by simp, ?_⟩
      rintro g p hp
      obtain ⟨rfl, rfl⟩ := Prod.mk.inj (Option.some.inj hp)
      exact hprog _ _ hg hinv (hidle rfl)
    | act ht =>
      obtain ⟨hinv', hk⟩ := (hwp _ _ rfl).act ht
      refine ⟨hinv', by simp, ?_⟩
      rintro g p hp
      obtain ⟨rfl, rfl⟩ := Prod.mk.inj (Option.some.inj hp)
      exact hk
    | @finish s g r =>
      refine ⟨hinv, fun _ => ?_, by simp⟩
      have hend := (hwp _ _ rfl).ended
      cases r with
      | ok a => exact hA _ _ _ hend.2
      | error e => exact hB _ _ _ hend.2
    | kill hd =>
      obtain ⟨hinv', hJ'⟩ := hkill _ hinv hd
      exact ⟨hinv', fun _ => hJ', by simp⟩
    | others hr =>
      refine ⟨Φ.inv_rely hr hinv, fun hnone => ?_, fun g p hp => (hwp g p hp).rely hr⟩
      rw [Φ.core_eq hr]
      exact hidle hnone

/-- What every command keeps, and leaves for the next, every run keeps. -/
theorem inv_of_reach {γ : Type} {S : System σ τ ε α γ} {J : κ → Prop}
    (hprog : ∀ g s, S.starts g s → Φ.Goes J (fun _ => J) (fun _ => J) (S.prog g))
    (hkill : ∀ s, Φ.inv s → S.mayDie s → Φ.inv (S.reset s) ∧ J (Φ.core (S.reset s))) {s : σ}
    (hs : Φ.inv s) (hJ : J (Φ.core s)) {c : System.Conf σ τ ε α γ} (h : S.Reach Φ.env s c) :
    Φ.inv c.state :=
  (keeps_of_reach (fun g s hg => hprog g s hg s) (fun _ _ _ h => h) (fun _ _ _ h => h) hkill hs hJ
    h).1

end Frame

/-! ## Runs that are evaluated -/

/-- Whether so many acts of a program, alone, are each done as is asked. -/
def checked (ok : τ → σ → Bool) : ℕ → Prog σ τ ε α → σ → Bool
  | n + 1, .act t f k, s => ok t s && checked ok n (k s) (f s)
  | _, _, _ => true

theorem reach_checked {γ : Type} {S : System σ τ ε α γ} {E : Env σ τ} {ok : τ → σ → Bool}
    (hok : ∀ t s, ok t s = true → E.meets t s) (n : ℕ) {p : Prog σ τ ε α} {s₀ s : σ} {g : γ}
    (hp : checked ok n p s = true) (hreach : S.Reach E s₀ ⟨s, some (g, p)⟩) :
    S.Reach E s₀ ⟨(p.after n s).2, some (g, (p.after n s).1)⟩ := by
  induction n generalizing p s with
  | zero => exact hreach
  | succ n ih =>
    cases p with
    | ret r => exact hreach
    | act t f k =>
      obtain ⟨ht, hp⟩ := Bool.and_eq_true_iff.1 hp
      exact ih hp (hreach.tail (.act (hok t s ht)))

end Prog

end Python
