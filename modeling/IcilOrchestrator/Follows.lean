import Mathlib
import IcilOrchestrator.Program

/-!
# Programs that follow others

A program on a larger state follows one on a part of it when it does the acts of the latter, and
between these some that change nothing (`Follows`). Then it keeps what the latter keeps, also when
any of its acts may raise (`Wp.follows_fallible`).
-/

namespace Python

namespace Prog

variable {σ σ' τ τ' ε α β γ : Type}

theorem bind_assoc (p : Prog σ τ ε α) (f : α → Prog σ τ ε β) (g : β → Prog σ τ ε γ) :
    (p.bind f).bind g = p.bind fun a => (f a).bind g := by
  induction p with
  | ret r => cases r <;> rfl
  | act t h k ih => exact congrArg (Prog.act t h) (funext ih)

/-- `q` does what `p` does on its part of the state, and between its acts some that change
nothing, as long as each act of `q` meets its condition. -/
inductive Follows (L : Lens σ' σ) (meets : τ' → σ' → Prop) :
    Prog σ τ ε α → Prog σ' τ' ε α → Prop
  | ret (r : Except ε α) : Follows L meets (.ret r) (.ret r)
  | act {t : τ} {t' : τ'} {f : σ → σ} {k : σ → Prog σ τ ε α} {k' : σ' → Prog σ' τ' ε α}
    (h : ∀ w, Follows L meets (k (L.get w)) (k' w)) :
    Follows L meets (.act t f k) (.act t' (fun w => L.put (f (L.get w)) w) k')
  | idle {p : Prog σ τ ε α} {t' : τ'} {k' : σ' → Prog σ' τ' ε α}
    (h : ∀ w, meets t' w → Follows L meets p (k' w)) : Follows L meets p (.act t' id k')

variable {L : Lens σ' σ} {meets : τ' → σ' → Prop}

/-- A program follows itself. -/
theorem Follows.lift (p : Prog σ τ ε α) (tag : τ → τ') : Follows L meets p (p.lift L tag) := by
  induction p with
  | ret r => exact .ret r
  | act t f k ih => exact .act fun w => ih (L.get w)

theorem Follows.bind {p : Prog σ τ ε α} {q : Prog σ' τ' ε α} (h : Follows L meets p q)
    {f : α → Prog σ τ ε β} {g : α → Prog σ' τ' ε β} (hf : ∀ a, Follows L meets (f a) (g a)) :
    Follows L meets (p.bind f) (q.bind g) := by
  induction h with
  | ret r =>
    cases r with
    | ok a => exact hf a
    | error e => exact .ret _
  | act _ ih => exact .act ih
  | idle _ ih => exact .idle ih

/-- What a program keeps, one that follows it keeps, and any of its acts may raise. -/
theorem Wp.follows_fallible {E : Env σ' τ'} (hrely : ∀ w w', E.rely w w' → L.get w' = L.get w)
    {R : σ → Prop} {Q : Except ε α → σ → Prop} (herr : ∀ e s, R s → Q (.error e) s)
    (bad : σ' → Option ε) {p : Prog σ τ ε α} {q : Prog σ' τ' ε α} (h : Follows L E.meets p q)
    {w : σ'} (hw : R (L.get w))
    (hp : Wp (.alone fun _ _ => True) (fun _ _ s => R s) Q p (L.get w)) :
    Wp E (fun _ _ w' => R (L.get w')) (fun r w' => Q r (L.get w')) (q.fallible bad) w := by
  have hstay : ∀ s (u v : σ'), L.get u = s → E.rely u v → L.get v = s :=
    fun s u v hu hv => (hrely u v hv).trans hu
  have hraise : ∀ (e : ε) (u : σ'), R (L.get u) →
      Wp E (fun _ _ w' => R (L.get w')) (fun r w' => Q r (L.get w'))
        (.ret (.error e) : Prog σ' τ' ε α) u := fun e u hu =>
    Wp.done (P := fun v => L.get v = L.get u) rfl (hstay _) fun v hv => herr e _ (hv ▸ hu)
  induction h generalizing w with
  | ret r =>
    exact Wp.done (P := fun u => L.get u = L.get w) rfl (hstay _) fun u hu => hu ▸ hp.ended
  | @act t t' f k k' _ ih =>
    refine Wp.step (P := fun u => L.get u = L.get w) rfl (hstay _) fun u hu _ => ?_
    obtain ⟨hact, hk⟩ := wp_act.1 hp trivial
    cases bad u with
    | some e =>
      simp only [Option.isSome_some, if_true]
      exact ⟨hu ▸ hw, hraise e u (hu ▸ hw)⟩
    | none =>
      simp only [Option.isSome_none, Bool.false_eq_true, if_false]
      have hget : L.get (L.put (f (L.get u)) u) = f (L.get w) := by rw [L.get_put, hu]
      exact ⟨hget ▸ hact, ih u (hget ▸ hact) (by rw [hget, hu]; exact hk)⟩
  | @idle p t' k' _ ih =>
    refine Wp.step (P := fun u => L.get u = L.get w) rfl (hstay _) fun u hu hmeets => ?_
    cases bad u with
    | some e =>
      simp only [Option.isSome_some, if_true]
      exact ⟨hu ▸ hw, hraise e u (hu ▸ hw)⟩
    | none =>
      simp only [Option.isSome_none, Bool.false_eq_true, if_false, id]
      exact ⟨hu ▸ hw, ih u hmeets (hu ▸ hw) (hu ▸ hp)⟩

/-- Whether each act of a program meets a condition, with nobody else at the state. -/
def meetsAll (m : τ → σ → Bool) : Prog σ τ ε α → σ → Bool
  | .ret _, _ => true
  | .act t f k, s => m t s && meetsAll m (k s) (f s)

end Prog

/-- A command may run to its end when each of its acts meets its condition. -/
theorem System.Reach.exec_of_meets {σ τ ε α γ : Type} {S : System σ τ ε α γ} {E : Prog.Env σ τ}
    {m : τ → σ → Bool} (hm : ∀ t s, m t s = true → E.meets t s) {s₀ s : σ} {c : γ}
    {p : Prog σ τ ε α} (hp : p.meetsAll m s = true) (h : S.Reach E s₀ ⟨s, some (c, p)⟩) :
    S.Reach E s₀ ⟨(p.exec s).2, some (c, .ret (p.exec s).1)⟩ := by
  induction p generalizing s with
  | ret r => exact h
  | act t f k ih =>
    obtain ⟨hmeets, hrest⟩ := Bool.and_eq_true_iff.1 hp
    exact ih s hrest (h.tail (.act (hm t s hmeets)))

end Python
