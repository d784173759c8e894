import Mathlib

/-!
# When a call returns

A partial function is an `Except`. `ReturnsIff x P Q` : the call returns exactly when
`P` holds, and what it returns then satisfies `Q`. The rules follow the program : a
value, an exception, a sequence (`ReturnsIff.bind`), and a change of the condition
(`ReturnsIff.iff`).

`bind_eq_ok` and `bind_eq_error` take a run apart that is known to have returned, or to
have raised.
-/

namespace Python

universe u

variable {ε : Type*} {α β : Type u}

@[simp] theorem ok_bind (a : α) (f : α → Except ε β) : Except.ok a >>= f = f a := rfl

@[simp] theorem error_bind (e : ε) (f : α → Except ε β) : Except.error e >>= f = .error e := rfl

theorem bind_eq_ok {x : Except ε α} {f : α → Except ε β} {b : β} :
    x >>= f = .ok b ↔ ∃ a, x = .ok a ∧ f a = .ok b := by
  cases x <;> simp [bind, Except.bind]

theorem bind_eq_error {x : Except ε α} {f : α → Except ε β} :
    (∃ e, x >>= f = .error e) ↔ (∃ e, x = .error e) ∨ ∃ a, x = .ok a ∧ ∃ e, f a = .error e := by
  cases x <;> simp [bind, Except.bind]

/-- The call returns exactly when `P` holds, and then a value that satisfies `Q`. -/
def ReturnsIff (x : Except ε α) (P : Prop) (Q : α → Prop) : Prop :=
  (P → ∃ a, x = .ok a ∧ Q a) ∧ (¬P → ∃ e, x = .error e)

namespace ReturnsIff

variable {x : Except ε α} {P P' : Prop} {Q Q' : α → Prop}

theorem ok {a : α} (h : Q a) : ReturnsIff (.ok a : Except ε α) True Q :=
  ⟨fun _ => ⟨a, rfl, h⟩, fun h => absurd trivial h⟩

theorem error (e : ε) : ReturnsIff (.error e : Except ε α) False Q :=
  ⟨False.elim, fun _ => ⟨e, rfl⟩⟩

theorem iff (h : ReturnsIff x P Q) (hP : P' ↔ P) : ReturnsIff x P' Q := by
  rwa [propext hP]

theorem mono (h : ReturnsIff x P Q) (hQ : ∀ a, Q a → Q' a) : ReturnsIff x P Q' :=
  ⟨fun hp => (h.1 hp).imp fun a ha => ⟨ha.1, hQ a ha.2⟩, h.2⟩

/-- A sequence returns when both of its calls do. -/
theorem bind {f : α → Except ε β} {R : β → Prop} (hx : ReturnsIff x P Q)
    (hf : ∀ a, Q a → ReturnsIff (f a) P' R) : ReturnsIff (x >>= f) (P ∧ P') R := by
  constructor
  · rintro ⟨hp, hp'⟩
    obtain ⟨a, ha, hq⟩ := hx.1 hp
    obtain ⟨b, hb, hr⟩ := (hf a hq).1 hp'
    exact ⟨b, bind_eq_ok.2 ⟨a, ha, hb⟩, hr⟩
  · intro hn
    by_cases hp : P
    · obtain ⟨a, ha, hq⟩ := hx.1 hp
      exact bind_eq_error.2 (Or.inr ⟨a, ha, (hf a hq).2 fun hp' => hn ⟨hp, hp'⟩⟩)
    · exact bind_eq_error.2 (Or.inl (hx.2 hp))

/-- A call that always returns may be looked at for what it returns. -/
theorem map {f : α → Except ε β} {R : β → Prop} (hx : ReturnsIff x P Q)
    (hf : ∀ a, Q a → ReturnsIff (f a) True R) : ReturnsIff (x >>= f) P R :=
  (bind hx hf).iff (by simp)

theorem returns_iff (h : ReturnsIff x P Q) : (∃ a, x = .ok a) ↔ P := by
  constructor
  · rintro ⟨a, ha⟩
    by_contra hn
    obtain ⟨e, he⟩ := h.2 hn
    simp [ha] at he
  · intro hp
    obtain ⟨a, ha, -⟩ := h.1 hp
    exact ⟨a, ha⟩

theorem post (h : ReturnsIff x P Q) {a : α} (ha : x = .ok a) : Q a := by
  obtain ⟨b, hb, hq⟩ := h.1 (h.returns_iff.1 ⟨a, ha⟩)
  obtain rfl : a = b := Except.ok.inj (ha.symm.trans hb)
  exact hq

end ReturnsIff

end Python
