import Mathlib

/-!
# Programs over a durable state

A program (`Prog`) is a tree of acts on a state that outlives the process : an act changes
the state by one write, and the program goes on with what it read just before. The process
may be killed between any two acts; what the acts so far have made of the state stays, but
for what was only in the process's memory (`System.reset`).

`Wp E G Q p s` : run from `s`, while others change the state as `E.rely` says, and as long as
each act meets its condition `E.meets`, every act of `p` does what `G` allows, and what `p`
ends with satisfies `Q`. Its rules are those of a sequence (`wp_bind`), of an
exception handler (`wp_catch`), of consequence (`Wp.mono`) and of a part of a larger state
(`Wp.lift`).

`System.Reach.inv` is the rule of runs : when every command keeps an invariant act by act,
it holds after any schedule of commands, acts, kills, restarts and changes by others, and
so does what each command promises of its end.
-/

namespace Python

/-- A program over states `σ` with acts labelled by `τ`, that returns an `α` or raises an `ε`. -/
inductive Prog (σ τ ε α : Type) where
  | ret (r : Except ε α)
  /-- The state `s` becomes `f s`, and the program goes on with `k s`. -/
  | act (tag : τ) (f : σ → σ) (k : σ → Prog σ τ ε α)

namespace Prog

variable {σ σ' τ τ' ε α β : Type}

/-! ## Building programs -/

/-- One program after another, unless the first raises. -/
def bind (p : Prog σ τ ε α) (f : α → Prog σ τ ε β) : Prog σ τ ε β :=
  match p with
  | .ret (.ok a) => f a
  | .ret (.error e) => .ret (.error e)
  | .act t g k => .act t g fun s => (k s).bind f

instance : Monad (Prog σ τ ε) where
  pure a := .ret (.ok a)
  bind := bind

/-- `raise e`. -/
def raise (e : ε) : Prog σ τ ε α := .ret (.error e)

/-- `try: p` with a handler of every exception. -/
def catch' (p : Prog σ τ ε α) (h : ε → Prog σ τ ε α) : Prog σ τ ε α :=
  match p with
  | .ret (.ok a) => .ret (.ok a)
  | .ret (.error e) => h e
  | .act t g k => .act t g fun s => (k s).catch' h

/-- `try: p finally: q`. -/
def finally' (p : Prog σ τ ε α) (q : Prog σ τ ε Unit) : Prog σ τ ε α :=
  (p.catch' fun e => q.bind fun _ => raise e).bind fun a => q.bind fun _ => .ret (.ok a)

/-- The program, each act of which may raise instead, as the state says. -/
def fallible (bad : σ → Option ε) : Prog σ τ ε α → Prog σ τ ε α
  | .ret r => .ret r
  | .act t f k => .act t (fun s => if (bad s).isSome then s else f s) fun s =>
      match bad s with
      | some e => .ret (.error e)
      | none => (k s).fallible bad

/-- A look at the state. -/
def read (t : τ) (g : σ → α) : Prog σ τ ε α := .act t id fun s => .ret (.ok (g s))

/-- A look at the state that may raise. -/
def try' (t : τ) (g : σ → Except ε α) : Prog σ τ ε α := .act t id fun s => .ret (g s)

/-- One write. -/
def write (t : τ) (f : σ → σ) : Prog σ τ ε Unit := .act t f fun _ => .ret (.ok ())

/-- `for x in xs: f(x)`. -/
def each (f : α → Prog σ τ ε Unit) : List α → Prog σ τ ε Unit
  | [] => .ret (.ok ())
  | x :: xs => (f x).bind fun _ => each f xs

/-- A part of a larger state. -/
structure Lens (σ' σ : Type) where
  get : σ' → σ
  put : σ → σ' → σ'
  get_put : ∀ s w, get (put s w) = s

/-- A program on a part of the state, as one on the whole. -/
def lift (L : Lens σ' σ) (tag : τ → τ') : Prog σ τ ε α → Prog σ' τ' ε α
  | .ret r => .ret r
  | .act t f k => .act (tag t) (fun w => L.put (f (L.get w)) w) fun w => (k (L.get w)).lift L tag

/-- The program run to its end, with nobody else at the state. -/
def exec : Prog σ τ ε α → σ → Except ε α × σ
  | .ret r, s => (r, s)
  | .act _ f k, s => exec (k s) (f s)

/-- What is left of a program after so many acts, with nobody else at the state. -/
def after : ℕ → Prog σ τ ε α → σ → Prog σ τ ε α × σ
  | 0, p, s => (p, s)
  | _ + 1, .ret r, s => (.ret r, s)
  | n + 1, .act _ f k, s => after n (k s) (f s)

theorem bind_eq (p : Prog σ τ ε α) (f : α → Prog σ τ ε β) : (p >>= f) = p.bind f := rfl

theorem pure_eq (a : α) : (pure a : Prog σ τ ε α) = .ret (.ok a) := rfl

/-! ## Running programs -/

@[simp] theorem exec_pure (a : α) (s : σ) : (pure a : Prog σ τ ε α).exec s = (.ok a, s) := rfl

@[simp] theorem exec_read (t : τ) (g : σ → α) (s : σ) :
    (read t g : Prog σ τ ε α).exec s = (.ok (g s), s) := rfl

@[simp] theorem exec_try (t : τ) (g : σ → Except ε α) (s : σ) :
    (try' t g : Prog σ τ ε α).exec s = (g s, s) := rfl

@[simp] theorem exec_write (t : τ) (f : σ → σ) (s : σ) :
    (write t f : Prog σ τ ε Unit).exec s = (.ok (), f s) := rfl

/-- The first part is run, and then the second, unless the first raises. -/
theorem exec_bind (p : Prog σ τ ε α) (f : α → Prog σ τ ε β) (s : σ) :
    (p >>= f).exec s =
      match p.exec s with
      | (.ok a, t) => (f a).exec t
      | (.error e, t) => (.error e, t) := by
  rw [bind_eq]
  induction p generalizing s with
  | ret r => cases r <;> rfl
  | act t g k ih => exact ih s (g s)

theorem exec_bind_ok {p : Prog σ τ ε α} {a : α} {s t : σ} (h : p.exec s = (.ok a, t))
    (f : α → Prog σ τ ε β) : (p >>= f).exec s = (f a).exec t := by rw [exec_bind, h]

/-! ## What a program keeps -/

/-- What a program may rely on. -/
structure Env (σ τ : Type) where
  /-- What others make of a state between two acts. -/
  rely : σ → σ → Prop
  refl : ∀ s, rely s s
  trans : ∀ {s t u}, rely s t → rely t u → rely s u
  /-- The condition under which an act is done. -/
  meets : τ → σ → Prop

/-- No other process writes the state. -/
def Env.alone (meets : τ → σ → Prop) : Env σ τ where
  rely := Eq
  refl _ := rfl
  trans := Eq.trans
  meets := meets

variable {E : Env σ τ} {G : τ → σ → σ → Prop} {Q Q' : Except ε α → σ → Prop}

/-- Every act of `p` from `s` is one that `G` allows, and `p` ends in `Q`. -/
def Wp (E : Env σ τ) (G : τ → σ → σ → Prop) (Q : Except ε α → σ → Prop) : Prog σ τ ε α → σ → Prop
  | .ret r, s => ∀ s', E.rely s s' → Q r s'
  | .act t f k, s =>
    ∀ s', E.rely s s' → E.meets t s' → G t s' (f s') ∧ Wp E G Q (k s') (f s')

/-- `P` holds after an exception, and `A` of a result. -/
def Post (P : σ → Prop) (A : α → σ → Prop) : Except ε α → σ → Prop
  | .error _, s => P s
  | .ok a, s => A a s

/-- What a program is to end in for `f` to follow it. -/
def Then (E : Env σ τ) (G : τ → σ → σ → Prop) (Q : Except ε β → σ → Prop) (f : α → Prog σ τ ε β) :
    Except ε α → σ → Prop
  | .ok a, s => Wp E G Q (f a) s
  | .error e, s => Q (.error e) s

/-- What a program is to end in for `h` to handle its exceptions. -/
def Else (E : Env σ τ) (G : τ → σ → σ → Prop) (Q : Except ε α → σ → Prop) (h : ε → Prog σ τ ε α) :
    Except ε α → σ → Prop
  | .ok a, s => Q (.ok a) s
  | .error e, s => Wp E G Q (h e) s

/-- What others do before the first act is no matter. -/
theorem Wp.rely {p : Prog σ τ ε α} {s s' : σ} (h : Wp E G Q p s) (hs : E.rely s s') :
    Wp E G Q p s' := by
  cases p with
  | ret r => exact fun s'' h' => h s'' (E.trans hs h')
  | act t f k => exact fun s'' h' => h s'' (E.trans hs h')

/-- An act that is done, done next. -/
theorem Wp.act {t : τ} {f : σ → σ} {k : σ → Prog σ τ ε α} {s : σ} (h : Wp E G Q (.act t f k) s)
    (ht : E.meets t s) : G t s (f s) ∧ Wp E G Q (k s) (f s) := h s (E.refl s) ht

/-- A program that has ended. -/
theorem Wp.ended {r : Except ε α} {s : σ} (h : Wp E G Q (.ret r) s) : Q r s := h s (E.refl s)

/-- An act, from what holds until it is done. -/
theorem Wp.step {t : τ} {f : σ → σ} {k : σ → Prog σ τ ε α} {P : σ → Prop} {s : σ} (hs : P s)
    (hrely : ∀ s s', P s → E.rely s s' → P s')
    (h : ∀ s, P s → E.meets t s → G t s (f s) ∧ Wp E G Q (k s) (f s)) :
    Wp E G Q (.act t f k) s := fun s' hr => h s' (hrely s s' hs hr)

/-- A result, of which what others do next changes nothing. -/
theorem Wp.done {r : Except ε α} {P : σ → Prop} {s : σ} (hs : P s)
    (hrely : ∀ s s', P s → E.rely s s' → P s') (h : ∀ s, P s → Q r s) : Wp E G Q (.ret r) s :=
  fun s' hr => h s' (hrely s s' hs hr)

theorem Wp.mono {p : Prog σ τ ε α} {s : σ} (h : Wp E G Q p s) (hQ : ∀ r s, Q r s → Q' r s) :
    Wp E G Q' p s := by
  induction p generalizing s with
  | ret r => exact fun s' hs => hQ _ _ (h s' hs)
  | act t f k ih =>
    intro s' hs ht
    obtain ⟨ha, hk⟩ := h s' hs ht
    exact ⟨ha, ih _ hk⟩

/-- A program that keeps to less keeps to more. -/
theorem Wp.weaken {G' : τ → σ → σ → Prop} {p : Prog σ τ ε α} {s : σ} (h : Wp E G Q p s)
    (hG : ∀ t s s', G t s s' → G' t s s') : Wp E G' Q p s := by
  induction p generalizing s with
  | ret r => exact h
  | act t f k ih =>
    intro s' hs ht
    obtain ⟨ha, hk⟩ := h s' hs ht
    exact ⟨hG _ _ _ ha, ih _ hk⟩

/-- A program ends in what two rules say of its end. -/
theorem Wp.and {p : Prog σ τ ε α} {s : σ} (h : Wp E G Q p s) (h' : Wp E G Q' p s) :
    Wp E G (fun r s => Q r s ∧ Q' r s) p s := by
  induction p generalizing s with
  | ret r => exact fun s' hs => ⟨h s' hs, h' s' hs⟩
  | act t f k ih =>
    intro s' hs ht
    obtain ⟨ha, hk⟩ := h s' hs ht
    exact ⟨ha, ih _ hk (h' s' hs ht).2⟩

theorem wp_bind {p : Prog σ τ ε α} {f : α → Prog σ τ ε β} {Q : Except ε β → σ → Prop} {s : σ} :
    Wp E G Q (p.bind f) s ↔ Wp E G (Then E G Q f) p s := by
  induction p generalizing s with
  | ret r =>
    cases r with
    | ok a => exact ⟨fun h s' hs => Wp.rely h hs, fun h => h s (E.refl s)⟩
    | error e => exact Iff.rfl
  | act t g k ih =>
    refine forall_congr' fun s' => imp_congr_right fun _ => imp_congr_right fun _ => ?_
    exact and_congr_right fun _ => ih s'

theorem wp_catch {p : Prog σ τ ε α} {h : ε → Prog σ τ ε α} {s : σ} :
    Wp E G Q (p.catch' h) s ↔ Wp E G (Else E G Q h) p s := by
  induction p generalizing s with
  | ret r =>
    cases r with
    | ok a => exact Iff.rfl
    | error e => exact ⟨fun h s' hs => Wp.rely h hs, fun h => h s (E.refl s)⟩
  | act t g k ih =>
    refine forall_congr' fun s' => imp_congr_right fun _ => imp_congr_right fun _ => ?_
    exact and_congr_right fun _ => ih s'

/-- What a program ends in outlasts what others do next. -/
theorem Wp.stable {p : Prog σ τ ε α} {s : σ} (h : Wp E G Q p s) :
    Wp E G (fun r s => ∀ s', E.rely s s' → Q r s') p s := by
  induction p generalizing s with
  | ret r => exact fun s' hs s'' hs' => h s'' (E.trans hs hs')
  | act t f k ih =>
    intro s' hs ht
    obtain ⟨ha, hk⟩ := h s' hs ht
    exact ⟨ha, ih _ hk⟩

/-- What the last part of a program ends in, after a result or an exception before it. -/
def Last (Q : Except ε α → σ → Prop) (r : Except ε α) : Except ε Unit → σ → Prop
  | .ok _, s => Q r s
  | .error e, s => Q (.error e) s

theorem Wp.finally' {p : Prog σ τ ε α} {q : Prog σ τ ε Unit} {s : σ}
    (h : Wp E G (fun r s => Wp E G (Last Q r) q s) p s) : Wp E G Q (p.finally' q) s := by
  refine wp_bind.2 (wp_catch.2 (h.mono fun r s' hr => ?_))
  cases r with
  | ok a =>
    refine wp_bind.2 (hr.stable.mono fun r' s'' hr' => ?_)
    cases r' with
    | ok u => exact hr'
    | error e => exact hr' s'' (E.refl s'')
  | error e =>
    refine wp_bind.2 (hr.stable.mono fun r' s'' hr' => ?_)
    cases r' with
    | ok u => exact hr'
    | error e' => exact hr' s'' (E.refl s'')

/-- A program may raise at any of its acts, when what `R` says of the state before each is
enough for an exception. -/
theorem Wp.fallible {bad : σ → Option ε} {R : σ → Prop} {p : Prog σ τ ε α} {s : σ}
    (hrefl : ∀ t s, R s → G t s s) (hraise : ∀ e s s', R s → E.rely s s' → Q (.error e) s')
    (h : Wp E (fun t s s' => G t s s' ∧ R s) Q p s) : Wp E G Q (p.fallible bad) s := by
  induction p generalizing s with
  | ret r => exact h
  | act t f k ih =>
    intro s' hr ht
    obtain ⟨⟨ha, hR⟩, hk⟩ := h s' hr ht
    cases hbad : bad s' with
    | some e =>
      simp only [hbad, Option.isSome_some, if_true]
      exact ⟨hrefl t s' hR, fun s'' hr' => hraise e s' s'' hR hr'⟩
    | none =>
      simp only [hbad, Option.isSome_none, Bool.false_eq_true, if_false]
      exact ⟨ha, ih _ hk⟩

/-- A program alone ends as it is run. -/
theorem wp_exec {A : τ → σ → Prop} (p : Prog σ τ ε α) (s : σ) :
    Wp (.alone A) (fun _ _ _ => True) (fun r s' => p.exec s = (r, s')) p s := by
  induction p generalizing s with
  | ret r =>
    rintro s' rfl
    rfl
  | act t f k ih =>
    rintro s' rfl -
    exact ⟨trivial, ih _ _⟩

/-- What a program keeps, it keeps when it runs to its end. -/
theorem Wp.exec {p : Prog σ τ ε α} {s : σ} (hE : ∀ t s, E.meets t s) (h : Wp E G Q p s) :
    Q (p.exec s).1 (p.exec s).2 := by
  induction p generalizing s with
  | ret r => exact h s (E.refl s)
  | act t f k ih => exact ih s (h s (E.refl s) (hE t s)).2

/-- What holds before each turn of a loop holds after it. -/
theorem wp_each {f : β → Prog σ τ ε Unit} {xs : List β} {I : List β → σ → Prop}
    {Q : Except ε Unit → σ → Prop} (hnil : ∀ s, I [] s → ∀ s', E.rely s s' → Q (.ok ()) s')
    (hcons : ∀ x xs s, I (x :: xs) s →
      Wp E G (fun r s => (r = .ok () ∧ I xs s) ∨ (∃ e, r = .error e) ∧ Q r s) (f x) s)
    {s : σ} (h : I xs s) : Wp E G Q (each f xs) s := by
  induction xs generalizing s with
  | nil => exact hnil s h
  | cons x xs ih =>
    refine wp_bind.2 ((hcons x xs s h).mono fun r s' hr => ?_)
    rcases hr with ⟨rfl, hI⟩ | ⟨⟨e, rfl⟩, hQ⟩
    · exact ih hI
    · exact hQ

/-- A program on a part of the state, as one on the whole : `Φ` is what holds of the rest. -/
theorem Wp.lift {L : Lens σ' σ} {tag : τ → τ'} {E' : Env σ' τ'} {R : Except ε α → σ' → Prop}
    {G' : τ' → σ' → σ' → Prop} {Φ : σ' → Prop}
    (hrely : ∀ w w', Φ w → E'.rely w w' → Φ w' ∧ E.rely (L.get w) (L.get w'))
    (hact : ∀ t w s', Φ w → E'.meets (tag t) w → E.meets t (L.get w) ∧
      (G t (L.get w) s' → G' (tag t) w (L.put s' w) ∧ Φ (L.put s' w)))
    (hQ : ∀ r w, Φ w → Q r (L.get w) → R r w) {p : Prog σ τ ε α} {w : σ'} (hw : Φ w)
    (h : Wp E G Q p (L.get w)) : Wp E' G' R (p.lift L tag) w := by
  induction p generalizing w with
  | ret r =>
    intro w' hr
    obtain ⟨hw', hr'⟩ := hrely w w' hw hr
    exact hQ r w' hw' (h _ hr')
  | act t f k ih =>
    intro w' hr ht
    obtain ⟨hw', hr'⟩ := hrely w w' hw hr
    obtain ⟨ht', hput⟩ := hact t w' (f (L.get w')) hw' ht
    obtain ⟨ha, hk⟩ := h _ hr' ht'
    refine ⟨(hput ha).1, ih _ (hput ha).2 ?_⟩
    rw [L.get_put]
    exact hk

/-! ## Alone -/

section Alone

variable {A : τ → σ → Prop}

@[simp] theorem wp_ret {r : Except ε α} {s : σ} : Wp (.alone A) G Q (.ret r) s ↔ Q r s := by
  simp [Wp, Env.alone]

@[simp] theorem wp_act {t : τ} {f : σ → σ} {k : σ → Prog σ τ ε α} {s : σ} :
    Wp (.alone A) G Q (.act t f k) s ↔
      (A t s → G t s (f s) ∧ Wp (.alone A) G Q (k s) (f s)) := by
  simp [Wp, Env.alone]

@[simp] theorem wp_read {t : τ} {g : σ → α} {s : σ} :
    Wp (.alone A) G Q (read t g) s ↔ (A t s → G t s s ∧ Q (.ok (g s)) s) := by
  simp [read]

@[simp] theorem wp_try {t : τ} {g : σ → Except ε α} {s : σ} :
    Wp (.alone A) G Q (try' t g) s ↔ (A t s → G t s s ∧ Q (g s) s) := by
  simp [try']

@[simp] theorem wp_write {t : τ} {f : σ → σ} {Q : Except ε Unit → σ → Prop} {s : σ} :
    Wp (.alone A) G Q (write t f) s ↔ (A t s → G t s (f s) ∧ Q (.ok ()) (f s)) := by
  simp [write]

end Alone

end Prog

/-! ## Runs -/

open Prog

/-- Commands that a process runs one after another, on a state that outlives it. -/
structure System (σ τ ε α γ : Type) where
  prog : γ → Prog σ τ ε α
  /-- When a command may be given. -/
  starts : γ → σ → Prop
  /-- When the process may be killed. -/
  mayDie : σ → Prop
  /-- The state a new process finds. -/
  reset : σ → σ

namespace System

variable {σ τ ε α γ : Type}

/-- The state, and what is left of the command that runs. -/
structure Conf (σ τ ε α γ : Type) where
  state : σ
  running : Option (γ × Prog σ τ ε α)

/-- One step of a run. -/
inductive Step (S : System σ τ ε α γ) (E : Env σ τ) :
    Conf σ τ ε α γ → Conf σ τ ε α γ → Prop
  | start {s c} : S.starts c s → Step S E ⟨s, none⟩ ⟨s, some (c, S.prog c)⟩
  | act {s c t f k} : E.meets t s → Step S E ⟨s, some (c, .act t f k)⟩ ⟨f s, some (c, k s)⟩
  | finish {s c r} : Step S E ⟨s, some (c, .ret r)⟩ ⟨s, none⟩
  | kill {s x} : S.mayDie s → Step S E ⟨s, x⟩ ⟨S.reset s, none⟩
  | others {s s' x} : E.rely s s' → Step S E ⟨s, x⟩ ⟨s', x⟩

/-- The configurations that runs from a state reach. -/
def Reach (S : System σ τ ε α γ) (E : Env σ τ) (s : σ) (c : Conf σ τ ε α γ) : Prop :=
  Relation.ReflTransGen (Step S E) ⟨s, none⟩ c

/-- A command may run to its end. -/
theorem Reach.exec {S : System σ τ ε α γ} {E : Env σ τ} (hE : ∀ t s, E.meets t s) {s₀ s : σ}
    {c : γ} {p : Prog σ τ ε α} (h : S.Reach E s₀ ⟨s, some (c, p)⟩) :
    S.Reach E s₀ ⟨(p.exec s).2, some (c, .ret (p.exec s).1)⟩ := by
  induction p generalizing s with
  | ret r => exact h
  | act t f k ih => exact ih s (h.tail (.act (hE t s)))

/-- A command may run so many acts. -/
theorem Reach.after {S : System σ τ ε α γ} {E : Env σ τ} (hE : ∀ t s, E.meets t s) {s₀ s : σ}
    {c : γ} {p : Prog σ τ ε α} (h : S.Reach E s₀ ⟨s, some (c, p)⟩) (n : ℕ) :
    S.Reach E s₀ ⟨(p.after n s).2, some (c, (p.after n s).1)⟩ := by
  induction n generalizing p s with
  | zero => exact h
  | succ n ih =>
    cases p with
    | ret r => exact h
    | act t f k => exact ih (h.tail (.act (hE t s)))

/-- What holds in every configuration of a run : the invariant, and of a command that runs,
what is left of its promise. -/
structure Keeps (E : Env σ τ) (G : τ → σ → σ → Prop) (I : σ → Prop) (Q : γ → Except ε α → σ → Prop)
    (c : Conf σ τ ε α γ) : Prop where
  inv : I c.state
  wp : ∀ g p, c.running = some (g, p) → Wp E G (Q g) p c.state

variable {S : System σ τ ε α γ} {E : Env σ τ} {G : τ → σ → σ → Prop}
  {I : σ → Prop} {Q : γ → Except ε α → σ → Prop}

/-- What one step keeps. -/
theorem Keeps.step (hprog : ∀ g s, S.starts g s → I s → Wp E G (Q g) (S.prog g) s)
    (hact : ∀ t s s', I s → E.meets t s → G t s s' → I s')
    (hrely : ∀ s s', I s → E.rely s s' → I s') (hkill : ∀ s, I s → S.mayDie s → I (S.reset s))
    {c d : Conf σ τ ε α γ} (hc : Keeps E G I Q c) (h : Step S E c d) : Keeps E G I Q d := by
  obtain ⟨hI, hw⟩ := hc
  cases h with
  | start hs =>
    refine ⟨hI, ?_⟩
    rintro g p hp
    obtain ⟨rfl, rfl⟩ := Prod.mk.inj (Option.some.inj hp)
    exact hprog _ _ hs hI
  | act ht =>
    obtain ⟨ha, hk⟩ := hw _ _ rfl _ (E.refl _) ht
    refine ⟨hact _ _ _ hI ht ha, ?_⟩
    rintro g p hp
    obtain ⟨rfl, rfl⟩ := Prod.mk.inj (Option.some.inj hp)
    exact hk
  | finish => exact ⟨hI, by simp⟩
  | kill hd => exact ⟨hkill _ hI hd, by simp⟩
  | others hr => exact ⟨hrely _ _ hI hr, fun g p hp => (hw g p hp).rely hr⟩

/-- What every command keeps act by act, every run keeps. -/
theorem Reach.inv (hprog : ∀ g s, S.starts g s → I s → Wp E G (Q g) (S.prog g) s)
    (hact : ∀ t s s', I s → E.meets t s → G t s s' → I s')
    (hrely : ∀ s s', I s → E.rely s s' → I s') (hkill : ∀ s, I s → S.mayDie s → I (S.reset s))
    {s : σ} (hs : I s) {c : Conf σ τ ε α γ} (h : S.Reach E s c) : Keeps E G I Q c := by
  induction h with
  | refl => exact ⟨hs, by simp⟩
  | tail _ hstep ih => exact ih.step hprog hact hrely hkill hstep

/-- A command that has ended has kept its promise. -/
theorem Keeps.ended {s : σ} {g : γ} {r : Except ε α}
    (h : Keeps E G I Q ⟨s, some (g, .ret r)⟩) : Q g r s :=
  h.wp g _ rfl s (E.refl s)

end System

-- A program is looked into by the rules only, never by evaluating it.
attribute [irreducible] Prog.Wp

end Python
