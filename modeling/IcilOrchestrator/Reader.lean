import Mathlib
import IcilOrchestrator.Text

/-!
# Reading frames from a connection

A connection delivers whole frames in the order they were sent. A `Reader` is a program
that takes frames from it one at a time, each with the most bytes it accepts, and ends in
a value or an exception; `Reader.next` is what one frame makes of it. `Reader.run` takes
the frames from a list, and is none where the list ends before the reader does.

What is left to read may arrive later : `run_append` and `run_next` are how a run on a
whole list follows from its steps.
-/

namespace Python

/-- A program that reads frames. -/
inductive Reader (ε α : Type) where
  | done (r : Except ε α)
  /-- The next frame; one longer than `limit` raises `long`. -/
  | frame (limit : ℕ) (long : ε) (k : Bytes → Reader ε α)

namespace Reader

variable {ε α β : Type}

/-- One program after another, unless the first raises. -/
def bind (r : Reader ε α) (f : α → Reader ε β) : Reader ε β :=
  match r with
  | .done (.ok a) => f a
  | .done (.error e) => .done (.error e)
  | .frame n e k => .frame n e fun b => (k b).bind f

/-- `for x in xs: r(x)`, with the values in a list. -/
def each (r : α → Reader ε β) : List α → Reader ε (List β)
  | [] => .done (.ok [])
  | x :: xs => (r x).bind fun y => (each r xs).bind fun ys => .done (.ok (y :: ys))

/-- The reader after the next frame. -/
def next : Reader ε α → Bytes → Reader ε α
  | .done r, _ => .done r
  | .frame n e k, b => if b.length ≤ n then k b else .done (.error e)

/-- The reader on frames that have arrived : how it ends and the frames it has left, none
where it waits for another. -/
def run : Reader ε α → List Bytes → Option (Except ε α × List Bytes)
  | .done r, fs => some (r, fs)
  | .frame _ _ _, [] => none
  | .frame n e k, b :: fs => if b.length ≤ n then (k b).run fs else some (.error e, fs)

/-- The same reader `n` times over. -/
def times (r : Reader ε α) : ℕ → Reader ε (List α)
  | 0 => .done (.ok [])
  | n + 1 => r.bind fun a => (times r n).bind fun as => .done (.ok (a :: as))

@[simp] theorem run_done (r : Except ε α) (fs : List Bytes) : run (.done r) fs = some (r, fs) := by
  cases fs <;> rfl

theorem run_frame {n : ℕ} {e : ε} {k : Bytes → Reader ε α} {b : Bytes} (hb : b.length ≤ n)
    (fs : List Bytes) : run (.frame n e k) (b :: fs) = (k b).run fs := by
  rw [run, if_pos hb]

/-- Taking a frame is the first step of the run. -/
theorem run_next {n : ℕ} {e : ε} {k : Bytes → Reader ε α} (b : Bytes) (fs : List Bytes) :
    run (.frame n e k) (b :: fs) = (next (.frame n e k) b).run fs := by
  rw [run, next]
  split_ifs <;> simp

theorem run_bind_of_ok {r : Reader ε α} {f : α → Reader ε β} {fs gs : List Bytes} {a : α}
    (h : r.run fs = some (.ok a, gs)) : (r.bind f).run fs = (f a).run gs := by
  induction r generalizing fs with
  | done v =>
    obtain ⟨rfl, rfl⟩ : v = .ok a ∧ fs = gs := by simpa using h
    rfl
  | frame n e k ih =>
    cases fs with
    | nil => simp [run] at h
    | cons b fs =>
      rw [run] at h
      rw [bind, run]
      split_ifs at h ⊢ with hb
      · exact ih b h
      · simp at h

theorem run_bind {r : Reader ε α} {f : α → Reader ε β} {fs gs : List Bytes} {b : β}
    (h : (r.bind f).run fs = some (.ok b, gs)) :
    ∃ a hs, r.run fs = some (.ok a, hs) ∧ (f a).run hs = some (.ok b, gs) := by
  induction r generalizing fs with
  | done v =>
    cases v with
    | ok a => exact ⟨a, fs, run_done _ _, h⟩
    | error e => simp [bind] at h
  | frame n e k ih =>
    cases fs with
    | nil => simp [bind, run] at h
    | cons b fs =>
      rw [bind, run] at h
      split_ifs at h with hb
      · rw [run_frame hb]
        exact ih b h
      · simp at h

/-- Frames that arrive after the ones a reader took are left as they are. -/
theorem run_append {r : Reader ε α} {fs gs : List Bytes} {v : Except ε α}
    (h : r.run fs = some (v, gs)) (hs : List Bytes) : r.run (fs ++ hs) = some (v, gs ++ hs) := by
  induction r generalizing fs with
  | done w =>
    obtain ⟨rfl, rfl⟩ : w = v ∧ fs = gs := by simpa using h
    simp
  | frame n e k ih =>
    cases fs with
    | nil => simp [run] at h
    | cons b fs =>
      rw [run] at h
      rw [List.cons_append, run]
      split_ifs at h ⊢ with hb
      · exact ih b h
      · simpa using h

/-- A reader that takes the frames of each item takes those of a list in order. -/
theorem run_each {γ : Type} {r : α → Reader ε β} {item : γ → α} {frames : γ → List Bytes}
    {val : γ → β} {xs : List γ}
    (h : ∀ x ∈ xs, ∀ gs, (r (item x)).run (frames x ++ gs) = some (.ok (val x), gs))
    (gs : List Bytes) :
    (each r (xs.map item)).run (xs.flatMap frames ++ gs) = some (.ok (xs.map val), gs) := by
  induction xs generalizing gs with
  | nil => simp [each]
  | cons x xs ih =>
    rw [List.flatMap_cons, List.append_assoc, List.map_cons, each,
      run_bind_of_ok (h x (by simp) _),
      run_bind_of_ok (ih (fun y hy => h y (List.mem_cons_of_mem _ hy)) gs)]
    simp

/-- A reader that takes one frame for an item takes as many as the list has items. -/
theorem length_of_run_each {r : α → Reader ε β}
    (h : ∀ x fs gs b, (r x).run fs = some (.ok b, gs) → gs.length + 1 = fs.length) {xs : List α}
    {fs gs : List Bytes} {bs : List β} (hrun : (each r xs).run fs = some (.ok bs, gs)) :
    gs.length + xs.length = fs.length := by
  induction xs generalizing fs gs bs with
  | nil =>
    obtain ⟨-, rfl⟩ : bs = [] ∧ gs = fs := by simpa [each, eq_comm] using hrun
    simp
  | cons x xs ih =>
    rw [each] at hrun
    obtain ⟨b, hs, hb, hrest⟩ := run_bind hrun
    obtain ⟨bs', hs', hbs, hdone⟩ := run_bind hrest
    obtain ⟨-, rfl⟩ : b :: bs' = bs ∧ hs' = gs := by simpa using hdone
    have := h x fs hs b hb
    have := ih hbs
    simp only [List.length_cons]
    omega

/-- A reader that takes each of several messages takes them in order, and leaves what
follows them. -/
theorem run_times {r : Reader ε α} {ms : List (List Bytes × α)}
    (h : ∀ m ∈ ms, ∀ gs, r.run (m.1 ++ gs) = some (.ok m.2, gs)) (gs : List Bytes) :
    (times r ms.length).run (ms.flatMap Prod.fst ++ gs) = some (.ok (ms.map Prod.snd), gs) := by
  induction ms generalizing gs with
  | nil => simp [times]
  | cons m ms ih =>
    rw [List.flatMap_cons, List.append_assoc, List.length_cons, times,
      run_bind_of_ok (h m (by simp) _),
      run_bind_of_ok (ih (fun y hy => h y (List.mem_cons_of_mem _ hy)) gs)]
    simp

end Reader

end Python
