import Mathlib
import IcilOrchestrator.Store

/-!
# The daemon's rounds

`Daemon.run` steps every track in turn, round after round, and a step that crashes ends its
round : the tracks after it are not stepped until the next one. So a track whose predecessor
crashes in every round is never served (`starved`), and every track is served in every round
when and only when no track but the last crashes (`serves_iff`).
-/

namespace IcilOrchestrator

open Python

namespace Daemon

/-! ## The loop -/

/-- `step_all` : the tracks that are stepped, in turn, and what it comes to. -/
def stepAll (step : PyStr → Except PyError Bool) : List PyStr → List PyStr × Except PyError Bool
  | [] => ([], .ok false)
  | track :: tracks =>
    match step track with
    | .error e => ([track], .error e)
    | .ok ran =>
      let rest := stepAll step tracks
      (track :: rest.1, rest.2.map (ran || ·))

/-- `Daemon`, as its loop has it. -/
structure Serving where
  /-- The tracks, each of which has a queue. -/
  tracks : List PyStr
  nodup : tracks.Nodup
  idleSleep : ℚ
  maxBackoff : ℚ
  once : Bool

/-- `backoff_s`. -/
def Serving.backoff (d : Serving) (crashes : ℕ) : ℚ :=
  min d.maxBackoff (1 * 2 ^ min (max crashes 1 - 1) 60)

/-- The loop between two rounds. -/
structure Loop where
  crashes : ℕ
  /-- How long it has slept, each time. -/
  slept : List ℚ
  /-- The tracks stepped in each round. -/
  stepped : List (List PyStr)
  returned : Bool

def Loop.start : Loop := ⟨0, [], [], false⟩

/-- A round of `run`. -/
def Serving.round (d : Serving) (step : PyStr → Except PyError Bool) (l : Loop) : Loop :=
  if l.returned then l
  else
    match stepAll step d.tracks with
    | (tracks, .error _) =>
      { crashes := l.crashes + 1
        slept := if d.once then l.slept else l.slept ++ [d.backoff (l.crashes + 1)]
        stepped := l.stepped ++ [tracks]
        returned := d.once }
    | (tracks, .ok ran) =>
      { crashes := 0
        slept := if d.once || ran then l.slept else l.slept ++ [d.idleSleep]
        stepped := l.stepped ++ [tracks]
        returned := d.once }

/-- The loop after so many rounds, where the steps of each come to what `steps` says. -/
def Serving.after (d : Serving) (steps : ℕ → PyStr → Except PyError Bool) : ℕ → Loop
  | 0 => .start
  | n + 1 => d.round (steps n) (d.after steps n)

/-! ## A round -/

variable {step : PyStr → Except PyError Bool} {tracks : List PyStr}

theorem stepAll_prefix (step : PyStr → Except PyError Bool) (tracks : List PyStr) :
    (stepAll step tracks).1 <+: tracks := by
  induction tracks with
  | nil => exact List.prefix_rfl
  | cons track tracks ih =>
    rw [stepAll]
    split
    · exact (List.prefix_cons_inj track).2 (List.nil_prefix)
    · exact (List.prefix_cons_inj track).2 ih

/-- A round steps every track unless one before the last crashes. -/
theorem stepAll_eq_iff :
    (stepAll step tracks).1 = tracks ↔ ∀ t ∈ tracks.dropLast, ∃ ran, step t = .ok ran := by
  induction tracks with
  | nil => simp [stepAll]
  | cons track tracks ih =>
    rw [stepAll]
    cases htracks : tracks with
    | nil =>
      subst htracks
      cases step track <;> simp [stepAll]
    | cons u us =>
      rw [← htracks, List.dropLast_cons_of_ne_nil (by simp [htracks]), List.forall_mem_cons, ← ih]
      cases hstep : step track with
      | error e => simp [htracks]
      | ok ran => simp

/-- The tracks of a daemon are distinct, so that a round steps all of them or not. -/
theorem forall_mem_stepAll_iff (hnodup : tracks.Nodup) :
    (∀ t ∈ tracks, t ∈ (stepAll step tracks).1) ↔
      ∀ t ∈ tracks.dropLast, ∃ ran, step t = .ok ran := by
  rw [← stepAll_eq_iff]
  refine ⟨fun h => ?_, fun h t ht => h.symm ▸ ht⟩
  have hprefix := stepAll_prefix step tracks
  exact hprefix.eq_of_length_le (hnodup.subperm h).length_le

/-! ## All rounds -/

variable (d : Serving) (steps : ℕ → PyStr → Except PyError Bool)

theorem round_of_returned {l : Loop} (h : l.returned = true) : d.round step l = l := by
  rw [Serving.round, if_pos h]

theorem round_stepped {l : Loop} (h : l.returned = false) :
    (d.round step l).stepped = l.stepped ++ [(stepAll step d.tracks).1] ∧
      (d.round step l).returned = d.once := by
  rw [Serving.round, if_neg (by simp [h])]
  split <;> rename_i heq <;> simp [heq]

/-- How many rounds have begun. -/
def Serving.begun (n : ℕ) : ℕ := if d.once then min n 1 else n

theorem after_stepped (n : ℕ) :
    (d.after steps n).stepped =
        (List.range (d.begun n)).map (fun k => (stepAll (steps k) d.tracks).1) ∧
      (d.after steps n).returned = (d.once && n != 0) := by
  induction n with
  | zero => simp [Serving.after, Serving.begun, Loop.start]
  | succ n ih =>
    obtain ⟨hstepped, hreturned⟩ := ih
    rw [Serving.after]
    by_cases hover : (d.after steps n).returned = true
    · obtain ⟨honce, hn⟩ : d.once = true ∧ n ≠ 0 := by simpa [hreturned] using hover
      have hbegun : d.begun (n + 1) = d.begun n := by
        simp only [Serving.begun, honce, if_true]
        omega
      rw [round_of_returned d hover, hbegun, hstepped, hreturned]
      exact ⟨rfl, by simp [honce, hn]⟩
    · rw [Bool.not_eq_true] at hover
      obtain ⟨h1, h2⟩ := @round_stepped (steps n) d _ hover
      have hn : d.begun n = n ∧ d.begun (n + 1) = n + 1 := by
        rw [hreturned] at hover
        cases honce : d.once with
        | true =>
          obtain rfl : n = 0 := by simpa [honce] using hover
          simp [Serving.begun, honce]
        | false => simp [Serving.begun, honce]
      rw [h1, h2, hstepped, hn.1, hn.2, List.range_succ, List.map_append]
      exact ⟨rfl, by simp⟩

/-- Every round steps every track when and only when no track but the last crashes in one. -/
theorem serves_iff :
    (∀ n, ∀ ts ∈ (d.after steps n).stepped, ∀ t ∈ d.tracks, t ∈ ts) ↔
      ∀ k, (d.once = true → k = 0) → ∀ t ∈ d.tracks.dropLast, ∃ ran, steps k t = .ok ran := by
  have hround : ∀ k, (∀ t ∈ d.tracks, t ∈ (stepAll (steps k) d.tracks).1) ↔
      ∀ t ∈ d.tracks.dropLast, ∃ ran, steps k t = .ok ran :=
    fun k => forall_mem_stepAll_iff d.nodup
  constructor
  · intro h k hk
    rw [← hround]
    refine h (k + 1) _ ?_
    rw [(after_stepped d steps (k + 1)).1]
    refine List.mem_map.2 ⟨k, List.mem_range.2 ?_, rfl⟩
    rw [Serving.begun]
    split_ifs with honce
    · obtain rfl := hk honce
      omega
    · omega
  · intro h n ts hts
    rw [(after_stepped d steps n).1] at hts
    obtain ⟨k, hk, rfl⟩ := List.mem_map.1 hts
    rw [List.mem_range, Serving.begun] at hk
    refine (hround k).2 (h k fun honce => ?_)
    rw [if_pos honce] at hk
    omega

/-- The first of two tracks crashes in every round, and the second is never stepped. -/
theorem starved : ∃ (d : Serving) (steps : ℕ → PyStr → Except PyError Bool), ∃ t ∈ d.tracks,
    (∀ k, steps k t = .ok true) ∧
      ∀ n, (d.after steps n).stepped.length = n ∧ ∀ ts ∈ (d.after steps n).stepped, t ∉ ts := by
  refine ⟨⟨[py "a", py "b"], by decide, 15, 300, false⟩,
    fun _ t => if t = py "a" then .error .runtimeError else .ok true, py "b", by decide,
    fun _ => rfl, fun n => ?_⟩
  rw [(after_stepped _ _ n).1]
  refine ⟨by simp [Serving.begun], fun ts hts => ?_⟩
  obtain ⟨k, -, rfl⟩ := List.mem_map.1 hts
  decide

end Daemon

end IcilOrchestrator
