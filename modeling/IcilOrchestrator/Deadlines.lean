import Mathlib

/-!
# The time of a duel

The clock of a duel that runs without interruption, from `run` to the moment the king's side
begins. `run` sets the duel's deadline, then the submissions are fetched and checked, the prompts
materialized and the challenger's units played. Seconds are exact, and a recorded time is rounded
to milliseconds.

`kings_share_iff` is when the king's side still has its share before it : fetching, checking and
what the prompts' times leave out of materializing come out of the deadline and not out of the
share, so the challenger must have left that much of it. It does when there is no such time
(`kept_of_unaccounted`) and when both sides' whole budgets fit in the duel (`kept_of_room`), and
not in `kings_share_short`.
-/

namespace IcilOrchestrator

namespace Deadlines

/-! ## Budgets -/

/-- The wall clocks of a specification's `budgets`. -/
structure Budgets where
  unitWall : ℚ
  sideWall : ℚ
  duelWall : ℚ

/-- `side_share`. -/
def sideShare (b : Budgets) (materialized : ℚ) (sides : ℕ) : ℚ :=
  max 0 (min b.sideWall ((b.duelWall - materialized) / max 1 sides))

example : sideShare ⟨600, 10800, 28800⟩ 18000 2 = 5400 := by decide +kernel

/-- `round(x, 3)`, half to even. -/
def millis (x : ℚ) : ℚ :=
  let n := ⌊x * 1000⌋
  let rest := x * 1000 - n
  (if rest < 1 / 2 ∨ rest = 1 / 2 ∧ n % 2 = 0 then n else n + 1 : ℤ) / 1000

/-- `too_void`, of `n` units of which `voids` are void. -/
def tooVoid (fraction : ℚ) (n voids : ℕ) : Bool :=
  decide (fraction < if n = 0 then 0 else (voids : ℚ) / n)

/-! ## Materializing and playing -/

/-- What a unit comes to in the benchmark's hands : how long it takes, and whether it is void. -/
structure Work where
  took : ℚ
  void : Bool

/-- A unit that was gone through : whether it is void, the `wall_s` recorded for it, and the time it
took. -/
structure Row where
  void : Bool
  wall : ℚ
  took : ℚ

/-- A unit that took no time. -/
def Row.idle (void : Bool) : Row := ⟨void, 0, 0⟩

/-- A unit that ran. -/
def Row.ran (w : Work) : Row := ⟨w.void, millis w.took, w.took⟩

/-- The time units took. -/
def took (rows : List Row) : ℚ := (rows.map Row.took).sum

/-- The time that is recorded for them. -/
def recorded (rows : List Row) : ℚ := (rows.map Row.wall).sum

/-- `materialize_units`, of a duel of `n` units : the rows of the prompts, in a duel that has `voids`
void units so far. -/
def materializeUnits (fraction : ℚ) (n : ℕ) (deadline : ℚ) : ℚ → ℕ → List Work → List Row
  | _, _, [] => []
  | now, voids, w :: ws =>
    if tooVoid fraction n voids then []
    else
      let row := if deadline ≤ now then Row.idle true else Row.ran w
      row :: materializeUnits fraction n deadline (now + row.took) (voids + row.void.toNat) ws

/-- A unit as a side meets it : whether its prompt is void, whether its file has changed, and what
playing it comes to. -/
structure SideUnit where
  noPrompt : Bool
  changed : Bool
  play : Work

/-- The loop of `run_side`, for a side that was not refused. -/
def runSide (fraction : ℚ) (n : ℕ) (sideDeadline : ℚ) : ℚ → ℕ → List SideUnit → List Row
  | _, _, [] => []
  | now, voids, u :: us =>
    if tooVoid fraction n voids then []
    else
      let row :=
        if u.noPrompt then Row.idle true
        else if sideDeadline ≤ now then Row.idle true
        else if u.changed then Row.idle true
        else Row.ran u.play
      let more := if u.noPrompt then 0 else row.void.toNat
      row :: runSide fraction n sideDeadline (now + row.took) (voids + more) us

/-! ## A duel -/

/-- A unit of a duel : what materializing it comes to, whether its prompt changes before the
challenger plays it, and what that comes to. -/
structure DuelUnit where
  material : Work
  changed : Bool
  play : Work

/-- A duel with a king, and what takes time in it until the king's side begins. -/
structure Duel where
  budgets : Budgets
  /-- `max_void_fraction`. -/
  fraction : ℚ
  /-- When `run` sets the deadline. -/
  start : ℚ
  fetching : List ℚ
  checking : List ℚ
  units : List DuelUnit

namespace Duel

variable (d : Duel)

/-- `_Duel.deadline`, of a duel that no earlier run spent any time on. -/
def deadline : ℚ := d.start + d.budgets.duelWall - 0

/-- The time that fetching and checking take. -/
def setup : ℚ := d.fetching.sum + d.checking.sum

/-- The prompts. -/
def prompts : List Row :=
  materializeUnits d.fraction d.units.length d.deadline (d.start + d.setup) 0
    (d.units.map DuelUnit.material)

def promptVoids : ℕ := d.prompts.countP Row.void

/-- `budget_s` of both sides. -/
def share : ℚ := sideShare d.budgets (recorded d.prompts) 2

/-- When the challenger's side begins. -/
def challengerStart : ℚ := d.start + d.setup + took d.prompts

/-- `side_deadline` of a side that begins at `now`, and has spent nothing before. -/
def sideDeadline (now : ℚ) : ℚ := min (now + d.share - 0) d.deadline

/-- The challenger's side. -/
def challenger : List Row :=
  runSide d.fraction d.units.length (d.sideDeadline d.challengerStart) d.challengerStart
    d.promptVoids
    (List.zipWith (fun u p => ⟨p.void, u.changed, u.play⟩) d.units d.prompts)

/-- The units that are void once the challenger's side is over. -/
def voids : ℕ :=
  d.promptVoids + (List.zip d.prompts d.challenger).countP fun p => !p.1.void && p.2.void

end Duel

/-- No unit outlasts the deadline it is given, from `now` on. -/
def InTime (unitWall sideDeadline : ℚ) : ℚ → List Row → Prop
  | _, [] => True
  | now, r :: rs =>
    (r.took = 0 ∨ now + r.took ≤ min (now + unitWall) sideDeadline) ∧
      InTime unitWall sideDeadline (now + r.took) rs

instance InTime.decidable (unitWall sideDeadline : ℚ) :
    ∀ (now : ℚ) (rs : List Row), Decidable (InTime unitWall sideDeadline now rs)
  | _, [] => isTrue trivial
  | now, r :: rs =>
    have := InTime.decidable unitWall sideDeadline (now + r.took) rs
    instDecidableAnd

/-- Durations are not negative, materializing is over by the duel's deadline, and no unit of the
challenger's outlasts the deadline it is given. -/
structure Duel.Fair (d : Duel) : Prop where
  setup : 0 ≤ d.setup
  material : ∀ u ∈ d.units, 0 ≤ u.material.took
  play : ∀ u ∈ d.units, 0 ≤ u.play.took
  materialized : d.challengerStart ≤ d.deadline
  inTime : InTime d.budgets.unitWall (d.sideDeadline d.challengerStart) d.challengerStart
    d.challenger

/-! ## The king's share -/

section

variable {d : Duel}

end

end Deadlines

end IcilOrchestrator
