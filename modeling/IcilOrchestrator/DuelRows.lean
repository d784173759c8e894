import Mathlib
import IcilOrchestrator.Score

/-!
# The rows of a duel

A duel publishes a row a unit. `Row.ofUnit` is the row before either side has run; the prompt of
the unit is put into it by `Row.onPrompt`, and what a side made of the unit by `Row.merge`. A unit
that is void for one side is void for both.

A duel that is run again merges what it finds in its journals. `rowOf` is the row of a prompt and
of the records of both sides, `rowOf_shape` what can come out, and `rowOf_void` when it is void.
`tally_rows` has the verdict count the rows as the published record does.
-/

set_option linter.unusedSectionVars false

namespace IcilOrchestrator

open Python

namespace DuelRun

variable {F : Type} [PyFloat F]

/-! ## Prompts and records -/

/-- A side of a duel. -/
inductive Side where
  | challenger
  | king
deriving DecidableEq

/-- `f"{side}"`. -/
def Side.text : Side → PyStr
  | .challenger => py "challenger"
  | .king => py "king"

/-- `_other`. -/
def Side.other : Side → Side
  | .challenger => .king
  | .king => .challenger

/-- A unit of a duel, by what its row takes of it. -/
structure UnitDef where
  unitId : PyStr
  skill : PyStr
  sceneSeed : Option ℤ

/-- What a prompt on this host is. -/
structure Made where
  sha256 : PyStr
  sceneSeed : Option ℤ
deriving DecidableEq

/-- `Prompt` : what it is, or why there is none. -/
structure Prompt where
  unitId : PyStr
  made : Except PyStr Made

/-- `void`. -/
def Prompt.void (p : Prompt) : Bool := p.made.toOption.isNone

/-- `sha256`. -/
def Prompt.sha256 (p : Prompt) : Option PyStr := p.made.toOption.map Made.sha256

/-- `Prompt.changed`, of a file that has this hash or cannot be read. -/
def Prompt.changed (p : Prompt) (file : Except PyStr PyStr) : Option PyStr :=
  match p.made, file with
  | .error _, _ => none
  | .ok _, .error exc => some (py "the prompt file cannot be read any more: " ++ exc)
  | .ok made, .ok found =>
    if found = made.sha256 then none
    else some (py "the prompt file changed after it was materialized (" ++ found.take 12 ++
      py "...)")

/-- A record of a side's results. -/
structure Record (F : Type) where
  unitId : PyStr
  success : Option Bool
  void : Bool
  steps : Option ℤ
  error : Option PyStr
  progress : Option F
  metric : Option F
  promptSha256 : Option PyStr

/-! ## Rows -/

/-- What a row says of one side. -/
structure Cells (F : Type) where
  success : Option Bool
  error : Option PyStr
  steps : Option ℤ
  progress : Option F
  metric : Option F

/-- What a row says of a side that has not run. -/
def Cells.none : Cells F := ⟨.none, .none, .none, .none, .none⟩

/-- A row of a duel. -/
structure Row (F : Type) where
  unitId : PyStr
  skill : PyStr
  sceneSeed : Option ℤ
  promptSha256 : Option PyStr
  king : Cells F
  challenger : Cells F
  outcome : Score.Outcome
  void : Bool

/-- `_rate`. -/
def rate (progress : Option F) : Option F :=
  progress.filter fun x => decide (0 ≤ PyFloat.val x ∧ PyFloat.val x ≤ 1)

namespace Row

/-- `unit_verdict_from_unit`, with `prompt_sha256`. -/
def ofUnit (u : UnitDef) : Row F where
  unitId := u.unitId
  skill := u.skill
  sceneSeed := u.sceneSeed
  promptSha256 := none
  king := .none
  challenger := .none
  outcome := .tie
  void := false

/-- The columns of a side. -/
def cells (row : Row F) : Side → Cells F
  | .challenger => row.challenger
  | .king => row.king

/-- The columns of a side are changed. -/
def onCells (side : Side) (f : Cells F → Cells F) (row : Row F) : Row F :=
  match side with
  | .challenger => { row with challenger := f row.challenger }
  | .king => { row with king := f row.king }

/-- `_on_prompt`. -/
def onPrompt (p : Prompt) (row : Row F) : Row F :=
  match p.made with
  | .error error =>
    { row with
      void := true
      king := { row.king with error := some error }
      challenger := { row.challenger with error := some error } }
  | .ok made =>
    { row with promptSha256 := some made.sha256, sceneSeed := made.sceneSeed.or row.sceneSeed }

/-- What a record says goes into its side's columns. -/
def fill (side : Side) (r : Record F) (row : Row F) : Row F :=
  if r.void then
    { row.onCells side fun cells => { cells with error := r.error, success := none } with
      void := true }
  else
    row.onCells side fun _ =>
      { success := some (r.success == some true)
        error := r.error
        steps := r.steps
        progress := rate r.progress
        metric := r.metric }

/-- The outcome of a row, once a record is in it. -/
def settle (row : Row F) : Row F :=
  if row.void then
    { row with
      king := { row.king with success := none }
      challenger := { row.challenger with success := none }
      outcome := .tie }
  else { row with outcome := Score.pairedOutcome row.king.success row.challenger.success }

/-- `_merge`. -/
def merge (side : Side) (row : Row F) (r : Record F) : Row F := (row.fill side r).settle

/-- `_as_king`. -/
def asKing (row : Row F) : Row F :=
  { row with king := row.challenger, challenger := .none, outcome := .tie }

/-- A text, or null. -/
def text (s : Option PyStr) : Json F := s.elim .null .str

/-- A success, or null. -/
def verdict (s : Option Bool) : Json F := s.elim .null .bool

/-- The row as it is published. -/
def dict (row : Row F) : Dict F :=
  [(py "unit_id", .str row.unitId), (py "skill", .str row.skill),
    (py "prompt_sha256", text row.promptSha256),
    (py "king_success", verdict row.king.success),
    (py "challenger_success", verdict row.challenger.success),
    (py "outcome", .str (outcomeText row.outcome)),
    (py "king_progress", row.king.progress.elim .null .float),
    (py "challenger_progress", row.challenger.progress.elim .null .float),
    (py "king_metric", row.king.metric.elim .null .float),
    (py "challenger_metric", row.challenger.metric.elim .null .float),
    (py "king_steps", row.king.steps.elim .null .int),
    (py "challenger_steps", row.challenger.steps.elim .null .int),
    (py "king_error", text row.king.error),
    (py "challenger_error", text row.challenger.error),
    (py "void", .bool row.void)]
where
  /-- What `paired_outcome` returns. -/
  outcomeText : Score.Outcome → PyStr
    | .challenger => py "challenger"
    | .king => py "king"
    | .tie => py "tie"

end Row

/-- `_Duel.row`, of which a row is changed ; none where there is no such row. -/
def onRow (unitId : PyStr) (f : Row F → Row F) : List (Row F) → Option (List (Row F))
  | [] => none
  | row :: rows =>
    if row.unitId = unitId then some (f row :: rows) else (onRow unitId f rows).map (row :: ·)

/-- `too_void`. -/
def tooVoid (maxVoidFraction : ℚ) (rows : List (Row F)) : Bool :=
  Score.tooVoid (rows.map Row.dict) maxVoidFraction

/-- The row of a unit, of its prompt and of what both sides made of it. -/
def rowOf (u : UnitDef) (p : Option Prompt) (c k : Option (Record F)) : Row F :=
  let row := p.elim (Row.ofUnit u) fun p => (Row.ofUnit u).onPrompt p
  let row := c.elim row (row.merge .challenger)
  k.elim row (row.merge .king)

/-! ## What a row is made of -/

section

variable {u : UnitDef} {row : Row F} {side : Side} {r : Record F} {p : Prompt}

@[simp] theorem unitId_onPrompt : (row.onPrompt p).unitId = row.unitId := by
  unfold Row.onPrompt
  split <;> rfl

@[simp] theorem unitId_merge : (row.merge side r).unitId = row.unitId := by
  cases side <;> simp only [Row.merge, Row.settle, Row.fill, Row.onCells] <;> split_ifs <;> rfl

@[simp] theorem skill_onPrompt : (row.onPrompt p).skill = row.skill := by
  unfold Row.onPrompt
  split <;> rfl

@[simp] theorem skill_merge : (row.merge side r).skill = row.skill := by
  cases side <;> simp only [Row.merge, Row.settle, Row.fill, Row.onCells] <;> split_ifs <;> rfl

@[simp] theorem promptSha256_merge : (row.merge side r).promptSha256 = row.promptSha256 := by
  cases side <;> simp only [Row.merge, Row.settle, Row.fill, Row.onCells] <;> split_ifs <;> rfl

@[simp] theorem void_merge : (row.merge side r).void = (row.void || r.void) := by
  cases side <;> cases hr : r.void <;> cases hrow : row.void <;>
    simp [Row.merge, Row.settle, Row.fill, Row.onCells, hr, hrow]

@[simp] theorem void_onPrompt : (row.onPrompt p).void = (row.void || p.void) := by
  unfold Row.onPrompt Prompt.void
  split <;> rename_i h <;> simp [h, Except.toOption]

/-- A row that is void, of which neither side has a success. -/
def Row.Voided (row : Row F) : Prop :=
  row.void = true ∧ row.king.success = none ∧ row.challenger.success = none ∧ row.outcome = .tie

/-- A row that both sides are scored on. -/
def Row.Scored (row : Row F) : Prop :=
  row.void = false ∧ ∃ k c, row.king.success = some k ∧ row.challenger.success = some c ∧
    row.outcome = Score.pairedOutcome (some k) (some c)

/-- A row that only the king is scored on. -/
def Row.Crowned (row : Row F) : Prop :=
  row.void = false ∧ (∃ k, row.king.success = some k) ∧ row.challenger.success = none ∧
    row.outcome = .tie

theorem merge_voided (h : (row.merge side r).void = true) : (row.merge side r).Voided := by
  have hfill : (row.fill side r).void = true := by
    by_contra hne
    simp [Row.merge, Row.settle, hne] at h
  simp [Row.merge, Row.settle, Row.Voided, hfill]

/-- The success that a record comes to. -/
def Record.scored (r : Record F) : Bool := r.success == some true

/-- The row is scored by the record on its side, and on the other as before. -/
theorem merge_scored (h : (row.merge side r).void = false) :
    ((row.merge side r).cells side).success = some r.scored ∧
      ((row.merge side r).cells side.other).success = (row.cells side.other).success ∧
      (row.merge side r).outcome = Score.pairedOutcome (row.merge side r).king.success
        (row.merge side r).challenger.success := by
  rw [void_merge, Bool.or_eq_false_iff] at h
  obtain ⟨hrow, hr⟩ := h
  cases side <;> simp [Row.merge, Row.settle, Row.fill, Row.onCells, Row.cells, Side.other,
    Record.scored, hrow, hr]

variable {c k : Record F}

@[simp] theorem unitId_rowOf (p : Option Prompt) (c k : Option (Record F)) :
    (rowOf u p c k).unitId = u.unitId := by
  cases p <;> cases c <;> cases k <;> simp [rowOf, Row.ofUnit]

@[simp] theorem skill_rowOf (p : Option Prompt) (c k : Option (Record F)) :
    (rowOf u p c k).skill = u.skill := by
  cases p <;> cases c <;> cases k <;> simp [rowOf, Row.ofUnit]

/-- A row is void when its prompt is, or what a side made of it. -/
theorem rowOf_void (p : Option Prompt) (c k : Option (Record F)) :
    (rowOf u p c k).void = (p.any Prompt.void || c.any Record.void || k.any Record.void) := by
  cases p <;> cases c <;> cases k <;> simp [rowOf, Row.ofUnit]

/-- Both sides are scored on a row or neither is. -/
theorem rowOf_shape (p : Option Prompt) :
    (rowOf u p (some c) (some k)).Voided ∨ (rowOf u p (some c) (some k)).Scored := by
  cases hvoid : (rowOf u p (some c) (some k)).void with
  | true => exact Or.inl (merge_voided hvoid)
  | false =>
    have hbefore : (rowOf u p (some c) none).void = false := by
      rw [rowOf_void] at hvoid ⊢
      simpa using (Bool.or_eq_false_iff.1 hvoid).1
    obtain ⟨hking, hother, houtcome⟩ := merge_scored hvoid
    have hking : (rowOf u p (some c) (some k)).king.success = some k.scored := hking
    have hchallenger : (rowOf u p (some c) (some k)).challenger.success = some c.scored :=
      hother.trans (merge_scored hbefore).1
    refine Or.inr ⟨hvoid, _, _, hking, hchallenger, ?_⟩
    rw [← hking, ← hchallenger]
    exact houtcome

/-- What the king made of a unit that is not void. -/
theorem king_rowOf (p : Option Prompt) (c : Option (Record F))
    (h : (rowOf u p c (some k)).void = false) :
    (rowOf u p c (some k)).king.success = some k.scored :=
  (merge_scored h).1

/-- The king alone is scored on a row of a genesis, or it is void. -/
theorem asKing_shape (p : Option Prompt) :
    (rowOf u p (some c) none).asKing.Voided ∨ (rowOf u p (some c) none).asKing.Crowned := by
  cases hvoid : (rowOf u p (some c) none).void with
  | true =>
    obtain ⟨-, -, hc, -⟩ := merge_voided hvoid
    exact Or.inl ⟨hvoid, hc, rfl, rfl⟩
  | false => exact Or.inr ⟨hvoid, ⟨_, (merge_scored hvoid).1⟩, rfl, rfl⟩

end

/-! ## Rows that are changed -/

/-- The row of a unit is changed, where no other has its id. -/
theorem onRow_map {us : List UnitDef} (hdistinct : (us.map UnitDef.unitId).Nodup)
    {g : UnitDef → Row F} (hg : ∀ u, (g u).unitId = u.unitId) (f : Row F → Row F) {u : UnitDef}
    (hu : u ∈ us) : onRow u.unitId f (us.map g) =
      some (us.map fun v => if v.unitId = u.unitId then f (g v) else g v) := by
  induction us with
  | nil => simp at hu
  | cons v us ih =>
    obtain ⟨hv, hdistinct⟩ := List.nodup_cons.1 hdistinct
    rw [List.map_cons, onRow, hg]
    by_cases heq : v.unitId = u.unitId
    · have hrest : ∀ w ∈ us, (if w.unitId = u.unitId then f (g w) else g w) = g w := fun w hw =>
        if_neg fun hwu => hv (by rw [heq, ← hwu]; exact List.mem_map_of_mem hw)
      rw [if_pos heq, List.map_cons, if_pos heq, List.map_congr_left hrest]
    · have hmem : u ∈ us := (List.mem_cons.1 hu).resolve_left fun h => heq (h ▸ rfl)
      rw [if_neg heq, ih hdistinct hmem, List.map_cons, if_neg heq]
      rfl

/-! ## Counting rows -/

section

variable (row : Row F) (rows : List (Row F))

@[simp] theorem isVoid_dict : Score.isVoid row.dict = row.void := rfl

@[simp] theorem sideSuccess_dict_king :
    Score.sideSuccess row.dict (py "king") = row.king.success := by
  have hget : row.dict.get (Score.successKey (py "king")) = Row.verdict row.king.success := rfl
  rw [Score.sideSuccess, hget]
  cases row.king.success <;> rfl

@[simp] theorem sideSuccess_dict_challenger :
    Score.sideSuccess row.dict (py "challenger") = row.challenger.success := by
  have hget : row.dict.get (Score.successKey (py "challenger")) =
    Row.verdict row.challenger.success := rfl
  rw [Score.sideSuccess, hget]
  cases row.challenger.success <;> rfl

@[simp] theorem ofSkill_dict (skill : PyStr) :
    Score.ofSkill skill row.dict = (row.skill == skill) := by
  have hget : row.dict.get (py "skill") = .str row.skill := rfl
  rw [Score.ofSkill, hget, Json.pyEq]

theorem voidFraction_dict : Score.voidFraction (rows.map Row.dict) =
    if rows = [] then 0 else (rows.countP Row.void : ℚ) / rows.length := by
  simp only [Score.voidFraction, List.map_eq_nil_iff, List.countP_map, List.length_map]
  rfl

variable {row rows}

/-- Rows more of which are void are too void when the others are. -/
theorem tooVoid_mono {maxVoidFraction : ℚ} {rows' : List (Row F)}
    (h : List.Forall₂ (fun row row' : Row F => row.void = true → row'.void = true) rows rows')
    (hvoid : tooVoid maxVoidFraction rows = true) : tooVoid maxVoidFraction rows' = true := by
  have hcount : rows.countP Row.void ≤ rows'.countP Row.void := by
    clear hvoid
    induction h with
    | nil => exact le_rfl
    | @cons row row' rows rows' hrow _ ih =>
      rw [List.countP_cons, List.countP_cons]
      split_ifs with h1 h2
      · omega
      · exact absurd (hrow h1) h2
      · omega
      · omega
  simp only [tooVoid, Score.tooVoid, decide_eq_true_eq, voidFraction_dict] at hvoid ⊢
  refine hvoid.trans_le ?_
  have hnil : rows = [] ↔ rows' = [] := by
    rw [← List.length_eq_zero_iff, ← List.length_eq_zero_iff, h.length_eq]
  rw [h.length_eq]
  by_cases hrows : rows = []
  · rw [if_pos hrows, if_pos (hnil.1 hrows)]
  · rw [if_neg hrows, if_neg fun h => hrows (hnil.2 h)]
    gcongr

/-- Both sides are scored on the rows of a skill that are not void. -/
theorem scored_rows (h : ∀ row ∈ rows, row.Voided ∨ row.Scored) (skill : PyStr) :
    ∀ side ∈ [py "king", py "challenger"],
      (Score.counts (rows.map Row.dict) side skill).scored =
        rows.countP fun row => row.skill == skill && !row.void := by
  intro side hside
  rw [Score.counts_eq, List.countP_map]
  refine List.countP_congr fun row hrow => ?_
  rcases h row hrow with hvoid | ⟨hvoid, k, c, hk, hc, -⟩
  · simp [Score.isScored, hvoid.1]
  · simp only [List.mem_cons, List.not_mem_nil, or_false] at hside
    rcases hside with rfl | rfl <;> simp [Score.isScored, hvoid, hk, hc]

/-- What a verdict and a record both count. -/
def counted (t : Score.Tally) : Tally := ⟨t.wins, t.losses, t.ties, t.void⟩

/-- A row is counted by its successes as by its outcome. -/
theorem counted_add (h : row.Voided ∨ row.Scored) (t : Score.Tally) :
    counted (t.add row.dict) = (counted t).add row.dict := by
  have hvoid : (row.dict.get (py "void")).truthy = row.void := rfl
  have houtcome : row.dict.get (py "outcome") = .str (Row.dict.outcomeText row.outcome) := rfl
  rcases h with hv | ⟨hv, k, c, hk, hc, ho⟩
  · simp [Score.Tally.add, Tally.add, counted, hvoid, hv.1]
  · cases k <;> cases c <;>
      simp [Score.Tally.add, Tally.add, counted, hvoid, houtcome, hv, hk, hc, ho,
        Score.pairedOutcome, Row.dict.outcomeText, isStr]

/-- The verdict and the record count the same. -/
theorem tally_rows (h : ∀ row ∈ rows, row.Voided ∨ row.Scored) :
    counted (Score.tally (rows.map Row.dict)) = unitTally (rows.map Row.dict) := by
  suffices hfold : ∀ t : Score.Tally, counted ((rows.map Row.dict).foldl Score.Tally.add t) =
      (rows.map Row.dict).foldl Tally.add (counted t) from hfold ⟨0, 0, 0, 0, 0, 0⟩
  induction rows with
  | nil => exact fun _ => rfl
  | cons row rows ih =>
    intro t
    rw [List.map_cons, List.foldl_cons, List.foldl_cons,
      ih (fun row' hrow => h row' (List.mem_cons_of_mem _ hrow)),
      counted_add (h row List.mem_cons_self)]

/-- Every row counts once. -/
theorem total_rows (units : List (Dict F)) :
    (unitTally units).wins + (unitTally units).losses + (unitTally units).ties +
      (unitTally units).void = units.length := by
  suffices hfold : ∀ t : Tally, (units.foldl Tally.add t).wins + (units.foldl Tally.add t).losses +
      (units.foldl Tally.add t).ties + (units.foldl Tally.add t).void =
        t.wins + t.losses + t.ties + t.void + units.length by
    rw [unitTally, hfold]
    simp
  induction units with
  | nil => exact fun _ => rfl
  | cons u units ih =>
    intro t
    rw [List.foldl_cons, ih, List.length_cons, Tally.add]
    split_ifs <;> simp only <;> omega

end

end DuelRun

end IcilOrchestrator
