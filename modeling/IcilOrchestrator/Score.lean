import Mathlib
import IcilOrchestrator.Store

/-!
# The crown rule

`score.py` over exact rationals : a side's rate on a skill is its successes over the rows that
are not void and that it was scored on, its score the mean of the rates it has, and the
challenger takes the crown when its score reaches the king's and the margin.

The loop of `skill_rate` counts rows (`counts_eq`), so that nothing depends on the order of the
rows or on a void row (`verdict_same`), and a success more never lowers a side's score
(`average_mono`). `crown_laws` has the laws of the rule together.
-/

set_option linter.unusedSectionVars false

namespace IcilOrchestrator

open Python

namespace Score

variable {F : Type} [PyFloat F]

/-! ## Rates -/

/-- `f"{side}_success"`. -/
def successKey (side : PyStr) : PyStr := side ++ py "_success"

/-- `side_success`. -/
def sideSuccess (u : Dict F) (side : PyStr) : Option Bool :=
  match u.get (successKey side) with
  | .bool b => some b
  | _ => none

/-- `u.get("void")`, as a condition. -/
def isVoid (u : Dict F) : Bool := (u.get (py "void")).truthy

/-- `u.get("skill") == skill`. -/
def ofSkill (skill : PyStr) (u : Dict F) : Bool := (u.get (py "skill")).pyEq (.str skill)

/-- `scored` and `successes` of the loop in `skill_rate`. -/
structure Counts where
  scored : ℕ
  successes : ℕ
deriving DecidableEq

/-- One row of the loop. -/
def Counts.add (side skill : PyStr) (c : Counts) (u : Dict F) : Counts :=
  if !ofSkill skill u || isVoid u then c
  else
    match sideSuccess u side with
    | none => c
    | some s => ⟨c.scored + 1, c.successes + s.toNat⟩

/-- The loop of `skill_rate`. -/
def counts (units : List (Dict F)) (side skill : PyStr) : Counts :=
  units.foldl (Counts.add side skill) ⟨0, 0⟩

/-- `skill_rate`. -/
def skillRate (units : List (Dict F)) (side skill : PyStr) : Option ℚ :=
  let c := counts units side skill
  if c.scored = 0 then none else some (c.successes / c.scored)

/-- A side's rates under their skills, and its score under `average`. -/
abbrev Scores := AList fun _ : PyStr => Option ℚ

/-- `scores.get(key)`. -/
def Scores.get (scores : Scores) (key : PyStr) : Option ℚ := (scores.lookup key).join

/-- `average`. -/
def average (perSkill : Scores) (skills : List PyStr) : Option ℚ :=
  let present := skills.filterMap perSkill.get
  if present = [] then none else some (present.sum / present.length)

/-- The rate of each skill. -/
def skillRates (units : List (Dict F)) (side : PyStr) (skills : List PyStr) : Scores :=
  skills.foldl (fun per s => per.insert s (skillRate units side s)) ∅

/-- `skill_scores`. -/
def skillScores (units : List (Dict F)) (side : PyStr) (skills : List PyStr) : Scores :=
  let per := skillRates units side skills
  per.insert (py "average") (average per skills)

/-! ## The verdict -/

/-- `SCORE_EPSILON`. -/
def scoreEpsilon : ℚ := 1 / 10 ^ 9

/-- `crown_moves`. -/
def crownMoves (king challenger : Option ℚ) (marginPoints : ℚ) : Bool :=
  match king, challenger with
  | some k, some c => decide (k + marginPoints / 100 - scoreEpsilon ≤ c)
  | _, _ => false

/-- `void_fraction`. -/
def voidFraction (units : List (Dict F)) : ℚ :=
  if units = [] then 0 else (units.countP isVoid : ℚ) / units.length

/-- `too_void`. -/
def tooVoid (units : List (Dict F)) (maxVoidFraction : ℚ) : Bool :=
  decide (maxVoidFraction < voidFraction units)

/-- What `paired_outcome` returns. -/
inductive Outcome where
  | challenger
  | king
  | tie
deriving DecidableEq

/-- `paired_outcome`. -/
def pairedOutcome (kingSuccess challengerSuccess : Option Bool) : Outcome :=
  match kingSuccess, challengerSuccess with
  | some k, some c => if k = c then .tie else if c then .challenger else .king
  | _, _ => .tie

/-- `Tally`. -/
structure Tally where
  units : ℕ
  wins : ℕ
  losses : ℕ
  ties : ℕ
  decided : ℕ
  void : ℕ
deriving DecidableEq

/-- One row of the loop in `tally`. -/
def Tally.add (t : Tally) (u : Dict F) : Tally :=
  let t := { t with units := t.units + 1 }
  if isVoid u then { t with void := t.void + 1 }
  else
    match pairedOutcome (sideSuccess u (py "king")) (sideSuccess u (py "challenger")) with
    | .challenger => { t with wins := t.wins + 1 }
    | .king => { t with losses := t.losses + 1 }
    | .tie => { t with ties := t.ties + 1 }

/-- `tally`. -/
def tally (units : List (Dict F)) : Tally :=
  let t := units.foldl Tally.add ⟨0, 0, 0, 0, 0, 0⟩
  { t with decided := t.wins + t.losses }

/-- Why the crown moved or stayed. -/
inductive Reason where
  | marginMet
  | shortOfMargin
  | unscored
  | noUnits
deriving DecidableEq

/-- `Verdict`. -/
structure Verdict where
  kingScores : Scores
  challengerScores : Scores
  scoreMargin : ℚ
  dethroned : Bool
  reason : Reason
  voidFraction : ℚ
  tally : Tally

/-- `verdict`. -/
def verdict (units : List (Dict F)) (scoreMargin : ℚ) (skills : List PyStr) : Verdict :=
  let king := skillScores units (py "king") skills
  let challenger := skillScores units (py "challenger") skills
  let moves :=
    crownMoves (king.get (py "average")) (challenger.get (py "average")) scoreMargin
  let reason :=
    if units = [] then Reason.noUnits
    else if king.get (py "average") = none ∨ challenger.get (py "average") = none then .unscored
    else if moves then .marginMet else .shortOfMargin
  ⟨king, challenger, scoreMargin, moves, reason, voidFraction units, tally units⟩

/-! ## What the loop counts -/

/-- A row that the rate of a side on a skill is over. -/
def isScored (side skill : PyStr) (u : Dict F) : Bool :=
  ofSkill skill u && !isVoid u && (sideSuccess u side).isSome

/-- A row that the side succeeded on. -/
def isSuccess (side skill : PyStr) (u : Dict F) : Bool :=
  ofSkill skill u && !isVoid u && sideSuccess u side == some true

variable {units units' : List (Dict F)} {side skill : PyStr}

theorem add_eq (c : Counts) (u : Dict F) :
    c.add side skill u =
      ⟨c.scored + (isScored side skill u).toNat, c.successes + (isSuccess side skill u).toNat⟩ := by
  unfold Counts.add isScored isSuccess
  cases ofSkill skill u <;> cases isVoid u <;> cases sideSuccess u side <;> simp

theorem counts_eq (units : List (Dict F)) (side skill : PyStr) :
    counts units side skill =
      ⟨units.countP (isScored side skill), units.countP (isSuccess side skill)⟩ := by
  induction units using List.reverseRecOn with
  | nil => rfl
  | append_singleton units u ih =>
    rw [counts, List.foldl_append, ← counts, ih, List.foldl_cons, List.foldl_nil, add_eq,
      List.countP_append, List.countP_append, List.countP_singleton, List.countP_singleton]
    cases isScored side skill u <;> cases isSuccess side skill u <;> rfl

/-- The rows that are not void. -/
def scoredRows (units : List (Dict F)) : List (Dict F) := units.filter fun u => !isVoid u

/-- Only the rows that are not void count. -/
theorem counts_scoredRows (units : List (Dict F)) (side skill : PyStr) :
    counts (scoredRows units) side skill = counts units side skill := by
  have hscored : ∀ u : Dict F, (isScored side skill u && !isVoid u) = isScored side skill u :=
    fun u => by cases h : isVoid u <;> simp [isScored, h]
  have hsuccess : ∀ u : Dict F, (isSuccess side skill u && !isVoid u) = isSuccess side skill u :=
    fun u => by cases h : isVoid u <;> simp [isSuccess, h]
  rw [counts_eq, counts_eq, scoredRows, List.countP_filter, List.countP_filter]
  simp only [hscored, hsuccess]

theorem counts_congr (h : (scoredRows units).Perm (scoredRows units')) (side skill : PyStr) :
    counts units side skill = counts units' side skill := by
  rw [← counts_scoredRows units, ← counts_scoredRows units', counts_eq, counts_eq,
    h.countP_eq, h.countP_eq]

/-! ## Scores -/

theorem get_skillRates (units : List (Dict F)) (side : PyStr) {skills : List PyStr} {s : PyStr}
    (hs : s ∈ skills) : (skillRates units side skills).get s = skillRate units side s := by
  induction skills using List.reverseRecOn with
  | nil => exact absurd hs List.not_mem_nil
  | append_singleton skills t ih =>
    rw [skillRates, List.foldl_append, ← skillRates, List.foldl_cons, List.foldl_nil, Scores.get]
    by_cases hst : s = t
    · subst hst
      rw [AList.lookup_insert, Option.join_some]
    · rw [AList.lookup_insert_ne hst]
      exact ih (by simpa [hst] using hs)

theorem get_average (units : List (Dict F)) (side : PyStr) (skills : List PyStr) :
    (skillScores units side skills).get (py "average") =
      average (skillRates units side skills) skills := by
  rw [skillScores, Scores.get, AList.lookup_insert, Option.join_some]

/-- A side's scores come from its counts. -/
theorem skillScores_congr (h : ∀ skill, counts units side skill = counts units' side skill)
    (skills : List PyStr) : skillScores units side skills = skillScores units' side skills := by
  have hrate : skillRate units side = skillRate units' side := by
    funext skill
    rw [skillRate, skillRate, h]
  rw [skillScores, skillScores, skillRates, skillRates, hrate]

/-- A rate with more successes over as many rows is no lower. -/
theorem skillRate_mono (hscored : (counts units side skill).scored =
      (counts units' side skill).scored)
    (hsuccesses : (counts units side skill).successes ≤ (counts units' side skill).successes) :
    Option.Rel (· ≤ ·) (skillRate units side skill) (skillRate units' side skill) := by
  rw [skillRate, skillRate, hscored]
  split_ifs
  · exact Option.Rel.none
  · refine Option.Rel.some ?_
    gcongr

/-- The mean of higher rates of the same skills is no lower. -/
theorem average_mono {per per' : Scores} {skills : List PyStr}
    (h : ∀ s ∈ skills, Option.Rel (· ≤ ·) (per.get s) (per'.get s)) :
    Option.Rel (· ≤ ·) (average per skills) (average per' skills) := by
  have hpresent : List.Forall₂ (· ≤ ·) (skills.filterMap per.get) (skills.filterMap per'.get) := by
    induction skills with
    | nil => exact List.Forall₂.nil
    | cons s skills ih =>
      have hskills := ih fun t ht => h t (List.mem_cons_of_mem _ ht)
      have hs := h s List.mem_cons_self
      rw [List.filterMap_cons, List.filterMap_cons]
      generalize per.get s = rate, per'.get s = rate' at hs
      cases hs with
      | some hle => exact List.Forall₂.cons hle hskills
      | none => exact hskills
  have hlength := hpresent.length_eq
  rw [average, average]
  by_cases hnil : skills.filterMap per.get = []
  · have hnil' : skills.filterMap per'.get = [] := by simpa [hnil] using hlength.symm
    rw [if_pos hnil, if_pos hnil']
    exact Option.Rel.none
  · have hnil' : skills.filterMap per'.get ≠ [] := by
      intro hnil'
      exact hnil (by simpa [hnil'] using hlength)
    rw [if_neg hnil, if_neg hnil', ← hlength]
    have hsum := hpresent.sum_le_sum
    refine Option.Rel.some ?_
    gcongr

/-! ## The crown -/

theorem crownMoves_iff {king challenger : Option ℚ} {margin : ℚ} :
    crownMoves king challenger margin = true ↔ ∃ k c, king = some k ∧ challenger = some c ∧
      k + margin / 100 - scoreEpsilon ≤ c := by
  cases king <;> cases challenger <;> simp [crownMoves]

/-- A lower king or a higher challenger does not lose the challenger the crown. -/
theorem crownMoves_mono {king king' challenger challenger' : Option ℚ} {margin : ℚ}
    (hking : Option.Rel (· ≤ ·) king' king)
    (hchallenger : Option.Rel (· ≤ ·) challenger challenger')
    (h : crownMoves king challenger margin = true) :
    crownMoves king' challenger' margin = true := by
  obtain ⟨k, c, rfl, rfl, hle⟩ := crownMoves_iff.1 h
  cases hking with
  | some hk =>
    cases hchallenger with
    | some hc =>
      refine crownMoves_iff.2 ⟨_, _, rfl, rfl, ?_⟩
      linarith

variable (margin : ℚ) (skills : List PyStr)

/-- The two verdicts have the same scores, and the crown moves in both or in neither. -/
def Verdict.Same (v w : Verdict) : Prop :=
  v.kingScores = w.kingScores ∧ v.challengerScores = w.challengerScores ∧ v.dethroned = w.dethroned

/-- The verdict is that of the rows that are not void, in any order. -/
theorem verdict_same (h : (scoredRows units).Perm (scoredRows units')) :
    (verdict units margin skills).Same (verdict units' margin skills) := by
  have hscores : ∀ side, skillScores units side skills = skillScores units' side skills :=
    fun side => skillScores_congr (counts_congr h side) skills
  unfold Verdict.Same verdict
  simp only [hscores, and_self]

/-! ## Rows that change -/

/-- The row, with a success of a void one altered. -/
def VoidAltered (u u' : Dict F) : Prop :=
  u' = u ∨ isVoid u = true ∧ ∃ side v, u' = u.set (successKey side) v

/-- The row, with a failure of the side on a row that is not void turned into a success. -/
def Turned (side : PyStr) (u u' : Dict F) : Prop :=
  u' = u ∨ isVoid u = false ∧ u.get (successKey side) = .bool false ∧
    u' = u.set (successKey side) (.bool true)

theorem get_set_of_ne {k k' : PyStr} (h : k' ≠ k) (u : Dict F) (v : Json F) :
    (u.set k' v).get k = u.get k := by
  rw [Dict.get, Dict.get, Dict.get?_set_of_ne h]

theorem successKey_ne (side : PyStr) {k : String} (h : ¬py "_success" <:+ py k) :
    successKey side ≠ py k :=
  fun heq => h ⟨side, heq⟩

theorem isVoid_set (u : Dict F) (side : PyStr) (v : Json F) :
    isVoid (u.set (successKey side) v) = isVoid u := by
  rw [isVoid, isVoid, get_set_of_ne (successKey_ne side (by decide))]

theorem ofSkill_set (u : Dict F) (side skill : PyStr) (v : Json F) :
    ofSkill skill (u.set (successKey side) v) = ofSkill skill u := by
  rw [ofSkill, ofSkill, get_set_of_ne (successKey_ne side (by decide))]

/-- Altering void rows leaves the rows that are not void. -/
theorem scoredRows_of_voidAltered (h : List.Forall₂ VoidAltered units units') :
    scoredRows units' = scoredRows units := by
  induction h with
  | nil => rfl
  | @cons u u' units units' hu h ih =>
    rcases hu with rfl | ⟨hvoid, side, v, rfl⟩
    · simp only [scoredRows, List.filter_cons] at ih ⊢
      rw [ih]
    · have hvoid' : isVoid (u.set (successKey side) v) = true := by rw [isVoid_set, hvoid]
      simp only [scoredRows, List.filter_cons, hvoid, hvoid'] at ih ⊢
      simpa using ih

/-- A turned row counts as before, and as a success when it did. -/
theorem turned_isScored {u u' : Dict F} (h : Turned side u u') :
    isScored side skill u' = isScored side skill u ∧
      (isSuccess side skill u = true → isSuccess side skill u' = true) := by
  rcases h with rfl | ⟨-, hfalse, rfl⟩
  · exact ⟨rfl, id⟩
  · have htrue : sideSuccess (u.set (successKey side) (.bool true)) side = some true := by
      rw [sideSuccess, Dict.get, Dict.get?_set_self, Option.getD_some]
    have hwas : sideSuccess u side = some false := by rw [sideSuccess, hfalse]
    simp [isScored, isSuccess, htrue, hwas, isVoid_set, ofSkill_set]

/-- A turned row counts for the other side as before. -/
theorem turned_other {other : PyStr} (hother : successKey side ≠ successKey other) {u u' : Dict F}
    (h : Turned side u u') :
    isScored other skill u' = isScored other skill u ∧
      isSuccess other skill u' = isSuccess other skill u := by
  rcases h with rfl | ⟨-, -, rfl⟩
  · exact ⟨rfl, rfl⟩
  · have hsame : sideSuccess (u.set (successKey side) (.bool true)) other = sideSuccess u other := by
      rw [sideSuccess, sideSuccess, get_set_of_ne hother]
    simp [isScored, isSuccess, hsame, isVoid_set, ofSkill_set]

/-- Rows turned one by one count no less. -/
theorem countP_le_of_forall₂ {R : Dict F → Dict F → Prop} {p q : Dict F → Bool}
    (h : List.Forall₂ R units units') (hR : ∀ u u', R u u' → p u = true → q u' = true) :
    units.countP p ≤ units'.countP q := by
  induction h with
  | nil => exact le_rfl
  | @cons u u' units units' hu h ih =>
    rw [List.countP_cons, List.countP_cons]
    by_cases hp : p u = true
    · rw [if_pos hp, if_pos (hR u u' hu hp)]
      omega
    · rw [if_neg hp]
      omega

theorem countP_eq_of_forall₂ {R : Dict F → Dict F → Prop} {p : Dict F → Bool}
    (h : List.Forall₂ R units units') (hR : ∀ u u', R u u' → p u' = p u) :
    units'.countP p = units.countP p :=
  (countP_le_of_forall₂ h.flip fun u' u hu hp => (hR u u' hu).symm.trans hp).antisymm
    (countP_le_of_forall₂ h fun u u' hu hp => (hR u u' hu).trans hp)

/-- A side's score is no lower once failures of it are turned. -/
theorem average_turned (h : List.Forall₂ (Turned side) units units') :
    Option.Rel (· ≤ ·) ((skillScores units side skills).get (py "average"))
      ((skillScores units' side skills).get (py "average")) := by
  rw [get_average, get_average]
  refine average_mono fun s hs => ?_
  rw [get_skillRates units side hs, get_skillRates units' side hs]
  refine skillRate_mono ?_ ?_
  · rw [counts_eq, counts_eq]
    exact (countP_eq_of_forall₂ h fun u u' hu => (turned_isScored hu).1).symm
  · rw [counts_eq, counts_eq]
    exact countP_le_of_forall₂ h fun u u' hu => (turned_isScored hu).2

/-- The other side's scores are what they were. -/
theorem skillScores_turned (other : PyStr) (hother : successKey side ≠ successKey other)
    (h : List.Forall₂ (Turned side) units units') :
    skillScores units' other skills = skillScores units other skills := by
  refine skillScores_congr (fun skill => ?_) skills
  rw [counts_eq, counts_eq, countP_eq_of_forall₂ h fun u u' hu => (turned_other hother hu).1,
    countP_eq_of_forall₂ h fun u u' hu => (turned_other hother hu).2]

theorem le_self (score : Option ℚ) : Option.Rel (· ≤ ·) score score := by
  cases score with
  | none => exact Option.Rel.none
  | some x => exact Option.Rel.some le_rfl

/-- More successes of the challenger never cost it the crown. -/
theorem dethroned_of_challenger_turned (h : List.Forall₂ (Turned (py "challenger")) units units')
    (hdethroned : (verdict units margin skills).dethroned = true) :
    (verdict units' margin skills).dethroned = true := by
  rw [verdict] at hdethroned ⊢
  rw [skillScores_turned skills (py "king") (by decide) h]
  exact crownMoves_mono (le_self _) (average_turned skills h) hdethroned

/-- More successes of the king never win the challenger the crown. -/
theorem dethroned_of_king_turned (h : List.Forall₂ (Turned (py "king")) units units')
    (hdethroned : (verdict units' margin skills).dethroned = true) :
    (verdict units margin skills).dethroned = true := by
  rw [verdict] at hdethroned ⊢
  rw [skillScores_turned skills (py "challenger") (by decide) h] at hdethroned
  exact crownMoves_mono (average_turned skills h) (le_self _) hdethroned

/-! ## Voiding a row -/

theorem scoredRows_void (xs ys : List (Dict F)) {row : Dict F} (h : isVoid row = true) :
    scoredRows (xs ++ row :: ys) = scoredRows (xs ++ ys) := by
  simp [scoredRows, h]

theorem isVoid_set_void (u : Dict F) {v : Json F} (hv : v.truthy = true) :
    isVoid (u.set (py "void") v) = true := by
  rw [isVoid, Dict.get, Dict.get?_set_self, Option.getD_some, hv]

/-- A row counts in the denominator of each side it was scored on, and a void one in none. -/
theorem scored_void (xs ys : List (Dict F)) (u : Dict F) {row : Dict F} (h : isVoid row = true) :
    (counts (xs ++ u :: ys) side skill).scored =
      (counts (xs ++ row :: ys) side skill).scored + (isScored side skill u).toNat := by
  have hrow : isScored side skill row = false := by simp [isScored, h]
  rw [counts_eq, counts_eq]
  simp only [List.countP_append, List.countP_cons, hrow]
  cases isScored side skill u with
  | true =>
    simp
    omega
  | false => simp

/-- The laws of the crown rule : a verdict is that of the rows that are not void, in any order, a
success more of the challenger never costs it the crown, one of the king never wins the
challenger it, and a row made void leaves the denominators of both sides. -/
theorem crown_laws (margin : ℚ) (skills : List PyStr) :
    (∀ units units' : List (Dict F), units.Perm units' →
      (verdict units margin skills).Same (verdict units' margin skills)) ∧
    (∀ (xs ys : List (Dict F)) (row : Dict F), isVoid row = true →
      (verdict (xs ++ row :: ys) margin skills).Same (verdict (xs ++ ys) margin skills)) ∧
    (∀ units units' : List (Dict F), List.Forall₂ VoidAltered units units' →
      (verdict units margin skills).Same (verdict units' margin skills)) ∧
    (∀ units units' : List (Dict F), List.Forall₂ (Turned (py "challenger")) units units' →
      (verdict units margin skills).dethroned = true →
        (verdict units' margin skills).dethroned = true) ∧
    (∀ units units' : List (Dict F), List.Forall₂ (Turned (py "king")) units units' →
      (verdict units' margin skills).dethroned = true →
        (verdict units margin skills).dethroned = true) ∧
    (∀ (xs ys : List (Dict F)) (u : Dict F) (v : Json F), v.truthy = true →
      let row := u.set (py "void") v
      (∀ side ∈ [py "challenger", py "king"], ∀ skill,
        (counts (xs ++ u :: ys) side skill).scored =
          (counts (xs ++ row :: ys) side skill).scored + (isScored side skill u).toNat ∧
        counts (xs ++ row :: ys) side skill = counts (xs ++ ys) side skill) ∧
      (verdict (xs ++ row :: ys) margin skills).Same (verdict (xs ++ ys) margin skills)) := by
  refine ⟨fun units units' h => ?_, fun xs ys row h => ?_, fun units units' h => ?_,
    fun units units' h => dethroned_of_challenger_turned margin skills h,
    fun units units' h => dethroned_of_king_turned margin skills h, fun xs ys u v hv => ?_⟩
  · exact verdict_same margin skills (h.filter _)
  · exact verdict_same margin skills (.of_eq (scoredRows_void xs ys h))
  · exact verdict_same margin skills (.of_eq (scoredRows_of_voidAltered h).symm)
  · have hvoid := isVoid_set_void u hv
    have hrows := scoredRows_void xs ys hvoid
    refine ⟨fun side _ skill => ⟨scored_void xs ys u hvoid, ?_⟩, ?_⟩
    · exact counts_congr (.of_eq hrows) side skill
    · exact verdict_same margin skills (.of_eq hrows)

end Score

end IcilOrchestrator
