import Mathlib
import IcilOrchestrator.JsonLoads

/-!
# Torn JSON

A text that `json.loads` takes for an object is not one any more when it is cut short
(`loads_of_prefix`). What the scanner takes leaves the brackets outside of strings as they were
(`scan_goes`), and an object is inside its own brackets at each of its characters but the last
(`Wraps`).
-/

namespace Python

/-! ## Brackets -/

/-- Where in a text a character stands. -/
inductive Mode where
  | text
  | string
  | escaped
deriving DecidableEq

/-- The brackets open at a character. -/
structure Nest where
  depth : ℤ
  mode : Mode
deriving DecidableEq

namespace Nest

/-- One character on. -/
def step (q : Nest) (c : ℕ) : Nest :=
  match q.mode with
  | .escaped => { q with mode := .string }
  | .string =>
    if c = 92 then { q with mode := .escaped }
    else if c = 34 then { q with mode := .text } else q
  | .text =>
    if c = 34 then { q with mode := .string }
    else if c = 91 ∨ c = 123 then { q with depth := q.depth + 1 }
    else if c = 93 ∨ c = 125 then { q with depth := q.depth - 1 } else q

/-- A text on. -/
def run (q : Nest) (s : PyStr) : Nest := s.foldl step q

@[simp] theorem run_nil (q : Nest) : q.run [] = q := rfl

@[simp] theorem run_cons (q : Nest) (c : ℕ) (s : PyStr) : q.run (c :: s) = (q.step c).run s := rfl

theorem run_append (q : Nest) (s t : PyStr) : q.run (s ++ t) = (q.run s).run t :=
  List.foldl_append

end Nest

/-- A prefix of two texts ends in the first or in the second. -/
theorem prefix_append_cases {α : Type*} {p s t : List α} (h : p <+: s ++ t) :
    p <+: s ∨ ∃ q, p = s ++ q ∧ q <+: t := by
  rcases List.prefix_or_prefix_of_prefix h (List.prefix_append s t) with hp | ⟨q, rfl⟩
  · exact Or.inl hp
  · exact Or.inr ⟨q, rfl, (List.prefix_append_right_inj s).1 h⟩

/-- The text leads from `m` to `m'` with as many brackets open as before, and never fewer. -/
def Goes (m m' : Mode) (t : PyStr) : Prop :=
  ∀ d : ℤ, Nest.run ⟨d, m⟩ t = ⟨d, m'⟩ ∧ ∀ p, p <+: t → d ≤ (Nest.run ⟨d, m⟩ p).depth

namespace Goes

variable {m m' m'' : Mode} {s t : PyStr} {c : ℕ}

theorem nil (m : Mode) : Goes m m [] := by
  refine fun d => ⟨rfl, fun p hp => ?_⟩
  rw [List.prefix_nil.1 hp, Nest.run_nil]

theorem append (hs : Goes m m' s) (ht : Goes m' m'' t) : Goes m m'' (s ++ t) := by
  intro d
  obtain ⟨hrun, hpre⟩ := hs d
  obtain ⟨hrun', hpre'⟩ := ht d
  refine ⟨by rw [Nest.run_append, hrun, hrun'], fun p hp => ?_⟩
  rcases prefix_append_cases hp with hp | ⟨q, rfl, hq⟩
  · exact hpre p hp
  · rw [Nest.run_append, hrun]
    exact hpre' q hq

/-- One character that opens and closes no bracket. -/
theorem single (h : ∀ d, Nest.step ⟨d, m⟩ c = ⟨d, m'⟩) : Goes m m' [c] := by
  refine fun d => ⟨h d, fun p hp => ?_⟩
  have hp : p <+: [] ++ [c] := hp
  rcases List.prefix_concat_iff.1 hp with rfl | hp
  · rw [List.nil_append, Nest.run_cons, h, Nest.run_nil]
  · rw [List.prefix_nil.1 hp, Nest.run_nil]

theorem cons (h : ∀ d, Nest.step ⟨d, m⟩ c = ⟨d, m'⟩) (ht : Goes m' m'' t) : Goes m m'' (c :: t) :=
  (single h).append ht

end Goes

/-- A character that is no bracket and no quote. -/
def Neutral (c : ℕ) : Prop := c ≠ 34 ∧ c ≠ 91 ∧ c ≠ 123 ∧ c ≠ 93 ∧ c ≠ 125

instance : DecidablePred Neutral := fun c => by
  unfold Neutral
  infer_instance

theorem Goes.neutral {t : PyStr} (h : ∀ c ∈ t, Neutral c) : Goes .text .text t := by
  induction t with
  | nil => exact .nil _
  | cons c t ih =>
    obtain ⟨h34, h91, h123, h93, h125⟩ := h c List.mem_cons_self
    exact .cons (fun d => by simp [Nest.step, h34, h91, h123, h93, h125])
      (ih fun x hx => h x (List.mem_cons_of_mem _ hx))

/-! ## Strings -/

theorem hexVal_ne {c v : ℕ} (h : hexVal c = some v) : c ≠ 34 ∧ c ≠ 92 := by
  constructor <;> rintro rfl <;> simp [hexVal] at h

/-- A plain character of a string. -/
theorem step_string {c : ℕ} (h : c ≠ 34 ∧ c ≠ 92) (d : ℤ) :
    Nest.step ⟨d, .string⟩ c = ⟨d, .string⟩ := by
  simp [Nest.step, h.1, h.2]

theorem step_backslash (d : ℤ) : Nest.step ⟨d, .string⟩ 92 = ⟨d, .escaped⟩ := rfl

theorem step_escaped (d : ℤ) (c : ℕ) : Nest.step ⟨d, .escaped⟩ c = ⟨d, .string⟩ := rfl

/-- `\uXXXX`. -/
theorem goes_hex4 {a b c d v : ℕ} (h : hexVal4 a b c d = some v) :
    Goes .string .string [92, 117, a, b, c, d] := by
  unfold hexVal4 at h
  split at h
  · rename_i ha hb hc hd
    exact .cons step_backslash (.cons (fun d => step_escaped d 117)
      (.cons (step_string (hexVal_ne ha)) (.cons (step_string (hexVal_ne hb))
        (.cons (step_string (hexVal_ne hc)) (.single (step_string (hexVal_ne hd)))))))
  · simp at h

theorem scanLow_goes {s r : PyStr} {v : ℕ} (h : scanLow s = some (v, r)) :
    ∃ t, s = t ++ r ∧ Goes .string .string t := by
  unfold scanLow at h
  split at h
  · split at h
    · rename_i hv
      split_ifs at h
      obtain ⟨rfl, rfl⟩ := Prod.mk.inj (Option.some.inj h)
      exact ⟨_, rfl, goes_hex4 hv⟩
    · simp at h
  · simp at h

theorem scanChar_goes {s r : PyStr} {c : ℕ} (h : scanChar s = some (c, r)) :
    ∃ t, s = t ++ r ∧ Goes .string .string t := by
  unfold scanChar at h
  split at h
  · split at h
    · simp at h
    · rename_i u hu
      have hhex := goes_hex4 hu
      split_ifs at h
      · split at h
        · rename_i hlow
          obtain ⟨rfl, rfl⟩ := Prod.mk.inj (Option.some.inj h)
          obtain ⟨t, rfl, ht⟩ := scanLow_goes hlow
          exact ⟨_, rfl, hhex.append ht⟩
        · obtain ⟨rfl, rfl⟩ := Prod.mk.inj (Option.some.inj h)
          exact ⟨_, rfl, hhex⟩
      · obtain ⟨rfl, rfl⟩ := Prod.mk.inj (Option.some.inj h)
        exact ⟨_, rfl, hhex⟩
  · rename_i e r' _
    obtain ⟨x, -, hxr⟩ := Option.map_eq_some_iff.1 h
    obtain ⟨rfl, rfl⟩ := Prod.mk.inj hxr
    exact ⟨[92, e], rfl, .cons step_backslash (.single fun d => step_escaped d e)⟩
  · rename_i x r' _ _
    split_ifs at h with hx
    obtain ⟨rfl, rfl⟩ := Prod.mk.inj (Option.some.inj h)
    exact ⟨[x], rfl, .single (step_string (by omega))⟩
  · simp at h

/-- A string ends where its closing quote is. -/
theorem scanBody_goes {n : ℕ} {s t r : PyStr} (h : scanBody n s = some (t, r)) :
    ∃ u, s = u ++ r ∧ Goes .string .text u := by
  induction n generalizing s t r with
  | zero => simp [scanBody] at h
  | succ n ih =>
    unfold scanBody at h
    split at h
    · simp at *
    · rename_i r' _ heq
      obtain ⟨rfl, rfl⟩ := Prod.mk.inj (Option.some.inj h)
      exact ⟨[34], rfl, .single fun d => rfl⟩
    · rename_i m hm _
      obtain rfl : n = m := Nat.succ.inj hm
      split at h
      · simp at h
      · rename_i c r' hchar
        obtain ⟨⟨t', r''⟩, hbody, heq⟩ := Option.map_eq_some_iff.1 h
        obtain ⟨rfl, rfl⟩ := Prod.mk.inj heq
        obtain ⟨u, rfl, hu⟩ := scanChar_goes hchar
        obtain ⟨w, rfl, hw⟩ := ih hbody
        exact ⟨u ++ w, (List.append_assoc _ _ _).symm, hu.append hw⟩

/-- A string with its quotes. -/
theorem scanString_goes {s t r : PyStr} (h : scanString s = some (t, r)) :
    ∃ u, s = u ++ r ∧ Goes .text .text (34 :: u) := by
  obtain ⟨u, hu, hgoes⟩ := scanBody_goes h
  exact ⟨u, hu, .cons (fun d => rfl) hgoes⟩

/-! ## Numbers and constants -/

/-- A text goes on after some characters that are neutral. -/
def Passes (s r : PyStr) : Prop := ∃ t, s = t ++ r ∧ ∀ c ∈ t, Neutral c

namespace Passes

variable {s r u : PyStr}

theorem refl (s : PyStr) : Passes s s := ⟨[], rfl, by simp⟩

theorem trans (h : Passes s r) (h' : Passes r u) : Passes s u := by
  obtain ⟨t, rfl, ht⟩ := h
  obtain ⟨t', rfl, ht'⟩ := h'
  refine ⟨t ++ t', (List.append_assoc _ _ _).symm, fun c hc => ?_⟩
  exact (List.mem_append.1 hc).elim (ht c) (ht' c)

theorem cons {c : ℕ} (hc : Neutral c) (h : Passes s r) : Passes (c :: s) r := by
  obtain ⟨t, rfl, ht⟩ := h
  refine ⟨c :: t, rfl, fun x hx => ?_⟩
  rcases List.mem_cons.1 hx with rfl | hx
  · exact hc
  · exact ht x hx

/-- A text goes on after the characters of a neutral kind. -/
theorem dropWhile {p : ℕ → Bool} (h : ∀ c, p c = true → Neutral c) (s : PyStr) :
    Passes s (s.dropWhile p) :=
  ⟨s.takeWhile p, List.takeWhile_append_dropWhile.symm, fun _ hc => h _ (List.mem_takeWhile_imp hc)⟩

theorem goes (h : Passes s r) : ∃ t, s = t ++ r ∧ Goes .text .text t := by
  obtain ⟨t, rfl, ht⟩ := h
  exact ⟨t, rfl, .neutral ht⟩

end Passes

theorem neutral_of_isDigit {c : ℕ} (h : isDigit c = true) : Neutral c := by
  simp only [isDigit, decide_eq_true_eq] at h
  unfold Neutral
  omega

theorem neutral_of_isWs {c : ℕ} (h : isWs c = true) : Neutral c := by
  simp only [isWs, Bool.or_eq_true, beq_iff_eq] at h
  unfold Neutral
  omega

theorem passes_digits (s : PyStr) : Passes s (s.dropWhile isDigit) :=
  .dropWhile (fun _ => neutral_of_isDigit) s

theorem passes_skipWs (s : PyStr) : Passes s (skipWs s) :=
  .dropWhile (fun _ => neutral_of_isWs) s

theorem stripPrefix_passes {p s r : PyStr} (hp : ∀ c ∈ p, Neutral c) (h : stripPrefix p s = some r) :
    Passes s r := by
  induction p generalizing s with
  | nil => exact Option.some.inj h ▸ .refl _
  | cons a p ih =>
    cases s with
    | nil => simp [stripPrefix] at h
    | cons b s =>
      rw [stripPrefix] at h
      split_ifs at h with hab
      subst hab
      exact .cons (hp a List.mem_cons_self) (ih (fun c hc => hp c (List.mem_cons_of_mem _ hc)) h)

theorem scanFrac_passes (s : PyStr) : Passes s (scanFrac s).2 := by
  unfold scanFrac
  split
  · split_ifs
    · exact .refl _
    · exact .cons (by decide) (passes_digits _)
  · exact .refl _

theorem scanSign_passes (s : PyStr) : Passes s (scanSign s).2 := by
  unfold scanSign
  split
  · exact .cons (by decide) (.refl _)
  · exact .cons (by decide) (.refl _)
  · exact .refl _

theorem scanExp_passes (s : PyStr) : Passes s (scanExp s).2 := by
  unfold scanExp
  split
  · rename_i c s
    dsimp only
    split_ifs with hc
    · exact .refl _
    · refine .cons ?_ ((scanSign_passes _).trans (passes_digits _))
      rcases hc with rfl | rfl <;> decide
    · exact .refl _
  · exact .refl _

theorem scanNumber_passes {s r : PyStr} {l : NumLit} (h : scanNumber s = some (l, r)) :
    Passes s r := by
  have htail : Passes s (if (s.head? = some 45 : Bool) then s.tail else s) := by
    split_ifs with hneg
    · cases s with
      | nil => exact .refl _
      | cons c s =>
        obtain rfl : c = 45 := by simpa using hneg
        exact .cons (by decide) (.refl _)
    · exact .refl _
  obtain ⟨⟨i, r'⟩, hint, hr⟩ := Option.map_eq_some_iff.1 h
  have hr' : Passes s r' := by
    refine htail.trans ?_
    split at hint
    · rename_i heq
      rw [heq]
      obtain ⟨rfl, rfl⟩ := Prod.mk.inj (Option.some.inj hint)
      exact .cons (by decide) (.refl _)
    · rename_i heq
      rw [heq]
      split_ifs at hint with hdigit
      obtain ⟨rfl, rfl⟩ := Prod.mk.inj (Option.some.inj hint)
      exact .cons (neutral_of_isDigit hdigit) (passes_digits _)
    · simp at hint
  obtain ⟨rfl, rfl⟩ := Prod.mk.inj hr
  exact (hr'.trans (scanFrac_passes _)).trans (scanExp_passes _)

variable {F : Type} [PyFloat F]

theorem scanConstant_passes {constants : Bool} {s r : PyStr} {j : Json F}
    (h : scanConstant constants s = some (j, r)) : Passes s r := by
  have hnull : ∀ c ∈ py "null", Neutral c := by decide
  have htrue : ∀ c ∈ py "true", Neutral c := by decide
  have hfalse : ∀ c ∈ py "false", Neutral c := by decide
  have hnan : ∀ c ∈ py "NaN", Neutral c := by decide
  have hinf : ∀ c ∈ py "Infinity", Neutral c := by decide
  have hneg : ∀ c ∈ py "-Infinity", Neutral c := by decide
  unfold scanConstant at h
  split at h
  · rename_i hp
    obtain ⟨rfl, rfl⟩ := Prod.mk.inj (Option.some.inj h)
    exact stripPrefix_passes hnull hp
  split at h
  · rename_i hp
    obtain ⟨rfl, rfl⟩ := Prod.mk.inj (Option.some.inj h)
    exact stripPrefix_passes htrue hp
  split at h
  · rename_i hp
    obtain ⟨rfl, rfl⟩ := Prod.mk.inj (Option.some.inj h)
    exact stripPrefix_passes hfalse hp
  split at h
  · rename_i hp
    split_ifs at h
    obtain ⟨rfl, rfl⟩ := Prod.mk.inj (Option.some.inj h)
    exact stripPrefix_passes hnan hp
  split at h
  · rename_i hp
    split_ifs at h
    obtain ⟨rfl, rfl⟩ := Prod.mk.inj (Option.some.inj h)
    exact stripPrefix_passes hinf hp
  split at h
  · rename_i hp
    split_ifs at h
    obtain ⟨rfl, rfl⟩ := Prod.mk.inj (Option.some.inj h)
    exact stripPrefix_passes hneg hp
  split at h
  · rename_i hp
    obtain ⟨j', -, hjr⟩ := Option.map_eq_some_iff.1 h
    obtain ⟨rfl, rfl⟩ := Prod.mk.inj hjr
    exact scanNumber_passes hp
  · simp at h

/-! ## Values -/

/-- The text leaves its brackets as they were, and is inside of more at every character but
the last. -/
structure Wraps (t : PyStr) : Prop where
  ne_nil : t ≠ []
  goes : Goes .text .text t
  inside : ∀ (d : ℤ) (p : PyStr), p <+: t → p ≠ [] → p ≠ t → d < (Nest.run ⟨d, .text⟩ p).depth

/-- An array or an object is inside of its own brackets. -/
theorem wraps_bracket {a b : ℕ} (ha : a = 91 ∨ a = 123) (hb : b = 93 ∨ b = 125) {u : PyStr}
    (hu : Goes .text .text u) : Wraps (a :: (u ++ [b])) := by
  have hopen : ∀ d : ℤ, Nest.step ⟨d, .text⟩ a = ⟨d + 1, .text⟩ := by
    intro d
    rcases ha with rfl | rfl <;> rfl
  have hclose : ∀ d : ℤ, Nest.step ⟨d + 1, .text⟩ b = ⟨d, .text⟩ := by
    intro d
    rcases hb with rfl | rfl <;> simp [Nest.step]
  have hin : ∀ (d : ℤ) (p : PyStr), p <+: a :: (u ++ [b]) → p ≠ [] → p ≠ a :: (u ++ [b]) →
      d < (Nest.run ⟨d, .text⟩ p).depth := by
    intro d p hp hne hall
    obtain ⟨q, rfl⟩ : ∃ q, p = a :: q := by
      cases p with
      | nil => exact absurd rfl hne
      | cons x q => exact ⟨q, by rw [(List.cons_prefix_cons.1 hp).1]⟩
    have hq : q <+: u ++ [b] := (List.cons_prefix_cons.1 hp).2
    rcases List.prefix_concat_iff.1 hq with rfl | hq
    · exact absurd rfl hall
    · rw [Nest.run_cons, hopen]
      have := (hu (d + 1)).2 q hq
      omega
  refine ⟨by simp, fun d => ?_, hin⟩
  have hrun : Nest.run ⟨d, .text⟩ (a :: (u ++ [b])) = ⟨d, .text⟩ := by
    rw [Nest.run_cons, hopen, Nest.run_append, (hu (d + 1)).1, Nest.run_cons, hclose, Nest.run_nil]
  refine ⟨hrun, fun p hp => ?_⟩
  by_cases hne : p = []
  · subst hne
    exact le_rfl
  · by_cases hall : p = a :: (u ++ [b])
    · rw [hall, hrun]
    · exact (hin d p hp hne hall).le

/-- What follows whitespace and a character. -/
theorem eq_of_skipWs {s r : PyStr} {c : ℕ} (h : skipWs s = c :: r) :
    ∃ w, s = w ++ c :: r ∧ Goes .text .text w := by
  obtain ⟨w, hw, hgoes⟩ := (passes_skipWs s).goes
  exact ⟨w, h ▸ hw, hgoes⟩

/-- What is scanned leaves the brackets as they were, and what an array or an object is scanned
from is inside of them. -/
theorem scan_goes (constants : Bool) (n : ℕ) :
    (∀ (s r : PyStr) (j : Json F), scanValue constants n s = some (j, r) →
      ∃ t, s = t ++ r ∧ Goes .text .text t ∧ (s.head? = some 123 → Wraps t)) ∧
    (∀ (s r : PyStr) (js : List (Json F)), scanItems constants n s = some (js, r) →
      ∃ t, s = t ++ 93 :: r ∧ Goes .text .text t) ∧
    (∀ (s r : PyStr) (ps : List (PyStr × Json F)), scanMembers constants n s = some (ps, r) →
      ∃ t, s = t ++ 125 :: r ∧ Goes .text .text t) := by
  induction n with
  | zero => simp [scanValue, scanItems, scanMembers]
  | succ n ih =>
    obtain ⟨ihv, ihi, ihm⟩ := ih
    refine ⟨fun s r j h => ?_, fun s r js h => ?_, fun s r ps h => ?_⟩
    · cases s with
      | nil => simp [scanValue] at h
      | cons c s =>
        have hbracket : ∀ (b : ℕ) (w t r : PyStr), (c = 91 ∨ c = 123) → (b = 93 ∨ b = 125) →
            Goes .text .text w → Goes .text .text t → s = w ++ (t ++ b :: r) →
              ∃ u, c :: s = u ++ r ∧ Goes .text .text u ∧ ((c :: s).head? = some 123 → Wraps u) := by
          rintro b w t r hc hb hw ht rfl
          have hwraps := wraps_bracket hc hb (hw.append ht)
          exact ⟨_, by simp, hwraps.goes, fun _ => hwraps⟩
        rw [scanValue] at h
        split_ifs at h with h34 h91 hempty h123 hempty
        · obtain ⟨⟨t, r'⟩, hscan, heq⟩ := Option.map_eq_some_iff.1 h
          obtain ⟨rfl, rfl⟩ := Prod.mk.inj heq
          obtain ⟨u, rfl, hu⟩ := scanString_goes hscan
          subst h34
          exact ⟨34 :: u, rfl, hu, by simp⟩
        · obtain ⟨rfl, rfl⟩ := Prod.mk.inj (Option.some.inj h)
          obtain ⟨w, hw, hgoes⟩ := eq_of_skipWs (List.eq_cons_of_mem_head? (Option.mem_def.2 hempty))
          exact hbracket 93 w [] _ (Or.inl h91) (Or.inl rfl) hgoes (.nil _) hw
        · obtain ⟨⟨js, r'⟩, hscan, heq⟩ := Option.map_eq_some_iff.1 h
          obtain ⟨rfl, rfl⟩ := Prod.mk.inj heq
          obtain ⟨t, ht, hgoes⟩ := ihi _ _ _ hscan
          obtain ⟨w, hw, hw'⟩ := (passes_skipWs s).goes
          exact hbracket 93 w t _ (Or.inl h91) (Or.inl rfl) hw' hgoes (ht ▸ hw)
        · obtain ⟨rfl, rfl⟩ := Prod.mk.inj (Option.some.inj h)
          obtain ⟨w, hw, hgoes⟩ := eq_of_skipWs (List.eq_cons_of_mem_head? (Option.mem_def.2 hempty))
          exact hbracket 125 w [] _ (Or.inr h123) (Or.inr rfl) hgoes (.nil _) hw
        · obtain ⟨⟨ps, r'⟩, hscan, heq⟩ := Option.map_eq_some_iff.1 h
          obtain ⟨rfl, rfl⟩ := Prod.mk.inj heq
          obtain ⟨t, ht, hgoes⟩ := ihm _ _ _ hscan
          obtain ⟨w, hw, hw'⟩ := (passes_skipWs s).goes
          exact hbracket 125 w t _ (Or.inr h123) (Or.inr rfl) hw' hgoes (ht ▸ hw)
        · obtain ⟨t, ht, hgoes⟩ := (scanConstant_passes h).goes
          exact ⟨t, ht, hgoes, fun hhead => absurd (Option.some.inj hhead) h123⟩
    · rw [scanItems] at h
      split at h
      · simp at h
      · rename_i x r' hx
        obtain ⟨t, rfl, ht, -⟩ := ihv _ _ _ hx
        split at h
        · rename_i r'' heq
          obtain ⟨rfl, rfl⟩ := Prod.mk.inj (Option.some.inj h)
          obtain ⟨w, rfl, hw⟩ := eq_of_skipWs heq
          exact ⟨t ++ w, (List.append_assoc _ _ _).symm, ht.append hw⟩
        · rename_i r'' heq
          obtain ⟨⟨js', r3⟩, hscan, heq'⟩ := Option.map_eq_some_iff.1 h
          obtain ⟨rfl, rfl⟩ := Prod.mk.inj heq'
          obtain ⟨w, rfl, hw⟩ := eq_of_skipWs heq
          obtain ⟨u, hu, hgoes⟩ := ihi _ _ _ hscan
          obtain ⟨w', hw', hgoes'⟩ := (passes_skipWs r'').goes
          rw [hu] at hw'
          have hcomma : Goes .text .text (44 :: w') :=
            .cons (fun d => by simp [Nest.step]) hgoes'
          exact ⟨t ++ (w ++ (44 :: w' ++ u)), by simp [hw'], ht.append (hw.append (hcomma.append hgoes))⟩
        · simp at h
    · rw [scanMembers.eq_def] at h
      dsimp only at h
      split at h
      · rename_i s'
        split at h
        · simp at h
        · rename_i k r1 hk
          obtain ⟨t, rfl, ht⟩ := scanString_goes hk
          split at h
          · rename_i r2 heq2
            obtain ⟨w, rfl, hw⟩ := eq_of_skipWs heq2
            split at h
            · simp at h
            · rename_i v r3 hv
              obtain ⟨u, hu, hgoes, -⟩ := ihv _ _ _ hv
              obtain ⟨w', hw', hgoes'⟩ := (passes_skipWs r2).goes
              rw [hu] at hw'
              have hcolon : Goes .text .text (58 :: w') :=
                .cons (fun d => by simp [Nest.step]) hgoes'
              have hmember := ht.append (hw.append (hcolon.append hgoes))
              split at h
              · rename_i r4 heq4
                obtain ⟨rfl, rfl⟩ := Prod.mk.inj (Option.some.inj h)
                obtain ⟨w2, rfl, hw2⟩ := eq_of_skipWs heq4
                exact ⟨_, by simp [hw'], hmember.append hw2⟩
              · rename_i r4 heq4
                obtain ⟨⟨ps', r5⟩, hscan, heq'⟩ := Option.map_eq_some_iff.1 h
                obtain ⟨rfl, rfl⟩ := Prod.mk.inj heq'
                obtain ⟨w2, rfl, hw2⟩ := eq_of_skipWs heq4
                obtain ⟨u', hu', hgoes2⟩ := ihm _ _ _ hscan
                obtain ⟨w3, hw3, hgoes3⟩ := (passes_skipWs r4).goes
                rw [hu'] at hw3
                have hcomma : Goes .text .text (44 :: w3) :=
                  .cons (fun d => by simp [Nest.step]) hgoes3
                exact ⟨_, by simp [hw', hw3], hmember.append (hw2.append (hcomma.append hgoes2))⟩
              · simp at h
          · simp at h
      · simp at h

/-! ## Prefixes -/

/-- What `json.loads` takes for an object is one bracketed text and whitespace. -/
theorem loads_wraps {constants : Bool} {s : PyStr} {j : Json F} (hhead : s.head? = some 123)
    (h : loads constants s = some j) : ∃ t w, s = t ++ w ∧ Wraps t ∧ ∀ c ∈ w, isWs c = true := by
  have hskip : skipWs s = s := by
    cases s with
    | nil => simp at hhead
    | cons c s =>
      obtain rfl : c = 123 := by simpa using hhead
      exact skipWs_cons rfl s
  unfold loads at h
  rw [hskip] at h
  split at h
  · rename_i v r hv
    split_ifs at h with hr
    obtain ⟨t, ht, -, hwraps⟩ := (scan_goes constants _).1 _ _ _ hv
    exact ⟨t, r, ht, hwraps hhead, List.dropWhile_eq_nil_iff.1 hr⟩
  · simp at h

/-- The text of an object, cut anywhere, is not JSON. -/
theorem loads_of_prefix {constants constants' : Bool} {s p : PyStr} {j : Json F}
    (h : loads constants s = some j) (hhead : s.head? = some 123)
    (hlast : ∀ c ∈ s.getLast?, isWs c = false) (hp : p <+: s) (hne : p ≠ s) :
    loads (F := F) constants' p = none := by
  obtain ⟨t, w, rfl, ht, hw⟩ := loads_wraps hhead h
  obtain rfl : w = [] := by
    rcases List.eq_nil_or_concat w with rfl | ⟨w, c, rfl⟩
    · rfl
    · have hws := hw c (by simp)
      rw [hlast c (by simp)] at hws
      exact absurd hws (by simp)
  rw [List.append_nil] at hhead hp hne
  by_contra hsome
  obtain ⟨j', hj'⟩ := Option.ne_none_iff_exists'.1 hsome
  have hpne : p ≠ [] := by
    rintro rfl
    simp [loads, scanValue, skipWs] at hj'
  have hphead : p.head? = some 123 := by
    obtain ⟨q, rfl⟩ := hp
    rwa [List.head?_append_of_ne_nil _ hpne] at hhead
  obtain ⟨t', w', rfl, ht', -⟩ := loads_wraps hphead hj'
  have ht'p : t' <+: t := (List.prefix_append t' w').trans hp
  have ht'ne : t' ≠ t := by
    rintro rfl
    exact hne (hp.eq_of_length_le (by simp))
  have hdepth := ht.inside 0 t' ht'p ht'.ne_nil ht'ne
  rw [(ht'.goes 0).1] at hdepth
  exact absurd hdepth (by simp)

/-- The text of an object starts with its bracket, and ends with one. -/
theorem print_obj_ends (L : Layout) (d : ℕ) (kvs : Dict F) :
    (print L d (.obj kvs)).head? = some 123 ∧ (print L d (.obj kvs)).getLast? = some 125 := by
  cases kvs with
  | nil => simp [print]
  | cons p kvs =>
    obtain ⟨k, v⟩ := p
    rw [print]
    exact ⟨by simp, List.getLast?_concat⟩

end Python
