import Mathlib
import IcilOrchestrator.JsonText

/-!
# `json.loads` undoes `json.dumps`

`loads_print` : a value whose strings hold no surrogate pair and whose dicts have
distinct keys is read back from its text, in every layout. Such values (`Json.WF`) are
the ones a JSON text denotes. The proof follows the scanner : numbers
(`scanNumber_text`), strings (`scanString_quote`), the items of a list
(`scanItems_printItems`) and the members of a dict (`scanMembers_printMembers`), each
scanned off the text it starts and leaving what follows it.

The fuel of the scanner is the length of the text, and a value takes at most `size` of
it (`size_le_length_print`).
-/

namespace Python

/-! ## Where a number ends -/

/-- `s` does not start with a digit. -/
def NoDigit (s : PyStr) : Prop := ∀ c ∈ s.head?, isDigit c = false

/-- `s` does not go on with a number : what follows a value in JSON. -/
def Stop (s : PyStr) : Prop := ∀ c ∈ s.head?, isDigit c = false ∧ c ≠ 46 ∧ c ≠ 101 ∧ c ≠ 69

theorem Stop.noDigit {s : PyStr} (h : Stop s) : NoDigit s := fun c hc => (h c hc).1

theorem stop_nil : Stop [] := by simp [Stop]

theorem stop_cons {c : ℕ} {s : PyStr} (h : isDigit c = false ∧ c ≠ 46 ∧ c ≠ 101 ∧ c ≠ 69) :
    Stop (c :: s) := by simpa [Stop] using h

/-- Whitespace, a comma or a closing bracket ends a number. -/
theorem stop_append_ws {w : PyStr} (hw : ∀ c ∈ w, isWs c) {s : PyStr} (hs : Stop s) :
    Stop (w ++ s) := by
  cases w with
  | nil => exact hs
  | cons c w =>
    have hc := hw c (by simp)
    simp only [isWs, Bool.or_eq_true, beq_iff_eq] at hc
    apply stop_cons
    rcases hc with ((rfl | rfl) | rfl) | rfl <;> decide

theorem takeWhile_append_of_noDigit {ds s : PyStr} (hd : ∀ c ∈ ds, isDigit c) (hs : NoDigit s) :
    (ds ++ s).takeWhile isDigit = ds := by
  rw [List.takeWhile_append_of_pos hd]
  cases s with
  | nil => simp
  | cons c s =>
    have := hs c (by simp)
    simp [this]

theorem dropWhile_append_of_noDigit {ds s : PyStr} (hd : ∀ c ∈ ds, isDigit c) (hs : NoDigit s) :
    (ds ++ s).dropWhile isDigit = s := by
  rw [List.dropWhile_append_of_pos hd]
  cases s with
  | nil => simp
  | cons c s =>
    have := hs c (by simp)
    simp [this]

/-! ## Numbers -/

theorem isDigit_ne {c : ℕ} (h : isDigit c) : c ≠ 46 ∧ c ≠ 101 ∧ c ≠ 69 ∧ c ≠ 43 ∧ c ≠ 45 := by
  simp only [isDigit, decide_eq_true_eq] at h
  omega

theorem scanFrac_append {frac s : PyStr} (hf : ∀ c ∈ frac, isDigit c) (hs : NoDigit s)
    (hp : ∀ c ∈ s.head?, c ≠ 46) :
    scanFrac ((if frac = [] then [] else 46 :: frac) ++ s) = (frac, s) := by
  split_ifs with h
  · subst h
    cases s with
    | nil => rfl
    | cons c s =>
      have hc : c ≠ 46 := hp c (by simp)
      simp only [List.nil_append, scanFrac]
      split
      · rename_i heq
        exact absurd (List.cons.inj heq).1 hc
      · rfl
  · have ht := takeWhile_append_of_noDigit hf hs
    have hd := dropWhile_append_of_noDigit hf hs
    simp only [List.cons_append, scanFrac, ht, hd]
    rw [if_neg (by simpa using h)]

theorem scanSign_append {sign ds s : PyStr} (hsign : sign = [] ∨ sign = [43] ∨ sign = [45])
    (hne : ds ≠ []) (hd : ∀ c ∈ ds, isDigit c) : scanSign (sign ++ ds ++ s) = (sign, ds ++ s) := by
  rcases hsign with rfl | rfl | rfl
  · obtain ⟨c, ds, rfl⟩ := List.exists_cons_of_ne_nil hne
    obtain ⟨-, -, -, h43, h45⟩ := isDigit_ne (hd c (by simp))
    simp only [List.nil_append, List.cons_append, scanSign]
    split
    · rename_i heq
      exact absurd (List.cons.inj heq).1 h43
    · rename_i heq
      exact absurd (List.cons.inj heq).1 h45
    · rfl
  · rfl
  · rfl

theorem scanExp_append {exp s : PyStr}
    (he : exp = [] ∨ ∃ sign ds, exp = sign ++ ds ∧ (sign = [] ∨ sign = [43] ∨ sign = [45]) ∧
      ds ≠ [] ∧ ∀ c ∈ ds, isDigit c) (hs : Stop s) :
    scanExp ((if exp = [] then [] else 101 :: exp) ++ s) = (exp, s) := by
  rcases he with rfl | ⟨sign, ds, rfl, hsign, hne, hd⟩
  · simp only [if_true, List.nil_append]
    cases s with
    | nil => rfl
    | cons c s =>
      obtain ⟨-, -, h1, h2⟩ := hs c (by simp)
      simp [scanExp, h1, h2]
  · have ht := takeWhile_append_of_noDigit hd hs.noDigit
    have hdr := dropWhile_append_of_noDigit hd hs.noDigit
    rw [if_neg (by simp [hne])]
    simp only [List.cons_append, scanExp, scanSign_append hsign hne hd, ht, hdr, true_or, if_true]
    rw [if_neg (by simpa using hne)]

/-- A number is scanned off the text it starts, and leaves what follows it. -/
theorem scanNumber_text {l : NumLit} (hl : l.WF) {s : PyStr} (hs : Stop s) :
    scanNumber (l.text ++ s) = some (l, s) := by
  obtain ⟨c, int, hint⟩ := List.exists_cons_of_ne_nil hl.int_ne
  have hc : isDigit c := hl.int_digit c (by simp [hint])
  -- what follows the integer part starts with no digit
  have hexp : ∀ c ∈ ((if l.exp = [] then [] else 101 :: l.exp) ++ s).head?,
      isDigit c = false ∧ c ≠ 46 := by
    split_ifs
    · intro c hc
      exact ⟨(hs c hc).1, (hs c hc).2.1⟩
    · simp [isDigit]
  have hfrac : NoDigit ((if l.frac = [] then [] else 46 :: l.frac) ++
      ((if l.exp = [] then [] else 101 :: l.exp) ++ s)) := by
    split_ifs with hf he he
    · exact fun c hc => (hs c hc).1
    · simp [NoDigit, isDigit]
    all_goals simp [NoDigit, isDigit]
  have hscan := scanFrac_append hl.frac_digit (fun c hc => (hexp c hc).1) fun c hc => (hexp c hc).2
  have htext : l.text ++ s = (if l.neg then [45] else []) ++ (c :: int ++
      ((if l.frac = [] then [] else 46 :: l.frac) ++
        ((if l.exp = [] then [] else 101 :: l.exp) ++ s))) := by
    simp [NumLit.text, hint]
  have hneg : decide ((l.text ++ s).head? = some 45) = l.neg := by
    rw [htext]
    cases l.neg
    · simp only [Bool.false_eq_true, if_false, List.nil_append, List.cons_append, List.head?_cons,
        Option.some.injEq, decide_eq_false_iff_not]
      exact (isDigit_ne hc).2.2.2.2
    · simp
  have hrest : (if l.neg = true then (l.text ++ s).tail else l.text ++ s) = c :: int ++
      ((if l.frac = [] then [] else 46 :: l.frac) ++
        ((if l.exp = [] then [] else 101 :: l.exp) ++ s)) := by
    rw [htext]
    cases l.neg <;> simp
  unfold scanNumber
  simp only [hneg, hrest, List.cons_append]
  have hdigits : ∀ x ∈ int, isDigit x := fun x hx => hl.int_digit x (by simp [hint, hx])
  split
  · rename_i r heq
    obtain ⟨rfl, rfl⟩ := List.cons.inj heq
    have hnil : int = [] := by
      rcases hl.int_head with h | h
      · rw [hint] at h; exact (List.cons.inj h).2
      · exact absurd rfl (h 48 (by simp [hint]))
    subst hnil
    simp only [List.nil_append, Option.map_some, hscan, scanExp_append hl.exp_digit hs, ← hint]
  · rename_i c' r hne heq
    obtain ⟨rfl, rfl⟩ := List.cons.inj heq
    simp only [hc, if_true, Option.map_some, takeWhile_append_of_noDigit hdigits hfrac,
      dropWhile_append_of_noDigit hdigits hfrac, hscan, scanExp_append hl.exp_digit hs, ← hint]
  · rename_i heq
    exact absurd heq (by simp)

/-! ## Strings -/

/-- Code points, no high surrogate right before a low one : the strings a JSON text denotes. -/
def StrWF (s : PyStr) : Prop :=
  (∀ c ∈ s, c < 0x110000) ∧ s.IsChain fun a b => ¬(isHigh a ∧ isLow b)

theorem strWF_of_isAscii {s : PyStr} (h : IsAscii s) : StrWF s := by
  refine ⟨fun c hc => (h c hc).trans (by omega), ?_⟩
  induction s with
  | nil => exact .nil
  | cons a s ih =>
    obtain ⟨ha, hs⟩ := isAscii_cons.1 h
    refine List.isChain_cons.2 ⟨fun b _ hab => ?_, ih hs⟩
    have := hab.1
    simp only [isHigh, decide_eq_true_eq] at this
    omega

theorem hexVal_hexDigit {d : ℕ} (h : d < 16) : hexVal (hexDigit d) = some d := by
  unfold hexVal hexDigit
  split_ifs <;> first | omega | (congr 1; omega)

theorem hexVal4_hex4 {c : ℕ} (h : c < 0x10000) :
    hexVal4 (hexDigit (c / 4096 % 16)) (hexDigit (c / 256 % 16)) (hexDigit (c / 16 % 16))
      (hexDigit (c % 16)) = some c := by
  have hm : ∀ n, hexVal (hexDigit (n % 16)) = some (n % 16) :=
    fun n => hexVal_hexDigit (Nat.mod_lt _ (by omega))
  simp only [hexVal4, hm, Option.some.injEq]
  omega

/-- A character escaped as one `\u` sequence reads as itself, unless it is a high surrogate
with a low one after it. -/
theorem scanChar_hex4 {c : ℕ} (h : c < 0x10000) {t : PyStr} (ht : isHigh c → scanLow t = none) :
    scanChar (92 :: 117 :: hex4 c ++ t) = some (c, t) := by
  simp only [hex4, List.cons_append, List.nil_append, scanChar, hexVal4_hex4 h]
  split_ifs with hh
  · rw [ht hh]
  · rfl

theorem scanLow_hex4 {c : ℕ} (h : c < 0x10000) (t : PyStr) :
    scanLow (92 :: 117 :: hex4 c ++ t) = if isLow c then some (c, t) else none := by
  simp only [hex4, List.cons_append, List.nil_append, scanLow, hexVal4_hex4 h]

/-- A character is read back from its escape. -/
theorem scanChar_escape {c : ℕ} (hc : c < 0x110000) {t : PyStr}
    (ht : isHigh c → scanLow t = none) : scanChar (escape c ++ t) = some (c, t) := by
  unfold escape
  split_ifs with h1 h2 h3 h4 h5 h6 h7 h8 h9
  · subst h1; rfl
  · subst h2; rfl
  · subst h3; rfl
  · subst h4; rfl
  · subst h5; rfl
  · subst h6; rfl
  · subst h7; rfl
  · have hne : c ≠ 92 := h2
    simp only [List.cons_append, List.nil_append]
    unfold scanChar
    split
    · rename_i heq; exact absurd (List.cons.inj heq).1 hne
    · rename_i heq; exact absurd (List.cons.inj heq).1 hne
    · rename_i heq
      obtain ⟨rfl, rfl⟩ := List.cons.inj heq
      rw [if_neg (by omega)]
    · rename_i heq; simp at heq
  · exact scanChar_hex4 h9 ht
  · -- past the BMP : a high surrogate, then a low one
    have hhi : 0xD800 + (c - 0x10000) / 1024 < 0x10000 := by omega
    have hlo : 0xDC00 + (c - 0x10000) % 1024 < 0x10000 := by omega
    have hH : isHigh (0xD800 + (c - 0x10000) / 1024) = true := by
      simp only [isHigh, decide_eq_true_eq]; omega
    have hL : isLow (0xDC00 + (c - 0x10000) % 1024) = true := by
      simp only [isLow, decide_eq_true_eq]; omega
    have hlow := scanLow_hex4 hlo t
    simp only [List.cons_append, List.append_assoc] at hlow ⊢
    simp only [hex4, List.cons_append, List.nil_append, scanChar, hexVal4_hex4 hhi, hH, if_true]
    simp only [hex4, List.cons_append, List.nil_append, hL, if_true] at hlow
    rw [hlow]
    simp only [Option.some.injEq, Prod.mk.injEq, and_true]
    omega

/-- No escape of a character that is not a low surrogate starts with a low surrogate. -/
theorem scanLow_escape {c : ℕ} (hc : c < 0x110000) (hl : isLow c = false) (t : PyStr) :
    scanLow (escape c ++ t) = none := by
  unfold escape
  split_ifs with h1 h2 h3 h4 h5 h6 h7 h8 h9
  · subst h1; rfl
  · subst h2; rfl
  · subst h3; rfl
  · subst h4; rfl
  · subst h5; rfl
  · subst h6; rfl
  · subst h7; rfl
  · simp only [List.cons_append, List.nil_append]
    unfold scanLow
    split
    · rename_i heq; exact absurd (List.cons.inj heq).1 h2
    · rfl
  · rw [scanLow_hex4 h9, hl]; rfl
  · rw [List.append_assoc, scanLow_hex4 (by omega)]
    have : isLow (0xD800 + (c - 0x10000) / 1024) = false := by
      simp only [isLow, decide_eq_false_iff_not]; omega
    rw [this]; rfl

theorem scanLow_quote (t : PyStr) : scanLow (34 :: t) = none := rfl

/-- No escape starts with the closing quote. -/
theorem escape_ne_quote (c : ℕ) : ∃ a r, escape c = a :: r ∧ a ≠ 34 := by
  unfold escape
  split_ifs with h1
  all_goals first | exact ⟨_, _, rfl, by decide⟩ | exact ⟨_, _, rfl, h1⟩

theorem scanBody_flatMap_escape {s : PyStr} (hs : StrWF s) (rest : PyStr) :
    ∀ n, s.length < n → scanBody n (s.flatMap escape ++ 34 :: rest) = some (s, rest) := by
  induction s with
  | nil =>
    rintro (_ | n) hn
    · omega
    · rfl
  | cons c s ih =>
    obtain ⟨hlt, hch⟩ := hs
    have hs' : StrWF s := ⟨fun x hx => hlt x (by simp [hx]), hch.tail⟩
    have hlow : isHigh c → scanLow (s.flatMap escape ++ 34 :: rest) = none := by
      intro hh
      cases s with
      | nil => rfl
      | cons c' s =>
        have hc' : isLow c' = false := by
          have := (List.isChain_cons_cons.1 hch).1
          simpa [hh] using this
        rw [List.flatMap_cons, List.append_assoc]
        exact scanLow_escape (hlt c' (by simp)) hc' _
    rintro (_ | n) hn
    · omega
    · obtain ⟨a, r, hesc, ha⟩ := escape_ne_quote c
      have hscan := scanChar_escape (hlt c (by simp)) hlow
      rw [List.flatMap_cons, List.append_assoc]
      rw [hesc] at hscan ⊢
      rw [List.cons_append] at hscan ⊢
      unfold scanBody
      split
      · rename_i heq; omega
      · rename_i heq; exact absurd (List.cons.inj heq).1 ha
      · rename_i m _ heq
        obtain rfl : m = n := by omega
        rw [hscan]
        simp only [ih hs' m (by simpa using hn), Option.map_some]

theorem length_le_length_flatMap_escape (s : PyStr) : s.length ≤ (s.flatMap escape).length := by
  induction s with
  | nil => simp
  | cons c s ih =>
    obtain ⟨a, r, hesc, -⟩ := escape_ne_quote c
    simp only [List.flatMap_cons, List.length_append, List.length_cons, hesc]
    omega

/-- A string is read back from its text, and leaves what follows it. -/
theorem scanString_quote {s : PyStr} (hs : StrWF s) (rest : PyStr) :
    scanString (s.flatMap escape ++ 34 :: rest) = some (s, rest) := by
  apply scanBody_flatMap_escape hs
  have := length_le_length_flatMap_escape s
  simp only [List.length_append, List.length_cons]
  omega

/-! ## The text of any string -/

/-- `s` is written as a text that reads as `t`. -/
def StrReads (s t : PyStr) : Prop :=
  ∀ rest, scanString (s.flatMap escape ++ 34 :: rest) = some (t, rest)

/-- A run of whole escapes and of characters that need none. -/
inductive Escaped : PyStr → Prop where
  | nil : Escaped []
  | plain {c t} : c ≠ 34 → c ≠ 92 → 32 ≤ c → Escaped t → Escaped (c :: t)
  | short {e v t} : unescape e = some v → Escaped t → Escaped (92 :: e :: t)
  | unit {a b c d u t} : hexVal4 a b c d = some u → Escaped t →
      Escaped (92 :: 117 :: a :: b :: c :: d :: t)

theorem Escaped.hex4 (u : ℕ) {t : PyStr} (ht : Escaped t) :
    Escaped (92 :: 117 :: hex4 u ++ t) :=
  .unit (u := u % 0x10000) (by
    have h : ∀ d, hexVal (hexDigit (d % 16)) = some (d % 16) := fun d =>
      hexVal_hexDigit (Nat.mod_lt _ (by omega))
    simp only [hexVal4, h, Option.some.injEq]
    omega) ht

theorem Escaped.escape (c : ℕ) {t : PyStr} (ht : Escaped t) : Escaped (escape c ++ t) := by
  unfold Python.escape
  split_ifs with h1 h2 h3 h4 h5 h6 h7 h8 h9
  · exact .short (v := 34) rfl ht
  · exact .short (v := 92) rfl ht
  · exact .short (v := 8) rfl ht
  · exact .short (v := 12) rfl ht
  · exact .short (v := 10) rfl ht
  · exact .short (v := 13) rfl ht
  · exact .short (v := 9) rfl ht
  · exact .plain h1 h2 h8.1 ht
  · exact .hex4 c ht
  · rw [List.append_assoc]
    exact .hex4 _ (.hex4 _ ht)

theorem escaped_flatMap (s : PyStr) : Escaped (s.flatMap escape) := by
  induction s with
  | nil => exact .nil
  | cons c s ih => exact ih.escape c

theorem unescape_ne {e v : ℕ} (h : unescape e = some v) : e ≠ 117 := by
  rintro rfl
  simp [unescape] at h

/-- Whether a low surrogate is written next does not depend on what follows the string. -/
theorem Escaped.scanLow {t : PyStr} (ht : Escaped t) :
    (∀ rest, scanLow (t ++ 34 :: rest) = none) ∨
      ∃ v t', Escaped t' ∧ t'.length < t.length ∧
        ∀ rest, scanLow (t ++ 34 :: rest) = some (v, t' ++ 34 :: rest) := by
  cases ht with
  | nil => exact Or.inl fun _ => rfl
  | plain _ h92 _ _ =>
    refine Or.inl fun rest => ?_
    unfold Python.scanLow
    split
    · rename_i heq; exact absurd (List.cons.inj heq).1 h92
    · rfl
  | short he _ =>
    refine Or.inl fun rest => ?_
    unfold Python.scanLow
    split
    · rename_i heq
      exact absurd (List.cons.inj (List.cons.inj heq).2).1 (unescape_ne he)
    · rfl
  | @unit a b c d u t' hu ht' =>
    by_cases hlow : isLow u = true
    · refine Or.inr ⟨u, t', ht', by simp only [List.length_cons]; omega, fun rest => ?_⟩
      simp only [List.cons_append, Python.scanLow, hu, hlow, if_true]
    · refine Or.inl fun rest => ?_
      simp only [List.cons_append, Python.scanLow, hu, hlow, Bool.false_eq_true, if_false]

/-- One character is scanned off a run of escapes that is not empty. -/
theorem Escaped.scanChar {t : PyStr} (ht : Escaped t) (hne : t ≠ []) :
    ∃ c t', Escaped t' ∧ t'.length < t.length ∧
      ∀ rest, scanChar (t ++ 34 :: rest) = some (c, t' ++ 34 :: rest) := by
  cases ht with
  | nil => exact absurd rfl hne
  | @plain c t' h34 h92 h32 ht' =>
    refine ⟨c, t', ht', by simp, fun rest => ?_⟩
    rw [List.cons_append]
    unfold Python.scanChar
    split
    · rename_i heq; exact absurd (List.cons.inj heq).1 h92
    · rename_i heq; exact absurd (List.cons.inj heq).1 h92
    · rename_i heq
      obtain ⟨rfl, rfl⟩ := List.cons.inj heq
      rw [if_neg (by omega)]
    · rename_i heq; simp at heq
  | @short e v t' he ht' =>
    refine ⟨v, t', ht', by simp only [List.length_cons]; omega, fun rest => ?_⟩
    rw [List.cons_append, List.cons_append]
    unfold Python.scanChar
    split
    · rename_i heq
      exact absurd (List.cons.inj (List.cons.inj heq).2).1 (unescape_ne he)
    · rename_i heq
      obtain ⟨rfl, rfl⟩ := List.cons.inj (List.cons.inj heq).2
      rw [he, Option.map_some]
    · rename_i hno heq
      obtain ⟨rfl, rfl⟩ := List.cons.inj heq
      exact (hno _ _ rfl rfl).elim
    · rename_i heq; simp at heq
  | @unit a b c d u t' hu ht' =>
    by_cases hhigh : isHigh u = true
    · rcases ht'.scanLow with hnone | ⟨v, t'', ht'', hlen, hlow⟩
      · refine ⟨u, t', ht', by simp only [List.length_cons]; omega, fun rest => ?_⟩
        simp only [List.cons_append, Python.scanChar, hu, hhigh, if_true, hnone]
      · refine ⟨0x10000 + (u - 0xD800) * 1024 + (v - 0xDC00), t'', ht'',
          by simp only [List.length_cons]; omega, fun rest => ?_⟩
        simp only [List.cons_append, Python.scanChar, hu, hhigh, if_true, hlow]
    · refine ⟨u, t', ht', by simp only [List.length_cons]; omega, fun rest => ?_⟩
      simp only [List.cons_append, Python.scanChar, hu, hhigh, Bool.false_eq_true, if_false]

/-- A run of escapes reads as a string, whatever follows its closing quote. -/
theorem Escaped.scanBody {t : PyStr} (ht : Escaped t) :
    ∃ s, ∀ n rest, t.length < n → scanBody n (t ++ 34 :: rest) = some (s, rest) := by
  induction hlen : t.length using Nat.strong_induction_on generalizing t with
  | _ len ih =>
    by_cases hne : t = []
    · subst hne
      refine ⟨[], fun n rest hn => ?_⟩
      obtain _ | n := n
      · omega
      · rfl
    · obtain ⟨c, t', ht', hlt, hchar⟩ := ht.scanChar hne
      obtain ⟨s, hs⟩ := ih t'.length (hlen ▸ hlt) ht' rfl
      refine ⟨c :: s, fun n rest hn => ?_⟩
      obtain _ | n := n
      · omega
      · have hhead : ∀ r, t ++ 34 :: rest ≠ 34 :: r := by
          intro r heq
          cases ht with
          | nil => exact hne rfl
          | plain h34 => exact h34 (List.cons.inj heq).1
          | short => simp at heq
          | unit => simp at heq
        unfold Python.scanBody
        split
        · rename_i heq; omega
        · rename_i heq; exact absurd heq (hhead _)
        · rename_i m _ heq
          obtain rfl : m = n := by omega
          simp only [hchar, hs m rest (by omega), Option.map_some]

/-- Every string is written as a text that reads as some string. -/
theorem exists_strReads (s : PyStr) : ∃ t, StrReads s t := by
  obtain ⟨t, ht⟩ := (escaped_flatMap s).scanBody
  exact ⟨t, fun rest => ht _ rest (by simp only [List.length_append, List.length_cons]; omega)⟩

theorem strReads_self {s : PyStr} (hs : StrWF s) : StrReads s s := scanString_quote hs

/-! ## Values -/

variable {F : Type}

namespace Json

mutual

/-- What a JSON text denotes : strings without surrogate pairs, dicts with distinct keys. -/
def WF : Json F → Prop
  | .str s => StrWF s
  | .arr xs => WFItems xs
  | .obj kvs => Dict.Distinct kvs ∧ WFMembers kvs
  | _ => True

def WFItems : List (Json F) → Prop
  | [] => True
  | x :: xs => WF x ∧ WFItems xs

def WFMembers : Dict F → Prop
  | [] => True
  | (k, v) :: kvs => StrWF k ∧ WF v ∧ WFMembers kvs

end

mutual

/-- The nested calls the scanner makes for a value. -/
def size : Json F → ℕ
  | .arr xs => 1 + sizeItems xs
  | .obj kvs => 1 + sizeMembers kvs
  | _ => 1

def sizeItems : List (Json F) → ℕ
  | [] => 0
  | x :: xs => 1 + size x + sizeItems xs

def sizeMembers : Dict F → ℕ
  | [] => 0
  | (_, v) :: kvs => 1 + size v + sizeMembers kvs

end

end Json

theorem skipWs_append {w : PyStr} (hw : ∀ c ∈ w, isWs c) (s : PyStr) :
    skipWs (w ++ s) = skipWs s :=
  List.dropWhile_append_of_pos hw

theorem skipWs_cons {c : ℕ} (hc : isWs c = false) (s : PyStr) : skipWs (c :: s) = c :: s := by
  simp [skipWs, hc]

theorem stripPrefix_ne {a b : ℕ} (h : a ≠ b) (p s : PyStr) :
    stripPrefix (a :: p) (b :: s) = none := if_neg h

@[simp] theorem py_null : py "null" = [110, 117, 108, 108] := by decide
@[simp] theorem py_true : py "true" = [116, 114, 117, 101] := by decide
@[simp] theorem py_false : py "false" = [102, 97, 108, 115, 101] := by decide
@[simp] theorem py_nan : py "NaN" = [78, 97, 78] := by decide
@[simp] theorem py_infinity : py "Infinity" = [73, 110, 102, 105, 110, 105, 116, 121] := by decide
@[simp] theorem py_neg_infinity :
    py "-Infinity" = [45, 73, 110, 102, 105, 110, 105, 116, 121] := by decide

/-- A number starts with a digit, or with a minus and a digit. -/
theorem text_head {l : NumLit} (hl : l.WF) : ∃ c r, isDigit c ∧
    (l.text = c :: r ∨ l.text = 45 :: c :: r) := by
  obtain ⟨c, int, hint⟩ := List.exists_cons_of_ne_nil hl.int_ne
  refine ⟨c, int ++ (if l.frac = [] then [] else 46 :: l.frac) ++
    (if l.exp = [] then [] else 101 :: l.exp), hl.int_digit c (by simp [hint]), ?_⟩
  cases h : l.neg
  · exact Or.inl (by simp [NumLit.text, hint, h])
  · exact Or.inr (by simp [NumLit.text, hint, h])

variable [PyFloat F]

/-- A number's text is none of the constants. -/
theorem scanConstant_text (constants : Bool) {l : NumLit} (hl : l.WF) {s : PyStr} (hs : Stop s) :
    scanConstant (F := F) constants (l.text ++ s) = (ofNumLit l).map (·, s) := by
  have hscan := scanNumber_text hl hs
  obtain ⟨c, r, hc, htext⟩ := text_head hl
  have hd : 48 ≤ c ∧ c ≤ 57 := by simpa [isDigit] using hc
  rcases htext with htext | htext
  all_goals
    rw [htext] at hscan ⊢
    simp only [List.cons_append] at hscan ⊢
    simp only [scanConstant, py_null, py_true, py_false, py_nan, py_infinity, py_neg_infinity]
    rw [stripPrefix_ne (by omega), stripPrefix_ne (by omega), stripPrefix_ne (by omega),
      stripPrefix_ne (by omega), stripPrefix_ne (by omega)]
  · rw [stripPrefix_ne (by omega)]
    simp only [hscan]
  · rw [stripPrefix, if_pos rfl, stripPrefix_ne (by omega)]
    simp only [hscan]

/-- A number is scanned as a value. -/
theorem scanValue_text {constants : Bool} {l : NumLit} (hl : l.WF) {s : PyStr} (hs : Stop s)
    (n : ℕ) : scanValue (F := F) constants (n + 1) (l.text ++ s) = (ofNumLit l).map (·, s) := by
  rw [← scanConstant_text constants hl hs]
  obtain ⟨c, r, hc, htext⟩ := text_head hl
  have hd : 48 ≤ c ∧ c ≤ 57 := by simpa [isDigit] using hc
  rcases htext with htext | htext
  all_goals
    rw [htext]
    simp only [List.cons_append]
    rw [scanValue, if_neg (by omega), if_neg (by omega), if_neg (by omega)]

/-- The first character of a value : no whitespace, and no closing bracket. -/
theorem print_head (L : Layout) (d : ℕ) (j : Json F) : ∃ c r, print L d j = c :: r ∧
    isWs c = false ∧ c ≠ 93 ∧ c ≠ 125 := by
  have hnum : ∀ l : NumLit, l.WF → ∃ c r, l.text = c :: r ∧ isWs c = false ∧ c ≠ 93 ∧ c ≠ 125 := by
    intro l hl
    obtain ⟨c, r, hc, htext⟩ := text_head hl
    have hd : 48 ≤ c ∧ c ≤ 57 := by simpa [isDigit] using hc
    rcases htext with htext | htext
    · refine ⟨c, r, htext, ?_, by omega, by omega⟩
      simp only [isWs, Bool.or_eq_false_iff, beq_eq_false_iff_ne]
      omega
    · exact ⟨45, c :: r, htext, rfl, by decide, by decide⟩
  cases j with
  | null => exact ⟨110, _, py_null, rfl, by decide, by decide⟩
  | bool b =>
    cases b
    · exact ⟨102, _, py_false, rfl, by decide, by decide⟩
    · exact ⟨116, _, py_true, rfl, by decide, by decide⟩
  | int z => exact hnum _ (intLit_wf z)
  | float x => exact hnum _ (PyFloat.lit_wf x)
  | inf b =>
    cases b
    · exact ⟨73, _, py_infinity, rfl, by decide, by decide⟩
    · exact ⟨45, _, py_neg_infinity, rfl, by decide, by decide⟩
  | nan => exact ⟨78, _, py_nan, rfl, by decide, by decide⟩
  | str s => exact ⟨34, _, rfl, rfl, by decide, by decide⟩
  | arr xs =>
    cases xs with
    | nil => exact ⟨91, _, rfl, rfl, by decide, by decide⟩
    | cons x xs => exact ⟨91, _, rfl, rfl, by decide, by decide⟩
  | obj kvs =>
    cases kvs with
    | nil => exact ⟨123, _, rfl, rfl, by decide, by decide⟩
    | cons p kvs => exact ⟨123, _, rfl, rfl, by decide, by decide⟩

theorem skipWs_print (L : Layout) (d : ℕ) (j : Json F) (s : PyStr) :
    skipWs (print L d j ++ s) = print L d j ++ s := by
  obtain ⟨c, r, h, hws, -⟩ := print_head L d j
  rw [h, List.cons_append, skipWs_cons hws]

/-- The text of `j` reads as `j'`, whatever it is followed by, with `size` fuel. -/
def Reads (L : Layout) (constants : Bool) (j j' : Json F) : Prop :=
  ∀ d n rest, Stop rest → j.size ≤ n →
    scanValue constants n (print L d j ++ rest) = some (j', rest)

/-- A value is scanned off the text it starts, with `size` fuel. -/
def ScansBack (L : Layout) (constants : Bool) (j : Json F) : Prop := Reads L constants j j

/-- The text of a member reads as another. -/
def MemberReads (L : Layout) (constants : Bool) (p q : PyStr × Json F) : Prop :=
  StrReads p.1 q.1 ∧ Reads L constants p.2 q.2

theorem stop_printItems (L : Layout) (d : ℕ) (xs : List (Json F)) {w : PyStr}
    (hw : ∀ c ∈ w, isWs c) (rest : PyStr) : Stop (printItems L d xs ++ (w ++ 93 :: rest)) := by
  cases xs with
  | nil => exact stop_append_ws hw (stop_cons (by decide))
  | cons x xs => exact stop_cons (by decide)

theorem stop_printMembers (L : Layout) (d : ℕ) (kvs : Dict F) {w : PyStr}
    (hw : ∀ c ∈ w, isWs c) (rest : PyStr) : Stop (printMembers L d kvs ++ (w ++ 125 :: rest)) := by
  cases kvs with
  | nil => exact stop_append_ws hw (stop_cons (by decide))
  | cons p kvs => exact stop_cons (by decide)

/-- The items of an array are scanned up to its bracket. -/
theorem scanItems_printItems {L : Layout} {constants : Bool} (d : ℕ) {w : PyStr}
    (hw : ∀ c ∈ w, isWs c) (rest : PyStr) {xs ys : List (Json F)}
    (h : List.Forall₂ (Reads L constants) xs ys) :
    ∀ x y n, Reads L constants x y → 1 + x.size + Json.sizeItems xs ≤ n →
      scanItems constants n (print L d x ++ (printItems L d xs ++ (w ++ 93 :: rest))) =
        some (y :: ys, rest) := by
  induction h with
  | nil =>
    rintro x y (_ | n) hx hn
    · omega
    · have hx := hx d n _ (stop_printItems (F := F) L d [] hw rest)
        (by simp only [Json.sizeItems] at hn; omega)
      rw [scanItems, hx]
      simp only [printItems, List.nil_append, skipWs_append hw, skipWs_cons (c := 93) (by decide)]
  | @cons x' y' xs ys hx' _ ih =>
    rintro x y (_ | n) hx hn
    · omega
    · simp only [Json.sizeItems] at hn
      have hx := hx d n _ (stop_printItems L d (x' :: xs) hw rest) (by omega)
      have htail := ih x' y' n hx' (by omega)
      rw [scanItems, hx]
      simp only [printItems, List.cons_append, List.append_assoc,
        skipWs_cons (c := 44) (by decide), skipWs_append (L.item_ws d), skipWs_print, htail,
        Option.map_some]

theorem quote_append (k tail : PyStr) : quote k ++ tail = 34 :: (k.flatMap escape ++ 34 :: tail) := by
  simp [quote]

theorem skipWs_quote (k tail : PyStr) : skipWs (quote k ++ tail) = quote k ++ tail := by
  rw [quote_append, skipWs_cons (by decide)]

/-- The last member of an object is scanned up to the brace. -/
theorem scanMembers_last {L : Layout} {c : Bool} (d : ℕ) {p q : PyStr × Json F} {n : ℕ}
    {tail r : PyStr} (h : MemberReads L c p q) (ht : Stop tail) (hn : p.2.size ≤ n)
    (hr : skipWs tail = 125 :: r) :
    scanMembers c (n + 1) (quote p.1 ++ 58 :: (L.colon ++ (print L d p.2 ++ tail))) =
      some ([q], r) := by
  rw [quote_append, scanMembers]
  simp only [h.1 _, skipWs_cons (c := 58) (by decide), skipWs_append L.colon_ws,
    skipWs_print, h.2 d n tail ht hn, hr]

/-- A member before others is scanned up to its comma. -/
theorem scanMembers_more {L : Layout} {c : Bool} (d : ℕ) {p q : PyStr × Json F} {n : ℕ}
    {tail r : PyStr} (h : MemberReads L c p q) (ht : Stop tail) (hn : p.2.size ≤ n)
    (hr : skipWs tail = 44 :: r) :
    scanMembers c (n + 1) (quote p.1 ++ 58 :: (L.colon ++ (print L d p.2 ++ tail))) =
      (scanMembers c n (skipWs r)).map fun ps => (q :: ps.1, ps.2) := by
  rw [quote_append, scanMembers]
  simp only [h.1 _, skipWs_cons (c := 58) (by decide), skipWs_append L.colon_ws,
    skipWs_print, h.2 d n tail ht hn, hr]

/-- The members of an object are scanned up to its brace. -/
theorem scanMembers_printMembers {L : Layout} {constants : Bool} (d : ℕ) {w : PyStr}
    (hw : ∀ c ∈ w, isWs c) (rest : PyStr) {ps qs : Dict F}
    (h : List.Forall₂ (MemberReads L constants) ps qs) :
    ∀ p q n, MemberReads L constants p q → 1 + p.2.size + Json.sizeMembers ps ≤ n →
      scanMembers constants n
          (quote p.1 ++ 58 :: (L.colon ++ (print L d p.2 ++ (printMembers L d ps ++
            (w ++ 125 :: rest))))) =
        some (q :: qs, rest) := by
  induction h with
  | nil =>
    rintro p q (_ | n) hp hn
    · omega
    · simp only [Json.sizeMembers] at hn
      refine scanMembers_last d hp (stop_printMembers (F := F) L d [] hw rest) (by omega) ?_
      simp only [printMembers, List.nil_append, skipWs_append hw,
        skipWs_cons (c := 125) (by decide)]
  | @cons p' q' ps qs hp' _ ih =>
    obtain ⟨k', v'⟩ := p'
    rintro p q (_ | n) hp hn
    · omega
    · simp only [Json.sizeMembers] at hn
      have htail := ih (k', v') q' n hp' (by dsimp only; omega)
      have hmore : skipWs (printMembers L d ((k', v') :: ps) ++ (w ++ 125 :: rest)) =
          44 :: (L.item d ++ (quote k' ++ 58 :: (L.colon ++ (print L d v' ++
            (printMembers L d ps ++ (w ++ 125 :: rest)))))) := by
        simp only [printMembers, List.cons_append, List.append_assoc,
          skipWs_cons (c := 44) (by decide)]
      rw [scanMembers_more d hp (stop_printMembers L d ((k', v') :: ps) hw rest)
        (by omega) hmore, skipWs_append (L.item_ws d), skipWs_quote, htail, Option.map_some]

namespace Json

omit [PyFloat F] in
theorem wfItems_iff {xs : List (Json F)} : WFItems xs ↔ ∀ x ∈ xs, x.WF := by
  induction xs with
  | nil => simp [WFItems]
  | cons x xs ih => simp [WFItems, ih]

omit [PyFloat F] in
theorem wfMembers_iff {kvs : Dict F} : WFMembers kvs ↔ ∀ p ∈ kvs, StrWF p.1 ∧ p.2.WF := by
  induction kvs with
  | nil => simp [WFMembers]
  | cons p kvs ih => simp [WFMembers, ih, and_assoc]

omit [PyFloat F] in
/-- Giving a key a value keeps a dict one that a text denotes. -/
theorem wf_set {d : Dict F} (h : WF (.obj d)) {k : PyStr} (hk : StrWF k) {v : Json F}
    (hv : v.WF) : WF (.obj (d.set k v)) := by
  refine ⟨Dict.distinct_set h.1 k v, wfMembers_iff.2 fun p hp => ?_⟩
  rcases Dict.mem_set hp with rfl | hp
  · exact ⟨hk, hv⟩
  · exact wfMembers_iff.1 h.2 p hp

omit [PyFloat F] in
/-- What a dict that a text denotes holds, a text denotes. -/
theorem wf_get? {d : Dict F} (h : WF (.obj d)) {k : PyStr} {v : Json F} (hv : d.get? k = some v) :
    v.WF := (wfMembers_iff.1 h.2 _ (Dict.mem_of_get? hv)).2

omit [PyFloat F] in
theorem dumpableItems_iff {b : Bool} {xs : List (Json F)} :
    dumpableItems b xs ↔ ∀ x ∈ xs, x.dumpable b := by
  induction xs with
  | nil => simp [dumpableItems]
  | cons x xs ih => simp [dumpableItems, ih]

omit [PyFloat F] in
theorem dumpableMembers_iff {b : Bool} {kvs : Dict F} :
    dumpableMembers b kvs ↔ ∀ p ∈ kvs, p.2.dumpable b := by
  induction kvs with
  | nil => simp [dumpableMembers]
  | cons p kvs ih => simp [dumpableMembers, ih]

end Json

/-- A list whose items read as others reads as the list of those. -/
theorem reads_arr {L : Layout} {constants : Bool} {xs ys : List (Json F)}
    (h : List.Forall₂ (Reads L constants) xs ys) : Reads L constants (.arr xs) (.arr ys) := by
  rintro d (_ | n) rest hs hn
  · simp [Json.size] at hn
  · cases h with
    | nil => simp [print, scanValue, skipWs, isWs]
    | @cons x y xs ys hx hxs =>
      obtain ⟨c, r, hc, hws, h93, -⟩ := print_head L (d + 1) x
      have hitems := scanItems_printItems (d + 1) (L.closing_ws d) rest hxs x y n hx
        (by simp only [Json.size, Json.sizeItems] at hn; omega)
      simp only [print, List.cons_append, List.append_assoc, List.nil_append]
      rw [scanValue, if_neg (by decide), if_pos rfl, skipWs_append (L.opening_ws _),
        skipWs_print, if_neg (by simp [hc, h93]), hitems]
      rfl

/-- A dict whose items read as others reads as the dict of those. -/
theorem reads_obj {L : Layout} {constants : Bool} {ps qs : Dict F}
    (h : List.Forall₂ (MemberReads L constants) ps qs) :
    Reads L constants (.obj ps) (.obj (Dict.ofPairs qs)) := by
  rintro d (_ | n) rest hs hn
  · simp [Json.size] at hn
  · cases h with
    | nil => simp [print, scanValue, skipWs, isWs, Dict.ofPairs]
    | @cons p q ps qs hp hps =>
      obtain ⟨k, v⟩ := p
      have hmem := scanMembers_printMembers (d + 1) (L.closing_ws d) rest hps (k, v) q n hp
        (by simp only [Json.size, Json.sizeMembers] at hn; dsimp only; omega)
      simp only [print, List.cons_append, List.append_assoc, List.nil_append]
      rw [scanValue, if_neg (by decide), if_neg (by decide), if_pos rfl,
        skipWs_append (L.opening_ws _), skipWs_quote, if_neg (by simp [quote]), hmem,
        Option.map_some]

theorem reads_str {L : Layout} {constants : Bool} {s t : PyStr} (h : StrReads s t) :
    Reads L constants (.str s : Json F) (.str t) := by
  rintro d (_ | n) rest hs hn
  · simp [Json.size] at hn
  · simp [print, quote, scanValue, h rest]

/-- A constant or a number. -/
def Json.isAtom : Json F → Bool
  | .str _ => false
  | .arr _ => false
  | .obj _ => false
  | _ => true

/-- A constant or a number reads as itself. -/
theorem reads_atom (L : Layout) {constants : Bool} {j : Json F} (hj : j.isAtom = true)
    (hd : j.dumpable constants) : Reads L constants j j := by
  rintro d (_ | n) rest hs hn
  · cases j <;> simp [Json.size] at hn
  cases j with
  | null => simp [print, scanValue, scanConstant, stripPrefix]
  | bool b => cases b <;> simp [print, scanValue, scanConstant, stripPrefix]
  | int z =>
    rw [print, scanValue_text (intLit_wf z) hs]
    have hlen : (intLit z).int.length ≤ maxStrDigits :=
      (length_decimal_le (by decide)).2 (by simpa [Json.dumpable] using hd)
    have hfl : (intLit z).isFloat = false := rfl
    rw [ofNumLit, hfl, if_neg (by simp), if_pos hlen, toInt_intLit, Option.map_some]
  | float x =>
    rw [print, scanValue_text (PyFloat.lit_wf x) hs, ofNumLit, if_pos (PyFloat.lit_isFloat x),
      PyFloat.ofLit_lit]
    rfl
  | inf b =>
    obtain rfl : constants = true := hd
    cases b
    · simp [print, scanValue, scanConstant, stripPrefix]
    · simp [print, scanValue, scanConstant, stripPrefix]
  | nan =>
    obtain rfl : constants = true := hd
    simp [print, scanValue, scanConstant, stripPrefix]
  | str s => simp [Json.isAtom] at hj
  | arr xs => simp [Json.isAtom] at hj
  | obj kvs => simp [Json.isAtom] at hj

/-- The scanner reads every well-formed value back from its text. -/
theorem scansBack (L : Layout) (constants : Bool) (j : Json F) (hj : j.WF)
    (hd : j.dumpable constants) : ScansBack L constants j := by
  induction j with
  | str s => exact reads_str (strReads_self hj)
  | arr xs ih =>
    exact reads_arr (List.forall₂_same.2 fun x hx =>
      ih x hx (Json.wfItems_iff.1 hj x hx) (Json.dumpableItems_iff.1 hd x hx))
  | obj kvs ih =>
    obtain ⟨hdist, hwf⟩ := hj
    have hkvs : List.Forall₂ (MemberReads L constants) kvs kvs :=
      List.forall₂_same.2 fun p hp =>
        ⟨strReads_self (Json.wfMembers_iff.1 hwf p hp).1,
          ih p hp (Json.wfMembers_iff.1 hwf p hp).2 (Json.dumpableMembers_iff.1 hd p hp)⟩
    have := reads_obj hkvs
    rw [Dict.ofPairs_of_distinct hdist] at this
    exact this
  | _ => exact reads_atom L rfl hd

theorem exists_forall₂ {α β : Type} {R : α → β → Prop} {xs : List α}
    (h : ∀ x ∈ xs, ∃ y, R x y) : ∃ ys, List.Forall₂ R xs ys := by
  induction xs with
  | nil => exact ⟨[], .nil⟩
  | cons x xs ih =>
    obtain ⟨y, hy⟩ := h x (by simp)
    obtain ⟨ys, hys⟩ := ih fun z hz => h z (List.mem_cons_of_mem _ hz)
    exact ⟨y :: ys, .cons hy hys⟩

/-- Every value that is written reads as some value. -/
theorem exists_reads (L : Layout) (constants : Bool) (j : Json F) (hd : j.dumpable constants) :
    ∃ j', Reads L constants j j' := by
  induction j with
  | str s =>
    obtain ⟨t, ht⟩ := exists_strReads s
    exact ⟨.str t, reads_str ht⟩
  | arr xs ih =>
    obtain ⟨ys, hys⟩ := exists_forall₂ fun x hx => ih x hx (Json.dumpableItems_iff.1 hd x hx)
    exact ⟨.arr ys, reads_arr hys⟩
  | obj kvs ih =>
    have hread : ∀ p ∈ kvs, ∃ q, MemberReads L constants p q := fun p hp => by
      obtain ⟨t, ht⟩ := exists_strReads p.1
      obtain ⟨v, hv⟩ := ih p hp (Json.dumpableMembers_iff.1 hd p hp)
      exact ⟨(t, v), ht, hv⟩
    obtain ⟨qs, hqs⟩ := exists_forall₂ hread
    exact ⟨.obj (Dict.ofPairs qs), reads_obj hqs⟩
  | _ => exact ⟨_, reads_atom L rfl hd⟩

/-! ## Whole texts -/

theorem length_print_pos (L : Layout) (d : ℕ) (j : Json F) : 0 < (print L d j).length := by
  obtain ⟨c, r, h, -⟩ := print_head L d j
  simp [h]

theorem sizeItems_le {L : Layout} {d : ℕ} {xs : List (Json F)}
    (ih : ∀ x ∈ xs, ∀ d, x.size ≤ (print L d x).length) :
    Json.sizeItems xs ≤ (printItems L d xs).length := by
  induction xs with
  | nil => simp [Json.sizeItems]
  | cons x xs hxs =>
    have hx := ih x (by simp) d
    have htail := hxs fun y hy => ih y (by simp [hy])
    simp only [Json.sizeItems, printItems, List.cons_append, List.length_cons, List.length_append]
    omega

theorem sizeMembers_le {L : Layout} {d : ℕ} {kvs : Dict F}
    (ih : ∀ p ∈ kvs, ∀ d, p.2.size ≤ (print L d p.2).length) :
    Json.sizeMembers kvs ≤ (printMembers L d kvs).length := by
  induction kvs with
  | nil => simp [Json.sizeMembers]
  | cons p kvs hkvs =>
    obtain ⟨k, v⟩ := p
    have hv : v.size ≤ (print L d v).length := ih (k, v) (by simp) d
    have htail := hkvs fun q hq => ih q (by simp [hq])
    simp only [Json.sizeMembers, printMembers, List.cons_append, List.length_cons,
      List.length_append]
    omega

/-- A text has fuel enough for the value it is. -/
theorem size_le_length_print (L : Layout) (j : Json F) (d : ℕ) :
    j.size ≤ (print L d j).length := by
  induction j generalizing d with
  | arr xs ih =>
    cases xs with
    | nil => simp [Json.size, Json.sizeItems, print]
    | cons x xs =>
      have hx := ih x (by simp) (d + 1)
      have htail := sizeItems_le (d := d + 1) fun y (hy : y ∈ xs) => ih y (by simp [hy])
      simp only [Json.size, Json.sizeItems, print, List.cons_append, List.length_cons,
        List.length_append]
      omega
  | obj kvs ih =>
    cases kvs with
    | nil => simp [Json.size, Json.sizeMembers, print]
    | cons p kvs =>
      obtain ⟨k, v⟩ := p
      have hv : v.size ≤ (print L (d + 1) v).length := ih (k, v) (by simp) (d + 1)
      have htail := sizeMembers_le (d := d + 1) fun q (hq : q ∈ kvs) => ih q (by simp [hq])
      simp only [Json.size, Json.sizeMembers, print, List.cons_append, List.length_cons,
        List.length_append]
      omega
  | _ => exact length_print_pos L d _

/-- A text is read as a whole, and so is one with whitespace after it. -/
theorem loads_of_reads {L : Layout} {constants : Bool} {j j' : Json F}
    (h : Reads L constants j j') {w : PyStr} (hw : ∀ c ∈ w, isWs c) :
    loads constants (print L 0 j ++ w) = some j' := by
  have hstop : Stop w := by simpa using stop_append_ws hw stop_nil
  have hsize := size_le_length_print L j 0
  have hscan := h 0 ((print L 0 j ++ w).length + 1) w hstop
    (by simp only [List.length_append]; omega)
  have hws : skipWs w = [] := by simpa [skipWs] using skipWs_append hw []
  simp only [loads, skipWs_print, hscan, hws, if_true]

/-- A value is read back from its text, and from its text with whitespace after it. -/
theorem loads_print (L : Layout) {constants : Bool} {j : Json F} (hj : j.WF)
    (hd : j.dumpable constants) {w : PyStr} (hw : ∀ c ∈ w, isWs c) :
    loads constants (print L 0 j ++ w) = some j :=
  loads_of_reads (scansBack L constants j hj hd) hw

end Python
