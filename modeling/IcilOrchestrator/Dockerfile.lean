import Mathlib
import IcilOrchestrator.Text

/-!
# Dockerfiles and shell words

`instructions` splits the text of a Dockerfile : lines that end in a backslash go on in the next
one, comments and blank lines are dropped, and what is left of each is its keyword and arguments.
`shellWords` splits a line of a shell into the words of a command. It gives none where the line is
not that alone : where it has an operator, an expansion or a pattern, or a quote that is not closed.

A text that is a word by itself is one of plain characters : `lex_word_eq`. What a quote or an
escape is taken out of is shorter (`length_lex`).
-/

namespace Dockerfile

open Python

/-! ## Instructions -/

/-- White space in Unicode. -/
def isWhite (c : ℕ) : Bool :=
  decide (9 ≤ c ∧ c ≤ 13) || decide (0x2000 ≤ c ∧ c ≤ 0x200A) ||
    decide (c ∈ [32, 0x85, 0xA0, 0x1680, 0x2028, 0x2029, 0x202F, 0x205F, 0x3000])

/-- Of a line, what is left without the white space around it. -/
def trim (s : PyStr) : PyStr := (s.dropWhile isWhite).rdropWhile isWhite

/-- The lines of a text. -/
def linesOf (text : PyStr) : List PyStr := (text.splitOn 10).map (·.rdropWhile (· == 13))

/-- A space or a tab. -/
def isBlank (c : ℕ) : Bool := c == 32 || c == 9

/-- A line that goes on, up to the backslash, which may have blanks after it. -/
def continued (l : PyStr) : Option PyStr :=
  match l.reverse.dropWhile isBlank with
  | [] => none
  | c :: r => if c = 92 ∧ r.head? ≠ some 92 then some r.reverse else none

/-- A comment, or nothing. -/
def isIgnored (l : PyStr) : Bool :=
  match l.dropWhile isWhite with
  | [] => true
  | c :: _ => c == 35

/-- The lines of instructions, of which one may have begun. -/
def assemble : Option PyStr → List PyStr → List PyStr
  | none, [] => []
  | some begun, [] => [begun]
  | begun, l :: ls =>
    if isIgnored l then assemble begun ls
    else match continued l with
      | none => (begun.getD [] ++ l) :: assemble none ls
      | some r => assemble (some (begun.getD [] ++ r)) ls

/-- An instruction, its keyword as it is written. -/
structure Instruction where
  keyword : PyStr
  args : PyStr
deriving DecidableEq

/-- An instruction of a line. -/
def instruction (l : PyStr) : Instruction where
  keyword := (trim l).takeWhile fun c => !(isBlank c || decide (11 ≤ c ∧ c ≤ 13))
  args := trim ((trim l).dropWhile fun c => !(isBlank c || decide (11 ≤ c ∧ c ≤ 13)))

/-- The instructions of a Dockerfile. -/
def instructions (text : PyStr) : List Instruction := (assemble none (linesOf text)).map instruction

variable {s t kw : PyStr} {c e : ℕ}

theorem rdropWhile_append {p : ℕ → Bool} (he : p e = false) (s t : PyStr) :
    (s ++ e :: t).rdropWhile p = s ++ e :: t.rdropWhile p := by
  induction t using List.reverseRecOn with
  | nil => simp [he]
  | append_singleton t c ih =>
    have hassoc : s ++ e :: (t ++ [c]) = (s ++ e :: t) ++ [c] := by simp
    rw [hassoc, List.rdropWhile_concat, List.rdropWhile_concat, ih]
    split_ifs <;> simp

theorem continued_append (he : isBlank e = false) (hback : e ≠ 92) (s t : PyStr) :
    continued (s ++ e :: t) = (continued t).map (s ++ e :: ·) := by
  have hrev : (s ++ e :: t).reverse = t.reverse ++ e :: s.reverse := by simp
  rw [continued, continued, hrev, List.dropWhile_append]
  cases hdrop : t.reverse.dropWhile isBlank with
  | nil => simp [he, hback]
  | cons c r =>
    cases r with
    | nil =>
      by_cases hc : c = 92 <;> simp [hc, hback]
    | cons d r =>
      by_cases hc : c = 92 ∧ d ≠ 92 <;> simp [hc]

theorem prefix_of_continued {l r : PyStr} (h : continued l = some r) : r <+: l := by
  rw [continued] at h
  cases hdrop : l.reverse.dropWhile isBlank with
  | nil => simp [hdrop] at h
  | cons c t =>
    have hsuffix : c :: t <:+ l.reverse := hdrop ▸ List.dropWhile_suffix _
    simp only [hdrop] at h
    split_ifs at h
    obtain rfl := Option.some.inj h
    rw [← List.reverse_suffix, List.reverse_reverse]
    exact (List.suffix_cons c t).trans hsuffix

theorem continued_of_notMem (hs : 92 ∉ s) : continued s = none := by
  rw [continued]
  cases hdrop : s.reverse.dropWhile isBlank with
  | nil => rfl
  | cons c t =>
    have hc : c ∈ s := List.mem_reverse.1
      ((List.dropWhile_suffix _).subset (hdrop ▸ List.mem_cons_self ..))
    have hne : c ≠ 92 := fun h => hs (h ▸ hc)
    simp [hne]

theorem notMem_assemble {ls : List PyStr} : ∀ {begun : Option PyStr}, (∀ l ∈ ls, c ∉ l) →
    (∀ l ∈ begun, c ∉ l) → ∀ l ∈ assemble begun ls, c ∉ l := by
  induction ls with
  | nil =>
    intro begun _ hbegun
    cases begun with
    | none => simp [assemble]
    | some begun => simpa [assemble] using hbegun begun rfl
  | cons l ls ih =>
    intro begun hls hbegun
    obtain ⟨hl, hls⟩ := List.forall_mem_cons.1 hls
    have hbegun' : c ∉ begun.getD [] := by
      cases begun with
      | none => exact List.not_mem_nil
      | some b => exact hbegun b rfl
    rw [assemble.eq_3]
    split_ifs
    · exact ih hls hbegun
    · cases hcont : continued l with
      | none =>
        refine List.forall_mem_cons.2 ⟨?_, ih hls (by simp)⟩
        exact List.not_mem_append hbegun' hl
      | some r =>
        refine ih hls fun x hx => ?_
        obtain rfl := Option.some.inj hx
        exact List.not_mem_append hbegun' fun h => hl ((prefix_of_continued hcont).subset h)

theorem mem_of_mem_trim (h : c ∈ trim s) : c ∈ s :=
  (List.dropWhile_suffix _).subset ((List.rdropWhile_prefix _ _).subset h)

/-- No argument has a line end in it. -/
theorem notMem_args {text : PyStr} : ∀ i ∈ instructions text, 10 ∉ i.args := by
  have hlines : ∀ l ∈ linesOf text, 10 ∉ l := by
    intro l hl
    obtain ⟨x, hx, rfl⟩ := List.mem_map.1 hl
    exact fun h => notMem_of_mem_splitOn hx ((List.rdropWhile_prefix _ _).subset h)
  intro i hi h
  obtain ⟨l, hl, rfl⟩ := List.mem_map.1 hi
  have hnone : ∀ l ∈ (none : Option PyStr), 10 ∉ l := by simp
  have hargs := notMem_assemble hlines hnone l hl
  refine hargs ?_
  exact mem_of_mem_trim ((List.dropWhile_suffix _).subset (mem_of_mem_trim h))

/-- What is left of the end of a line that is the last. -/
def ending (t : PyStr) : PyStr :=
  let line := t.rdropWhile (· == 13)
  ((continued line).getD line).rdropWhile isWhite

theorem prefix_of_ending (t : PyStr) : ending t <+: t := by
  refine (List.rdropWhile_prefix _ _).trans ?_
  cases h : continued (t.rdropWhile (· == 13)) with
  | none => exact List.rdropWhile_prefix _ _
  | some r => exact (prefix_of_continued h).trans (List.rdropWhile_prefix _ _)

theorem linesOf_cons (hs : 10 ∉ s) :
    linesOf (s ++ 10 :: t) = s.rdropWhile (· == 13) :: linesOf t := by
  rw [linesOf, List.splitOn_append_cons_self_of_not_mem hs]
  rfl

/-- A comment is dropped. -/
theorem instructions_comment (hs : 10 ∉ s) :
    instructions (35 :: s ++ 10 :: t) = instructions t := by
  have hline : 10 ∉ 35 :: s := by simp [hs]
  have hcr : (35 :: s).rdropWhile (· == 13) = 35 :: s.rdropWhile (· == 13) :=
    rdropWhile_append (e := 35) rfl [] s
  rw [instructions, linesOf_cons hline, hcr, assemble.eq_3, if_pos (by rfl)]
  rfl

/-- What an instruction is named by. -/
def IsKeyword (kw : PyStr) : Prop := kw ≠ [] ∧ ∀ c ∈ kw, isWhite c = false ∧ c ≠ 35

instance (kw : PyStr) : Decidable (IsKeyword kw) :=
  inferInstanceAs (Decidable (kw ≠ [] ∧ ∀ c ∈ kw, isWhite c = false ∧ c ≠ 35))

theorem dropWhile_of_head {p : ℕ → Bool} (hs : ∀ c ∈ s.head?, p c = false) :
    s.dropWhile p = s := by
  cases s with
  | nil => rfl
  | cons c s => simp [hs c rfl]

/-- An instruction is read from its line, up to the last character that is not white. -/
theorem instruction_line (hkw : IsKeyword kw) (he : isWhite e = false)
    (hhead : ∀ c ∈ (s ++ [e]).head?, isWhite c = false) :
    instruction (kw ++ 32 :: (s ++ e :: t)) = ⟨kw, s ++ e :: t.rdropWhile isWhite⟩ := by
  have hargs : ∀ t, trim (s ++ e :: t) = s ++ e :: t.rdropWhile isWhite := by
    intro t
    rw [trim, dropWhile_of_head, rdropWhile_append he]
    cases s <;> simpa using hhead
  have htrim : trim (kw ++ 32 :: (s ++ e :: t)) = kw ++ 32 :: (s ++ e :: t.rdropWhile isWhite) := by
    rw [trim, dropWhile_of_head, ← List.cons_append, ← List.append_assoc, rdropWhile_append he]
    · simp
    · obtain ⟨c, kw, rfl⟩ := List.exists_cons_of_ne_nil hkw.1
      simpa using (hkw.2 c (by simp)).1
  have hword : ∀ c ∈ kw, (!(isBlank c || decide (11 ≤ c ∧ c ≤ 13))) = true := by
    intro c hc
    have hwhite := (hkw.2 c hc).1
    simp only [isWhite, isBlank] at hwhite ⊢
    simp at hwhite ⊢
    omega
  rw [instruction, htrim, List.takeWhile_append_of_pos hword, List.dropWhile_append_of_pos hword]
  have hspace : trim (32 :: (s ++ e :: t.rdropWhile isWhite)) = s ++ e :: t.rdropWhile isWhite := by
    have h := hargs (t.rdropWhile isWhite)
    rw [List.rdropWhile_idempotent] at h
    exact h
  simp only [List.takeWhile_cons, List.dropWhile_cons]
  simp [isBlank, hspace]

/-- What a keyword begins is no comment. -/
theorem isIgnored_keyword (hkw : IsKeyword kw) : isIgnored (kw ++ s) = false := by
  obtain ⟨c, kw, rfl⟩ := List.exists_cons_of_ne_nil hkw.1
  obtain ⟨hwhite, hhash⟩ := hkw.2 c (by simp)
  simp [isIgnored, hwhite, hhash]

/-- A line's end, from a character on that is neither white space nor a backslash. -/
theorem line_end (he : isWhite e = false) (hback : e ≠ 92) (kw s t : PyStr) :
    (kw ++ 32 :: (s ++ e :: t)).rdropWhile (· == 13) =
      kw ++ 32 :: (s ++ e :: t.rdropWhile (· == 13)) ∧
    continued (kw ++ 32 :: (s ++ e :: t.rdropWhile (· == 13))) =
      (continued (t.rdropWhile (· == 13))).map fun r => kw ++ 32 :: (s ++ e :: r) := by
  have hassoc : ∀ t, kw ++ 32 :: (s ++ e :: t) = (kw ++ 32 :: s) ++ e :: t := by simp
  have hwhite : ¬(9 ≤ e ∧ e ≤ 13) ∧ e ≠ 32 := by
    simp [isWhite] at he
    omega
  have hcr : (e == 13) = false := by
    rw [beq_eq_false_iff_ne]
    omega
  have hblank : isBlank e = false := by
    simp only [isBlank, Bool.or_eq_false_iff, beq_eq_false_iff_ne]
    omega
  simp only [hassoc]
  exact ⟨rdropWhile_append (p := (· == 13)) hcr _ _, continued_append hblank hback _ _⟩

/-- A line that ends in neither white space nor a backslash is an instruction. -/
theorem instructions_cons (hkw : IsKeyword kw) (he : isWhite e = false) (hback : e ≠ 92)
    (hhead : ∀ c ∈ (s ++ [e]).head?, isWhite c = false) (hl : 10 ∉ kw ++ 32 :: (s ++ [e])) :
    instructions (kw ++ 32 :: (s ++ [e]) ++ 10 :: t) = ⟨kw, s ++ [e]⟩ :: instructions t := by
  obtain ⟨hcr, hcont⟩ := line_end he hback kw s []
  rw [List.rdropWhile_nil] at hcr hcont
  have hnone : continued [] = none := rfl
  rw [hnone, Option.map_none] at hcont
  rw [instructions, linesOf_cons hl, hcr, assemble.eq_3, if_neg (by simp [isIgnored_keyword hkw]),
    hcont]
  have h := instruction_line (t := []) hkw he hhead
  rw [List.rdropWhile_nil] at h
  exact congrArg (· :: instructions t) h

/-- The last line is an instruction, up to its ending. -/
theorem instructions_last (hkw : IsKeyword kw) (he : isWhite e = false) (hback : e ≠ 92)
    (hhead : ∀ c ∈ (s ++ [e]).head?, isWhite c = false) (hl : 10 ∉ kw ++ 32 :: (s ++ e :: t)) :
    instructions (kw ++ 32 :: (s ++ e :: t) ++ [10]) = [⟨kw, s ++ e :: ending t⟩] := by
  obtain ⟨hcr, hcont⟩ := line_end he hback kw s t
  rw [instructions, linesOf_cons hl, hcr, assemble.eq_3, if_neg (by simp [isIgnored_keyword hkw]),
    hcont, ending]
  cases h : continued (t.rdropWhile (· == 13)) with
  | none =>
    have hline := instruction_line (t := t.rdropWhile (· == 13)) hkw he hhead
    simp only [Option.map_none, Option.getD_none, List.nil_append]
    exact congrArg (fun i => [i]) hline
  | some r =>
    have hline := instruction_line (t := r) hkw he hhead
    simp only [Option.map_some, Option.getD_none, Option.getD_some, List.nil_append]
    exact congrArg (fun i => [i]) hline

/-! ## Words -/

/-- Where in a line the shell is. -/
inductive Place where
  | blank
  | word
  | single
  | double
  | escaped
  | doubleEscaped
deriving DecidableEq

/-- The characters that begin an operator, an expansion or a pattern, or end a line. -/
def isSpecial (c : ℕ) : Bool := c ∈ py "\n$`|&;<>()*?["

/-- A character that begins none of these, nor a quote, nor ends a word. -/
def isPlain (c : ℕ) : Bool := !isBlank c && !isSpecial c && !(c ∈ py "'\"\\")

/-- Words of which the first begins with some more characters. -/
def push (s : PyStr) (ws : List PyStr) : List PyStr := (s ++ ws.headD []) :: ws.tail

/-- The words of the rest of a line; within a word, what is left of it comes first. -/
def lex : Place → PyStr → Option (List PyStr)
  | .blank, [] => some []
  | .word, [] => some [[]]
  | _, [] => none
  | .blank, c :: s =>
    if isBlank c then lex .blank s
    else if c = 35 then some []
    else if isSpecial c ∨ c = 126 then none
    else if c = 39 then lex .single s
    else if c = 34 then lex .double s
    else if c = 92 then lex .escaped s
    else (lex .word s).map (push [c])
  | .word, c :: s =>
    if isBlank c then (lex .blank s).map ([] :: ·)
    else if isSpecial c then none
    else if c = 39 then lex .single s
    else if c = 34 then lex .double s
    else if c = 92 then lex .escaped s
    else (lex .word s).map (push [c])
  | .single, c :: s => if c = 39 then lex .word s else (lex .single s).map (push [c])
  | .double, c :: s =>
    if c = 34 then lex .word s
    else if c = 92 then lex .doubleEscaped s
    else if c = 36 ∨ c = 96 then none
    else (lex .double s).map (push [c])
  | .escaped, c :: s => if c = 10 then none else (lex .word s).map (push [c])
  | .doubleEscaped, c :: s =>
    (lex .double s).map (push (if c ∈ py "$`\"\\" then [c] else [92, c]))

/-- The words of a line that is one command, of words that stand for themselves. -/
def shellWords (line : PyStr) : Option (List PyStr) := lex .blank line

variable {m : Place} {w : PyStr} {ws : List PyStr}

theorem push_length : ((push s ws).headD []).length = s.length + (ws.headD []).length := by
  simp [push]

/-- How long a first word may be : a quote or a backslash that was read is not in it. -/
def Bounded : Place → ℕ → ℕ → Prop
  | .blank, _, _ => True
  | .word, w, s => w ≤ s
  | .single, w, s => w < s
  | .double, w, s => w < s
  | .escaped, w, s => w ≤ s
  | .doubleEscaped, w, s => w ≤ s

/-- Within a word there is a word, and it is no longer than what it was read from. -/
theorem length_lex (h : lex m s = some ws) :
    (m ≠ .blank → ws ≠ []) ∧ Bounded m (ws.headD []).length s.length := by
  induction s generalizing m ws with
  | nil =>
    cases m <;> simp [lex] at h <;> simp [← h, Bounded]
  | cons c s ih =>
    cases m with
    | blank => exact ⟨fun h => absurd rfl h, trivial⟩
    | word =>
      simp only [lex] at h
      split_ifs at h
      · obtain ⟨vs, -, rfl⟩ := Option.map_eq_some_iff.1 h
        simp [Bounded]
      · exact ⟨fun _ => (ih h).1 (by simp), (ih h).2.le.trans (Nat.le_succ _)⟩
      · exact ⟨fun _ => (ih h).1 (by simp), (ih h).2.le.trans (Nat.le_succ _)⟩
      · exact ⟨fun _ => (ih h).1 (by simp), (ih h).2.trans (Nat.le_succ _)⟩
      · obtain ⟨vs, hvs, rfl⟩ := Option.map_eq_some_iff.1 h
        have hle : (vs.headD []).length ≤ s.length := (ih hvs).2
        exact ⟨by simp [push], by
          simp only [Bounded, push_length, List.length_cons, List.length_nil]
          omega⟩
    | single =>
      simp only [lex] at h
      split_ifs at h
      · exact ⟨fun _ => (ih h).1 (by simp), Nat.lt_succ_of_le (ih h).2⟩
      · obtain ⟨vs, hvs, rfl⟩ := Option.map_eq_some_iff.1 h
        have hlt : (vs.headD []).length < s.length := (ih hvs).2
        exact ⟨by simp [push], by
          simp only [Bounded, push_length, List.length_cons, List.length_nil]
          omega⟩
    | double =>
      simp only [lex] at h
      split_ifs at h
      · exact ⟨fun _ => (ih h).1 (by simp), Nat.lt_succ_of_le (ih h).2⟩
      · exact ⟨fun _ => (ih h).1 (by simp), Nat.lt_succ_of_le (ih h).2⟩
      · obtain ⟨vs, hvs, rfl⟩ := Option.map_eq_some_iff.1 h
        have hlt : (vs.headD []).length < s.length := (ih hvs).2
        exact ⟨by simp [push], by
          simp only [Bounded, push_length, List.length_cons, List.length_nil]
          omega⟩
    | escaped =>
      simp only [lex] at h
      split_ifs at h
      obtain ⟨vs, hvs, rfl⟩ := Option.map_eq_some_iff.1 h
      have hle : (vs.headD []).length ≤ s.length := (ih hvs).2
      exact ⟨by simp [push], by
          simp only [Bounded, push_length, List.length_cons, List.length_nil]
          omega⟩
    | doubleEscaped =>
      simp only [lex] at h
      obtain ⟨vs, hvs, rfl⟩ := Option.map_eq_some_iff.1 h
      have hlt : (vs.headD []).length < s.length := (ih hvs).2
      refine ⟨by simp [push], ?_⟩
      split_ifs <;> simp only [Bounded, push_length, List.length_cons, List.length_nil] <;> omega

/-- A text that the shell takes for a word, and that loses nothing, is plain. -/
theorem lex_word_eq (h : lex .word s = some [w]) (hle : s.length ≤ w.length) :
    w = s ∧ s.all isPlain = true := by
  induction s generalizing w with
  | nil => simpa [lex, eq_comm] using h
  | cons c s ih =>
    have hshort : ∀ {m : Place}, lex m s = some [w] → Bounded m w.length s.length := fun h =>
      (length_lex h).2
    simp only [lex] at h
    simp only [List.length_cons] at hle
    split_ifs at h with hblank hspecial hsingle hdouble hescape
    · obtain ⟨vs, -, heq⟩ := Option.map_eq_some_iff.1 h
      obtain ⟨rfl, -⟩ := List.cons.inj heq
      simp at hle
    · exact absurd (hshort h) (by rw [Bounded]; omega)
    · exact absurd (hshort h) (by rw [Bounded]; omega)
    · exact absurd (hshort h) (by rw [Bounded]; omega)
    · obtain ⟨vs, hvs, heq⟩ := Option.map_eq_some_iff.1 h
      obtain ⟨hne, -⟩ := length_lex hvs
      obtain ⟨v, vs, rfl⟩ := List.exists_cons_of_ne_nil (hne (by simp))
      obtain ⟨rfl, rfl⟩ := List.cons.inj heq
      obtain ⟨hv, hs⟩ := ih hvs (by simpa using hle)
      have hv : v = s := hv
      subst hv
      refine ⟨by simp, ?_⟩
      simp [isPlain, hblank, hspecial, hs, py, hsingle, hdouble, hescape]

theorem isPlain_iff : isPlain c = true ↔
    isBlank c = false ∧ isSpecial c = false ∧ c ≠ 39 ∧ c ≠ 34 ∧ c ≠ 92 := by
  simp [isPlain, py, and_assoc]

theorem push_push : push s (push t ws) = push (s ++ t) ws := by simp [push]

theorem lex_word_append (hw : w.all isPlain = true) :
    lex .word (w ++ s) = (lex .word s).map (push w) := by
  induction w with
  | nil =>
    cases h : lex .word s with
    | none => simp [h]
    | some ws =>
      obtain ⟨v, vs, rfl⟩ := List.exists_cons_of_ne_nil ((length_lex h).1 (by simp))
      simp [h, push]
  | cons c w ih =>
    obtain ⟨hc, hw⟩ := Bool.and_eq_true_iff.1 hw
    obtain ⟨hblank, hspecial, hsingle, hdouble, hescape⟩ := isPlain_iff.1 hc
    rw [List.cons_append, lex]
    simp [hblank, hspecial, hsingle, hdouble, hescape, ih hw, Function.comp_def, push_push]

/-- A plain text is a word by itself. -/
theorem lex_word_self (hs : s.all isPlain = true) : lex .word s = some [s] := by
  have h := lex_word_append (s := []) hs
  simpa [lex, push] using h

/-- A plain word that begins neither a comment nor a home directory. -/
def IsWord (w : PyStr) : Prop := w ≠ [] ∧ w.all isPlain = true ∧ w.head? ≠ some 35 ∧ w.head? ≠ some 126

instance (w : PyStr) : Decidable (IsWord w) :=
  inferInstanceAs (Decidable (w ≠ [] ∧ w.all isPlain = true ∧ w.head? ≠ some 35 ∧
    w.head? ≠ some 126))

theorem lex_start (hw : IsWord w) : lex .blank (w ++ s) = (lex .word s).map (push w) := by
  obtain ⟨hne, hplain, hhash, htilde⟩ := hw
  obtain ⟨c, w, rfl⟩ := List.exists_cons_of_ne_nil hne
  obtain ⟨hc, hw⟩ := Bool.and_eq_true_iff.1 hplain
  obtain ⟨hblank, hspecial, hsingle, hdouble, hescape⟩ := isPlain_iff.1 hc
  rw [List.cons_append, lex]
  simp only [List.head?_cons, ne_eq, Option.some.injEq] at hhash htilde
  simp [hblank, hspecial, hsingle, hdouble, hescape, hhash, htilde, lex_word_append hw,
    Function.comp_def, push_push]

/-- Words with a space after each. -/
theorem lex_words (hws : ∀ w ∈ ws, IsWord w) :
    lex .blank (ws.flatMap (· ++ [32]) ++ s) = (lex .blank s).map (ws ++ ·) := by
  induction ws with
  | nil => simp
  | cons w ws ih =>
    obtain ⟨hw, hws⟩ := List.forall_mem_cons.1 hws
    rw [List.flatMap_cons, List.append_assoc, List.append_assoc, lex_start hw, List.singleton_append,
      lex, ih hws]
    simp [isBlank, Function.comp_def, push]

theorem notMem_push (ht : c ∉ t) (hws : ∀ w ∈ ws, c ∉ w) : ∀ w ∈ push t ws, c ∉ w := by
  refine List.forall_mem_cons.2 ⟨?_, fun w hw => hws w (List.mem_of_mem_tail hw)⟩
  rw [List.mem_append, not_or]
  refine ⟨ht, ?_⟩
  cases ws with
  | nil => exact List.not_mem_nil
  | cons w ws => exact hws w (List.mem_cons_self ..)

/-- No character gets into a word that is not in the line, but a backslash. -/
theorem notMem_of_lex (hc : c ≠ 92) (hs : c ∉ s) (h : lex m s = some ws) : ∀ w ∈ ws, c ∉ w := by
  induction s generalizing m ws with
  | nil =>
    cases m with
    | blank => simp [← Option.some.inj h]
    | word => simp [← Option.some.inj h]
    | _ => exact absurd h (by simp [lex])
  | cons d s ih =>
    obtain ⟨hd, hs⟩ := not_or.1 (fun h => hs (List.mem_cons.2 h))
    have hone : c ∉ [d] := by simpa using hd
    have hpush : ∀ {m : Place} {t : PyStr}, c ∉ t → (lex m s).map (push t) = some ws →
        ∀ w ∈ ws, c ∉ w := by
      intro m t ht h
      obtain ⟨vs, hvs, rfl⟩ := Option.map_eq_some_iff.1 h
      exact notMem_push ht (ih hs hvs)
    cases m with
    | blank =>
      simp only [lex] at h
      split_ifs at h
      · exact ih hs h
      · simp [← Option.some.inj h]
      · exact ih hs h
      · exact ih hs h
      · exact ih hs h
      · exact hpush hone h
    | word =>
      simp only [lex] at h
      split_ifs at h
      · obtain ⟨vs, hvs, rfl⟩ := Option.map_eq_some_iff.1 h
        exact List.forall_mem_cons.2 ⟨List.not_mem_nil, ih hs hvs⟩
      · exact ih hs h
      · exact ih hs h
      · exact ih hs h
      · exact hpush hone h
    | single =>
      simp only [lex] at h
      split_ifs at h
      · exact ih hs h
      · exact hpush hone h
    | double =>
      simp only [lex] at h
      split_ifs at h
      · exact ih hs h
      · exact ih hs h
      · exact hpush hone h
    | escaped =>
      simp only [lex] at h
      split_ifs at h
      exact hpush hone h
    | doubleEscaped =>
      refine hpush ?_ h
      split_ifs
      · exact hone
      · simp [hc, hd]

end Dockerfile
