import Mathlib
import IcilOrchestrator.Text

/-!
# Regular expressions

A pattern of classes of characters (`Pattern`), the texts it matches (`Pattern.language`) and
`fullmatch`, which is run on a text one character after another. `fullmatch_iff` : the two agree.
The pieces that expressions are written with come with what they match : a text (`mem_lit`) and
repetitions of a class (`mem_rep`).
-/

namespace Python

/-- A regular expression over characters. -/
inductive Pattern where
  | never
  | empty
  /-- One character of a class. -/
  | one (p : ℕ → Bool)
  | seq (a b : Pattern)
  | alt (a b : Pattern)
  | star (a : Pattern)

namespace Pattern

/-- The texts that a pattern matches. -/
def language : Pattern → Language ℕ
  | never => 0
  | empty => 1
  | one p => {s | ∃ c, p c = true ∧ s = [c]}
  | seq a b => a.language * b.language
  | alt a b => a.language + b.language
  | star a => KStar.kstar a.language

/-- Whether a pattern matches nothing at all. -/
def nullable : Pattern → Bool
  | never => false
  | empty => true
  | one _ => false
  | seq a b => a.nullable && b.nullable
  | alt a b => a.nullable || b.nullable
  | star _ => true

/-- What is left to match after a character. -/
def after (c : ℕ) : Pattern → Pattern
  | never => never
  | empty => never
  | one p => if p c then empty else never
  | seq a b => if a.nullable then alt (seq (a.after c) b) (b.after c) else seq (a.after c) b
  | alt a b => alt (a.after c) (b.after c)
  | star a => seq (a.after c) (star a)

/-- `re.fullmatch`. -/
def fullmatch (r : Pattern) : PyStr → Bool
  | [] => r.nullable
  | c :: s => (r.after c).fullmatch s

theorem mem_empty {s : PyStr} : s ∈ empty.language ↔ s = [] := by
  rw [language, Language.mem_one]

theorem mem_one {p : ℕ → Bool} {s : PyStr} :
    s ∈ (one p).language ↔ ∃ c, p c = true ∧ s = [c] := Iff.rfl

theorem nullable_iff (r : Pattern) : r.nullable = true ↔ [] ∈ r.language := by
  induction r with
  | never => simp [nullable, language, Language.notMem_zero]
  | empty => simp [nullable, language, Language.mem_one]
  | one p => simp [nullable, mem_one]
  | seq a b ha hb => simp [nullable, language, Language.mem_mul, ha, hb]
  | alt a b ha hb => simp [nullable, language, Language.mem_add, ha, hb]
  | star a => simp [nullable, language, Language.nil_mem_kstar]

/-- A character of a sequence is of its first part, or, where that matches nothing, of its second. -/
theorem cons_mem_mul {l m : Language ℕ} {c : ℕ} {s : PyStr} :
    c :: s ∈ l * m ↔ (∃ a b, s = a ++ b ∧ c :: a ∈ l ∧ b ∈ m) ∨ [] ∈ l ∧ c :: s ∈ m := by
  rw [Language.mem_mul]
  constructor
  · rintro ⟨a, ha, b, hb, hab⟩
    cases a with
    | nil =>
      obtain rfl : b = c :: s := hab
      exact Or.inr ⟨ha, hb⟩
    | cons d a =>
      obtain ⟨rfl, rfl⟩ := List.cons.inj hab
      exact Or.inl ⟨a, b, rfl, ha, hb⟩
  · rintro (⟨a, b, rfl, ha, hb⟩ | ⟨ha, hb⟩)
    · exact ⟨c :: a, ha, b, hb, rfl⟩
    · exact ⟨[], ha, c :: s, hb, rfl⟩

theorem cons_mem_kstar {l : Language ℕ} {c : ℕ} {s : PyStr} :
    c :: s ∈ KStar.kstar l ↔ ∃ a b, s = a ++ b ∧ c :: a ∈ l ∧ b ∈ KStar.kstar l := by
  constructor
  · intro h
    obtain ⟨S, hS, hmem⟩ := Language.mem_kstar_iff_exists_nonempty.1 h
    cases S with
    | nil => simp at hS
    | cons x S =>
      obtain ⟨hx, hne⟩ := hmem x (List.mem_cons_self ..)
      obtain ⟨d, a, rfl⟩ := List.exists_cons_of_ne_nil hne
      rw [List.flatten_cons, List.cons_append] at hS
      obtain ⟨rfl, rfl⟩ := List.cons.inj hS
      exact ⟨a, S.flatten, rfl, hx, Language.mem_kstar.2
        ⟨S, rfl, fun y hy => (hmem y (List.mem_cons_of_mem _ hy)).1⟩⟩
  · rintro ⟨a, b, rfl, ha, hb⟩
    obtain ⟨S, rfl, hS⟩ := Language.mem_kstar.1 hb
    exact Language.mem_kstar.2 ⟨(c :: a) :: S, rfl, List.forall_mem_cons.2 ⟨ha, hS⟩⟩

theorem mem_after (c : ℕ) (r : Pattern) (s : PyStr) :
    s ∈ (r.after c).language ↔ c :: s ∈ r.language := by
  induction r generalizing s with
  | never => simp [after, language, Language.notMem_zero]
  | empty => simp [after, language, Language.notMem_zero, Language.mem_one]
  | one p =>
    rw [after]
    split_ifs with h
    · simp [mem_one, mem_empty, h]
    · refine iff_of_false (Language.notMem_zero _) ?_
      rintro ⟨d, hd, hcd⟩
      obtain ⟨rfl, -⟩ := List.cons.inj hcd
      exact h hd
  | seq a b ha hb =>
    have hfirst : s ∈ (seq (a.after c) b).language ↔
        ∃ x y, s = x ++ y ∧ c :: x ∈ a.language ∧ y ∈ b.language := by
      rw [language, Language.mem_mul]
      constructor
      · rintro ⟨x, hx, y, hy, rfl⟩
        exact ⟨x, y, rfl, (ha x).1 hx, hy⟩
      · rintro ⟨x, y, rfl, hx, hy⟩
        exact ⟨x, (ha x).2 hx, y, hy, rfl⟩
    rw [after, language, cons_mem_mul, ← nullable_iff, ← hb s]
    split_ifs with hn
    · rw [language, Language.mem_add, hfirst]
      simp [hn]
    · rw [hfirst]
      simp [hn]
  | alt a b ha hb => simp only [after, language, Language.mem_add, ha, hb]
  | star a ha =>
    rw [after, language, language, Language.mem_mul, cons_mem_kstar]
    constructor
    · rintro ⟨x, hx, y, hy, rfl⟩
      exact ⟨x, y, rfl, (ha x).1 hx, hy⟩
    · rintro ⟨x, y, rfl, hx, hy⟩
      exact ⟨x, (ha x).2 hx, y, hy, rfl⟩

/-- A text is matched exactly when it is one of the pattern's. -/
theorem fullmatch_iff (r : Pattern) (s : PyStr) : r.fullmatch s = true ↔ s ∈ r.language := by
  induction s generalizing r with
  | nil => exact nullable_iff r
  | cons c s ih => rw [fullmatch, ih, mem_after]

/-! ## What expressions are written with -/

/-- A text. -/
def lit : PyStr → Pattern
  | [] => empty
  | c :: s => seq (one (· == c)) (lit s)

/-- One after another. -/
def cat (rs : List Pattern) : Pattern := rs.foldr seq empty

/-- One of several. -/
def alts (rs : List Pattern) : Pattern := rs.foldr alt never

/-- So many times. -/
def times (r : Pattern) : ℕ → Pattern
  | 0 => empty
  | n + 1 => seq r (times r n)

/-- At most so many times. -/
def atMost (r : Pattern) : ℕ → Pattern
  | 0 => empty
  | n + 1 => alt empty (seq r (atMost r n))

/-- A character of a class, repeated : `{lo,hi}` or `{lo,}`. -/
def rep (p : ℕ → Bool) (lo : ℕ) : Option ℕ → Pattern
  | some hi => seq (times (one p) lo) (atMost (one p) (hi - lo))
  | none => seq (times (one p) lo) (star (one p))

variable {p : ℕ → Bool} {s t : PyStr} {n lo : ℕ} {hi : Option ℕ} {a b : Pattern}

theorem mem_seq : s ∈ (seq a b).language ↔ ∃ x y, s = x ++ y ∧ x ∈ a.language ∧ y ∈ b.language := by
  rw [language, Language.mem_mul]
  constructor
  · rintro ⟨x, hx, y, hy, rfl⟩
    exact ⟨x, y, rfl, hx, hy⟩
  · rintro ⟨x, y, rfl, hx, hy⟩
    exact ⟨x, hx, y, hy, rfl⟩

theorem mem_alt : s ∈ (alt a b).language ↔ s ∈ a.language ∨ s ∈ b.language := by
  rw [language, Language.mem_add]

theorem mem_cat_nil : s ∈ (cat []).language ↔ s = [] := mem_empty

theorem mem_cat_cons {rs : List Pattern} : s ∈ (cat (a :: rs)).language ↔
    ∃ x y, s = x ++ y ∧ x ∈ a.language ∧ y ∈ (cat rs).language := mem_seq

@[simp] theorem mem_alts {rs : List Pattern} :
    s ∈ (alts rs).language ↔ ∃ r ∈ rs, s ∈ r.language := by
  induction rs with
  | nil => exact iff_of_false (Language.notMem_zero s) (by simp)
  | cons r rs ih =>
    simp only [List.mem_cons, exists_eq_or_imp, ← ih]
    exact mem_alt

@[simp] theorem mem_lit : s ∈ (lit t).language ↔ s = t := by
  induction t generalizing s with
  | nil => exact mem_empty
  | cons c t ih =>
    rw [lit, mem_seq]
    constructor
    · rintro ⟨x, y, rfl, ⟨d, hd, rfl⟩, hy⟩
      rw [ih.1 hy, beq_iff_eq.1 hd]
      rfl
    · rintro rfl
      exact ⟨[c], t, rfl, ⟨c, beq_self_eq_true c, rfl⟩, ih.2 rfl⟩

theorem mem_times : s ∈ (times (one p) n).language ↔ s.length = n ∧ s.all p = true := by
  induction n generalizing s with
  | zero =>
    rw [times, mem_empty, List.length_eq_zero_iff]
    exact ⟨fun h => ⟨h, by simp [h]⟩, And.left⟩
  | succ n ih =>
    rw [times, mem_seq]
    constructor
    · rintro ⟨x, y, rfl, ⟨c, hc, rfl⟩, hy⟩
      obtain ⟨hlen, hall⟩ := ih.1 hy
      simp [hlen, hall, hc]
    · rintro ⟨hlen, hall⟩
      obtain ⟨c, s, rfl⟩ := List.exists_cons_of_length_eq_add_one hlen
      obtain ⟨hc, hall⟩ := Bool.and_eq_true_iff.1 hall
      exact ⟨[c], s, rfl, ⟨c, hc, rfl⟩, ih.2 ⟨Nat.succ_injective hlen, hall⟩⟩

theorem mem_atMost : s ∈ (atMost (one p) n).language ↔ s.length ≤ n ∧ s.all p = true := by
  induction n generalizing s with
  | zero =>
    rw [atMost, mem_empty, Nat.le_zero, List.length_eq_zero_iff]
    exact ⟨fun h => ⟨h, by simp [h]⟩, And.left⟩
  | succ n ih =>
    rw [atMost, mem_alt, mem_empty, mem_seq]
    constructor
    · rintro (rfl | ⟨x, y, rfl, ⟨c, hc, rfl⟩, hy⟩)
      · simp
      · obtain ⟨hlen, hall⟩ := ih.1 hy
        exact ⟨Nat.succ_le_succ hlen, Bool.and_eq_true_iff.2 ⟨hc, hall⟩⟩
    · rintro ⟨hlen, hall⟩
      cases s with
      | nil => exact Or.inl rfl
      | cons c s =>
        obtain ⟨hc, hall⟩ := Bool.and_eq_true_iff.1 hall
        exact Or.inr ⟨[c], s, rfl, ⟨c, hc, rfl⟩, ih.2 ⟨Nat.le_of_succ_le_succ hlen, hall⟩⟩

theorem mem_star_one : s ∈ (star (one p)).language ↔ s.all p = true := by
  induction s with
  | nil => exact iff_of_true (Language.nil_mem_kstar _) rfl
  | cons c s ih =>
    rw [language, cons_mem_kstar]
    constructor
    · rintro ⟨x, y, rfl, ⟨d, hd, hcd⟩, hy⟩
      obtain ⟨rfl, rfl⟩ := List.cons.inj hcd
      exact Bool.and_eq_true_iff.2 ⟨hd, ih.1 hy⟩
    · intro h
      obtain ⟨hc, hall⟩ := Bool.and_eq_true_iff.1 h
      exact ⟨[], s, rfl, ⟨c, hc, rfl⟩, ih.2 hall⟩

/-- A repetition matches the texts of the class that have a length within its bounds. -/
@[simp] theorem mem_rep (hlo : ∀ h ∈ hi, lo ≤ h) :
    s ∈ (rep p lo hi).language ↔ lo ≤ s.length ∧ (∀ h ∈ hi, s.length ≤ h) ∧ s.all p = true := by
  have hsplit : ∀ {k : ℕ}, k ≤ s.length → s.all p = true →
      (s.take k).length = k ∧ (s.take k).all p = true ∧ (s.drop k).all p = true := by
    intro k hk hall
    rw [List.all_eq_true] at hall
    refine ⟨by simpa using hk, List.all_eq_true.2 fun c hc => ?_, List.all_eq_true.2 fun c hc => ?_⟩
    · exact hall c (List.mem_of_mem_take hc)
    · exact hall c (List.mem_of_mem_drop hc)
  cases hi with
  | none =>
    rw [rep, mem_seq]
    constructor
    · rintro ⟨x, y, rfl, hx, hy⟩
      obtain ⟨hlen, hall⟩ := mem_times.1 hx
      simp [hlen, hall, mem_star_one.1 hy]
    · rintro ⟨hlen, -, hall⟩
      obtain ⟨hl, htake, hdrop⟩ := hsplit hlen hall
      exact ⟨_, _, (List.take_append_drop lo s).symm, mem_times.2 ⟨hl, htake⟩,
        mem_star_one.2 hdrop⟩
  | some h =>
    have hle : lo ≤ h := hlo h rfl
    rw [rep, mem_seq]
    constructor
    · rintro ⟨x, y, rfl, hx, hy⟩
      obtain ⟨hlen, hall⟩ := mem_times.1 hx
      obtain ⟨hlen', hall'⟩ := mem_atMost.1 hy
      refine ⟨by simp [hlen], fun k hk => ?_, by simp [hall, hall']⟩
      obtain rfl := Option.some.inj hk
      rw [List.length_append, hlen]
      omega
    · rintro ⟨hlen, hbound, hall⟩
      obtain ⟨hl, htake, hdrop⟩ := hsplit hlen hall
      refine ⟨_, _, (List.take_append_drop lo s).symm, mem_times.2 ⟨hl, htake⟩,
        mem_atMost.2 ⟨?_, hdrop⟩⟩
      have := hbound h rfl
      rw [List.length_drop]
      omega

end Pattern

end Python
