import Mathlib

/-!
# Python text and bytes

A `str` is the list of its code points (`PyStr`). JSON names lone surrogates by
their escapes, so a code point is a number and not a `Char`. A file's contents are
`Bytes`.

`decodeUtf8` is the strict decoder (`bytes.decode("utf-8")`) : it takes exactly the
well-formed sequences, and refuses the rest as a whole. `encodeUtf8` is its inverse on
ASCII (`decodeUtf8_encodeUtf8`), which is all that canonical JSON is made of. `decimal`
is `str` of a natural number, and `digitsVal` reads it back.
-/

namespace Python

/-- A `str` : its code points. -/
abbrev PyStr := List ℕ

/-- The contents of a file. -/
abbrev Bytes := List UInt8

/-- The code points of a string literal of the source. -/
def py (s : String) : PyStr := s.toList.map Char.toNat

/-- Literals are equal as code points exactly when they are equal. -/
@[simp] theorem py_inj {a b : String} : py a = py b ↔ a = b := by
  constructor
  · intro h
    have hinj : Function.Injective Char.toNat := fun c d hcd => Char.toNat_inj.1 hcd
    exact String.toList_inj.1 (hinj.list_map h)
  · rintro rfl
    rfl

/-- `in`, of a string and a tuple of them. -/
instance (s : PyStr) (l : List PyStr) : Decidable (s ∈ l) := inferInstanceAs (Decidable (s ∈ l))

theorem notMem_of_all {f : ℕ → Bool} {c : ℕ} {s : PyStr} (hs : s.all f = true) (hc : f c = false) : c ∉ s := by
  intro h
  rw [List.all_eq_true.1 hs c h] at hc
  simp at hc

/-- No part of a split text has the separator. -/
theorem notMem_of_mem_splitOn {s p : PyStr} {a : ℕ} (h : p ∈ s.splitOn a) : a ∉ p := by
  induction s generalizing p with
  | nil =>
    obtain rfl : p = [] := by simpa [List.splitOn_nil] using h
    exact List.not_mem_nil
  | cons c s ih =>
    rw [List.splitOn_cons_eq_if_modifyHead] at h
    split_ifs at h with hc
    · rcases List.mem_cons.1 h with rfl | h
      · exact List.not_mem_nil
      · exact ih h
    · cases hs : s.splitOn a with
      | nil => exact absurd hs (List.splitOn_ne_nil a s)
      | cons q qs =>
        rw [hs] at h ih
        rcases List.mem_cons.1 h with rfl | h
        · have hne : a ≠ c := fun heq => hc (by simp [heq])
          simpa [hne] using ih List.mem_cons_self
        · exact ih (List.mem_cons_of_mem _ h)

/-! ## UTF-8 -/

/-- A continuation byte. -/
def isTail (b : UInt8) : Bool := decide (0x80 ≤ b.toNat ∧ b.toNat ≤ 0xBF)

/-- The second byte of a three-byte sequence led by `a` : no overlong form and no surrogate. -/
def isSecond3 (a b : UInt8) : Bool :=
  isTail b && (a.toNat != 0xE0 || 0xA0 ≤ b.toNat) && (a.toNat != 0xED || b.toNat ≤ 0x9F)

/-- The second byte of a four-byte sequence led by `a` : no overlong form, nothing past
`U+10FFFF`. -/
def isSecond4 (a b : UInt8) : Bool :=
  isTail b && (a.toNat != 0xF0 || 0x90 ≤ b.toNat) && (a.toNat != 0xF4 || b.toNat ≤ 0x8F)

/-- `data.decode("utf-8")` ; none is `UnicodeDecodeError`. -/
def decodeUtf8 : Bytes → Option PyStr
  | [] => some []
  | a :: r1 =>
    if a.toNat < 0x80 then (decodeUtf8 r1).map (a.toNat :: ·)
    else match r1 with
      | [] => none
      | b :: r2 =>
        if 0xC2 ≤ a.toNat ∧ a.toNat ≤ 0xDF then
          if isTail b then
            (decodeUtf8 r2).map (((a.toNat - 0xC0) * 64 + (b.toNat - 0x80)) :: ·)
          else none
        else match r2 with
          | [] => none
          | c :: r3 =>
            if 0xE0 ≤ a.toNat ∧ a.toNat ≤ 0xEF then
              if isSecond3 a b && isTail c then
                (decodeUtf8 r3).map (((a.toNat - 0xE0) * 4096 + (b.toNat - 0x80) * 64
                  + (c.toNat - 0x80)) :: ·)
              else none
            else match r3 with
              | [] => none
              | d :: r4 =>
                if 0xF0 ≤ a.toNat ∧ a.toNat ≤ 0xF4 then
                  if isSecond4 a b && isTail c && isTail d then
                    (decodeUtf8 r4).map (((a.toNat - 0xF0) * 262144 + (b.toNat - 0x80) * 4096
                      + (c.toNat - 0x80) * 64 + (d.toNat - 0x80)) :: ·)
                  else none
                else none

/-- One code point in UTF-8. -/
def encodeChar (c : ℕ) : Bytes :=
  if c < 0x80 then [UInt8.ofNat c]
  else if c < 0x800 then [UInt8.ofNat (0xC0 + c / 64), UInt8.ofNat (0x80 + c % 64)]
  else if c < 0x10000 then
    [UInt8.ofNat (0xE0 + c / 4096), UInt8.ofNat (0x80 + c / 64 % 64), UInt8.ofNat (0x80 + c % 64)]
  else
    [UInt8.ofNat (0xF0 + c / 262144), UInt8.ofNat (0x80 + c / 4096 % 64),
      UInt8.ofNat (0x80 + c / 64 % 64), UInt8.ofNat (0x80 + c % 64)]

/-- `text.encode("utf-8")`, for text without surrogates. -/
def encodeUtf8 (s : PyStr) : Bytes := s.flatMap encodeChar

/-- Every code point is below `0x80`. -/
def IsAscii (s : PyStr) : Prop := ∀ c ∈ s, c < 0x80

instance (s : PyStr) : Decidable (IsAscii s) := inferInstanceAs (Decidable (∀ c ∈ s, c < 0x80))

theorem isAscii_nil : IsAscii [] := by simp [IsAscii]

theorem isAscii_cons {c : ℕ} {s : PyStr} : IsAscii (c :: s) ↔ c < 0x80 ∧ IsAscii s := by
  simp [IsAscii]

theorem isAscii_append {s t : PyStr} : IsAscii (s ++ t) ↔ IsAscii s ∧ IsAscii t := by
  simp [IsAscii, or_imp, forall_and]

/-- ASCII is encoded one byte a character. -/
theorem encodeUtf8_of_isAscii {s : PyStr} (hs : IsAscii s) :
    encodeUtf8 s = s.map UInt8.ofNat := by
  induction s with
  | nil => rfl
  | cons c s ih =>
    obtain ⟨hc, hs⟩ := isAscii_cons.1 hs
    have := ih hs
    simp only [encodeUtf8, List.flatMap_cons, List.map_cons] at this ⊢
    simp [encodeChar, hc, this]

/-- ASCII decodes to what was encoded. -/
theorem decodeUtf8_map_ofNat {s : PyStr} (hs : IsAscii s) :
    decodeUtf8 (s.map UInt8.ofNat) = some s := by
  induction s with
  | nil => rfl
  | cons c s ih =>
    obtain ⟨hc, hs⟩ := isAscii_cons.1 hs
    have hc' : (UInt8.ofNat c).toNat = c := by
      rw [UInt8.toNat_ofNat']; exact Nat.mod_eq_of_lt (by omega)
    rw [List.map_cons, decodeUtf8.eq_def]
    simp only [hc', hc, if_true, ih hs, Option.map_some]

theorem decodeUtf8_encodeUtf8 {s : PyStr} (hs : IsAscii s) :
    decodeUtf8 (encodeUtf8 s) = some s := by
  rw [encodeUtf8_of_isAscii hs, decodeUtf8_map_ofNat hs]

/-- A byte past ASCII leads a character past ASCII. -/
theorem decodeUtf8_of_not_ascii {a : UInt8} {data : Bytes} (ha : ¬a.toNat < 0x80) {s : PyStr}
    (h : decodeUtf8 (a :: data) = some s) : ¬IsAscii s := by
  have hlead : ∀ {c : ℕ} {o : Option PyStr}, 0x80 ≤ c → o.map (c :: ·) = some s → ¬IsAscii s := by
    intro c o hc ho hs
    obtain ⟨t, -, rfl⟩ := Option.map_eq_some_iff.1 ho
    have := (isAscii_cons.1 hs).1
    omega
  rw [decodeUtf8.eq_def] at h
  simp only [ha, if_false] at h
  split at h
  · simp at h
  · split at h
    · split at h
      · exact hlead (by omega) h
      · simp at h
    · split at h
      · simp at h
      · split at h
        · split at h
          · rename_i hb
            refine hlead ?_ h
            simp only [isSecond3, isTail, Bool.and_eq_true, Bool.or_eq_true, decide_eq_true_eq,
              bne_iff_ne] at hb
            omega
          · simp at h
        · split at h
          · simp at h
          · split at h
            · split at h
              · rename_i hb
                refine hlead ?_ h
                simp only [isSecond4, isTail, Bool.and_eq_true, Bool.or_eq_true, decide_eq_true_eq,
                  bne_iff_ne] at hb
                omega
              · simp at h
            · simp at h

/-- Bytes that decode to ASCII are its characters. -/
theorem eq_of_decodeUtf8 {data : Bytes} {s : PyStr} (h : decodeUtf8 data = some s)
    (hs : IsAscii s) : data = s.map UInt8.ofNat := by
  induction data generalizing s with
  | nil =>
    obtain rfl : [] = s := by simpa [decodeUtf8] using h
    rfl
  | cons a data ih =>
    by_cases ha : a.toNat < 0x80
    · rw [decodeUtf8.eq_def] at h
      simp only [ha, if_true] at h
      obtain ⟨t, ht, rfl⟩ := Option.map_eq_some_iff.1 h
      rw [List.map_cons, ← ih ht (isAscii_cons.1 hs).2, UInt8.ofNat_toNat]
    · exact absurd hs (decodeUtf8_of_not_ascii ha h)

theorem encodeUtf8_append (s t : PyStr) : encodeUtf8 (s ++ t) = encodeUtf8 s ++ encodeUtf8 t := by
  simp [encodeUtf8]

example : decodeUtf8 [0x61, 0xC3, 0xA9, 0xED, 0xA0, 0x80] = none := by decide

/-! ## Numbers -/

/-- A decimal digit, as a character. -/
def isDigit (c : ℕ) : Bool := decide (48 ≤ c ∧ c ≤ 57)

/-- `int` of a run of digits. -/
def digitsVal (ds : PyStr) : ℕ := ds.foldl (fun n c => n * 10 + (c - 48)) 0

/-- `str` of a natural number. -/
def decimal (n : ℕ) : PyStr :=
  if n = 0 then [48] else (Nat.digits 10 n).reverse.map (48 + ·)

theorem decimal_ne_nil (n : ℕ) : decimal n ≠ [] := by
  unfold decimal
  split_ifs with h
  · simp
  · simpa [Nat.digits_eq_nil_iff_eq_zero] using h

theorem isDigit_decimal (n : ℕ) : ∀ c ∈ decimal n, isDigit c := by
  intro c hc
  unfold decimal at hc
  split_ifs at hc with h
  · obtain rfl := List.mem_singleton.1 hc
    decide
  · obtain ⟨d, hd, rfl⟩ := List.mem_map.1 hc
    have : d < 10 := Nat.digits_lt_base (by omega) (List.mem_reverse.1 hd)
    simp [isDigit]
    omega

theorem digitsVal_append_singleton (ds : PyStr) (c : ℕ) :
    digitsVal (ds ++ [c]) = digitsVal ds * 10 + (c - 48) := by
  simp [digitsVal]

/-- Reading a decimal back gives the number. -/
theorem digitsVal_decimal (n : ℕ) : digitsVal (decimal n) = n := by
  have key : ∀ ds : List ℕ, digitsVal (ds.reverse.map (48 + ·)) = Nat.ofDigits 10 ds := by
    intro ds
    induction ds with
    | nil => rfl
    | cons d ds ih =>
      rw [List.reverse_cons, List.map_append, List.map_singleton, digitsVal_append_singleton, ih,
        Nat.ofDigits_cons]
      simp
      ring
  unfold decimal
  split_ifs with h
  · rw [h]; rfl
  · rw [key, Nat.ofDigits_digits]

/-- A decimal has no leading zero, unless it is `0`. -/
theorem decimal_head (n : ℕ) : decimal n = [48] ∨ ∀ c ∈ (decimal n).head?, c ≠ 48 := by
  unfold decimal
  split_ifs with h
  · exact Or.inl rfl
  · right
    intro c hc
    rw [List.head?_map, List.head?_reverse] at hc
    obtain ⟨d, hd, rfl⟩ := Option.mem_map.1 hc
    have hne : Nat.digits 10 n ≠ [] := by simpa [Nat.digits_eq_nil_iff_eq_zero] using h
    rw [List.getLast?_eq_getLast_of_ne_nil hne, Option.mem_some_iff] at hd
    have := Nat.getLast_digit_ne_zero 10 h
    omega

theorem length_decimal_le {n k : ℕ} (hk : 0 < k) : (decimal n).length ≤ k ↔ n < 10 ^ k := by
  unfold decimal
  split_ifs with h
  · subst h
    simp only [List.length_singleton]
    exact ⟨fun _ => by positivity, fun _ => hk⟩
  · simpa using Nat.digits_length_le_iff (by omega : 1 < 10) n

end Python
