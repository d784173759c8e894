import Mathlib
import IcilOrchestrator.JsonSort

/-!
# Canonical JSON, hashing and signatures

The hash and the signature scheme are parameters (`Crypto`), as they come from
`hashlib` and `nacl`; the hexadecimal they travel in is not. `verifySignature` is
`verify_signature` : a key or a signature that is not hexadecimal, or not of its
length, is a bad signature and never an exception. What a `Signer` signed, its own key
verifies (`verifySignature_sign`), and no proper prefix of a signature verifies anything
(`verifySignature_of_length`).
-/

namespace IcilOrchestrator

open Python

/-! ## Hexadecimal -/

/-- A byte as two lower-case digits. -/
def hexByte (b : UInt8) : PyStr := [hexDigit (b.toNat / 16), hexDigit (b.toNat % 16)]

/-- `data.hex()`. -/
def hex (data : Bytes) : PyStr := data.flatMap hexByte

/-- ASCII whitespace, which `bytes.fromhex` skips between the bytes. -/
def isSpace (c : ℕ) : Bool := c == 32 || decide (9 ≤ c ∧ c ≤ 13)

/-- `bytes.fromhex(s)` ; none is `ValueError`. -/
def fromhex : PyStr → Option Bytes
  | [] => some []
  | [c] => if isSpace c then some [] else none
  | c :: d :: s =>
    if isSpace c then fromhex (d :: s)
    else
      match hexVal c, hexVal d with
      | some a, some b => (fromhex s).map (UInt8.ofNat (16 * a + b) :: ·)
      | _, _ => none

theorem isSpace_hexDigit {d : ℕ} (h : d < 16) : isSpace (hexDigit d) = false := by
  unfold isSpace hexDigit
  split_ifs <;> simp <;> omega

theorem fromhex_hex (data : Bytes) : fromhex (hex data) = some data := by
  induction data with
  | nil => rfl
  | cons b data ih =>
    have hb : b.toNat < 256 := b.toNat_lt
    have hhi : b.toNat / 16 < 16 := by omega
    have hlo : b.toNat % 16 < 16 := by omega
    have hval : UInt8.ofNat (16 * (b.toNat / 16) + b.toNat % 16) = b := by
      rw [Nat.div_add_mod, UInt8.ofNat_toNat]
    have hcons : hex (b :: data) =
        hexDigit (b.toNat / 16) :: hexDigit (b.toNat % 16) :: hex data := rfl
    rw [hcons, fromhex, isSpace_hexDigit hhi, if_neg (by simp), hexVal_hexDigit hhi,
      hexVal_hexDigit hlo]
    simp only [ih, Option.map_some, hval]

theorem length_hex (data : Bytes) : (hex data).length = 2 * data.length := by
  induction data with
  | nil => rfl
  | cons b data ih =>
    have hcons : hex (b :: data) = hexByte b ++ hex data := rfl
    rw [hcons, List.length_append, ih, List.length_cons]
    simp only [hexByte, List.length_cons, List.length_nil]
    omega

/-- Two digits make a byte. -/
theorem two_mul_length_fromhex {s : PyStr} {b : Bytes} (h : fromhex s = some b) :
    2 * b.length ≤ s.length := by
  induction s using fromhex.induct generalizing b with
  | case1 =>
    obtain rfl : [] = b := by simpa [fromhex] using h
    simp
  | case2 c hc =>
    obtain rfl : [] = b := by simpa [fromhex, hc] using h
    simp
  | case3 c hc => simp [fromhex, hc] at h
  | case4 c d s hc ih =>
    rw [fromhex, if_pos hc] at h
    have := ih h
    simp only [List.length_cons] at this ⊢
    omega
  | case5 c d s hc x y hx hy ih =>
    rw [fromhex, if_neg hc, hx, hy] at h
    obtain ⟨b', hb', rfl⟩ := Option.map_eq_some_iff.1 h
    have := ih hb'
    simp only [List.length_cons]
    omega
  | case6 c d s hc hnot =>
    rw [fromhex, if_neg hc] at h
    split at h
    · rename_i x y hx hy
      exact absurd hy (hnot x y hx)
    · simp at h

/-- A lower-case hexadecimal digit. -/
def isHexLower (c : ℕ) : Bool := decide (48 ≤ c ∧ c ≤ 57) || decide (97 ≤ c ∧ c ≤ 102)

theorem isHexLower_hexDigit {d : ℕ} (h : d < 16) : isHexLower (hexDigit d) = true := by
  unfold isHexLower hexDigit
  split_ifs <;> simp <;> omega

theorem isHexLower_hex (data : Bytes) : ∀ x ∈ hex data, isHexLower x := by
  intro x hx
  obtain ⟨b, -, hx⟩ := List.mem_flatMap.1 hx
  have hb : b.toNat < 256 := b.toNat_lt
  simp only [hexByte, List.mem_cons, List.not_mem_nil, or_false] at hx
  rcases hx with rfl | rfl
  · exact isHexLower_hexDigit (by omega)
  · exact isHexLower_hexDigit (by omega)

theorem printable_isHexLower {x : ℕ} (h : isHexLower x) : Printable x := by
  simp only [isHexLower, Bool.or_eq_true, decide_eq_true_eq] at h
  unfold Printable
  omega

/-! ## Hashes and signatures -/

/-- A sha256 in hexadecimal. -/
def isSha256 (s : PyStr) : Bool := s.length == 64 && s.all isHexLower

/-- `hashlib.sha256` and ed25519. -/
structure Crypto where
  /-- `sha256(data).hexdigest()`. -/
  sha256 : Bytes → PyStr
  /-- `VerifyKey(key).verify(message, signature)`, for a key of 32 bytes and a signature of 64. -/
  verify : Bytes → Bytes → Bytes → Bool
  isSha256_sha256 : ∀ data, isSha256 (sha256 data) = true

/-- `verify_signature(key, body, sig)`. -/
def verifySignature (c : Crypto) (key body sig : PyStr) : Bool :=
  match fromhex key, fromhex sig with
  | some k, some s => k.length == 32 && s.length == 64 && c.verify k (encodeUtf8 body) s
  | _, _ => false

/-- A signature of fewer than 128 characters verifies nothing. -/
theorem verifySignature_of_length (c : Crypto) (key body : PyStr) {sig : PyStr}
    (h : sig.length < 128) : verifySignature c key body sig = false := by
  unfold verifySignature
  split
  · rename_i k s hk hs
    have hlen := two_mul_length_fromhex hs
    have : ¬s.length = 64 := by omega
    simp [this]
  · rfl

/-- A key pair : `accepts` is what the scheme promises of it. -/
structure Signer (c : Crypto) where
  key : Bytes
  signature : Bytes → Bytes
  length_key : key.length = 32
  length_signature : ∀ m, (signature m).length = 64
  accepts : ∀ m, c.verify key m (signature m) = true

namespace Signer

variable {c : Crypto} (s : Signer c)

/-- `Signer.verify_key_hex`. -/
def verifyKeyHex : PyStr := hex s.key

/-- `Signer.sign`. -/
def sign (message : PyStr) : PyStr := hex (s.signature (encodeUtf8 message))

theorem verifySignature_sign (body : PyStr) :
    verifySignature c s.verifyKeyHex body (s.sign body) = true := by
  simp [verifySignature, verifyKeyHex, sign, fromhex_hex, s.length_key, s.length_signature,
    s.accepts]

theorem length_sign (body : PyStr) : (s.sign body).length = 128 := by
  rw [sign, length_hex, s.length_signature]

end Signer

/-- `SIGNATURE_RE.fullmatch(sig)`. -/
def isSignature (sig : PyStr) : Bool := sig.length == 128 && sig.all isHexLower

theorem Signer.isSignature_sign {c : Crypto} (s : Signer c) (body : PyStr) :
    isSignature (s.sign body) = true := by
  simp only [isSignature, s.length_sign, beq_self_eq_true, Bool.true_and, List.all_eq_true]
  exact isHexLower_hex _

theorem Signer.printable_sign {c : Crypto} (s : Signer c) (body : PyStr) :
    ∀ x ∈ s.sign body, Printable x :=
  fun x hx => printable_isHexLower (isHexLower_hex _ x hx)

/-! ## A scheme to evaluate with -/

/-- A hash that is its message's first 32 bytes, and a signature that is its first 64, padded. -/
def toyCrypto : Crypto where
  sha256 data := (hex data ++ List.replicate 64 48).take 64
  verify _ m s := s == (m ++ List.replicate 64 0).take 64
  isSha256_sha256 data := by
    simp only [isSha256, Bool.and_eq_true, beq_iff_eq, List.all_eq_true]
    refine ⟨by simp, fun x hx => ?_⟩
    rcases List.mem_append.1 (List.mem_of_mem_take hx) with hx | hx
    · exact isHexLower_hex _ x hx
    · obtain rfl := List.eq_of_mem_replicate hx
      decide

def toySigner : Signer toyCrypto where
  key := List.replicate 32 0
  signature m := (m ++ List.replicate 64 0).take 64
  length_key := by simp
  length_signature m := by simp
  accepts m := by simp [toyCrypto]

/-! ## Canonical JSON -/

/-- `canonical_json(obj)` ; none is `ValueError`. -/
def canonicalJson {F : Type} [PyFloat F] (obj : Json F) : Option PyStr := dumps compact false obj

end IcilOrchestrator
