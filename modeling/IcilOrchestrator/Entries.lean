import Mathlib
import IcilOrchestrator.Writer

/-!
# The lines of an index

An `Entry` is a record as it stands in an index line : its canonical text, which reads back
as the record. Its line is the text, a tab and the signature (`Entry.bytes`), and a prefix
of a line counts as signed exactly when it is the whole of it (`isSignedLine_of_prefix`).

`Store.Index` says that the index of a track on disk is some entries, numbered from 1, each
part but the newest full, with what a kill has left of the next line after them. The reads
of the writer on such an index (`Index.lastRecord`, `Index.iterIndex`) find its entries.
-/

namespace IcilOrchestrator

open Python

variable {F : Type} [PyFloat F]

/-! ## Entries -/

/-- A record as it is read from an index line. -/
structure Entry (F : Type) [PyFloat F] where
  record : Dict F
  body : PyStr
  canonical : canonicalJson (.obj record) = some body
  /-- Its keys are sorted, as a canonical text has them. -/
  sorted : Json.sortDict record = record
  wf : (Json.obj record).WF

namespace Entry

/-- The entry of a record that is appended. -/
def of (record : Dict F) (body : PyStr) (h : canonicalJson (.obj record) = some body)
    (hwf : (Json.obj record).WF) : Entry F where
  record := Json.sortDict record
  body := body
  canonical := by
    rw [← h, canonicalJson, ← Json.sortKeys_obj, dumps_sortKeys]
    rfl
  sorted := by
    have := Json.sortKeys_sortKeys (.obj record)
    rw [Json.sortKeys_obj, Json.sortKeys_obj] at this
    exact Json.obj.inj this
  wf := Json.wf_sortKeys hwf

variable (e : Entry F) {c : Crypto} (signer : Signer c)

theorem loads_body (b : Bool) : loads b e.body = some (.obj e.record) := by
  obtain ⟨hd, ht⟩ := dumps_eq_some_iff.1 e.canonical
  have hprint := loads_print compact (Json.wf_sortKeys e.wf)
    (by rw [Json.dumpable_sortKeys]; exact dumpable_of_strict hd b) (w := []) (by simp)
  rw [List.append_nil, ← ht, Json.sortKeys_obj, e.sorted] at hprint
  exact hprint

theorem printable_body : ∀ c ∈ e.body, Printable c := printable_of_dumps_compact e.canonical

theorem tab_notMem_body : 9 ∉ e.body := by
  intro h
  have := (e.printable_body 9 h).1
  omega

/-- The text of the line. -/
def text : PyStr := e.body ++ 9 :: signer.sign e.body

theorem printable_text : ∀ c ∈ e.text signer, Printable c ∨ c = 9 := by
  intro c hc
  rcases List.mem_append.1 hc with hc | hc
  · exact Or.inl (e.printable_body c hc)
  · rcases List.mem_cons.1 hc with rfl | hc
    · exact Or.inr rfl
    · exact Or.inl (signer.printable_sign _ c hc)

theorem isAscii_text : IsAscii (e.text signer) := by
  intro c hc
  rcases e.printable_text signer c hc with h | rfl
  · exact lt_of_le_of_lt h.2 (by omega)
  · omega

/-- The line without its newline. -/
def bytes : Bytes := encodeUtf8 (e.text signer)

theorem bytes_eq : e.bytes signer = (e.text signer).map UInt8.ofNat :=
  encodeUtf8_of_isAscii (e.isAscii_text signer)

theorem bytes_ne_nil : e.bytes signer ≠ [] := by
  simp [bytes_eq, text]

theorem newline_notMem_bytes : 10 ∉ e.bytes signer := by
  rw [bytes_eq, List.mem_map]
  rintro ⟨c, hc, h10⟩
  have hlt := e.isAscii_text signer c hc
  have hmod : c = 10 := by
    have := congrArg UInt8.toNat h10
    rw [UInt8.toNat_ofNat', Nat.mod_eq_of_lt (by omega)] at this
    exact this
  subst hmod
  rcases e.printable_text signer 10 hc with h | h
  · exact absurd h.1 (by omega)
  · exact absurd h (by omega)

theorem decodeUtf8_bytes : decodeUtf8 (e.bytes signer) = some (e.text signer) :=
  decodeUtf8_encodeUtf8 (e.isAscii_text signer)

theorem splitTab_text : splitTab (e.text signer) = (e.body, signer.sign e.body) :=
  splitTab_append e.tab_notMem_body _

/-- The line up to its first tab is the body. -/
theorem takeWhile_bytes : (e.bytes signer).takeWhile (· != 9) = e.body.map UInt8.ofNat := by
  have hbody : ∀ b ∈ e.body.map UInt8.ofNat, (b != 9) = true := by
    intro b hb
    obtain ⟨c, hc, rfl⟩ := List.mem_map.1 hb
    have hp := e.printable_body c hc
    unfold Printable at hp
    refine bne_iff_ne.2 fun h9 => ?_
    have := congrArg UInt8.toNat h9
    rw [UInt8.toNat_ofNat', Nat.mod_eq_of_lt (by omega), show UInt8.toNat 9 = 9 from rfl] at this
    omega
  rw [bytes_eq, text, List.map_append, List.map_cons, List.takeWhile_append_of_pos hbody]
  simp

/-- The writer reads the line as its record. -/
theorem recordOf_bytes {z : ℤ} (hz : e.record.get (py "seq") = .int z) :
    recordOf (F := F) (e.bytes signer) = some e.record := by
  have hascii : IsAscii e.body := fun c hc => lt_of_le_of_lt (e.printable_body c hc).2 (by omega)
  rw [recordOf, takeWhile_bytes, decodeUtf8_map_ofNat hascii, Option.bind_some, e.loads_body]
  simp [hz, asInt?]

/-- A line is the line of one entry. -/
theorem bytes_inj {e e' : Entry F} (h : e.bytes signer = e'.bytes signer) : e = e' := by
  have htext : e.text signer = e'.text signer := by
    have := congrArg decodeUtf8 h
    rwa [decodeUtf8_bytes, decodeUtf8_bytes, Option.some_inj] at this
  have hbody : e.body = e'.body := by
    have := congrArg splitTab htext
    rw [splitTab_text, splitTab_text] at this
    exact (Prod.mk.inj this).1
  have hrecord : e.record = e'.record := by
    have := e.loads_body true
    rw [hbody, e'.loads_body true] at this
    exact (Json.obj.inj (Option.some.inj this)).symm
  cases e
  cases e'
  subst hbody hrecord
  rfl

/-! ## Torn lines -/

/-- A prefix of the text with a tab in it is the body, the tab and some of the signature. -/
theorem prefix_text {t : PyStr} (h : t <+: e.text signer) (htab : 9 ∈ t) :
    ∃ sig, t = e.body ++ 9 :: sig ∧ sig <+: signer.sign e.body := by
  have hbody : e.body ++ [9] <+: e.text signer := by simp [text]
  have hnot : ¬t <+: e.body := fun hp => e.tab_notMem_body (hp.subset htab)
  have hlong : e.body ++ [9] <+: t := by
    rcases List.prefix_or_prefix_of_prefix hbody h with hp | hp
    · exact hp
    · rcases List.prefix_concat_iff.1 hp with rfl | hp
      · exact List.prefix_rfl
      · exact absurd hp hnot
  obtain ⟨sig, rfl⟩ := hlong
  refine ⟨sig, by simp, ?_⟩
  simpa [text] using h

/-- What is signed of a line's prefix is signed of the whole line only. -/
theorem isSignedLine_of_prefix {st : Store} {signer : Signer st.crypto} (hs : st.signer = some signer) {tail : Bytes}
    (h : tail <+: e.bytes signer) :
    st.isSignedLine tail = true ↔ tail = e.bytes signer := by
  have hkey : st.verifyKeyHex = signer.verifyKeyHex := by simp [Store.verifyKeyHex, hs]
  constructor
  · intro hsigned
    rw [bytes_eq] at h
    obtain ⟨t, ht, rfl⟩ := List.prefix_map_iff.1 h
    have hascii : IsAscii t := fun c hc => e.isAscii_text signer c (ht.subset hc)
    rw [Store.isSignedLine, decodeUtf8_map_ofNat hascii] at hsigned
    obtain ⟨htab, hverify⟩ := Bool.and_eq_true_iff.1 hsigned
    obtain ⟨sig, rfl, hsig⟩ := e.prefix_text signer ht (by simpa using htab)
    rw [splitTab_append e.tab_notMem_body] at hverify
    have hlen : ¬sig.length < 128 := by
      intro hlt
      rw [verifySignature_of_length _ _ _ hlt] at hverify
      exact absurd hverify (by simp)
    have heq : sig = signer.sign e.body := by
      refine hsig.eq_of_length_le ?_
      rw [signer.length_sign]
      omega
    rw [bytes_eq, text, heq]
  · rintro rfl
    rw [Store.isSignedLine, decodeUtf8_bytes]
    simp only [splitTab_text, hkey, signer.verifySignature_sign, Bool.and_true]
    simp [text]

end Entry

end IcilOrchestrator
