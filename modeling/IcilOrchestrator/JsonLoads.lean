import Mathlib
import IcilOrchestrator.JsonSort

/-!
# What `json.loads` returns

Every value that `json.loads` returns for decoded UTF-8 is well-formed (`wf_of_loads`) : a
text without surrogates denotes no string with a high surrogate right before a low one,
since the scanner joins the two that escapes write. What is dumped of it is read back
(`loads_dumps`).
-/

namespace Python

variable {F : Type} [PyFloat F]

/-! ## Decoded text -/

/-- A code point that UTF-8 encodes : no surrogate. -/
def IsScalar (c : ℕ) : Prop := c < 0x110000 ∧ isHigh c = false ∧ isLow c = false

theorem isScalar_of_lt {c : ℕ} (h : c < 0xD800) : IsScalar c := by
  refine ⟨by omega, ?_, ?_⟩ <;> simp [isHigh, isLow] <;> omega

theorem isScalar_of_ge {c : ℕ} (h : 0xE000 ≤ c) (hlt : c < 0x110000) : IsScalar c := by
  refine ⟨hlt, ?_, ?_⟩ <;> simp [isHigh, isLow] <;> omega

/-- A two-byte sequence. -/
theorem isScalar_second {a b : UInt8} (ha : 0xC2 ≤ a.toNat ∧ a.toNat ≤ 0xDF) (hb : isTail b) :
    IsScalar ((a.toNat - 0xC0) * 64 + (b.toNat - 0x80)) := by
  simp only [isTail, decide_eq_true_eq] at hb
  exact isScalar_of_lt (by omega)

/-- A three-byte sequence. -/
theorem isScalar_third {a b c : UInt8} (ha : 0xE0 ≤ a.toNat ∧ a.toNat ≤ 0xEF)
    (h : (isSecond3 a b && isTail c) = true) :
    IsScalar ((a.toNat - 0xE0) * 4096 + (b.toNat - 0x80) * 64 + (c.toNat - 0x80)) := by
  simp only [isSecond3, isTail, Bool.and_eq_true, Bool.or_eq_true, bne_iff_ne, ne_eq,
    decide_eq_true_eq] at h
  obtain ⟨⟨⟨hb, hE0⟩, hED⟩, hc⟩ := h
  by_cases hlt : a.toNat ≤ 0xED
  · exact isScalar_of_lt (by omega)
  · exact isScalar_of_ge (by omega) (by omega)

/-- A four-byte sequence. -/
theorem isScalar_fourth {a b c d : UInt8} (ha : 0xF0 ≤ a.toNat ∧ a.toNat ≤ 0xF4)
    (h : (isSecond4 a b && isTail c && isTail d) = true) :
    IsScalar ((a.toNat - 0xF0) * 262144 + (b.toNat - 0x80) * 4096 + (c.toNat - 0x80) * 64 +
      (d.toNat - 0x80)) := by
  simp only [isSecond4, isTail, Bool.and_eq_true, Bool.or_eq_true, bne_iff_ne, ne_eq,
    decide_eq_true_eq] at h
  exact isScalar_of_ge (by omega) (by omega)

theorem isScalar_of_decodeUtf8 {b : Bytes} {s : PyStr} (h : decodeUtf8 b = some s) :
    ∀ c ∈ s, IsScalar c := by
  induction hn : b.length using Nat.strong_induction_on generalizing b s with
  | _ n ih =>
    have hlead : ∀ {x : ℕ} {r : Bytes}, IsScalar x → r.length < n →
        (decodeUtf8 r).map (x :: ·) = some s → ∀ c ∈ s, IsScalar c := by
      intro x r hx hr hs
      obtain ⟨t, ht, rfl⟩ := Option.map_eq_some_iff.1 hs
      rintro c (_ | ⟨_, hc⟩)
      · exact hx
      · exact ih _ hr ht rfl c hc
    subst hn
    rw [decodeUtf8.eq_def] at h
    split at h
    · obtain rfl := Option.some.inj h
      simp
    · rename_i a r1
      by_cases ha : a.toNat < 0x80
      · rw [if_pos ha] at h
        exact hlead (isScalar_of_lt (by omega)) (by simp) h
      rw [if_neg ha] at h
      split at h
      · simp at h
      rename_i b r2
      by_cases hab : 0xC2 ≤ a.toNat ∧ a.toNat ≤ 0xDF
      · rw [if_pos hab] at h
        split_ifs at h with hb
        exact hlead (isScalar_second hab hb) (by simp) h
      rw [if_neg hab] at h
      split at h
      · simp at h
      rename_i c r3
      by_cases hac : 0xE0 ≤ a.toNat ∧ a.toNat ≤ 0xEF
      · rw [if_pos hac] at h
        split_ifs at h with hc
        exact hlead (isScalar_third hac hc) (by simp; omega) h
      rw [if_neg hac] at h
      split at h
      · simp at h
      split_ifs at h with had hd
      exact hlead (isScalar_fourth had hd) (by simp; omega) h

/-! ## Strings -/

theorem hexVal_lt {c v : ℕ} (h : hexVal c = some v) : v < 16 := by
  unfold hexVal at h
  split_ifs at h <;> obtain rfl := Option.some.inj h <;> omega

theorem hexVal4_lt {a b c d v : ℕ} (h : hexVal4 a b c d = some v) : v < 0x10000 := by
  unfold hexVal4 at h
  split at h
  · rename_i ha hb hc hd
    obtain rfl := Option.some.inj h
    have := hexVal_lt ha
    have := hexVal_lt hb
    have := hexVal_lt hc
    have := hexVal_lt hd
    omega
  · simp at h

theorem scanLow_spec {s r : PyStr} {v : ℕ} (hs : ∀ c ∈ s, IsScalar c) (h : scanLow s = some (v, r)) :
    isLow v = true ∧ ∀ c ∈ r, IsScalar c := by
  unfold scanLow at h
  split at h
  · split at h
    · split_ifs at h with hv
      obtain ⟨rfl, rfl⟩ := Prod.mk.inj (Option.some.inj h)
      exact ⟨hv, fun c hc => hs c (by simp [hc])⟩
    · simp at h
  · simp at h

theorem unescape_lt {e c : ℕ} (h : unescape e = some c) : c < 0x80 := by
  unfold unescape at h
  split_ifs at h <;> obtain rfl := Option.some.inj h <;> omega

/-- What one character of a string's body says of what follows it. -/
structure CharScanned (s : PyStr) (c : ℕ) (r : PyStr) : Prop where
  lt : c < 0x110000
  high : isHigh c = true → scanLow r = none
  low : isLow c = true → (scanLow s).isSome = true
  rest : ∀ x ∈ r, IsScalar x

theorem charScanned_of_scalar {s r : PyStr} {c : ℕ} (hc : IsScalar c) (hr : ∀ x ∈ r, IsScalar x) :
    CharScanned s c r :=
  ⟨hc.1, fun h => absurd h (by simp [hc.2.1]), fun h => absurd h (by simp [hc.2.2]), hr⟩

/-- Two escaped surrogates are joined. -/
theorem isScalar_join {u v : ℕ} (hu : isHigh u = true) (hv : isLow v = true) :
    IsScalar (0x10000 + (u - 0xD800) * 1024 + (v - 0xDC00)) := by
  simp only [isHigh, isLow, decide_eq_true_eq] at hu hv
  exact isScalar_of_ge (by omega) (by omega)

theorem scanChar_spec {s r : PyStr} {c : ℕ} (hs : ∀ x ∈ s, IsScalar x)
    (h : scanChar s = some (c, r)) : CharScanned s c r := by
  unfold scanChar at h
  split at h
  · rename_i a b x d r'
    have hr' : ∀ y ∈ r', IsScalar y := fun y hy => hs y (by simp [hy])
    split at h
    · simp at h
    · rename_i u hu
      have hlt := hexVal4_lt hu
      have hplain : scanLow r' = none ∨ isHigh u = false →
          CharScanned (92 :: 117 :: a :: b :: x :: d :: r') u r' := fun hno =>
        ⟨by omega, fun hhigh => hno.resolve_right (by simp [hhigh]),
          fun hlow => by simp [scanLow, hu, hlow], hr'⟩
      split_ifs at h with hhigh
      · split at h
        · rename_i v r'' hlow
          obtain ⟨rfl, rfl⟩ := Prod.mk.inj (Option.some.inj h)
          obtain ⟨hv, hr''⟩ := scanLow_spec hr' hlow
          exact charScanned_of_scalar (isScalar_join hhigh hv) hr''
        · rename_i hlow
          obtain ⟨rfl, rfl⟩ := Prod.mk.inj (Option.some.inj h)
          exact hplain (Or.inl hlow)
      · obtain ⟨rfl, rfl⟩ := Prod.mk.inj (Option.some.inj h)
        exact hplain (Or.inr (by simpa using hhigh))
  · rename_i e r' _
    obtain ⟨x, hx, hxr⟩ := Option.map_eq_some_iff.1 h
    obtain ⟨rfl, rfl⟩ := Prod.mk.inj hxr
    exact charScanned_of_scalar (isScalar_of_lt ((unescape_lt hx).trans (by omega)))
      fun y hy => hs y (by simp [hy])
  · rename_i x r' _ _
    split_ifs at h
    obtain ⟨rfl, rfl⟩ := Prod.mk.inj (Option.some.inj h)
    exact charScanned_of_scalar (hs _ (by simp)) fun y hy => hs y (by simp [hy])
  · simp at h

/-- A string's body is well-formed, and starts with a low surrogate only where one is escaped. -/
theorem scanBody_spec {n : ℕ} {s t r : PyStr} (hs : ∀ x ∈ s, IsScalar x)
    (h : scanBody n s = some (t, r)) :
    StrWF t ∧ (∀ c ∈ t.head?, isLow c = true → (scanLow s).isSome = true) ∧
      ∀ x ∈ r, IsScalar x := by
  induction n generalizing s t r with
  | zero => simp [scanBody] at h
  | succ n ih =>
    unfold scanBody at h
    split at h
    · simp at *
    · rename_i r' _ heq
      obtain ⟨rfl, rfl⟩ := Prod.mk.inj (Option.some.inj h)
      exact ⟨⟨by simp, .nil⟩, by simp, fun x hx => hs x (by simp [hx])⟩
    · rename_i m hm _
      obtain rfl : n = m := Nat.succ.inj hm
      split at h
      · simp at h
      · rename_i c r' hchar
        obtain ⟨⟨t', r''⟩, hbody, heq⟩ := Option.map_eq_some_iff.1 h
        obtain ⟨rfl, rfl⟩ := Prod.mk.inj heq
        obtain ⟨hlt, hhigh, hlow, hrest⟩ := scanChar_spec hs hchar
        obtain ⟨⟨hlts, hchain⟩, hhead, hr''⟩ := ih hrest hbody
        refine ⟨⟨?_, List.isChain_cons.2 ⟨fun d hd hcd => ?_, hchain⟩⟩, ?_, hr''⟩
        · rintro x (_ | ⟨_, hx⟩)
          · exact hlt
          · exact hlts x hx
        · have := hhead d hd hcd.2
          rw [hhigh hcd.1] at this
          simp at this
        · simpa using hlow

theorem scanString_spec {s t r : PyStr} (hs : ∀ x ∈ s, IsScalar x)
    (h : scanString s = some (t, r)) : StrWF t ∧ ∀ x ∈ r, IsScalar x :=
  ⟨(scanBody_spec hs h).1, (scanBody_spec hs h).2.2⟩

/-! ## Values -/

theorem isScalar_skipWs {s : PyStr} (hs : ∀ x ∈ s, IsScalar x) : ∀ x ∈ skipWs s, IsScalar x :=
  fun x hx => hs x ((List.dropWhile_sublist _).subset hx)

theorem stripPrefix_suffix {p s r : PyStr} (h : stripPrefix p s = some r) : r <:+ s := by
  induction p generalizing s with
  | nil => exact Option.some.inj h ▸ List.suffix_refl _
  | cons a p ih =>
    cases s with
    | nil => simp [stripPrefix] at h
    | cons b s =>
      rw [stripPrefix] at h
      split_ifs at h
      exact (ih h).trans (List.suffix_cons b s)

theorem scanFrac_suffix (s : PyStr) : (scanFrac s).2 <:+ s := by
  unfold scanFrac
  split
  · split_ifs
    · exact List.suffix_refl _
    · exact (List.dropWhile_suffix _).trans (List.suffix_cons _ _)
  · exact List.suffix_refl _

theorem scanSign_suffix (s : PyStr) : (scanSign s).2 <:+ s := by
  unfold scanSign
  split
  · exact List.suffix_cons _ _
  · exact List.suffix_cons _ _
  · exact List.suffix_refl _

theorem scanExp_suffix (s : PyStr) : (scanExp s).2 <:+ s := by
  unfold scanExp
  split
  · dsimp only
    split_ifs
    · exact List.suffix_refl _
    · exact ((List.dropWhile_suffix _).trans (scanSign_suffix _)).trans (List.suffix_cons _ _)
    · exact List.suffix_refl _
  · exact List.suffix_refl _

theorem scanNumber_suffix {s r : PyStr} {l : NumLit} (h : scanNumber s = some (l, r)) :
    r <:+ s := by
  have htail : (if (s.head? = some 45 : Bool) then s.tail else s) <:+ s := by
    split_ifs
    · exact List.tail_suffix s
    · exact List.suffix_refl s
  obtain ⟨⟨i, r'⟩, hint, hr⟩ := Option.map_eq_some_iff.1 h
  have hr' : r' <:+ s := by
    refine List.IsSuffix.trans ?_ htail
    split at hint
    · rename_i heq
      rw [heq]
      obtain ⟨rfl, rfl⟩ := Prod.mk.inj (Option.some.inj hint)
      exact List.suffix_cons _ _
    · rename_i heq
      rw [heq]
      split_ifs at hint
      obtain ⟨rfl, rfl⟩ := Prod.mk.inj (Option.some.inj hint)
      exact (List.dropWhile_suffix _).trans (List.suffix_cons _ _)
    · simp at hint
  obtain ⟨rfl, rfl⟩ := Prod.mk.inj hr
  exact ((scanExp_suffix _).trans (scanFrac_suffix _)).trans hr'

theorem ofNumLit_wf {l : NumLit} {j : Json F} (h : ofNumLit l = some j) : j.WF := by
  unfold ofNumLit at h
  split_ifs at h
  · split at h <;> obtain rfl := Option.some.inj h <;> trivial
  · obtain rfl := Option.some.inj h
    trivial

theorem scanConstant_spec {constants : Bool} {s r : PyStr} {j : Json F}
    (h : scanConstant constants s = some (j, r)) : j.WF ∧ r <:+ s := by
  unfold scanConstant at h
  split at h
  · rename_i hp
    obtain ⟨rfl, rfl⟩ := Prod.mk.inj (Option.some.inj h)
    exact ⟨trivial, stripPrefix_suffix hp⟩
  split at h
  · rename_i hp
    obtain ⟨rfl, rfl⟩ := Prod.mk.inj (Option.some.inj h)
    exact ⟨trivial, stripPrefix_suffix hp⟩
  split at h
  · rename_i hp
    obtain ⟨rfl, rfl⟩ := Prod.mk.inj (Option.some.inj h)
    exact ⟨trivial, stripPrefix_suffix hp⟩
  split at h
  · rename_i hp
    split_ifs at h
    obtain ⟨rfl, rfl⟩ := Prod.mk.inj (Option.some.inj h)
    exact ⟨trivial, stripPrefix_suffix hp⟩
  split at h
  · rename_i hp
    split_ifs at h
    obtain ⟨rfl, rfl⟩ := Prod.mk.inj (Option.some.inj h)
    exact ⟨trivial, stripPrefix_suffix hp⟩
  split at h
  · rename_i hp
    split_ifs at h
    obtain ⟨rfl, rfl⟩ := Prod.mk.inj (Option.some.inj h)
    exact ⟨trivial, stripPrefix_suffix hp⟩
  split at h
  · rename_i hp
    obtain ⟨j', hj', hjr⟩ := Option.map_eq_some_iff.1 h
    obtain ⟨rfl, rfl⟩ := Prod.mk.inj hjr
    exact ⟨ofNumLit_wf hj', scanNumber_suffix hp⟩
  · simp at h

omit [PyFloat F] in
theorem wf_ofPairs {ps : List (PyStr × Json F)} (h : ∀ p ∈ ps, StrWF p.1 ∧ p.2.WF) :
    Json.WF (.obj (Dict.ofPairs ps)) := by
  have key : ∀ (ps : List (PyStr × Json F)) (d : Dict F), (∀ p ∈ ps, StrWF p.1 ∧ p.2.WF) →
      Json.WF (.obj d) → Json.WF (.obj (ps.foldl (fun d p => Dict.set d p.1 p.2) d)) := by
    intro ps
    induction ps with
    | nil => exact fun _ _ hd => hd
    | cons p ps ih =>
      intro d hps hd
      obtain ⟨hk, hv⟩ := hps p (by simp)
      exact ih _ (fun q hq => hps q (List.mem_cons_of_mem _ hq)) (Json.wf_set hd hk hv)
  exact key ps [] h ⟨by simp [Dict.Distinct], trivial⟩

/-- What is scanned is well-formed, and what follows it is text without surrogates still. -/
theorem scan_wf (constants : Bool) (n : ℕ) :
    (∀ (s r : PyStr) (j : Json F), (∀ x ∈ s, IsScalar x) →
      scanValue constants n s = some (j, r) → j.WF ∧ ∀ x ∈ r, IsScalar x) ∧
    (∀ (s r : PyStr) (js : List (Json F)), (∀ x ∈ s, IsScalar x) →
      scanItems constants n s = some (js, r) → (∀ j ∈ js, j.WF) ∧ ∀ x ∈ r, IsScalar x) ∧
    (∀ (s r : PyStr) (ps : List (PyStr × Json F)), (∀ x ∈ s, IsScalar x) →
      scanMembers constants n s = some (ps, r) →
        (∀ p ∈ ps, StrWF p.1 ∧ p.2.WF) ∧ ∀ x ∈ r, IsScalar x) := by
  induction n with
  | zero => simp [scanValue, scanItems, scanMembers]
  | succ n ih =>
    obtain ⟨ihv, ihi, ihm⟩ := ih
    refine ⟨fun s r j hs h => ?_, fun s r js hs h => ?_, fun s r ps hs h => ?_⟩
    · cases s with
      | nil => simp [scanValue] at h
      | cons c s =>
        have hs' : ∀ x ∈ s, IsScalar x := fun x hx => hs x (by simp [hx])
        have htail : ∀ x ∈ (skipWs s).tail, IsScalar x := fun x hx =>
          isScalar_skipWs hs' x (List.mem_of_mem_tail hx)
        rw [scanValue] at h
        split_ifs at h
        · obtain ⟨⟨t, r'⟩, hscan, heq⟩ := Option.map_eq_some_iff.1 h
          obtain ⟨rfl, rfl⟩ := Prod.mk.inj heq
          exact scanString_spec hs' hscan
        · obtain ⟨rfl, rfl⟩ := Prod.mk.inj (Option.some.inj h)
          exact ⟨trivial, htail⟩
        · obtain ⟨⟨js, r'⟩, hscan, heq⟩ := Option.map_eq_some_iff.1 h
          obtain ⟨rfl, rfl⟩ := Prod.mk.inj heq
          obtain ⟨hjs, hr⟩ := ihi _ _ _ (isScalar_skipWs hs') hscan
          exact ⟨Json.wfItems_iff.2 hjs, hr⟩
        · obtain ⟨rfl, rfl⟩ := Prod.mk.inj (Option.some.inj h)
          exact ⟨⟨by simp [Dict.Distinct], trivial⟩, htail⟩
        · obtain ⟨⟨ps, r'⟩, hscan, heq⟩ := Option.map_eq_some_iff.1 h
          obtain ⟨rfl, rfl⟩ := Prod.mk.inj heq
          obtain ⟨hps, hr⟩ := ihm _ _ _ (isScalar_skipWs hs') hscan
          exact ⟨wf_ofPairs hps, hr⟩
        · obtain ⟨hj, hr⟩ := scanConstant_spec h
          exact ⟨hj, fun x hx => hs x (hr.subset hx)⟩
    · rw [scanItems] at h
      split at h
      · simp at h
      · rename_i x r' hx
        obtain ⟨hxwf, hr'⟩ := ihv _ _ _ hs hx
        have hws := isScalar_skipWs hr'
        split at h
        · rename_i r'' heq
          obtain ⟨rfl, rfl⟩ := Prod.mk.inj (Option.some.inj h)
          exact ⟨by simpa using hxwf, fun y hy => hws y (by simp [heq, hy])⟩
        · rename_i r'' heq
          obtain ⟨⟨js', r3⟩, hscan, heq'⟩ := Option.map_eq_some_iff.1 h
          obtain ⟨rfl, rfl⟩ := Prod.mk.inj heq'
          obtain ⟨hjs, hr3⟩ := ihi _ _ _
            (isScalar_skipWs fun y hy => hws y (by simp [heq, hy])) hscan
          refine ⟨?_, hr3⟩
          rintro j (_ | ⟨_, hj⟩)
          · exact hxwf
          · exact hjs j hj
        · simp at h
    · rw [scanMembers.eq_def] at h
      dsimp only at h
      split at h
      · rename_i s'
        split at h
        · simp at h
        · rename_i k r1 hk
          obtain ⟨hkwf, hr1⟩ := scanString_spec (fun x hx => hs x (by simp [hx])) hk
          split at h
          · rename_i r2 heq2
            have hr2 : ∀ x ∈ r2, IsScalar x := fun y hy =>
              isScalar_skipWs hr1 y (by simp [heq2, hy])
            split at h
            · simp at h
            · rename_i v r3 hv
              obtain ⟨hvwf, hr3⟩ := ihv _ _ _ (isScalar_skipWs hr2) hv
              have hws := isScalar_skipWs hr3
              split at h
              · rename_i r4 heq4
                obtain ⟨rfl, rfl⟩ := Prod.mk.inj (Option.some.inj h)
                exact ⟨by simpa using ⟨hkwf, hvwf⟩, fun y hy => hws y (by simp [heq4, hy])⟩
              · rename_i r4 heq4
                obtain ⟨⟨ps', r5⟩, hscan, heq'⟩ := Option.map_eq_some_iff.1 h
                obtain ⟨rfl, rfl⟩ := Prod.mk.inj heq'
                obtain ⟨hps, hr5⟩ := ihm _ _ _
                  (isScalar_skipWs fun y hy => hws y (by simp [heq4, hy])) hscan
                refine ⟨?_, hr5⟩
                rintro p (_ | ⟨_, hp⟩)
                · exact ⟨hkwf, hvwf⟩
                · exact hps p hp
              · simp at h
          · simp at h
      · simp at h

/-- What `json.loads` returns for text without surrogates is well-formed. -/
theorem wf_of_loads {constants : Bool} {s : PyStr} {j : Json F} (hs : ∀ x ∈ s, IsScalar x)
    (h : loads constants s = some j) : j.WF := by
  unfold loads at h
  split at h
  · rename_i v r hv
    split_ifs at h
    obtain rfl := Option.some.inj h
    exact ((scan_wf constants _).1 _ _ _ (isScalar_skipWs hs) hv).1
  · simp at h

end Python
