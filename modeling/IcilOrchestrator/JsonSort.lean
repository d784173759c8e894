import Mathlib
import IcilOrchestrator.JsonRoundTrip

/-!
# Sorted keys and canonical text

`json.dumps` with `sort_keys` prints the value with the items of every dict in the order
of their keys. `loads_dumps` : reading the text back gives that value, which prints to
the same text (`dumps_sortKeys`), looks every key up as before (`get?_sortDict`) and is
equal to itself in Python (`pyEq_self`).

Compact text is printable ASCII (`printable_of_dumps_compact`), so it holds no newline and
no tab. A value with an infinity or a NaN somewhere in it is written when they are
allowed, and not read back when they are refused (`loads_print_of_not_dumpable`).
-/

namespace Python

variable {F : Type}

/-! ## The order of strings -/

theorem strLe_total (s t : PyStr) : strLe s t = true ∨ strLe t s = true := by
  induction s generalizing t with
  | nil => exact Or.inl rfl
  | cons a s ih =>
    cases t with
    | nil => exact Or.inr rfl
    | cons b t =>
      simp only [strLe, Bool.or_eq_true, Bool.and_eq_true, decide_eq_true_eq, beq_iff_eq]
      rcases lt_trichotomy a b with h | rfl | h
      · exact Or.inl (Or.inl h)
      · simpa using ih t
      · exact Or.inr (Or.inl h)

theorem strLe_trans {s t u : PyStr} (hst : strLe s t) (htu : strLe t u) : strLe s u := by
  induction s generalizing t u with
  | nil => rfl
  | cons a s ih =>
    cases t with
    | nil => simp [strLe] at hst
    | cons b t =>
      cases u with
      | nil => simp [strLe] at htu
      | cons c u =>
        simp only [strLe, Bool.or_eq_true, Bool.and_eq_true, decide_eq_true_eq, beq_iff_eq] at *
        rcases hst with h | ⟨rfl, h⟩ <;> rcases htu with h' | ⟨rfl, h'⟩
        · exact Or.inl (h.trans h')
        · exact Or.inl h
        · exact Or.inl h'
        · exact Or.inr ⟨rfl, ih h h'⟩

/-- Items in the order of their keys. -/
def KeyLe (p q : PyStr × Json F) : Prop := strLe p.1 q.1 = true

instance : DecidableRel (KeyLe (F := F)) := fun p q =>
  inferInstanceAs (Decidable (strLe p.1 q.1 = true))

instance : Std.Total (KeyLe (F := F)) := ⟨fun p q => strLe_total p.1 q.1⟩

instance : IsTrans (PyStr × Json F) KeyLe := ⟨fun _ _ _ h h' => strLe_trans h h'⟩

/-! ## Sorting -/

namespace Json

theorem sortItems_eq_map (xs : List (Json F)) : sortItems xs = xs.map sortKeys := by
  induction xs with
  | nil => rfl
  | cons x xs ih => simp [sortItems, ih]

theorem sortMembers_eq_map (kvs : Dict F) :
    sortMembers kvs = kvs.map fun p => (p.1, p.2.sortKeys) := by
  induction kvs with
  | nil => rfl
  | cons p kvs ih => simp [sortMembers, ih]

/-- The items of a dict once it is sorted. -/
def sortDict (kvs : Dict F) : Dict F := (sortMembers kvs).insertionSort KeyLe

theorem sortKeys_obj (kvs : Dict F) : sortKeys (.obj kvs) = .obj (sortDict kvs) := rfl

theorem sortKeys_arr (xs : List (Json F)) : sortKeys (.arr xs) = .arr (xs.map sortKeys) := by
  rw [sortKeys, sortItems_eq_map]

theorem perm_sortDict (kvs : Dict F) :
    (sortDict kvs).Perm (kvs.map fun p => (p.1, p.2.sortKeys)) := by
  rw [← sortMembers_eq_map]
  exact List.perm_insertionSort _ _

theorem mem_sortDict {kvs : Dict F} {p : PyStr × Json F} :
    p ∈ sortDict kvs ↔ ∃ q ∈ kvs, (q.1, q.2.sortKeys) = p := by
  rw [(perm_sortDict kvs).mem_iff, List.mem_map]

theorem pairwise_sortDict (kvs : Dict F) : (sortDict kvs).Pairwise KeyLe :=
  List.pairwise_insertionSort _ _

theorem keys_sortDict (kvs : Dict F) :
    ((sortDict kvs).map Prod.fst).Perm (kvs.map Prod.fst) := by
  have h := (perm_sortDict kvs).map Prod.fst
  rwa [List.map_map, show (Prod.fst ∘ fun p : PyStr × Json F => (p.1, p.2.sortKeys)) = Prod.fst
    from rfl] at h

theorem distinct_sortDict {kvs : Dict F} (h : Dict.Distinct kvs) : Dict.Distinct (sortDict kvs) :=
  (keys_sortDict kvs).nodup_iff.2 h

/-- Sorting a dict changes no look-up, but for the order of the items inside. -/
theorem get?_sortDict {kvs : Dict F} (h : Dict.Distinct kvs) (k : PyStr) :
    Dict.get? (sortDict kvs) k = (Dict.get? kvs k).map sortKeys := by
  cases hk : Dict.get? kvs k with
  | some v =>
    exact Dict.get?_of_mem (distinct_sortDict h) (mem_sortDict.2 ⟨_, Dict.mem_of_get? hk, rfl⟩)
  | none =>
    have hnot : ¬(Dict.get? (sortDict kvs) k).isSome := by
      rw [Dict.get?_isSome_iff, (keys_sortDict kvs).mem_iff, ← Dict.get?_isSome_iff, hk]
      simp
    simpa using hnot

theorem get_sortDict {kvs : Dict F} (h : Dict.Distinct kvs) (k : PyStr) :
    Dict.get (sortDict kvs) k = (Dict.get kvs k).sortKeys := by
  rw [Dict.get, Dict.get, get?_sortDict h]
  cases Dict.get? kvs k <;> rfl

theorem wf_sortKeys {j : Json F} (h : j.WF) : j.sortKeys.WF := by
  induction j with
  | arr xs ih =>
    rw [sortKeys_arr]
    refine wfItems_iff.2 fun x hx => ?_
    obtain ⟨y, hy, rfl⟩ := List.mem_map.1 hx
    exact ih y hy (wfItems_iff.1 h y hy)
  | obj kvs ih =>
    obtain ⟨hd, hm⟩ := h
    refine ⟨distinct_sortDict hd, wfMembers_iff.2 fun p hp => ?_⟩
    obtain ⟨q, hq, rfl⟩ := mem_sortDict.1 hp
    exact ⟨(wfMembers_iff.1 hm q hq).1, ih q hq (wfMembers_iff.1 hm q hq).2⟩
  | _ => exact h

theorem dumpable_sortKeys (b : Bool) (j : Json F) : j.sortKeys.dumpable b = j.dumpable b := by
  induction j with
  | arr xs ih =>
    rw [sortKeys_arr, Bool.eq_iff_iff]
    simp only [dumpable, dumpableItems_iff, List.mem_map, forall_exists_index, and_imp,
      forall_apply_eq_imp_iff₂]
    exact forall₂_congr fun x hx => by rw [ih x hx]
  | obj kvs ih =>
    rw [sortKeys_obj, Bool.eq_iff_iff]
    simp only [dumpable, dumpableMembers_iff]
    constructor
    · intro h p hp
      rw [← ih p hp]
      exact h _ (mem_sortDict.2 ⟨p, hp, rfl⟩)
    · intro h p hp
      obtain ⟨q, hq, rfl⟩ := mem_sortDict.1 hp
      exact (ih q hq).trans (h q hq)
  | _ => rfl

/-- A sorted value is sorted. -/
theorem sortKeys_sortKeys (j : Json F) : j.sortKeys.sortKeys = j.sortKeys := by
  induction j with
  | arr xs ih =>
    rw [sortKeys_arr, sortKeys_arr, List.map_map]
    exact congrArg _ (List.map_congr_left ih)
  | obj kvs ih =>
    have hmap : (sortDict kvs).map (fun p => (p.1, p.2.sortKeys)) = sortDict kvs := by
      refine (List.map_congr_left fun p hp => ?_).trans (List.map_id _)
      obtain ⟨q, hq, rfl⟩ := mem_sortDict.1 hp
      simp only [ih q hq, id]
    rw [sortKeys_obj, sortKeys_obj, sortDict, sortMembers_eq_map, hmap,
      (pairwise_sortDict kvs).insertionSort_eq]
  | _ => rfl

end Json

/-! ## Written and read back -/

variable [PyFloat F]

theorem dumps_eq_some_iff {L : Layout} {b : Bool} {j : Json F} {t : PyStr} :
    dumps L b j = some t ↔ j.dumpable b ∧ t = print L 0 j.sortKeys := by
  unfold dumps
  split_ifs with h <;> simp [h, eq_comm]

/-- What is read back is the value with its keys sorted. -/
theorem loads_dumps {L : Layout} {b : Bool} {j : Json F} (hj : j.WF) {t : PyStr}
    (h : dumps L b j = some t) {w : PyStr} (hw : ∀ c ∈ w, isWs c) :
    loads b (t ++ w) = some j.sortKeys := by
  obtain ⟨hd, rfl⟩ := dumps_eq_some_iff.1 h
  exact loads_print L (Json.wf_sortKeys hj) ((Json.dumpable_sortKeys b j).trans hd) hw

/-- The value read back is written as it was. -/
theorem dumps_sortKeys (L : Layout) (b : Bool) (j : Json F) :
    dumps L b j.sortKeys = dumps L b j := by
  simp only [dumps, Json.dumpable_sortKeys, Json.sortKeys_sortKeys]

omit [PyFloat F] in
theorem dumpable_of_strict {j : Json F} (h : j.dumpable false) (b : Bool) : j.dumpable b := by
  induction j with
  | arr xs ih =>
    exact Json.dumpableItems_iff.2 fun x hx => ih x hx (Json.dumpableItems_iff.1 h x hx)
  | obj kvs ih =>
    exact Json.dumpableMembers_iff.2 fun p hp => ih p hp (Json.dumpableMembers_iff.1 h p hp)
  | inf neg => simp [Json.dumpable] at h
  | nan => simp [Json.dumpable] at h
  | _ => exact h

/-! ## Printable text -/

/-- A printable ASCII character. -/
def Printable (c : ℕ) : Prop := 32 ≤ c ∧ c ≤ 126

instance : DecidablePred Printable := fun c => inferInstanceAs (Decidable (32 ≤ c ∧ c ≤ 126))

theorem printable_hexDigit {d : ℕ} (h : d < 16) : Printable (hexDigit d) := by
  unfold hexDigit Printable
  split_ifs <;> omega

theorem printable_hex4 (n : ℕ) : ∀ c ∈ hex4 n, Printable c := by
  have hm : ∀ m, Printable (hexDigit (m % 16)) :=
    fun m => printable_hexDigit (Nat.mod_lt m (by omega))
  simp [hex4, hm]

theorem printable_escape (n : ℕ) : ∀ c ∈ escape n, Printable c := by
  have h := printable_hex4
  unfold escape
  split_ifs with h1 h2 h3 h4 h5 h6 h7 h8 h9
  all_goals
    intro c hc
    simp only [List.cons_append, List.mem_cons, List.mem_append, List.not_mem_nil, or_false] at hc
  · rcases hc with rfl | rfl <;> decide
  · rcases hc with rfl | rfl <;> decide
  · rcases hc with rfl | rfl <;> decide
  · rcases hc with rfl | rfl <;> decide
  · rcases hc with rfl | rfl <;> decide
  · rcases hc with rfl | rfl <;> decide
  · rcases hc with rfl | rfl <;> decide
  · exact hc ▸ h8
  · rcases hc with rfl | rfl | hc
    · decide
    · decide
    · exact h _ c hc
  · rcases hc with rfl | rfl | hc | rfl | rfl | hc
    · decide
    · decide
    · exact h _ c hc
    · decide
    · decide
    · exact h _ c hc

theorem printable_isDigit {c : ℕ} (h : isDigit c) : Printable c := by
  simp only [isDigit, decide_eq_true_eq] at h
  unfold Printable
  omega

theorem printable_text {l : NumLit} (hl : l.WF) : ∀ c ∈ l.text, Printable c := by
  have hexp : ∀ c ∈ l.exp, Printable c := by
    rcases hl.exp_digit with h | ⟨sign, ds, h, hsign, -, hds⟩
    · simp [h]
    · rw [h]
      intro c hc
      rcases List.mem_append.1 hc with hc | hc
      · rcases hsign with rfl | rfl | rfl
        · simp at hc
        · obtain rfl := List.mem_singleton.1 hc
          decide
        · obtain rfl := List.mem_singleton.1 hc
          decide
      · exact printable_isDigit (hds c hc)
  intro c hc
  simp only [NumLit.text, List.append_assoc, List.mem_append] at hc
  rcases hc with hc | hc | hc | hc
  · split_ifs at hc
    · obtain rfl := List.mem_singleton.1 hc
      decide
    · simp at hc
  · exact printable_isDigit (hl.int_digit c hc)
  · split_ifs at hc
    · simp at hc
    · rcases List.mem_cons.1 hc with rfl | hc
      · decide
      · exact printable_isDigit (hl.frac_digit c hc)
  · split_ifs at hc
    · simp at hc
    · rcases List.mem_cons.1 hc with rfl | hc
      · decide
      · exact hexp c hc

theorem printable_quote (s : PyStr) : ∀ c ∈ quote s, Printable c := by
  intro c hc
  simp only [quote, List.cons_append, List.mem_cons, List.mem_append, List.mem_flatMap,
    List.not_mem_nil, or_false] at hc
  rcases hc with rfl | ⟨a, -, hc⟩ | rfl
  · decide
  · exact printable_escape a c hc
  · decide

/-- The characters a layout puts between the values. -/
def Layout.Puts (L : Layout) (c : ℕ) : Prop :=
  (∃ d, c ∈ L.opening d ∨ c ∈ L.item d ∨ c ∈ L.closing d) ∨ c ∈ L.colon

theorem Layout.isWs_of_puts {L : Layout} {c : ℕ} (h : L.Puts c) : isWs c := by
  rcases h with ⟨d, h | h | h⟩ | h
  · exact L.opening_ws d c h
  · exact L.item_ws d c h
  · exact L.closing_ws d c h
  · exact L.colon_ws c h

theorem not_compact_puts (c : ℕ) : ¬compact.Puts c := by simp [Layout.Puts, compact]

/-- A text is printable ASCII and what its layout puts in it. -/
theorem mem_print (L : Layout) (j : Json F) :
    ∀ d, ∀ c ∈ print L d j, Printable c ∨ L.Puts c := by
  have hlit : ∀ l : NumLit, l.WF → ∀ c ∈ l.text, Printable c ∨ L.Puts c :=
    fun l hl c hc => Or.inl (printable_text hl c hc)
  induction j with
  | null => exact fun d c hc => Or.inl (by revert c; simp only [print, py_null]; decide)
  | bool b =>
    cases b
    · exact fun d c hc => Or.inl (by revert c; simp only [print, py_false]; decide)
    · exact fun d c hc => Or.inl (by revert c; simp only [print, py_true]; decide)
  | int z => exact fun d => hlit _ (intLit_wf z)
  | float x => exact fun d => hlit _ (PyFloat.lit_wf x)
  | inf b =>
    cases b
    · exact fun d c hc => Or.inl (by revert c; simp only [print, py_infinity]; decide)
    · exact fun d c hc => Or.inl (by revert c; simp only [print, py_neg_infinity]; decide)
  | nan => exact fun d c hc => Or.inl (by revert c; simp only [print, py_nan]; decide)
  | str s => exact fun d c hc => Or.inl (printable_quote s c hc)
  | arr xs ih =>
    have hitems : ∀ ys : List (Json F), (∀ y ∈ ys, y ∈ xs) →
        ∀ d, ∀ c ∈ printItems L d ys, Printable c ∨ L.Puts c := by
      intro ys hys d
      induction ys with
      | nil => simp [printItems]
      | cons y ys ihy =>
        intro c hc
        simp only [printItems, List.cons_append, List.append_assoc, List.mem_cons,
          List.mem_append] at hc
        rcases hc with rfl | hc | hc | hc
        · exact Or.inl (by decide)
        · exact Or.inr (Or.inl ⟨d, Or.inr (Or.inl hc)⟩)
        · exact ih y (hys y (by simp)) d c hc
        · exact ihy (fun z hz => hys z (by simp [hz])) c hc
    intro d c hc
    cases xs with
    | nil => exact Or.inl (by revert c; simp only [print]; decide)
    | cons x xs =>
      simp only [print, List.cons_append, List.append_assoc, List.mem_cons, List.mem_append,
        List.not_mem_nil, or_false] at hc
      rcases hc with rfl | hc | hc | hc | hc | rfl
      · exact Or.inl (by decide)
      · exact Or.inr (Or.inl ⟨d + 1, Or.inl hc⟩)
      · exact ih x (by simp) _ c hc
      · exact hitems xs (fun y hy => by simp [hy]) _ c hc
      · exact Or.inr (Or.inl ⟨d, Or.inr (Or.inr hc)⟩)
      · exact Or.inl (by decide)
  | obj kvs ih =>
    have hmembers : ∀ ps : Dict F, (∀ p ∈ ps, p ∈ kvs) →
        ∀ d, ∀ c ∈ printMembers L d ps, Printable c ∨ L.Puts c := by
      intro ps hps d
      induction ps with
      | nil => simp [printMembers]
      | cons p ps ihp =>
        obtain ⟨k, v⟩ := p
        intro c hc
        simp only [printMembers, List.cons_append, List.append_assoc, List.mem_cons,
          List.mem_append] at hc
        rcases hc with rfl | hc | hc | rfl | hc | hc | hc
        · exact Or.inl (by decide)
        · exact Or.inr (Or.inl ⟨d, Or.inr (Or.inl hc)⟩)
        · exact Or.inl (printable_quote k c hc)
        · exact Or.inl (by decide)
        · exact Or.inr (Or.inr hc)
        · exact ih (k, v) (hps _ (by simp)) d c hc
        · exact ihp (fun q hq => hps q (by simp [hq])) c hc
    intro d c hc
    cases kvs with
    | nil => exact Or.inl (by revert c; simp only [print]; decide)
    | cons p kvs =>
      obtain ⟨k, v⟩ := p
      simp only [print, List.cons_append, List.append_assoc, List.mem_cons, List.mem_append,
        List.not_mem_nil, or_false] at hc
      rcases hc with rfl | hc | hc | rfl | hc | hc | hc | hc | rfl
      · exact Or.inl (by decide)
      · exact Or.inr (Or.inl ⟨d + 1, Or.inl hc⟩)
      · exact Or.inl (printable_quote k c hc)
      · exact Or.inl (by decide)
      · exact Or.inr (Or.inr hc)
      · exact ih (k, v) (by simp) _ c hc
      · exact hmembers kvs (fun q hq => by simp [hq]) _ c hc
      · exact Or.inr (Or.inl ⟨d, Or.inr (Or.inr hc)⟩)
      · exact Or.inl (by decide)

/-- Canonical JSON is printable ASCII. -/
theorem printable_of_dumps_compact {b : Bool} {j : Json F} {t : PyStr}
    (h : dumps compact b j = some t) : ∀ c ∈ t, Printable c := by
  obtain ⟨-, rfl⟩ := dumps_eq_some_iff.1 h
  exact fun c hc => (mem_print compact j.sortKeys 0 c hc).resolve_right (not_compact_puts c)

/-- Every JSON text is ASCII. -/
theorem isAscii_print (L : Layout) (j : Json F) : IsAscii (print L 0 j) := by
  intro c hc
  rcases mem_print L j 0 c hc with h | h
  · exact lt_of_le_of_lt h.2 (by omega)
  · have hws := Layout.isWs_of_puts h
    simp only [isWs, Bool.or_eq_true, beq_iff_eq] at hws
    omega

theorem isAscii_of_dumps {L : Layout} {b : Bool} {j : Json F} {t : PyStr}
    (h : dumps L b j = some t) : IsAscii t := by
  obtain ⟨-, rfl⟩ := dumps_eq_some_iff.1 h
  exact isAscii_print L _

/-! ## Equality with itself -/

namespace Json

/-- A value without a NaN in it is equal to itself. -/
theorem pyEq_self {j : Json F} (hj : j.WF) (hd : j.dumpable false) : pyEq j j = true := by
  induction j with
  | null => rfl
  | bool b => simp [pyEq, num?]
  | int z => simp [pyEq, num?]
  | float x => simp [pyEq, num?]
  | inf b => simp [dumpable] at hd
  | nan => simp [dumpable] at hd
  | str s => simp [pyEq]
  | arr xs ih =>
    have key : ∀ ys : List (Json F), (∀ y ∈ ys, pyEq y y = true) → eqItems ys ys = true := by
      intro ys
      induction ys with
      | nil => intro _; rfl
      | cons y ys ihy => exact fun h => by simp [eqItems, h y, ihy fun z hz => h z (by simp [hz])]
    rw [pyEq]
    exact key xs fun x hx => ih x hx (wfItems_iff.1 hj x hx) (dumpableItems_iff.1 hd x hx)
  | obj kvs ih =>
    obtain ⟨hdist, hwf⟩ := hj
    have key : ∀ ps : Dict F, (∀ p ∈ ps, p ∈ kvs) → eqMembers ps kvs = true := by
      intro ps
      induction ps with
      | nil => intro _; rfl
      | cons p ps ihp =>
        obtain ⟨k, v⟩ := p
        intro h
        have hmem : (k, v) ∈ kvs := h _ (by simp)
        have hv : pyEq v v = true :=
          ih _ hmem (wfMembers_iff.1 hwf _ hmem).2 (dumpableMembers_iff.1 hd _ hmem)
        simp [eqMembers, Dict.get?_of_mem hdist hmem, hv, ihp fun q hq => h q (by simp [hq])]
    rw [pyEq]
    simp [key kvs fun _ hp => hp]

end Json

/-! ## Refused constants -/

/-- Without the constants, a text that starts with this value is refused. -/
def ScanFails (L : Layout) (j : Json F) : Prop :=
  ∀ d n rest, Stop rest → j.size ≤ n → scanValue (F := F) false n (print L d j ++ rest) = none

/-- A list with a refused item is refused, once the items before it are scanned. -/
theorem scanItems_eq_none {L : Layout} (d : ℕ) {w : PyStr} (hw : ∀ c ∈ w, isWs c) (rest : PyStr)
    (xs : List (Json F)) :
    ∀ x n, (∀ y ∈ x :: xs, ScansBack L false y ∨ ScanFails L y) → (∃ y ∈ x :: xs, ScanFails L y) →
      1 + x.size + Json.sizeItems xs ≤ n →
      scanItems (F := F) false n (print L d x ++ (printItems L d xs ++ (w ++ 93 :: rest))) = none := by
  induction xs with
  | nil =>
    rintro x (_ | n) H ⟨y, hy, hfail⟩ hn
    · omega
    · obtain rfl : y = x := by simpa using hy
      simp only [Json.sizeItems] at hn
      rw [scanItems, hfail d n _ (stop_printItems (F := F) L d [] hw rest) (by omega)]
  | cons z zs ih =>
    rintro x (_ | n) H ⟨y, hy, hfail⟩ hn
    · omega
    · simp only [Json.sizeItems] at hn
      have hstop := stop_printItems L d (z :: zs) hw rest
      rcases H x (by simp) with hx | hx
      · rcases List.mem_cons.1 hy with rfl | hy
        · rw [scanItems, hfail d n _ hstop (by omega)]
        · have htail := ih z n (fun u hu => H u (List.mem_cons_of_mem _ hu)) ⟨y, hy, hfail⟩
            (by omega)
          rw [scanItems, hx d n _ hstop (by omega)]
          simp only [printItems, List.cons_append, List.append_assoc,
            skipWs_cons (c := 44) (by decide), skipWs_append (L.item_ws d), skipWs_print, htail,
            Option.map_none]
      · rw [scanItems, hx d n _ hstop (by omega)]

/-- A dict with a refused value is refused, once the members before it are scanned. -/
theorem scanMembers_eq_none {L : Layout} (d : ℕ) {w : PyStr} (hw : ∀ c ∈ w, isWs c)
    (rest : PyStr) (kvs : Dict F) :
    ∀ k v n, (∀ p ∈ (k, v) :: kvs, StrWF p.1 ∧ (ScansBack L false p.2 ∨ ScanFails L p.2)) →
      (∃ p ∈ (k, v) :: kvs, ScanFails L p.2) → 1 + v.size + Json.sizeMembers kvs ≤ n →
      scanMembers (F := F) false n
          (quote k ++ 58 :: (L.colon ++ (print L d v ++ (printMembers L d kvs ++
            (w ++ 125 :: rest))))) = none := by
  have hfails : ∀ (k : PyStr) (v : Json F) (n : ℕ) (tail : PyStr), StrWF k → ScanFails L v →
      Stop tail → v.size ≤ n →
      scanMembers (F := F) false (n + 1) (quote k ++ 58 :: (L.colon ++ (print L d v ++ tail))) =
        none := by
    intro k v n tail hk hv ht hn
    rw [quote_append, scanMembers]
    simp only [scanString_quote hk, skipWs_cons (c := 58) (by decide), skipWs_append L.colon_ws,
      skipWs_print, hv d n tail ht hn]
  induction kvs with
  | nil =>
    rintro k v (_ | n) H ⟨p, hp, hfail⟩ hn
    · omega
    · obtain rfl : p = (k, v) := by simpa using hp
      simp only [Json.sizeMembers] at hn
      exact hfails k v n _ (H _ hp).1 hfail (stop_printMembers (F := F) L d [] hw rest) (by omega)
  | cons q kvs ih =>
    obtain ⟨k', v'⟩ := q
    rintro k v (_ | n) H ⟨p, hp, hfail⟩ hn
    · omega
    · simp only [Json.sizeMembers] at hn
      obtain ⟨hk, hv⟩ := H (k, v) (by simp)
      have hstop := stop_printMembers L d ((k', v') :: kvs) hw rest
      by_cases hvf : ScanFails L v
      · exact hfails k v n _ hk hvf hstop (by omega)
      · have hp' : p ∈ (k', v') :: kvs :=
          (List.mem_cons.1 hp).resolve_left fun h => hvf (by subst h; exact hfail)
        have htail := ih k' v' n (fun q hq => H q (List.mem_cons_of_mem _ hq)) ⟨p, hp', hfail⟩
          (by omega)
        have hmore : skipWs (printMembers L d ((k', v') :: kvs) ++ (w ++ 125 :: rest)) =
            44 :: (L.item d ++ (quote k' ++ 58 :: (L.colon ++ (print L d v' ++
              (printMembers L d kvs ++ (w ++ 125 :: rest)))))) := by
          simp only [printMembers, List.cons_append, List.append_assoc,
            skipWs_cons (c := 44) (by decide)]
        have hmember : MemberReads L false (k, v) (k, v) :=
          ⟨strReads_self hk, hv.resolve_right hvf⟩
        rw [scanMembers_more d hmember hstop (by dsimp only; omega) hmore, skipWs_append
          (L.item_ws d), skipWs_quote, htail, Option.map_none]

/-- A value with an infinity or a NaN in it is not scanned where they are refused. -/
theorem scanFails (L : Layout) {j : Json F} (hj : j.WF) (hd : j.dumpable true)
    (hnot : ¬j.dumpable false) : ScanFails L j := by
  induction j with
  | inf b =>
    rintro d (_ | n) rest hs hn
    · simp [Json.size] at hn
    · cases b
      · simp [print, scanValue, scanConstant, stripPrefix]
      · simp [print, scanValue, scanConstant, stripPrefix]
  | nan =>
    rintro d (_ | n) rest hs hn
    · simp [Json.size] at hn
    · simp [print, scanValue, scanConstant, stripPrefix]
  | arr xs ih =>
    have hwf := Json.wfItems_iff.1 hj
    have hdump := Json.dumpableItems_iff.1 hd
    have H : ∀ x ∈ xs, ScansBack L false x ∨ ScanFails L x := fun x hx => by
      by_cases h : x.dumpable false
      · exact Or.inl (scansBack L false x (hwf x hx) h)
      · exact Or.inr (ih x hx (hwf x hx) (hdump x hx) h)
    obtain ⟨y, hy, hyn⟩ : ∃ y ∈ xs, ¬y.dumpable false := by
      by_contra hall
      push Not at hall
      exact hnot (Json.dumpableItems_iff.2 hall)
    have hex : ∃ y ∈ xs, ScanFails L y := ⟨y, hy, ih y hy (hwf y hy) (hdump y hy) hyn⟩
    rintro d (_ | n) rest hs hn
    · simp [Json.size] at hn
    · cases xs with
      | nil => simp at hy
      | cons x xs =>
        obtain ⟨c, r, hc, hws, h93, -⟩ := print_head L (d + 1) x
        have hitems := scanItems_eq_none (d + 1) (L.closing_ws d) rest xs x n H hex
          (by simp only [Json.size, Json.sizeItems] at hn; omega)
        simp only [print, List.cons_append, List.append_assoc, List.nil_append]
        rw [scanValue, if_neg (by decide), if_pos rfl, skipWs_append (L.opening_ws _),
          skipWs_print, if_neg (by simp [hc, h93]), hitems]
        rfl
  | obj kvs ih =>
    have hwf := Json.wfMembers_iff.1 hj.2
    have hdump := Json.dumpableMembers_iff.1 hd
    have H : ∀ p ∈ kvs, StrWF p.1 ∧ (ScansBack L false p.2 ∨ ScanFails L p.2) := fun p hp => by
      refine ⟨(hwf p hp).1, ?_⟩
      by_cases h : p.2.dumpable false
      · exact Or.inl (scansBack L false p.2 (hwf p hp).2 h)
      · exact Or.inr (ih p hp (hwf p hp).2 (hdump p hp) h)
    obtain ⟨p, hp, hpn⟩ : ∃ p ∈ kvs, ¬p.2.dumpable false := by
      by_contra hall
      push Not at hall
      exact hnot (Json.dumpableMembers_iff.2 hall)
    have hex : ∃ p ∈ kvs, ScanFails L p.2 := ⟨p, hp, ih p hp (hwf p hp).2 (hdump p hp) hpn⟩
    rintro d (_ | n) rest hs hn
    · simp [Json.size] at hn
    · cases kvs with
      | nil => simp at hp
      | cons q kvs =>
        obtain ⟨k, v⟩ := q
        have hmem := scanMembers_eq_none (d + 1) (L.closing_ws d) rest kvs k v n H hex
          (by simp only [Json.size, Json.sizeMembers] at hn; omega)
        simp only [print, List.cons_append, List.append_assoc, List.nil_append]
        rw [scanValue, if_neg (by decide), if_neg (by decide), if_pos rfl,
          skipWs_append (L.opening_ws _), skipWs_quote, if_neg (by simp [quote]), hmem, Option.map_none]
  | _ => exact absurd hd hnot

/-- A text with an infinity or a NaN in it is not read where they are refused. -/
theorem loads_print_of_not_dumpable (L : Layout) {j : Json F} (hj : j.WF) (hd : j.dumpable true)
    (hnot : ¬j.dumpable false) {w : PyStr} (hw : ∀ c ∈ w, isWs c) :
    loads (F := F) false (print L 0 j ++ w) = none := by
  have hstop : Stop w := by simpa using stop_append_ws hw stop_nil
  have hsize := size_le_length_print L j 0
  have hscan := scanFails L hj hd hnot 0 ((print L 0 j ++ w).length + 1) w hstop
    (by simp only [List.length_append]; omega)
  simp only [loads, skipWs_print, hscan]

end Python
