import Mathlib
import IcilOrchestrator.JsonPrefix
import IcilOrchestrator.Index

/-!
# The journals of a duel

`results.jsonl` and `prompts/manifest.jsonl` are written by one program after another, a line for
each unit, and any of them may be killed while it writes (`Attempt`). `readJournal` is what
a resumed duel makes of the file. A journal whose every append begins at the start of a line is
`Durable` : `Codec.durable`, for any records that a line tells from its parts (`Codec`).
-/

namespace Python

/-! ## Lines of text -/

/-- A line boundary of `str.splitlines`. -/
def isBreak (c : ℕ) : Bool := [10, 11, 12, 13, 28, 29, 30, 0x85, 0x2028, 0x2029].contains c

/-- `str.splitlines` of a text without carriage returns, which reading a file as text translates. -/
def splitlines : PyStr → List PyStr
  | [] => []
  | c :: s =>
    if isBreak c then [] :: splitlines s
    else
      match splitlines s with
      | [] => [[c]]
      | l :: ls => (c :: l) :: ls

/-- A line, and what follows its newline. -/
theorem splitlines_append {l : PyStr} (hl : ∀ c ∈ l, isBreak c = false) (s : PyStr) :
    splitlines (l ++ 10 :: s) = l :: splitlines s := by
  induction l with
  | nil => simp [splitlines, isBreak]
  | cons c l ih =>
    rw [List.cons_append, splitlines, hl c (by simp), ih fun x hx => hl x (by simp [hx])]
    simp

/-- A line without its newline. -/
theorem splitlines_line {l : PyStr} (hl : ∀ c ∈ l, isBreak c = false) (hne : l ≠ []) :
    splitlines l = [l] := by
  induction l with
  | nil => exact absurd rfl hne
  | cons c l ih =>
    rw [splitlines, hl c (by simp)]
    rcases eq_or_ne l [] with rfl | hl'
    · simp [splitlines]
    · rw [ih (fun x hx => hl x (by simp [hx])) hl']
      simp

theorem isBreak_of_printable {c : ℕ} (h : Printable c) : isBreak c = false := by
  have h1 := h.1
  have h2 := h.2
  simp [isBreak]
  omega

/-! ## Dictionaries -/

variable {V : Type}

/-- `d[k] = v`. -/
def setItem : List (PyStr × V) → PyStr → V → List (PyStr × V)
  | [], k, v => [(k, v)]
  | p :: d, k, v => if p.1 = k then (k, v) :: d else p :: setItem d k v

theorem lookup_cons_of_ne {k k' : PyStr} (h : k' ≠ k) (v : V) (d : List (PyStr × V)) :
    ((k, v) :: d).lookup k' = d.lookup k' := by
  rw [List.lookup_cons, beq_false_of_ne h]

theorem lookup_setItem (d : List (PyStr × V)) (k k' : PyStr) (v : V) :
    (setItem d k v).lookup k' = if k' = k then some v else d.lookup k' := by
  split_ifs with h
  · subst h
    induction d with
    | nil => exact List.lookup_cons_self
    | cons p d ih =>
      rw [setItem]
      split_ifs with h₁
      · exact List.lookup_cons_self
      · rw [lookup_cons_of_ne (Ne.symm h₁), ih]
  · induction d with
    | nil => exact lookup_cons_of_ne h v []
    | cons p d ih =>
      rw [setItem]
      split_ifs with h₁
      · rw [lookup_cons_of_ne h, lookup_cons_of_ne (h₁ ▸ h)]
      · rw [List.lookup_cons, List.lookup_cons, ih]

end Python

namespace IcilOrchestrator

open Python

/-! ## Appends -/

namespace Journal

variable {R V : Type}

/-- How an append ends : it returns, or its process is killed once `n` bytes of its line, at most,
have reached the file. -/
inductive How where
  | returned
  | killed (n : ℕ)
deriving DecidableEq

/-- A call of `_append`. -/
structure Attempt (R : Type) where
  record : R
  how : How

variable (enc : R → Option PyStr)

/-- What reaches the file of an append. A record that has no line raises before anything is
written. -/
def Attempt.bytes (w : Attempt R) : Bytes :=
  match enc w.record, w.how with
  | none, _ => []
  | some line, .returned => encodeUtf8 (line ++ [10])
  | some line, .killed n => (encodeUtf8 (line ++ [10])).take n

/-- The file after the appends of any processes, one after another. -/
def journal (ws : List (Attempt R)) : Option Bytes :=
  ws.foldl (fun file w => some (file.getD [] ++ w.bytes enc)) none

/-- The append returned. -/
def Attempt.Returned (w : Attempt R) : Prop := w.how = .returned ∧ (enc w.record).isSome

/-- The record reached the file in full. -/
def Attempt.Full (w : Attempt R) : Prop := ∃ line ∈ enc w.record, line.length ≤ (w.bytes enc).length

/-- The file holds whole lines only. -/
def AtLine (data : Bytes) : Prop := data = [] ∨ data.getLast? = some 10

/-- Every append begins at the start of a line, after the bytes `data`, and is given a record
that `ok` holds of. -/
def Clean (ok : R → Prop) : Bytes → List (Attempt R) → Prop
  | _, [] => True
  | data, w :: ws => AtLine data ∧ ok w.record ∧ Clean ok (data ++ w.bytes enc) ws

/-- What a reader owes the appends `ws` : `same` says that a value that was read is the record that
was written. -/
structure Durable (unit : R → PyStr) (same : V → R → Prop) (ws : List (Attempt R))
    (out : List (PyStr × V)) : Prop where
  /-- A record whose append returned is read, or a later one of its unit that reached the file. -/
  kept : ∀ pre w post, ws = pre ++ w :: post → w.Returned enc →
    ∃ v w', out.lookup (unit w.record) = some v ∧ same v w'.record ∧
      unit w'.record = unit w.record ∧ (w' = w ∨ w' ∈ post ∧ w'.Full enc)
  /-- What is read was given to an append. -/
  given : ∀ u v, out.lookup u = some v → ∃ w ∈ ws, unit w.record = u ∧ same v w.record

/-! ## Reading -/

/-- The lines of a journal ; none when there is no file. -/
def journalLines : Option Bytes → Except PyError (List PyStr)
  | none => .ok []
  | some data =>
    match decodeUtf8 data with
    | none => .error .valueError
    | some text => .ok (splitlines (universalNewlines text))

/-- A line is taken up under its unit, skipped, or raises. -/
def takeUp (dec : PyStr → Except PyError (Option (PyStr × V))) (out : List (PyStr × V))
    (line : PyStr) : Except PyError (List (PyStr × V)) :=
  match dec line with
  | .error e => .error e
  | .ok none => .ok out
  | .ok (some (u, v)) => .ok (setItem out u v)

/-- Every line of a journal, the last one for a unit winning. -/
def readJournal (dec : PyStr → Except PyError (Option (PyStr × V))) (file : Option Bytes) :
    Except PyError (List (PyStr × V)) :=
  match journalLines file with
  | .error e => .error e
  | .ok lines => lines.foldlM (takeUp dec) []

/-! ## A journal of whole lines -/

/-- What the records that `ok` holds of owe their journal : printable lines, of which no part is
read, and the whole as the record. -/
structure Codec (enc : R → Option PyStr) (dec : PyStr → Except PyError (Option (PyStr × V)))
    (unit : R → PyStr) (value : R → V) (ok : R → Prop) : Prop where
  nonempty : ∀ r line, ok r → enc r = some line → line ≠ []
  printable : ∀ r line, ok r → enc r = some line → ∀ c ∈ line, Printable c
  whole : ∀ r line, ok r → enc r = some line → dec line = .ok (some (unit r, value r))
  cut : ∀ r line p, ok r → enc r = some line → p <+: line → p ≠ line → dec p = .ok none

instance (w : Attempt R) : Decidable (w.Full enc) :=
  inferInstanceAs (Decidable (∃ line ∈ enc w.record, line.length ≤ (w.bytes enc).length))

/-- The text of what reaches the file. -/
def Attempt.text (w : Attempt R) : PyStr :=
  match enc w.record, w.how with
  | none, _ => []
  | some line, .returned => line ++ [10]
  | some line, .killed n => (line ++ [10]).take n

section

variable {enc} {dec : PyStr → Except PyError (Option (PyStr × V))} {unit : R → PyStr}
  {value : R → V} {ok : R → Prop} {w : Attempt R} {ws : List (Attempt R)}

theorem text_of_none (h : enc w.record = none) : w.text enc = [] := by
  unfold Attempt.text
  rw [h]

theorem text_isPrefix {line : PyStr} (h : enc w.record = some line) :
    w.text enc <+: line ++ [10] := by
  unfold Attempt.text
  rw [h]
  cases w.how with
  | returned => exact List.prefix_rfl
  | killed n => exact List.take_prefix _ _

namespace Codec

variable (h : Codec enc dec unit value ok)

include h

theorem isAscii_line {line : PyStr} {r : R} (hr : ok r) (hline : enc r = some line) :
    IsAscii (line ++ [10]) :=
  isAscii_append.2 ⟨fun c hc => lt_of_le_of_lt (h.printable r line hr hline c hc).2 (by omega),
    by simp [IsAscii]⟩

theorem isAscii_text (hw : ok w.record) : IsAscii (w.text enc) := by
  cases hline : enc w.record with
  | none => simp [text_of_none hline, IsAscii]
  | some line => exact fun c hc => h.isAscii_line hw hline c ((text_isPrefix hline).subset hc)

theorem bytes_eq (hw : ok w.record) : w.bytes enc = (w.text enc).map UInt8.ofNat := by
  unfold Attempt.bytes Attempt.text
  cases hline : enc w.record with
  | none => rfl
  | some line =>
    have hascii := h.isAscii_line hw hline
    cases w.how with
    | returned => exact encodeUtf8_of_isAscii hascii
    | killed n => simp only [encodeUtf8_of_isAscii hascii, List.map_take]

theorem full_iff {line : PyStr} (hw : ok w.record) (hline : enc w.record = some line) :
    w.Full enc ↔ line.length ≤ (w.text enc).length := by
  simp [Attempt.Full, hline, h.bytes_eq hw]

theorem full_of_returned (hw : ok w.record) (hret : w.Returned enc) : w.Full enc := by
  obtain ⟨line, hline⟩ := Option.isSome_iff_exists.1 hret.2
  rw [h.full_iff hw hline, Attempt.text, hline, hret.1]
  simp

/-- What is on the file of a record : nothing, its line, its line without the newline, or a part
of that. -/
theorem text_cases (hw : ok w.record) :
    w.text enc = [] ∧ ¬w.Full enc ∨ ∃ line, enc w.record = some line ∧
      (w.text enc = line ++ [10] ∧ w.Full enc ∨ w.text enc = line ∧ w.Full enc ∨
        w.text enc ≠ [] ∧ w.text enc <+: line ∧ w.text enc ≠ line ∧ ¬w.Full enc) := by
  cases hline : enc w.record with
  | none =>
    left
    refine ⟨text_of_none hline, ?_⟩
    rintro ⟨line, hmem, -⟩
    simp [hline] at hmem
  | some line =>
    have hfull := h.full_iff hw hline
    rcases List.prefix_concat_iff.1 (text_isPrefix hline) with htext | htext
    · exact Or.inr ⟨line, rfl, Or.inl ⟨htext, by simp [hfull, htext]⟩⟩
    by_cases heq : w.text enc = line
    · exact Or.inr ⟨line, rfl, Or.inr (Or.inl ⟨heq, by simp [hfull, heq]⟩)⟩
    have hlt : ¬w.Full enc := fun hw' => heq (htext.eq_of_length_le (hfull.1 hw'))
    by_cases hnil : w.text enc = []
    · exact Or.inl ⟨hnil, hlt⟩
    · exact Or.inr ⟨line, rfl, Or.inr (Or.inr ⟨hnil, htext, heq, hlt⟩)⟩

/-- A line that is not whole is not followed by an append. -/
theorem not_atLine (hw : ok w.record) {line : PyStr} (hline : enc w.record = some line)
    (htext : w.text enc <+: line) (hne : w.text enc ≠ []) (data : Bytes) :
    ¬AtLine (data ++ w.bytes enc) := by
  rw [h.bytes_eq hw]
  rintro (hnil | hlast)
  · simp [hne] at hnil
  · obtain ⟨init, c, htext'⟩ := (List.eq_nil_or_concat (w.text enc)).resolve_left hne
    rw [List.concat_eq_append] at htext'
    have hc := h.printable _ _ hw hline c (htext.subset (by simp [htext']))
    rw [htext', List.map_append, ← List.append_assoc, List.map_singleton, List.getLast?_concat,
      Option.some.injEq] at hlast
    have hval := congrArg UInt8.toNat hlast
    rw [UInt8.toNat_ofNat'] at hval
    have h1 := hc.1
    have h2 := hc.2
    simp at hval
    omega

end Codec

/-- A record that reached the file is taken up. -/
def note (enc : R → Option PyStr) (unit : R → PyStr) (value : R → V) (out : List (PyStr × V))
    (w : Attempt R) : List (PyStr × V) :=
  if w.Full enc then setItem out (unit w.record) (value w.record) else out

namespace Codec

variable (h : Codec enc dec unit value ok)

include h

theorem takeUp_whole {out : List (PyStr × V)} {line : PyStr} (hw : ok w.record)
    (hline : enc w.record = some line) (hfull : w.Full enc) :
    takeUp dec out line = .ok (note enc unit value out w) := by
  rw [takeUp, h.whole _ _ hw hline, note, if_pos hfull]

/-- The lines of a clean journal are taken up one after another. -/
theorem foldlM_text {data : Bytes} (hclean : Clean enc ok data ws) (out : List (PyStr × V)) :
    (splitlines (ws.flatMap (Attempt.text enc))).foldlM (takeUp dec) out =
      .ok (ws.foldl (note enc unit value) out) := by
  induction ws generalizing data out with
  | nil => rfl
  | cons w ws ih =>
    obtain ⟨-, hw, hrest⟩ := hclean
    have hbreak : ∀ {line : PyStr}, enc w.record = some line → ∀ c ∈ line, isBreak c = false :=
      fun hline c hc => isBreak_of_printable (h.printable _ _ hw hline c hc)
    -- Only the last append may leave a line without its newline.
    have hlast : ∀ {line : PyStr}, enc w.record = some line → w.text enc <+: line →
        w.text enc ≠ [] → ws = [] := by
      intro line hline hpre hne
      cases ws with
      | nil => rfl
      | cons w' ws => exact absurd hrest.1 (h.not_atLine hw hline hpre hne data)
    rw [List.flatMap_cons, List.foldl_cons]
    rcases h.text_cases hw with ⟨hnil, hnot⟩ | ⟨line, hline, ⟨htext, hfull⟩ | ⟨htext, hfull⟩ |
      ⟨hne, hpre, hcut, hnot⟩⟩
    · rw [hnil, List.nil_append, ih hrest, note, if_neg hnot]
    · rw [htext, List.append_assoc, List.singleton_append, splitlines_append (hbreak hline),
        List.foldlM_cons, h.takeUp_whole hw hline hfull]
      exact ih hrest _
    · have hne := h.nonempty _ _ hw hline
      obtain rfl := hlast hline (by rw [htext]) (by rwa [htext])
      rw [htext, List.flatMap_nil, List.append_nil, splitlines_line (hbreak hline) hne,
        List.foldlM_cons, h.takeUp_whole hw hline hfull]
      rfl
    · obtain rfl := hlast hline hpre hne
      rw [List.flatMap_nil, List.append_nil,
        splitlines_line (fun c hc => hbreak hline c (hpre.subset hc)) hne, List.foldlM_cons,
        takeUp, h.cut _ _ _ hw hline hpre hcut, note, if_neg hnot]
      rfl

omit h in
theorem getD_foldl (ws : List (Attempt R)) (file : Option Bytes) :
    (ws.foldl (fun file w => some (file.getD [] ++ w.bytes enc)) file).getD [] =
      file.getD [] ++ ws.flatMap (Attempt.bytes enc) := by
  induction ws generalizing file with
  | nil => simp
  | cons w ws ih => simp [ih]

omit h in
theorem journalLines_eq (file : Option Bytes) : journalLines file = journalLines (some (file.getD [])) := by
  cases file <;> rfl

omit h in
theorem ok_of_clean {data : Bytes} (hclean : Clean enc ok data ws) : ∀ w ∈ ws, ok w.record := by
  induction ws generalizing data with
  | nil => simp
  | cons w ws ih => exact List.forall_mem_cons.2 ⟨hclean.2.1, ih hclean.2.2⟩

/-- What is read of a clean journal. -/
theorem readJournal (hclean : Clean enc ok [] ws) :
    readJournal dec (journal enc ws) = .ok (ws.foldl (note enc unit value) []) := by
  have hok := Codec.ok_of_clean hclean
  have hascii : IsAscii (ws.flatMap (Attempt.text enc)) := by
    intro c hc
    obtain ⟨w, hw, hc⟩ := List.mem_flatMap.1 hc
    exact h.isAscii_text (hok w hw) c hc
  have hdata : (journal enc ws).getD [] = (ws.flatMap (Attempt.text enc)).map UInt8.ofNat := by
    rw [journal, getD_foldl, Option.getD_none, List.nil_append, List.map_flatMap]
    exact List.flatMap_congr fun w hw => h.bytes_eq (hok w hw)
  have hcr : 13 ∉ ws.flatMap (Attempt.text enc) := by
    intro hc
    obtain ⟨w, hw, hc⟩ := List.mem_flatMap.1 hc
    cases hline : enc w.record with
    | none => simp [text_of_none hline] at hc
    | some line =>
      rcases List.mem_append.1 ((text_isPrefix hline).subset hc) with hc | hc
      · exact absurd (h.printable _ _ (hok w hw) hline 13 hc).1 (by omega)
      · simp at hc
  rw [Journal.readJournal, journalLines_eq, hdata]
  simp only [journalLines, decodeUtf8_map_ofNat hascii, universalNewlines_of_notMem hcr]
  exact h.foldlM_text hclean []

end Codec

theorem lookup_note {out : List (PyStr × V)} {u : PyStr} {v : V}
    (h : (ws.foldl (note enc unit value) out).lookup u = some v) :
    out.lookup u = some v ∨ ∃ w ∈ ws, unit w.record = u ∧ v = value w.record := by
  induction ws generalizing out with
  | nil => exact Or.inl h
  | cons w ws ih =>
    rcases ih h with hout | ⟨w', hw', hu, hv⟩
    · unfold note at hout
      split_ifs at hout
      · rw [lookup_setItem] at hout
        split_ifs at hout with hu
        · exact Or.inr ⟨w, by simp, hu.symm, (Option.some.inj hout).symm⟩
        · exact Or.inl hout
      · exact Or.inl hout
    · exact Or.inr ⟨w', by simp [hw'], hu, hv⟩

/-- A record that was taken up stays, or one of its unit that was taken up later. -/
theorem lookup_note_of_mem {out : List (PyStr × V)} {w : Attempt R}
    (h : out.lookup (unit w.record) = some (value w.record)) :
    ∃ w', (ws.foldl (note enc unit value) out).lookup (unit w.record) = some (value w'.record) ∧
      unit w'.record = unit w.record ∧ (w' = w ∨ w' ∈ ws ∧ w'.Full enc) := by
  induction ws generalizing out w with
  | nil => exact ⟨w, h, rfl, Or.inl rfl⟩
  | cons x ws ih =>
    by_cases hx : x.Full enc ∧ unit x.record = unit w.record
    · have hnote : (note enc unit value out x).lookup (unit x.record) = some (value x.record) := by
        rw [note, if_pos hx.1, lookup_setItem, if_pos rfl]
      obtain ⟨w', hv, hu, hw'⟩ := ih hnote
      rw [hx.2] at hv hu
      refine ⟨w', hv, hu, Or.inr ?_⟩
      rcases hw' with rfl | ⟨hmem, hfull⟩
      · exact ⟨by simp, hx.1⟩
      · exact ⟨by simp [hmem], hfull⟩
    · have hnote : (note enc unit value out x).lookup (unit w.record) = some (value w.record) := by
        unfold note
        split_ifs with hfull
        · rw [lookup_setItem, if_neg fun hu => hx ⟨hfull, hu.symm⟩, h]
        · exact h
      obtain ⟨w', hv, hu, hw'⟩ := ih hnote
      exact ⟨w', hv, hu, hw'.imp_right fun hw' => ⟨by simp [hw'.1], hw'.2⟩⟩

/-- A clean journal is durable. -/
theorem Codec.durable {same : V → R → Prop} (h : Codec enc dec unit value ok)
    (hsame : ∀ r, ok r → same (value r) r) (hclean : Clean enc ok [] ws) :
    ∃ out, Journal.readJournal dec (journal enc ws) = .ok out ∧ Durable enc unit same ws out := by
  have hok := Codec.ok_of_clean hclean
  refine ⟨_, h.readJournal hclean, fun pre w post hws hret => ?_, fun u v hv => ?_⟩
  · have hw : ok w.record := hok w (by simp [hws])
    have hfull := h.full_of_returned hw hret
    have hnote : (note enc unit value (pre.foldl (note enc unit value) []) w).lookup
        (unit w.record) = some (value w.record) := by
      rw [note, if_pos hfull, lookup_setItem, if_pos rfl]
    obtain ⟨w', hv, hu, hw'⟩ := lookup_note_of_mem hnote
    refine ⟨value w'.record, w', ?_, hsame _ (hok w' ?_), hu, hw'⟩
    · rw [hws, List.foldl_append, List.foldl_cons]
      exact hv
    · rcases hw' with rfl | ⟨hmem, -⟩
      · simp [hws]
      · simp [hws, hmem]
  · rcases lookup_note hv with hnil | ⟨w, hw, hu, rfl⟩
    · simp at hnil
    · exact ⟨w, hw, hu, hsame _ (hok w hw)⟩

end

end Journal

end IcilOrchestrator
