import Mathlib
import IcilOrchestrator.StoreSchema
import IcilOrchestrator.VerifyTotal

/-!
# What a report without errors proves

A report without errors leaves nothing of a track to chance : its index parts are signed
canonical lines, each ended by a newline, in sequence and in their parts; each record has
its event, which says what the record says, and the clips the event names; and the head
is rebuilt from the records (`TrackSound`). The walk is followed line by line
(`SignedLine`), and `verifyStore_sound` reads the result off it.

One thing is left open : a field of a record that is null may be missing from the event,
since both look up as `None` (`EventSound.fields`).
-/

namespace IcilOrchestrator

open Python

namespace Verifier

variable {F : Type} [PyFloat F]

/-! ## A signed line -/

/-- A canonical record and its signature. -/
structure SignedLine (F : Type) [PyFloat F] (c : Crypto) (key : PyStr) where
  record : Dict F
  body : PyStr
  sig : PyStr
  canonical : canonicalJson (.obj record) = some body
  isSig : isSignature sig = true
  signed : verifySignature c key body sig = true

namespace SignedLine

variable {c : Crypto} {key : PyStr} (l : SignedLine F c key)

/-- The line without its newline. -/
def bytes : Bytes := encodeUtf8 (l.body ++ 9 :: l.sig)

end SignedLine

theorem pyEq_str {j : Json F} {s : PyStr} : j.pyEq (.str s) ↔ j = .str s := by
  cases j <;> simp [Json.pyEq, Json.num?]

theorem pyEq_int {z z' : ℤ} : (Json.int z : Json F).pyEq (.int z') ↔ z = z' := by
  simp [Json.pyEq, Json.num?]

variable (v : Verifier F)

/-! ## Clips and events -/

/-- The clip is there, and hashes to its name. -/
def ClipSound (sha : PyStr) : Prop :=
  ∃ data, v.dir.node (v.spec.mediaPath sha v.spec.videoFormat) = .file data ∧
    v.crypto.sha256 data = sha

variable {v}

omit [PyFloat F] in
theorem verifyClips_sound {l : Line} {shas : List PyStr} {hashed : Hashed} (hh : v.HashedOk hashed)
    {r : Found F × Hashed} (h : v.verifyClips l shas hashed = .ok r) (herr : r.1.errors = []) :
    ∀ sha ∈ shas, v.ClipSound sha := by
  induction shas generalizing hashed r with
  | nil => simp
  | cons sha shas ih =>
    have hok := (verifyClips_returns l (sha :: shas) hh).returns_iff.1 ⟨r, h⟩
    rw [verifyClips] at h
    rcases hok sha (by simp) with hn | ⟨data, hn⟩
    · simp only [hn, Node.exists?, ok_bind, Bool.false_eq_true, if_false] at h
      obtain ⟨r', -, hr⟩ := bind_eq_ok.1 h
      obtain rfl := Except.ok.inj hr
      simp at herr
    · obtain ⟨hashed', hm, hh'⟩ := clipMatches_of_file hh hn
      simp only [hn, Node.exists?, ok_bind, if_true, hm] at h
      obtain ⟨r', hr', hr⟩ := bind_eq_ok.1 h
      obtain rfl := Except.ok.inj hr
      simp only [Found.errors_append, Found.errors_errIf, List.append_eq_nil_iff] at herr
      have hsha : v.crypto.sha256 data = sha := by
        by_contra hne
        simp [hne] at herr
      intro sha' hmem
      rcases List.mem_cons.1 hmem with rfl | hmem
      · exact ⟨data, hn, hsha⟩
      · exact ih hh' hr' herr.2 sha' hmem

variable (v) [PyRepr F]

/-- What the report proves of a record's event. -/
structure EventSound (track : PyStr) (record : Dict F) (data : Bytes) (event : Dict F) : Prop where
  file : v.dir.node (eventPath track (eventIdOf record)) = .file data
  parsed : parseJsonBytes (F := F) data = .ok (.obj event)
  hash : ∀ sha, record.get? (py "event_sha256") = some sha → sha = .str (v.crypto.sha256 data)
  fields : ∀ k ∈ record.map Prod.fst, k ∉ recordOnly → (event.get k).pyEq (record.get k)
  tally : ∀ kn ∈ (unitTally (unitsOf event)).items, (record.get kn.1).pyEq (.int kn.2)
  mediaCount : (record.get (py "media_count")).pyEq (.int (mediaShas (unitsOf event)).length)
  clips : ∀ u ∈ unitsOf event, ∀ sha ∈ unitClips u, v.ClipSound sha

variable {v}

omit [PyRepr F] in
theorem verifyFields_sound {l : Line} {record event : Dict F}
    (h : (verifyFields l record event).errors = []) :
    (∀ k ∈ record.map Prod.fst, k ∉ recordOnly → (event.get k).pyEq (record.get k)) ∧
    (∀ kn ∈ (unitTally (unitsOf event)).items, (record.get kn.1).pyEq (.int kn.2)) ∧
    (record.get (py "media_count")).pyEq (.int (mediaShas (unitsOf event)).length) := by
  simp only [verifyFields, Found.errors_append, Found.errors_errs, Found.errors_errIf,
    List.append_eq_nil_iff, List.filterMap_eq_nil_iff] at h
  obtain ⟨⟨hfields, htally⟩, hmedia⟩ := h
  refine ⟨fun k hk hnot => ?_, fun kn hkn => ?_, ?_⟩
  · have hmem : k ∈ repeatedKeys record := by
      simp only [repeatedKeys, List.mem_insertionSort, List.mem_filter, List.contains_eq_mem,
        Bool.not_eq_true', decide_eq_false_iff_not]
      exact ⟨hk, hnot⟩
    by_contra hne
    have := hfields k hmem
    simp [hne] at this
  · by_contra hne
    have := htally kn hkn
    simp [hne] at this
  · by_contra hne
    simp [hne] at hmedia

theorem verifyEvent_sound {l : Line} {record : Dict F} {hashed : Hashed} (hh : v.HashedOk hashed)
    {r : Found F × Hashed} (h : v.verifyEvent l record hashed = .ok r) (herr : r.1.errors = []) :
    ∃ data event, v.EventSound l.track record data event := by
  unfold verifyEvent at h
  cases hn : v.dir.node (eventPath l.track (eventIdOf record)) with
  | refused => simp [hn, Node.isFile] at h
  | missing =>
    simp only [hn, Node.isFile, ok_bind, Bool.false_eq_true, if_false] at h
    obtain rfl := Except.ok.inj h
    simp at herr
  | folder =>
    simp only [hn, Node.isFile, ok_bind, Bool.false_eq_true, if_false] at h
    obtain rfl := Except.ok.inj h
    simp at herr
  | file data =>
    simp only [hn, Node.isFile, Node.readBytes, ok_bind, if_true] at h
    cases hp : parseJsonBytes (F := F) data with
    | error why =>
      simp only [hp] at h
      obtain rfl := Except.ok.inj h
      simp at herr
    | ok doc =>
      cases doc with
      | obj event =>
        simp only [hp] at h
        obtain ⟨r', hr', hr⟩ := bind_eq_ok.1 h
        obtain rfl := Except.ok.inj hr
        simp only [Found.errors_append, List.append_eq_nil_iff] at herr
        obtain ⟨⟨⟨⟨hhash, -⟩, -⟩, hfields⟩, hclips⟩ := herr
        obtain ⟨hf, ht, hm⟩ := verifyFields_sound hfields
        have hsound := verifyClips_sound hh hr' hclips
        refine ⟨data, event, hn, hp, fun sha hsha => ?_, hf, ht, hm, fun u hu sha hs => ?_⟩
        · simp only [verifyHash, hsha, Found.errors_errIf] at hhash
          rw [← pyEq_str]
          by_contra hne
          simp [hne] at hhash
        · exact hsound sha (mem_mediaShas.2 ⟨u, hu, hs⟩)
      | _ =>
        simp only [hp] at h
        obtain rfl := Except.ok.inj h
        simp at herr

/-! ## The index -/

/-- What the report proves of a record. -/
structure RecordSound (l : Line) (key body sig : PyStr) (record : Dict F) (s s' : TrackState F) :
    Prop where
  canonical : canonicalJson (.obj record) = some body
  isSig : isSignature sig = true
  signed : verifySignature v.crypto key body sig = true
  seq : (record.get (py "seq")).pyEq (.int s.expectedSeq)
  part : ∀ seq, asInt? (record.get (py "seq")) = some seq → v.spec.partOf seq = l.part
  track : record.get (py "track") = .str l.track
  event : ∃ data event, v.EventSound l.track record data event
  expected : s'.expectedSeq = nextExpected record s.expectedSeq
  last : s'.last = some record
  king : kingAfter record s.king = .ok s'.king
  hashed : v.HashedOk s'.hashed

omit [PyRepr F] in
theorem verifySigned_eq_nil {l : Line} {key body sig : PyStr} {record : Dict F} :
    (v.verifySigned l key body sig record).errors = [] ↔
      canonicalJson (.obj record) = some body ∧ isSignature sig = true ∧
        verifySignature v.crypto key body sig = true := by
  unfold verifySigned
  cases hs : isSignature sig <;> cases hv : verifySignature v.crypto key body sig <;> simp

theorem verifyRecord_sound {l : Line} {key body sig : PyStr} {record : Dict F} {s : TrackState F}
    (hh : v.HashedOk s.hashed) {r : Found F × TrackState F}
    (h : v.verifyRecord l key body sig record s = .ok r) (herr : r.1.errors = []) :
    RecordSound (v := v) l key body sig record s r.2 := by
  have hafter := (verifyRecord_returns l key body sig record hh).post h
  unfold verifyRecord at h
  obtain ⟨seq, hseq, h⟩ := bind_eq_ok.1 h
  obtain ⟨king, hking, h⟩ := bind_eq_ok.1 h
  obtain ⟨e, he, h⟩ := bind_eq_ok.1 h
  obtain rfl := Except.ok.inj h
  simp only [Found.errors_append, List.append_eq_nil_iff] at herr
  obtain ⟨⟨⟨⟨⟨hsigned, hseqerr⟩, hfiled⟩, -⟩, -⟩, hevent⟩ := herr
  obtain ⟨hcanonical, hsig, hverify⟩ := verifySigned_eq_nil.1 hsigned
  simp only [verifyFiled, Found.errors_append, Found.errors_errIf, List.append_eq_nil_iff]
    at hfiled
  refine ⟨hcanonical, hsig, hverify, ?_, ?_, ?_, verifyEvent_sound hh he hevent, rfl, rfl, hking,
    hafter.hashed⟩
  · by_contra hne
    rw [verifySeq, if_neg hne] at hseq
    split_ifs at hseq
    obtain rfl := Except.ok.inj hseq
    simp at hseqerr
  · intro z hz
    by_contra hne
    simp [hz, hne] at hfiled
  · rw [← pyEq_str]
    by_contra hne
    simp [hne] at hfiled

/-- What the report proves of lines, one after another. -/
structure LinesSound (key track : PyStr) (rs : List (SignedLine F v.crypto key))
    (s s' : TrackState F) : Prop where
  seqs : InSequence s.expectedSeq (rs.map SignedLine.record)
  tracks : ∀ r ∈ rs, r.record.get (py "track") = .str track
  events : ∀ r ∈ rs, ∃ data event, v.EventSound track r.record data event
  expected : s'.expectedSeq = s.expectedSeq + rs.length
  last : s'.last = ((rs.map SignedLine.record).getLast?).or s.last
  king : foldKing s.king (rs.map SignedLine.record) = .ok s'.king
  hashed : v.HashedOk s'.hashed

theorem LinesSound.nil {key track : PyStr} {s : TrackState F} (h : v.HashedOk s.hashed) :
    LinesSound (v := v) key track [] s s :=
  ⟨trivial, by simp, by simp, by simp, by simp, rfl, h⟩

theorem LinesSound.append {key track : PyStr} {rs ts : List (SignedLine F v.crypto key)}
    {s s' s'' : TrackState F} (h : LinesSound (v := v) key track rs s s')
    (h' : LinesSound (v := v) key track ts s' s'') :
    LinesSound (v := v) key track (rs ++ ts) s s'' where
  seqs := by
    rw [List.map_append, inSequence_append, List.length_map, ← h.expected]
    exact ⟨h.seqs, h'.seqs⟩
  tracks r hr := (List.mem_append.1 hr).elim (h.tracks r) (h'.tracks r)
  events r hr := (List.mem_append.1 hr).elim (h.events r) (h'.events r)
  expected := by
    rw [h'.expected, h.expected, List.length_append]
    push_cast
    ring
  last := by rw [h'.last, h.last, List.map_append, List.getLast?_append, Option.or_assoc]
  king := by
    rw [List.map_append, foldKing_append, h.king]
    exact h'.king
  hashed := h'.hashed

/-- A record of lines is filed in this part. -/
def InPart (v : Verifier F) (part : ℕ) (record : Dict F) : Prop :=
  ∀ seq, record.get (py "seq") = .int seq → v.spec.partOf seq = part

omit [PyFloat F] [PyRepr F] in
/-- Whether a value is an `int` and no `bool`. -/
def isInt : Json F → Bool
  | .int _ => true
  | _ => false

omit [PyFloat F] [PyRepr F] in
theorem isInt_iff {j : Json F} : isInt j ↔ ∃ z, j = .int z := by
  cases j <;> simp [isInt]

/-- Every record has a number that is an `int`. -/
def IntSeqs (rs : List (Dict F)) : Prop := ∀ r ∈ rs, ∃ z, r.get (py "seq") = .int z

/-- A line that adds no error is a signed line, and what it is signed for holds. -/
theorem verifyLine_sound {l : Line} {key : PyStr} {raw : Bytes} {s : TrackState F}
    (hh : v.HashedOk s.hashed) (hint : IntSeqs (parsedRecord (F := F) raw).toList)
    {r : Found F × TrackState F} (h : v.verifyLine l key raw s = .ok r)
    (herr : r.1.errors = []) :
    ∃ line : SignedLine F v.crypto key, raw = line.bytes ∧
      LinesSound (v := v) key l.track [line] s r.2 ∧ InPart v l.part line.record := by
  have hpass : ∀ {p : Problem F}, (.ok (.err p, s) : Except PyError (Found F × TrackState F)) =
      .ok r → False := by
    rintro p hp
    obtain rfl := Except.ok.inj hp
    simp at herr
  unfold verifyLine at h
  unfold parsedRecord at hint
  cases hd : decodeUtf8 raw with
  | none =>
    rw [hd] at h
    exact (hpass h).elim
  | some text =>
    simp only [hd] at h hint
    by_cases htab : text.contains 9
    · simp only [htab, Bool.not_true, Bool.false_eq_true, if_false] at h hint
      rcases hl : loads (F := F) false (splitTab text).1 with _ | doc
      · simp only [hl] at h
        exact (hpass h).elim
      · cases doc with
        | obj record =>
          simp only [hl, Option.toList_some] at h hint
          obtain ⟨z, hz⟩ := hint record (by simp)
          have hr := verifyRecord_sound hh h herr
          have hseq : z = s.expectedSeq := by
            have := hr.seq
            rwa [hz, pyEq_int] at this
          subst hseq
          refine ⟨⟨record, _, _, hr.canonical, hr.isSig, hr.signed⟩, ?_,
            ⟨⟨hz, trivial⟩, by simpa using hr.track, by simpa using hr.event, ?_, ?_, ?_,
              hr.hashed⟩, ?_⟩
          · have hascii : IsAscii text := by
              rw [splitTab_eq htab, isAscii_append, isAscii_cons]
              refine ⟨isAscii_of_dumps hr.canonical, by omega, fun x hx => ?_⟩
              have hall := hr.isSig
              simp only [isSignature, Bool.and_eq_true, List.all_eq_true] at hall
              exact lt_of_le_of_lt (printable_isHexLower (hall.2 x hx)).2 (by omega)
            rw [SignedLine.bytes, ← splitTab_eq htab, encodeUtf8_of_isAscii hascii]
            exact eq_of_decodeUtf8 hd hascii
          · rw [hr.expected, nextExpected, hz]
            rfl
          · simp [hr.last]
          · simp only [List.map_cons, List.map_nil, foldKing, hr.king]
            rfl
          · intro seq hs
            exact hr.part seq (by rw [hs]; rfl)
        | _ =>
          simp only [hl] at h
          exact (hpass h).elim
    · simp only [htab, Bool.not_false, if_true] at h
      exact (hpass h).elim

omit [PyFloat F] [PyRepr F] in
theorem IntSeqs.append {rs ts : List (Dict F)} (h : IntSeqs (rs ++ ts)) :
    IntSeqs rs ∧ IntSeqs ts :=
  ⟨fun r hr => h r (by simp [hr]), fun r hr => h r (by simp [hr])⟩

/-- Lines that add no error are signed lines, and an empty piece after the last newline. -/
theorem verifyLines_sound {track key : PyStr} {part : ℕ} {ls : List Bytes} (hne : ls ≠ []) :
    ∀ {n : ℕ} {s : TrackState F}, v.HashedOk s.hashed →
      IntSeqs (ls.filterMap (parsedRecord (F := F))) →
      ∀ {r : Found F × TrackState F}, v.verifyLines track part key n ls s = .ok r →
      r.1.errors = [] →
      ∃ rs : List (SignedLine F v.crypto key), ls = rs.map SignedLine.bytes ++ [[]] ∧
        LinesSound (v := v) key track rs s r.2 ∧ ∀ l ∈ rs, InPart v part l.record := by
  induction ls with
  | nil => exact absurd rfl hne
  | cons raw rest ih =>
    intro n s hh hint r h herr
    rw [verifyLines] at h
    by_cases hempty : raw.isEmpty
    · obtain rfl : raw = [] := by simpa using hempty
      by_cases hlast : rest.isEmpty
      · obtain rfl : rest = [] := by simpa using hlast
        obtain rfl := Except.ok.inj h
        exact ⟨[], rfl, LinesSound.nil hh, by simp⟩
      · simp only [List.isEmpty_nil, if_true, hlast, Bool.false_eq_true, if_false] at h
        obtain ⟨r', -, hr⟩ := bind_eq_ok.1 h
        obtain rfl := Except.ok.inj hr
        simp at herr
    · rw [if_neg hempty] at h
      obtain ⟨r₁, h₁, h⟩ := bind_eq_ok.1 h
      obtain ⟨r₂, h₂, h⟩ := bind_eq_ok.1 h
      obtain rfl := Except.ok.inj h
      simp only [Found.errors_append, Found.errors_errIf, List.append_eq_nil_iff] at herr
      obtain ⟨⟨hnewline, herr₁⟩, herr₂⟩ := herr
      have hrest : rest ≠ [] := by
        rintro rfl
        simp at hnewline
      have hcons : (raw :: rest).filterMap (parsedRecord (F := F)) =
          (parsedRecord raw).toList ++ rest.filterMap parsedRecord := by
        cases hp : parsedRecord (F := F) raw with
        | none => rw [List.filterMap_cons_none hp]; rfl
        | some r => rw [List.filterMap_cons_some hp]; rfl
      rw [hcons] at hint
      obtain ⟨line, rfl, hline, hpart⟩ := verifyLine_sound hh hint.append.1 h₁ herr₁
      obtain ⟨rs, rfl, hrs, hparts⟩ := ih hrest hline.hashed hint.append.2 h₂ herr₂
      exact ⟨line :: rs, rfl, hline.append hrs, by simpa using ⟨hpart, hparts⟩⟩

/-- The parts that add no error are signed lines, each in its part. -/
theorem verifyParts_sound {track key : PyStr} (fuel : ℕ) :
    ∀ {part : ℕ} {s : TrackState F}, v.HashedOk s.hashed →
      IntSeqs ((v.partsFrom track fuel part).flatMap (partRecords (F := F))) →
      ∀ {r : Found F × TrackState F}, v.verifyParts track key fuel part s = .ok r →
      r.1.errors = [] →
      ∃ ps : List (List (SignedLine F v.crypto key)),
        v.partsFrom track fuel part = ps.map (fun p => joinLines (p.map SignedLine.bytes)) ∧
        LinesSound (v := v) key track ps.flatten s r.2 ∧
        ∀ i p, ps[i]? = some p → ∀ l ∈ p, InPart v (part + i) l.record := by
  induction fuel with
  | zero =>
    intro part s hh _ r h _
    obtain rfl := Except.ok.inj h
    exact ⟨[], rfl, LinesSound.nil hh, by simp⟩
  | succ fuel ih =>
    intro part s hh hint r h herr
    rw [verifyParts] at h
    rw [partsFrom] at hint ⊢
    cases hn : v.dir.node (indexPartPath track part) with
    | refused => simp [hn, Node.exists?] at h
    | folder => simp [hn, Node.exists?, Node.readBytes] at h
    | missing =>
      simp only [hn, Node.exists?, ok_bind, Bool.false_eq_true, if_false] at h
      obtain rfl := Except.ok.inj h
      exact ⟨[], rfl, LinesSound.nil hh, by simp⟩
    | file data =>
      simp only [hn, Node.exists?, Node.readBytes, ok_bind, if_true] at h
      simp only [hn, List.flatMap_cons] at hint
      obtain ⟨r₁, h₁, h⟩ := bind_eq_ok.1 h
      obtain ⟨r₂, h₂, h⟩ := bind_eq_ok.1 h
      obtain rfl := Except.ok.inj h
      simp only [Found.errors_append, List.append_eq_nil_iff] at herr
      obtain ⟨rs, hls, hrs, hpart⟩ :=
        verifyLines_sound (lines_ne_nil data) hh hint.append.1 h₁ herr.1
      obtain ⟨ps, hps, hsound, hparts⟩ := ih hrs.hashed hint.append.2 h₂ herr.2
      refine ⟨rs :: ps, ?_, ?_, ?_⟩
      · simp only [List.map_cons, hps, eq_joinLines hls]
      · rw [List.flatten_cons]
        exact hrs.append hsound
      · rintro (_ | i) p hp
        · obtain rfl : rs = p := by simpa using hp
          exact hpart
        · rw [show part + (i + 1) = part + 1 + i by omega]
          exact hparts i p (by simpa using hp)

/-! ## Heads and the store -/

/-- What the report proves of a head : the crown and the last record are those of the index. -/
structure HeadSound (v : Verifier F) (track : PyStr) (records : List (Dict F)) (head : Dict F) :
    Prop where
  file : readJsonFile (F := F) (v.dir.node (headPath track)) = .ok (.obj head)
  king : ∃ king, foldKing .null records = .ok king ∧ (head.get (py "king")).pyEq king
  last : ∀ r, records.getLast? = some r → ∀ k ∈ ["seq", "event_id", "block", "finished_at"],
    (head.get (py k)).pyEq (r.get (py k))

omit [PyRepr F] in
theorem verifyHead_sound {track : PyStr} {records : List (Dict F)} {last : Option (Dict F)}
    {king : Json F} (hlast : last = records.getLast?) (hking : foldKing .null records = .ok king)
    (herr : (v.verifyHead track last king).errors = []) :
    ∃ head, HeadSound v track records head := by
  unfold verifyHead at herr
  split at herr
  · rename_i head hfile
    simp only [Found.errors_append, List.append_eq_nil_iff] at herr
    obtain ⟨⟨-, hlasterr⟩, hkingerr⟩ := herr
    refine ⟨head, hfile, ⟨king, hking, ?_⟩, fun r hr => ?_⟩
    · by_contra hne
      simp [hne] at hkingerr
    · rw [hlast, hr] at hlasterr
      simp only [Found.errors_append, Found.errors_errIf, List.append_eq_nil_iff] at hlasterr
      obtain ⟨⟨hpoint, hblock⟩, hfinished⟩ := hlasterr
      intro k hk
      by_contra hne
      simp only [List.mem_cons, List.not_mem_nil, or_false] at hk
      rcases hk with rfl | rfl | rfl | rfl
      · simp [hne] at hpoint
      · simp [hne] at hpoint
      · simp [hne] at hblock
      · simp [hne] at hfinished
  · simp at herr

/-- What the report proves of a track. -/
structure TrackSound (v : Verifier F) (key track : PyStr)
    (ps : List (List (SignedLine F v.crypto key))) : Prop where
  /-- The parts are signed canonical lines, each ended by one newline. -/
  parts : v.parts track = ps.map fun p => joinLines (p.map SignedLine.bytes)
  /-- In order, from 1 on. -/
  seqs : ∀ (i : ℕ) l, ps.flatten[i]? = some l → l.record.get (py "seq") = .int (i + 1)
  /-- Each in its part. -/
  filed : ∀ (i : ℕ) p, ps[i]? = some p → ∀ l ∈ p, ∀ seq, l.record.get (py "seq") = .int seq →
    v.spec.partOf seq = i
  events : ∀ l ∈ ps.flatten, ∃ data event, v.EventSound track l.record data event
  head : ∃ head, HeadSound v track (ps.flatten.map SignedLine.record) head

theorem verifyTrack_sound {key track : PyStr} {hashed : Hashed} (hh : v.HashedOk hashed)
    (hint : IntSeqs (v.trackRecords track)) {r : Found F × Hashed}
    (h : v.verifyTrack key track hashed = .ok r) (herr : r.1.errors = []) :
    v.HashedOk r.2 ∧ ∃ ps, TrackSound v key track ps := by
  unfold verifyTrack at h
  obtain ⟨r₁, h₁, h⟩ := bind_eq_ok.1 h
  obtain ⟨queue, -, h⟩ := bind_eq_ok.1 h
  obtain rfl := Except.ok.inj h
  simp only [Found.errors_append, List.append_eq_nil_iff] at herr
  obtain ⟨⟨hindex, hhead⟩, -⟩ := herr
  obtain ⟨ps, hparts, hsound, hfiled⟩ := verifyParts_sound (v.dir.parts + 1) hh hint h₁ hindex
  refine ⟨hsound.hashed, ps, hparts, fun i l hl => ?_, fun i p hp l hl => ?_, hsound.events, ?_⟩
  · have hmap : (ps.flatten.map SignedLine.record)[i]? = some l.record := by
      rw [List.getElem?_map, hl, Option.map_some]
    rw [hsound.seqs.get hmap, TrackState.start]
    ring_nf
  · simpa [InPart] using hfiled i p hp l hl
  · refine verifyHead_sound ?_ hsound.king hhead
    rw [hsound.last]
    simp [TrackState.start]

theorem verifyTracks_sound {key : PyStr} {tracks : List PyStr} :
    ∀ {hashed : Hashed}, v.HashedOk hashed →
      (∀ track ∈ tracks, IntSeqs (v.trackRecords track)) →
      ∀ {r : Found F × Hashed}, v.verifyTracks key tracks hashed = .ok r → r.1.errors = [] →
      ∀ track ∈ tracks, ∃ ps, TrackSound v key track ps := by
  induction tracks with
  | nil => simp
  | cons track tracks ih =>
    intro hashed hh hint r h herr
    rw [verifyTracks] at h
    obtain ⟨r₁, h₁, h⟩ := bind_eq_ok.1 h
    obtain ⟨r₂, h₂, h⟩ := bind_eq_ok.1 h
    obtain rfl := Except.ok.inj h
    simp only [Found.errors_append, List.append_eq_nil_iff] at herr
    obtain ⟨hh', hps⟩ := verifyTrack_sound hh (hint track (by simp)) h₁ herr.1
    intro t ht
    rcases List.mem_cons.1 ht with rfl | ht
    · exact hps
    · exact ih hh' (fun t ht => hint t (by simp [ht])) h₂ herr.2 t ht

/-- A report without errors, against a pinned key, proves every track of the spec sound. -/
theorem verifyStore_sound {key : PyStr} {report : Report F}
    (h : v.verifyStore (some key) = .ok report) (herr : report.errors = [])
    (hint : ∀ track ∈ v.spec.tracks, IntSeqs (v.trackRecords track)) :
    ∀ track ∈ v.spec.tracks, ∃ ps, TrackSound v key track ps := by
  unfold verifyStore at h
  split at h
  · obtain ⟨r, hr, h⟩ := bind_eq_ok.1 h
    obtain rfl := Except.ok.inj h
    simp only [Found.errors_append, List.append_eq_nil_iff] at herr
    exact verifyTracks_sound (by simp [HashedOk]) hint hr herr.2
  · obtain rfl := Except.ok.inj h
    simp at herr

/-! ## A null field that no event repeats -/

/-- Every field of a record but the store's own is in its event, with an equal value. -/
def RepeatsFields (v : Verifier F) (track : PyStr) : Prop :=
  ∀ r ∈ v.trackRecords track, ∀ data event,
    v.dir.node (eventPath track (eventIdOf r)) = .file data →
    parseJsonBytes (F := F) data = .ok (.obj event) →
    ∀ k x, r.get? k = some x → k ∉ recordOnly →
      ∃ y : Json F, Dict.get? event k = some y ∧ y.pyEq x

/-- The event of a record, when its file holds one. -/
def eventOf (v : Verifier F) (track : PyStr) (record : Dict F) : Option (Dict F) :=
  match v.dir.node (eventPath track (eventIdOf record)) with
  | .file data =>
    match parseJsonBytes (F := F) data with
    | .ok (.obj event) => some event
    | _ => none
  | _ => none

theorem eventOf_eq_some {track : PyStr} {record event : Dict F}
    (h : v.eventOf track record = some event) :
    ∃ data, v.dir.node (eventPath track (eventIdOf record)) = .file data ∧
      parseJsonBytes (F := F) data = .ok (.obj event) := by
  unfold eventOf at h
  split at h
  · rename_i data hn
    split at h
    · rename_i e he
      obtain rfl := Option.some.inj h
      exact ⟨data, hn, he⟩
    · simp at h
  · simp at h

def quietKey : PyStr := List.replicate 64 48

/-- The fields that the record and the event of a vacancy share. -/
def vacancyFields : Dict Tenths :=
  [(py "schema", .int 4), (py "event_id", .str quietKey), (py "kind", .str (py "vacancy")),
    (py "track", .str (py "t")), (py "block", .int 0),
    (py "finished_at", .str (py "2026-01-01T00:00:00Z")), (py "king", .null),
    (py "challenger", .null), (py "king_scores", .null), (py "challenger_scores", .null),
    (py "score_margin", .int 0), (py "dethroned", .bool false), (py "new_king", .null),
    (py "wins", .int 0), (py "losses", .int 0), (py "ties", .int 0), (py "decided", .int 0),
    (py "void", .int 0), (py "media_count", .int 0)]

/-- The text of a document, as its file holds it. -/
def fileOf (doc : Dict Tenths) : Bytes := encodeUtf8 ((canonicalJson (.obj doc)).getD [])

def quietRecord : Dict Tenths :=
  (py "seq", .int 1) :: (py "duel_size", .null) :: vacancyFields

def quietFiles : List (Path × Bytes) :=
  let body := fileOf quietRecord
  [(manifestPath, fileOf [(py "schema", .int 4), (py "validator_key", .str quietKey),
      (py "spec_version", .int 1), (py "spec_fingerprint", .str quietKey),
      (py "tracks", .arr [.str (py "t")])]),
    (headPath (py "t"), fileOf [(py "schema", .int 4), (py "seq", .int 1),
      (py "event_id", .str quietKey), (py "block", .int 0),
      (py "finished_at", .str (py "2026-01-01T00:00:00Z")), (py "king", .null)]),
    (eventPath (py "t") quietKey, fileOf ((py "spec_version", .int 1) ::
      (py "spec_fingerprint", .str quietKey) :: (py "units", .arr []) :: vacancyFields)),
    (indexPartPath (py "t") 0,
      body ++ 9 :: encodeUtf8 (hex ((body ++ List.replicate 64 0).take 64)) ++ [10])]

theorem quietFiles_finite (track : PyStr) (part : ℕ) (hp : 1 ≤ part) :
    quietFiles.lookup (indexPartPath track part) = none := by
  have hmanifest : (indexPartPath track part == manifestPath) = false := by
    simp [indexPartPath, trackDir, manifestPath]
  have hhead : (indexPartPath track part == headPath (py "t")) = false := by
    rw [beq_eq_false_iff_ne]
    exact indexPartPath_ne (by decide)
  have hevent : (indexPartPath track part == eventPath (py "t") quietKey) = false := by
    simp [indexPartPath, trackDir, eventPath]
  have hpart : (indexPartPath track part == indexPartPath (py "t") 0) = false := by
    rw [beq_eq_false_iff_ne, Ne, indexPartPath_inj]
    omega
  simp only [quietFiles, List.lookup, hmanifest, hhead, hevent, hpart]

/-- A store of one vacancy, whose record has a null `duel_size` and whose event has none. -/
def quiet : Verifier Tenths where
  crypto := toyCrypto
  iterErrors ref doc := if StoreSchema.accepts ref doc then [] else [(ref, [])]
  spec := ⟨quietKey, [py "t"], py "mp4", 4, 1000, 2, 1⟩
  dir := Dir.ofFiles quietFiles (fun _ => some [py "t"]) 1 quietFiles_finite

theorem quiet_verifies : ∃ report, quiet.verifyStore (some quietKey) = .ok report ∧
    report.errors = [] := by
  have heval : ((quiet.verifyStore (some quietKey)).toOption.map fun r => r.errors.length) =
      some 0 := by decide +kernel
  cases h : quiet.verifyStore (some quietKey) with
  | error e =>
    rw [h] at heval
    simp [Except.toOption] at heval
  | ok report =>
    rw [h] at heval
    exact ⟨report, rfl, by simpa [Except.toOption] using heval⟩

theorem quiet_intSeqs : ∀ track ∈ quiet.spec.tracks, IntSeqs (quiet.trackRecords track) := by
  have heval : (quiet.trackRecords (py "t")).all (fun r => isInt (r.get (py "seq"))) = true := by
    decide +kernel
  intro track ht r hr
  obtain rfl : track = py "t" := by simpa [quiet] using ht
  exact isInt_iff.1 (List.all_eq_true.1 heval r hr)

/-- The report has no error, and yet the event does not repeat every field of the record. -/
theorem quiet_not_repeatsFields :
    (∃ report, quiet.verifyStore (some quietKey) = .ok report ∧ report.errors = []) ∧
    (∀ track ∈ quiet.spec.tracks, IntSeqs (quiet.trackRecords track)) ∧
    ¬∀ track ∈ quiet.spec.tracks, RepeatsFields quiet track := by
  refine ⟨quiet_verifies, quiet_intSeqs, fun h => ?_⟩
  have heval : (quiet.trackRecords (py "t")).any (fun r => (r.get? (py "duel_size")).isSome &&
      (quiet.eventOf (py "t") r).any fun e => !e.mem (py "duel_size")) = true := by decide +kernel
  obtain ⟨r, hr, hr'⟩ := List.any_eq_true.1 heval
  simp only [Bool.and_eq_true, Option.any_eq_true, Option.isSome_iff_exists] at hr'
  obtain ⟨⟨x, hx⟩, event, hevent, hmem⟩ := hr'
  obtain ⟨data, hn, he⟩ := eventOf_eq_some hevent
  obtain ⟨y, hy, -⟩ := h (py "t") (by simp [quiet]) r hr data event hn he (py "duel_size") x hx
    (by simp [recordOnly])
  simp [Dict.mem, hy] at hmem

theorem quiet_sound : ∃ ps, TrackSound quiet quietKey (py "t") ps := by
  obtain ⟨report, h, herr⟩ := quiet_verifies
  exact verifyStore_sound h herr quiet_intSeqs (py "t") (by simp [quiet])

end Verifier

end IcilOrchestrator
