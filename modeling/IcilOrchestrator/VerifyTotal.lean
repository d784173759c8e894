import Mathlib
import IcilOrchestrator.Partial
import IcilOrchestrator.Verify

/-!
# When the verifier returns

`verifyStore` returns a report on most contents and raises on some. `RecordOk` is what
keeps a record from raising : its crown, if it has one, is of a kind that can be hashed;
the number it should have had is one that `str` converts, or it has that number; the
look-ups of its event and of the clips its event names are not refused, and no clip is a
folder. `verifyStore_returns_iff` : the verifier returns exactly when every record that
parses is such a record.
-/

namespace IcilOrchestrator

open Python

namespace Verifier

variable {F : Type} [PyFloat F]

/-! ## The records of an index -/

/-- The record of a line, when the line parses to one. -/
def parsedRecord (raw : Bytes) : Option (Dict F) :=
  match decodeUtf8 raw with
  | none => none
  | some text =>
    if !text.contains 9 then none
    else
      match loads (F := F) false (splitTab text).1 with
      | some (.obj record) => some record
      | _ => none

variable (v : Verifier F)

omit [PyFloat F] in
/-- The index parts from `part` on, up to the first that is no file. -/
def partsFrom (track : PyStr) : ℕ → ℕ → List Bytes
  | 0, _ => []
  | fuel + 1, part =>
    match v.dir.node (indexPartPath track part) with
    | .file data => data :: partsFrom track fuel (part + 1)
    | _ => []

omit [PyFloat F] in
/-- The index parts of a track. -/
def parts (track : PyStr) : List Bytes := v.partsFrom track (v.dir.parts + 1) 0

/-- The records of a part, those of its lines that parse. -/
def partRecords (data : Bytes) : List (Dict F) := (lines data).filterMap parsedRecord

/-- The records of a track. -/
def trackRecords (track : PyStr) : List (Dict F) := (v.parts track).flatMap partRecords

/-! ## Clips -/

/-- A clip's look-up finds a file or nothing. -/
def ClipOk (sha : PyStr) : Prop :=
  v.dir.node (v.spec.mediaPath sha v.spec.videoFormat) = .missing ∨
    ∃ data, v.dir.node (v.spec.mediaPath sha v.spec.videoFormat) = .file data

/-- What the memory says of a clip is so. -/
def HashedOk (hashed : Hashed) : Prop :=
  ∀ sha b, hashed.lookup sha = some b →
    ∃ data, v.dir.node (v.spec.mediaPath sha v.spec.videoFormat) = .file data ∧
      b = (v.crypto.sha256 data == sha)

variable {v}

omit [PyFloat F] in
theorem HashedOk.cons {hashed : Hashed} (h : v.HashedOk hashed) {sha : PyStr} {data : Bytes}
    (hn : v.dir.node (v.spec.mediaPath sha v.spec.videoFormat) = .file data) :
    v.HashedOk ((sha, v.crypto.sha256 data == sha) :: hashed) := by
  intro sha' b hb
  rw [List.lookup_cons] at hb
  cases heq : sha' == sha
  · rw [heq] at hb
    exact h sha' b hb
  · obtain rfl := beq_iff_eq.1 heq
    rw [heq] at hb
    exact ⟨data, hn, (Option.some.inj hb).symm⟩

omit [PyFloat F] in
theorem clipMatches_of_file {hashed : Hashed} (h : v.HashedOk hashed) {sha : PyStr} {data : Bytes}
    (hn : v.dir.node (v.spec.mediaPath sha v.spec.videoFormat) = .file data) :
    ∃ hashed', v.clipMatches hashed sha = .ok (v.crypto.sha256 data == sha, hashed') ∧
      v.HashedOk hashed' := by
  unfold clipMatches
  cases hl : hashed.lookup sha with
  | some b =>
    obtain ⟨data', hn', rfl⟩ := h sha b hl
    obtain rfl : data' = data := by simpa [hn] using hn'.symm
    exact ⟨hashed, rfl, h⟩
  | none =>
    simp only [hn, Node.readBytes]
    exact ⟨_, rfl, h.cons hn⟩

omit [PyFloat F] in
/-- The clips are gone through exactly when each look-up finds a file or nothing. -/
theorem verifyClips_returns (l : Line) (shas : List PyStr) {hashed : Hashed}
    (h : v.HashedOk hashed) :
    ReturnsIff (v.verifyClips l shas hashed) (∀ sha ∈ shas, v.ClipOk sha)
      fun r => v.HashedOk r.2 := by
  induction shas generalizing hashed with
  | nil => exact ⟨fun _ => ⟨_, rfl, h⟩, fun hn => absurd (by simp) hn⟩
  | cons sha shas ih =>
    rw [verifyClips]
    cases hn : v.dir.node (v.spec.mediaPath sha v.spec.videoFormat) with
    | refused => exact (ReturnsIff.error _).iff (by simp [ClipOk, hn])
    | missing =>
      refine ((ih h).map fun r hr => ReturnsIff.ok ?_).iff (by simp [ClipOk, hn])
      exact hr
    | folder =>
      have hnone : hashed.lookup sha = none := by
        by_contra hl
        obtain ⟨b, hb⟩ := Option.ne_none_iff_exists'.1 hl
        obtain ⟨data, hd, -⟩ := h sha b hb
        simp [hn] at hd
      have herr : v.clipMatches hashed sha = .error .osError := by
        simp [clipMatches, hnone, hn, Node.readBytes, bind, Except.bind]
      simp only [Node.exists?, herr]
      exact (ReturnsIff.error _).iff (by simp [ClipOk, hn])
    | file data =>
      obtain ⟨hashed', hm, hh⟩ := clipMatches_of_file h hn
      simp only [Node.exists?, hm]
      refine ((ih hh).map fun r hr => ReturnsIff.ok ?_).iff (by simp [ClipOk, hn])
      exact hr

/-! ## What keeps a record from raising -/

/-- A crown is of a kind that can be hashed. -/
def CrownHashable (record : Dict F) : Prop :=
  (record.get (py "new_king")).truthy → (record.get (py "kind")).hashable = true

/-- A record out of sequence is so by a number that `str` converts. -/
def SeqPrintable (expected : ℤ) (record : Dict F) : Prop :=
  (record.get (py "seq")).pyEq (.int expected) = false → expected.natAbs < 10 ^ maxStrDigits

variable (v) [PyRepr F]

/-- The file system refuses neither the record's event nor the clips the event names. -/
def LookupsOk (track : PyStr) (record : Dict F) : Prop :=
  v.dir.node (eventPath track (eventIdOf record)) ≠ .refused ∧
    ∀ data event, v.dir.node (eventPath track (eventIdOf record)) = .file data →
      parseJsonBytes (F := F) data = .ok (.obj event) →
      ∀ sha ∈ mediaShas (unitsOf event), v.ClipOk sha

/-- Nothing in the record makes the verifier raise, when it stands where `expected` should. -/
structure RecordOk (track : PyStr) (expected : ℤ) (record : Dict F) : Prop where
  crown : CrownHashable record
  seq : SeqPrintable expected record
  lookups : v.LookupsOk track record

/-- Nothing in the records of a track, the first of which should be `expected`. -/
def RecordsOk (track : PyStr) : ℤ → List (Dict F) → Prop
  | _, [] => True
  | expected, r :: rs => v.RecordOk track expected r ∧ RecordsOk track (nextExpected r expected) rs

theorem recordsOk_append (track : PyStr) (expected : ℤ) (rs ts : List (Dict F)) :
    v.RecordsOk track expected (rs ++ ts) ↔ v.RecordsOk track expected rs ∧
      v.RecordsOk track (rs.foldl (fun e r => nextExpected r e) expected) ts := by
  induction rs generalizing expected with
  | nil => simp [RecordsOk]
  | cons r rs ih => simp [RecordsOk, ih, and_assoc]

/-! ## Events -/

variable {v}

theorem lookupsOk_iff_of_file {track : PyStr} {record : Dict F} {data : Bytes}
    (hn : v.dir.node (eventPath track (eventIdOf record)) = .file data) :
    v.LookupsOk track record ↔ ∀ event, parseJsonBytes (F := F) data = .ok (.obj event) →
      ∀ sha ∈ mediaShas (unitsOf event), v.ClipOk sha := by
  unfold LookupsOk
  rw [hn]
  constructor
  · rintro ⟨-, h⟩ event hp
    exact h data event rfl hp
  · intro h
    refine ⟨by simp, ?_⟩
    rintro _ event ⟨⟩ hp
    exact h event hp

/-- The event of a record is gone through exactly when its look-ups are not refused. -/
theorem verifyEvent_returns (l : Line) (record : Dict F) {hashed : Hashed}
    (h : v.HashedOk hashed) :
    ReturnsIff (v.verifyEvent l record hashed) (v.LookupsOk l.track record)
      fun r => v.HashedOk r.2 := by
  unfold verifyEvent
  cases hn : v.dir.node (eventPath l.track (eventIdOf record)) with
  | refused => exact (ReturnsIff.error _).iff (by simp [LookupsOk, hn])
  | missing => exact ⟨fun _ => ⟨_, rfl, h⟩, fun hnot => absurd (by simp [LookupsOk, hn]) hnot⟩
  | folder => exact ⟨fun _ => ⟨_, rfl, h⟩, fun hnot => absurd (by simp [LookupsOk, hn]) hnot⟩
  | file data =>
    simp only [Node.isFile, Node.readBytes, ok_bind, if_true, lookupsOk_iff_of_file hn]
    cases hp : parseJsonBytes (F := F) data with
    | error why => exact ⟨fun _ => ⟨_, rfl, h⟩, fun hnot => absurd (by simp) hnot⟩
    | ok doc =>
      cases doc with
      | obj event =>
        refine ((verifyClips_returns l (mediaShas (unitsOf event)) h).map fun r hr =>
          ReturnsIff.ok ?_).iff ?_
        · exact hr
        · simp
      | _ => exact ⟨fun _ => ⟨_, rfl, h⟩, fun hnot => absurd (by simp) hnot⟩

omit [PyRepr F] in
theorem verifySeq_returns (l : Line) (record : Dict F) (expected : ℤ) :
    ReturnsIff (verifySeq l record expected) (SeqPrintable expected record) fun _ => True := by
  unfold verifySeq SeqPrintable
  split_ifs with hs hp
  · exact (ReturnsIff.ok trivial).iff (by simp [hs])
  · exact (ReturnsIff.ok trivial).iff (by simp [hp])
  · exact (ReturnsIff.error _).iff (by simp [hs, hp])

omit [PyRepr F] in
theorem kingAfter_returns (record : Dict F) (previous : Json F) :
    ReturnsIff (kingAfter record previous) (CrownHashable record) fun _ => True := by
  have herr := kingAfter_eq_error_iff record previous
  constructor
  · intro hc
    cases hk : kingAfter record previous with
    | ok king => exact ⟨king, rfl, trivial⟩
    | error e =>
      obtain ⟨hn, hh⟩ := herr.1 ⟨e, hk⟩
      exact absurd (hc hn) (by simp [hh])
  · intro hc
    refine herr.2 ?_
    unfold CrownHashable at hc
    simpa using hc

/-! ## The index -/

/-- What the loop carries after the records `rs`. -/
structure After (rs : List (Dict F)) (s s' : TrackState F) : Prop where
  hashed : v.HashedOk s'.hashed
  expected : s'.expectedSeq = rs.foldl (fun e r => nextExpected r e) s.expectedSeq

theorem verifyRecord_returns (l : Line) (key body sig : PyStr) (record : Dict F)
    {s : TrackState F} (h : v.HashedOk s.hashed) :
    ReturnsIff (v.verifyRecord l key body sig record s)
      (v.RecordOk l.track s.expectedSeq record) fun r => After (v := v) [record] s r.2 := by
  have hevent := verifyEvent_returns l record h
  refine ((verifySeq_returns l record s.expectedSeq).bind fun _ _ =>
    (kingAfter_returns record s.king).bind fun _ _ =>
      hevent.map fun r hr => ReturnsIff.ok ?_).iff ?_
  · exact ⟨hr, rfl⟩
  · exact ⟨fun hr => ⟨hr.seq, hr.crown, hr.lookups⟩, fun hr => ⟨hr.2.1, hr.1, hr.2.2⟩⟩

/-- A line raises only through its record. -/
theorem verifyLine_returns (l : Line) (key : PyStr) (raw : Bytes) {s : TrackState F}
    (h : v.HashedOk s.hashed) :
    ReturnsIff (v.verifyLine l key raw s)
      (v.RecordsOk l.track s.expectedSeq (parsedRecord raw).toList)
      fun r => After (v := v) (parsedRecord raw).toList s r.2 := by
  have hpass : ∀ p : Problem F,
      ReturnsIff (.ok (.err p, s) : Except PyError (Found F × TrackState F)) True
        fun r => After (v := v) [] s r.2 := fun p => ReturnsIff.ok ⟨h, rfl⟩
  unfold verifyLine parsedRecord
  cases decodeUtf8 raw with
  | none => exact hpass _
  | some text =>
    by_cases htab : text.contains 9
    · simp only [htab, Bool.not_true, Bool.false_eq_true, if_false]
      rcases loads (F := F) false (splitTab text).1 with _ | doc
      · exact hpass _
      · cases doc with
        | obj record =>
          refine (verifyRecord_returns l key _ _ record h).iff ?_
          simp [RecordsOk]
        | _ => exact hpass _
    · simp only [htab, Bool.not_false, if_true]
      exact hpass _

omit [PyFloat F] [PyRepr F] in
theorem After.trans {rs ts : List (Dict F)} {s s' s'' : TrackState F}
    (h : After (v := v) rs s s') (h' : After (v := v) ts s' s'') :
    After (v := v) (rs ++ ts) s s'' :=
  ⟨h'.hashed, by rw [h'.expected, h.expected, List.foldl_append]⟩

/-- Lines that raise by their records, one stretch after another. -/
theorem After.bind {track : PyStr} {rs ts : List (Dict F)} {s : TrackState F}
    {x : Except PyError (Found F × TrackState F)}
    {f : Found F × TrackState F → Except PyError (Found F × TrackState F)}
    (hx : ReturnsIff x (v.RecordsOk track s.expectedSeq rs) fun r => After (v := v) rs s r.2)
    (hf : ∀ r, v.HashedOk r.2.hashed →
      ReturnsIff (f r) (v.RecordsOk track r.2.expectedSeq ts) fun r' => After (v := v) ts r.2 r'.2) :
    ReturnsIff (x >>= f) (v.RecordsOk track s.expectedSeq (rs ++ ts))
      fun r => After (v := v) (rs ++ ts) s r.2 := by
  rw [recordsOk_append]
  refine hx.bind fun r hr => ?_
  rw [← hr.expected]
  exact (hf r hr.hashed).mono fun r' hr' => hr.trans hr'

theorem verifyLines_returns (track key : PyStr) (part : ℕ) (ls : List Bytes) :
    ∀ n {s : TrackState F}, v.HashedOk s.hashed →
      ReturnsIff (v.verifyLines track part key n ls s)
        (v.RecordsOk track s.expectedSeq (ls.filterMap parsedRecord))
        fun r => After (v := v) (ls.filterMap parsedRecord) s r.2 := by
  induction ls with
  | nil => exact fun n s h => ReturnsIff.ok ⟨h, rfl⟩
  | cons raw rest ih =>
    intro n s h
    rw [verifyLines]
    by_cases hempty : raw.isEmpty
    · obtain rfl : raw = [] := by simpa using hempty
      have hnone : parsedRecord (F := F) [] = none := rfl
      rw [List.filterMap_cons_none hnone]
      by_cases hlast : rest.isEmpty
      · obtain rfl : rest = [] := by simpa using hlast
        exact ReturnsIff.ok ⟨h, rfl⟩
      · simp only [List.isEmpty_nil, if_true, hlast, Bool.false_eq_true, if_false]
        exact (ih (n + 1) h).map fun r hr => ReturnsIff.ok hr
    · have hcons : (raw :: rest).filterMap (parsedRecord (F := F)) =
          (parsedRecord raw).toList ++ rest.filterMap parsedRecord := by
        cases hp : parsedRecord (F := F) raw with
        | none => rw [List.filterMap_cons_none hp]; rfl
        | some r => rw [List.filterMap_cons_some hp]; rfl
      rw [if_neg hempty, hcons]
      exact After.bind (verifyLine_returns ⟨track, part, n⟩ key raw h) fun r hr =>
        (ih (n + 1) hr).map fun r' hr' => ReturnsIff.ok hr'

/-- The files the spec names can be read : an index part is a file or missing, and the look-up
of a queue snapshot is not refused. -/
structure Readable (v : Verifier F) : Prop where
  parts : ∀ track ∈ v.spec.tracks, ∀ part, v.dir.node (indexPartPath track part) = .missing ∨
    ∃ data, v.dir.node (indexPartPath track part) = .file data
  queues : ∀ track ∈ v.spec.tracks, v.dir.node (queuePath track) ≠ .refused

theorem verifyParts_returns {track : PyStr} (key : PyStr)
    (hr : ∀ part, v.dir.node (indexPartPath track part) = .missing ∨
      ∃ data, v.dir.node (indexPartPath track part) = .file data) (fuel : ℕ) :
    ∀ part {s : TrackState F}, v.HashedOk s.hashed →
      ReturnsIff (v.verifyParts track key fuel part s)
        (v.RecordsOk track s.expectedSeq ((v.partsFrom track fuel part).flatMap partRecords))
        fun r => After (v := v) ((v.partsFrom track fuel part).flatMap partRecords) s r.2 := by
  induction fuel with
  | zero => exact fun part s h => ReturnsIff.ok ⟨h, rfl⟩
  | succ fuel ih =>
    intro part s h
    rw [verifyParts, partsFrom]
    rcases hr part with hn | ⟨data, hn⟩
    · simp only [hn, Node.exists?, ok_bind, Bool.false_eq_true, if_false]
      exact ReturnsIff.ok ⟨h, rfl⟩
    · simp only [hn, Node.exists?, Node.readBytes, ok_bind, if_true, List.flatMap_cons]
      exact After.bind (verifyLines_returns track key part (lines data) 1 h) fun r hr =>
        (ih (part + 1) hr).map fun r' hr' => ReturnsIff.ok hr'

/-! ## The store -/

omit [PyRepr F] in
theorem verifyQueue_returns {track : PyStr} (h : v.dir.node (queuePath track) ≠ .refused) :
    ReturnsIff (v.verifyQueue track) True fun _ => True := by
  unfold verifyQueue
  cases hn : v.dir.node (queuePath track) with
  | refused => exact absurd hn h
  | missing => exact ReturnsIff.ok trivial
  | folder => exact ReturnsIff.ok trivial
  | file data =>
    simp only [Node.exists?, ok_bind, if_true]
    cases readJsonFile (F := F) (.file data) <;> exact ReturnsIff.ok trivial

theorem verifyTracks_returns (key : PyStr) (hr : v.Readable) (tracks : List PyStr) :
    (∀ track ∈ tracks, track ∈ v.spec.tracks) → ∀ {hashed : Hashed}, v.HashedOk hashed →
      ReturnsIff (v.verifyTracks key tracks hashed)
        (∀ track ∈ tracks, v.RecordsOk track 1 (v.trackRecords track)) fun r => v.HashedOk r.2 := by
  induction tracks with
  | nil => exact fun _ hashed h => ⟨fun _ => ⟨_, rfl, h⟩, fun hnot => absurd (by simp) hnot⟩
  | cons track tracks ih =>
    intro hmem hashed h
    have htrack : track ∈ v.spec.tracks := hmem track (by simp)
    have hone : ReturnsIff (v.verifyTrack key track hashed)
        (v.RecordsOk track 1 (v.trackRecords track)) fun r => v.HashedOk r.2 :=
      (verifyParts_returns (s := .start hashed) key (hr.parts track htrack) (v.dir.parts + 1) 0
        h).map fun r hafter =>
          (verifyQueue_returns (hr.queues track htrack)).map fun _ _ => ReturnsIff.ok hafter.hashed
    refine (hone.bind fun r hr' =>
      (ih (fun t ht => hmem t (by simp [ht])) hr').map fun r' hr'' => ReturnsIff.ok ?_).iff ?_
    · exact hr''
    · simp

omit [PyRepr F] in
/-- Whether `manifest.json` holds an object. -/
def manifestOk (v : Verifier F) : Bool :=
  match readJsonFile (F := F) (v.dir.node manifestPath) with
  | .ok (.obj _) => true
  | _ => false

/-- The verifier returns a report exactly when no record that parses makes it raise. -/
theorem verifyStore_returns_iff (v : Verifier F) (hr : v.Readable) (validatorKey : Option PyStr) :
    (∃ report, v.verifyStore validatorKey = .ok report) ↔
      (v.manifestOk → ∀ track ∈ v.spec.tracks, v.RecordsOk track 1 (v.trackRecords track)) := by
  unfold verifyStore manifestOk
  cases hm : readJsonFile (F := F) (v.dir.node manifestPath) with
  | error why => simp
  | ok doc =>
    cases doc with
    | obj manifest =>
      have hnone : v.HashedOk [] := by simp [HashedOk]
      have htracks := verifyTracks_returns (v.verifyManifest manifest validatorKey).2 hr
        v.spec.tracks (fun _ h => h) hnone
      have hstore := htracks.map fun r _ =>
        ReturnsIff.ok (Q := fun _ : Report F => True)
          (a := ⟨(v.verifyManifest manifest validatorKey).1 ++ r.1,
            (v.verifyManifest manifest validatorKey).2⟩) trivial
      exact hstore.returns_iff.trans (by simp only [forall_const])
    | _ => simp

/-! ## A store the verifier raises on -/

/-- Nothing but strings is formatted on the way through this store. -/
instance : PyRepr Tenths := ⟨fun _ => []⟩

/-- A manifest without fields, and an index line whose record crowns by a list. -/
def crashingFiles : List (Path × Bytes) :=
  [(manifestPath, encodeUtf8 (py "\x7b\x7d")),
    (indexPartPath (py "t") 0, encodeUtf8 (py "\x7b\"kind\":[],\"new_king\":1\x7d\tx\n"))]

theorem crashingFiles_finite (track : PyStr) (part : ℕ) (hp : 1 ≤ part) :
    crashingFiles.lookup (indexPartPath track part) = none := by
  have hmanifest : (indexPartPath track part == manifestPath) = false := by
    simp [indexPartPath, trackDir, manifestPath]
  have hpart : (indexPartPath track part == indexPartPath (py "t") 0) = false := by
    rw [beq_eq_false_iff_ne, Ne, indexPartPath_inj]
    omega
  simp only [crashingFiles, List.lookup, hmanifest, hpart]

def crashing : Verifier Tenths where
  crypto := toyCrypto
  iterErrors _ _ := []
  spec := ⟨[], [py "t"], py "mp4", 4, 1000, 2, 1⟩
  dir := Dir.ofFiles crashingFiles (fun _ => none) 1 crashingFiles_finite

theorem readable_crashing : crashing.Readable where
  parts _ _ _ := Dir.ofFiles_node (h := crashingFiles_finite) _
  queues _ _ := Dir.ofFiles_ne_refused (h := crashingFiles_finite) _

/-- The verifier raises `TypeError` on it, where a report was promised. -/
theorem crashing_raises : crashing.Readable ∧
    ¬∃ report, crashing.verifyStore none = .ok report := by
  refine ⟨readable_crashing, ?_⟩
  rintro ⟨report, h⟩
  have heval : (crashing.verifyStore none).toOption.isSome = false := by decide +kernel
  rw [h] at heval
  exact absurd heval (by simp [Except.toOption])

theorem crashing_not_recordsOk : ¬∀ track ∈ crashing.spec.tracks,
    crashing.RecordsOk track 1 (crashing.trackRecords track) := by
  intro h
  obtain ⟨report, hr⟩ := (verifyStore_returns_iff crashing readable_crashing none).2 fun _ => h
  have heval : (crashing.verifyStore none).toOption.isSome = false := by decide +kernel
  rw [hr] at heval
  exact absurd heval (by simp [Except.toOption])

end Verifier

end IcilOrchestrator
