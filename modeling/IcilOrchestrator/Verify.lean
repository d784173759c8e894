import Mathlib
import IcilOrchestrator.Lines
import IcilOrchestrator.Store

/-!
# `verify_store`

The verifier walks the index of every track, the events and clips its records name, the
heads and the queue snapshots. Each function returns what it adds to the report
(`Found`), in the order of the source, or the exception it raises : the four ways to one
are a crown of a kind that cannot be hashed, a sequence number with more digits than
`str` converts, a look-up the file system refuses, and a clip that is a folder.

`jsonschema` is a parameter : the messages and paths of `iter_errors` for a definition of
the schema and a document. The memory of the clips already hashed is the source's
`hashed`.
-/

namespace IcilOrchestrator

open Python

variable {F : Type}

/-! ## The report -/

/-- A line of an index part, `tracks/{track}/index-NNNN.jsonl:{line}`. -/
structure Line where
  track : PyStr
  part : ℕ
  line : ℕ
deriving DecidableEq

/-- The line as the report names it. -/
def Line.place (l : Line) : PyStr :=
  py "tracks/" ++ l.track ++ py "/index-" ++ pad4 l.part ++ py ".jsonl:" ++ decimal l.line

/-- An entry of `Report.errors`. -/
inductive Problem (F : Type) where
  | manifestUnreadable
  | otherKey (key expected : PyStr)
  | tracksDiffer (listed : Json F)
  | strayTrack (top name : PyStr)
  | schema (place ref message path : PyStr)
  | noNewline (l : Line)
  | blankLine (l : Line)
  | notUtf8 (l : Line)
  | noSignature (l : Line)
  | unparsable (l : Line)
  | notAnObject (l : Line)
  | notCanonical (l : Line)
  | notASignature (l : Line)
  | badSignature (l : Line)
  | wrongSeq (l : Line) (seq : Json F) (expected : ℤ)
  | wrongPart (l : Line)
  | wrongTrack (l : Line) (found : Json F)
  | eventMissing (l : Line)
  | eventHash (l : Line)
  | eventUnreadable (l : Line) (why : PyStr)
  | fieldDiffers (l : Line) (key : PyStr)
  | tallyDiffers (l : Line) (key : PyStr) (found : Json F) (n : ℕ)
  | mediaCount (l : Line) (found : Json F) (n : ℕ)
  | mediaMissing (l : Line) (sha : PyStr)
  | mediaContent (l : Line) (sha : PyStr)
  | headUnreadable (track : PyStr)
  | headClaims (track : PyStr)
  | headNotLast (track : PyStr)
  | headDiffers (track key : PyStr)
  | headKing (track : PyStr)

/-- `str` of an `int`. -/
def intText (z : ℤ) : PyStr := (intLit z).text

/-- The text of an entry. -/
def Problem.text [PyRepr F] (spec : Spec) : Problem F → PyStr
  | .manifestUnreadable => py "manifest.json missing or unreadable"
  | .otherKey key expected =>
    py "manifest.json is signed by " ++ key ++ py ", not the expected " ++ expected
  | .tracksDiffer listed =>
    py "manifest.json lists tracks " ++ PyRepr.repr listed ++ py " but the spec's are " ++
      PyRepr.repr (.arr (spec.tracks.map .str) : Json F)
  | .strayTrack top name => top ++ 47 :: name ++ py " is not a track of the spec"
  | .schema place ref message path =>
    place ++ py ": schema " ++ ref ++ py ": " ++ message ++ py " at " ++ path
  | .noNewline l => l.place ++ py ": no newline at the end of the line"
  | .blankLine l => l.place ++ py ": blank line"
  | .notUtf8 l => l.place ++ py ": not UTF-8"
  | .noSignature l => l.place ++ py ": no signature"
  | .unparsable l => l.place ++ py ": unparsable record"
  | .notAnObject l => l.place ++ py ": record is not an object"
  | .notCanonical l => l.place ++ py ": record is not canonical JSON"
  | .notASignature l => l.place ++ py ": signature is not 128 lowercase hex characters"
  | .badSignature l => l.place ++ py ": bad signature"
  | .wrongSeq l seq expected =>
    l.place ++ py ": seq " ++ strOf seq ++ py " expected " ++ intText expected
  | .wrongPart l => l.place ++ py ": record filed in the wrong part"
  | .wrongTrack l found =>
    l.place ++ py ": track " ++ PyRepr.repr found ++ py " filed under " ++ l.track
  | .eventMissing l => l.place ++ py ": event file missing"
  | .eventHash l =>
    l.place ++ py ": event file does not match the event_sha256 its record signs"
  | .eventUnreadable l why => l.place ++ py ": event file unreadable (" ++ why ++ [41]
  | .fieldDiffers l key => l.place ++ py ": event." ++ key ++ py " differs from the index record"
  | .tallyDiffers l key found n =>
    l.place ++ py ": record " ++ key ++ 32 :: strOf found ++ py ", but the event's units tally " ++
      decimal n
  | .mediaCount l found n =>
    l.place ++ py ": record media_count " ++ strOf found ++ py ", but the event's units name " ++
      decimal n ++ py " clips"
  | .mediaMissing l sha => l.place ++ py ": media " ++ sha.take 12 ++ py " missing"
  | .mediaContent l sha =>
    l.place ++ py ": media " ++ sha.take 12 ++ py " content does not match its name"
  | .headUnreadable track => py "tracks/" ++ track ++ py "/head.json missing or unreadable"
  | .headClaims track =>
    py "tracks/" ++ track ++ py "/head.json claims records that do not exist"
  | .headNotLast track =>
    py "tracks/" ++ track ++ py "/head.json does not point at the last record"
  | .headDiffers track key =>
    py "tracks/" ++ track ++ py "/head.json " ++ key ++ py " differs from the last record"
  | .headKing track =>
    py "tracks/" ++ track ++ py "/head.json king differs from the king the signed records crown"

/-- An entry of `Report.warnings`. -/
inductive Warning where
  | fingerprint
  | unsignedEvent (l : Line)
  | queueUnreadable (track : PyStr)
deriving DecidableEq

/-- What a part of the walk adds to the report. -/
structure Found (F : Type) where
  errors : List (Problem F)
  warnings : List Warning
  records : ℕ
  events : ℕ
  media : ℕ

namespace Found

def none : Found F := ⟨[], [], 0, 0, 0⟩

/-- `report.errors.append(p)`. -/
def err (p : Problem F) : Found F := ⟨[p], [], 0, 0, 0⟩

def errs (ps : List (Problem F)) : Found F := ⟨ps, [], 0, 0, 0⟩

/-- `if c: report.errors.append(p)`. -/
def errIf (c : Bool) (p : Problem F) : Found F := if c then err p else none

def warn (w : Warning) : Found F := ⟨[], [w], 0, 0, 0⟩

instance : Append (Found F) :=
  ⟨fun f g => ⟨f.errors ++ g.errors, f.warnings ++ g.warnings, f.records + g.records,
    f.events + g.events, f.media + g.media⟩⟩

@[simp] theorem errors_append (f g : Found F) : (f ++ g).errors = f.errors ++ g.errors := rfl
@[simp] theorem errors_none : (none : Found F).errors = [] := rfl
@[simp] theorem errors_err (p : Problem F) : (err p).errors = [p] := rfl
@[simp] theorem errors_errs (ps : List (Problem F)) : (errs ps).errors = ps := rfl
@[simp] theorem errors_warn (w : Warning) : (warn w : Found F).errors = [] := rfl

@[simp] theorem errors_errIf (c : Bool) (p : Problem F) :
    (errIf c p).errors = if c then [p] else [] := by
  cases c <;> rfl

end Found

/-- `Report`. -/
structure Report (F : Type) extends Found F where
  validatorKey : PyStr

/-- The clips hashed so far, and whether each is what its name says. -/
abbrev Hashed := List (PyStr × Bool)

/-- What the verifier is given : the libraries it calls, the spec and the store. -/
structure Verifier (F : Type) where
  crypto : Crypto
  /-- `iter_errors` of a definition of the schema on a document : messages and paths. -/
  iterErrors : PyStr → Json F → List (PyStr × PyStr)
  spec : Spec
  dir : Dir

namespace Verifier

variable (v : Verifier F)

/-- `SchemaCheck.check`. -/
def check (ref : String) (doc : Json F) (place : PyStr) : Found F :=
  .errs ((v.iterErrors (py ref) doc).map fun e => .schema place (py ref) e.1 e.2)

@[simp] theorem check_errors_eq_nil {ref : String} {doc : Json F} {place : PyStr} :
    (v.check ref doc place).errors = [] ↔ v.iterErrors (py ref) doc = [] := by
  simp [check]

/-! ## Events and clips -/

/-- Whether the clip is the bytes its name hashes to, hashed once. -/
def clipMatches (hashed : Hashed) (sha : PyStr) : Except PyError (Bool × Hashed) :=
  match hashed.lookup sha with
  | some b => .ok (b, hashed)
  | none => do
    let data ← (v.dir.node (v.spec.mediaPath sha v.spec.videoFormat)).readBytes
    pure (v.crypto.sha256 data == sha, (sha, v.crypto.sha256 data == sha) :: hashed)

/-- `for sha in media_shas(units)`. -/
def verifyClips (l : Line) : List PyStr → Hashed → Except PyError (Found F × Hashed)
  | [], hashed => .ok (.none, hashed)
  | sha :: shas, hashed => do
    if ← (v.dir.node (v.spec.mediaPath sha v.spec.videoFormat)).exists? then
      let (same, hashed) ← v.clipMatches hashed sha
      let (found, hashed) ← verifyClips l shas hashed
      pure (⟨[], [], 0, 0, 1⟩ ++ .errIf (!same) (.mediaContent l sha) ++ found, hashed)
    else
      let (found, hashed) ← verifyClips l shas hashed
      pure (.err (.mediaMissing l sha) ++ found, hashed)

/-- `RECORD_ONLY`. -/
def recordOnly : List PyStr := [py "seq", py "event_sha256"]

/-- `sorted(set(record) - RECORD_ONLY)`. -/
def repeatedKeys (record : Dict F) : List PyStr :=
  ((record.map Prod.fst).filter fun k => !recordOnly.contains k).insertionSort
    fun s t => strLe s t = true

/-- The dicts of an event's units. -/
def unitsOf (event : Dict F) : List (Dict F) :=
  match event.get (py "units") with
  | .arr xs => xs.filterMap fun
    | .obj u => some u
    | _ => none
  | _ => []

variable [PyFloat F] [PyRepr F]

/-- An event against the record that repeats it. -/
def verifyFields (l : Line) (record event : Dict F) : Found F :=
  .errs ((repeatedKeys record).filterMap fun k =>
    if (event.get k).pyEq (record.get k) then none else some (.fieldDiffers l k)) ++
  .errs ((unitTally (unitsOf event)).items.filterMap fun kn =>
    if (record.get kn.1).pyEq (.int kn.2) then none
    else some (.tallyDiffers l kn.1 (record.get kn.1) kn.2)) ++
  .errIf (!(record.get (py "media_count")).pyEq (.int (mediaShas (unitsOf event)).length))
    (.mediaCount l (record.get (py "media_count")) (mediaShas (unitsOf event)).length)

/-- The event's id, as the path builder takes it. -/
def eventIdOf (record : Dict F) : PyStr :=
  strOf ((record.get? (py "event_id")).getD (.str []))

/-- Whether the record signs its event's bytes, and these. -/
def verifyHash (l : Line) (record : Dict F) (data : Bytes) : Found F :=
  match record.get? (py "event_sha256") with
  | none => .warn (.unsignedEvent l)
  | some sha => .errIf (!sha.pyEq (.str (v.crypto.sha256 data))) (.eventHash l)

/-- The event of a record, and the clips its units name. -/
def verifyEvent (l : Line) (record : Dict F) (hashed : Hashed) :
    Except PyError (Found F × Hashed) := do
  let node := v.dir.node (eventPath l.track (eventIdOf record))
  if ← node.isFile then
    let data ← node.readBytes
    match parseJsonBytes (F := F) data with
    | .ok (.obj event) =>
      let (found, hashed) ← v.verifyClips l (mediaShas (unitsOf event)) hashed
      let place := py "events/" ++ l.track ++ 47 :: strOf (record.get (py "event_id")) ++ py ".json"
      pure (v.verifyHash l record data ++ ⟨[], [], 0, 1, 0⟩ ++ v.check "DuelEvent" (.obj event) place
        ++ verifyFields l record event ++ found, hashed)
    | .ok _ => pure (v.verifyHash l record data ++ .err (.eventUnreadable l (py "not an object")), hashed)
    | .error why => pure (v.verifyHash l record data ++ .err (.eventUnreadable l why), hashed)
  else pure (.err (.eventMissing l), hashed)

/-! ## The index -/

/-- What the loop over a track's lines carries. -/
structure TrackState (F : Type) where
  expectedSeq : ℤ
  last : Option (Dict F)
  king : Json F
  hashed : Hashed

/-- The canonical form and the signature of a line. -/
def verifySigned (l : Line) (key body sig : PyStr) (record : Dict F) : Found F :=
  .errIf (canonicalJson (.obj record) != some body) (.notCanonical l) ++
  if !isSignature sig then .err (.notASignature l)
  else .errIf (!verifySignature v.crypto key body sig) (.badSignature l)

/-- The error of a record out of sequence ; its text holds the number expected. -/
def verifySeq (l : Line) (record : Dict F) (expected : ℤ) : Except PyError (Found F) :=
  if (record.get (py "seq")).pyEq (.int expected) then .ok .none
  else if expected.natAbs < 10 ^ maxStrDigits then
    .ok (.err (.wrongSeq l (record.get (py "seq")) expected))
  else .error .valueError

/-- The part and the track a record is filed under. -/
def verifyFiled (l : Line) (record : Dict F) : Found F :=
  .errIf ((asInt? (record.get (py "seq"))).any fun seq => v.spec.partOf seq != l.part)
    (.wrongPart l) ++
  .errIf (!(record.get (py "track")).pyEq (.str l.track)) (.wrongTrack l (record.get (py "track")))

/-- The number expected after a record. -/
def nextExpected (record : Dict F) (expected : ℤ) : ℤ :=
  (asInt? (record.get (py "seq"))).getD expected + 1

/-- A record that was parsed. -/
def verifyRecord (l : Line) (key body sig : PyStr) (record : Dict F) (s : TrackState F) :
    Except PyError (Found F × TrackState F) := do
  let seq ← verifySeq l record s.expectedSeq
  let king ← kingAfter record s.king
  let (event, hashed) ← v.verifyEvent l record s.hashed
  pure (v.verifySigned l key body sig record ++ seq ++ v.verifyFiled l record
      ++ v.check "IndexRecord" (.obj record) l.place ++ ⟨[], [], 1, 0, 0⟩ ++ event,
    ⟨nextExpected record s.expectedSeq, some record, king, hashed⟩)

/-- A line that is not empty. -/
def verifyLine (l : Line) (key : PyStr) (raw : Bytes) (s : TrackState F) :
    Except PyError (Found F × TrackState F) :=
  match decodeUtf8 raw with
  | none => .ok (.err (.notUtf8 l), s)
  | some text =>
    if !text.contains 9 then .ok (.err (.noSignature l), s)
    else
      let (body, sig) := splitTab text
      match loads (F := F) false body with
      | none | some .null => .ok (.err (.unparsable l), s)
      | some (.obj record) => v.verifyRecord l key body sig record s
      | some _ => .ok (.err (.notAnObject l), s)

/-- The lines of a part, from the `n`th on. -/
def verifyLines (track : PyStr) (part : ℕ) (key : PyStr) :
    ℕ → List Bytes → TrackState F → Except PyError (Found F × TrackState F)
  | _, [], s => .ok (.none, s)
  | n, raw :: rest, s => do
    let l : Line := ⟨track, part, n⟩
    if raw.isEmpty then
      if rest.isEmpty then pure (.none, s)
      else
        let (found, s) ← verifyLines track part key (n + 1) rest s
        pure (.err (.blankLine l) ++ found, s)
    else
      let (here, s) ← v.verifyLine l key raw s
      let (found, s) ← verifyLines track part key (n + 1) rest s
      pure (.errIf rest.isEmpty (.noNewline l) ++ here ++ found, s)

/-- The parts from `part` on, up to the first that is missing ; `fuel` more are looked for. -/
def verifyParts (track key : PyStr) :
    ℕ → ℕ → TrackState F → Except PyError (Found F × TrackState F)
  | 0, _, s => .ok (.none, s)
  | fuel + 1, part, s => do
    let node := v.dir.node (indexPartPath track part)
    if ← node.exists? then
      let data ← node.readBytes
      let (here, s) ← v.verifyLines track part key 1 (lines data) s
      let (found, s) ← verifyParts track key fuel (part + 1) s
      pure (here ++ found, s)
    else pure (.none, s)

/-! ## Heads and the store -/

/-- `tracks/{track}/head.json` against the index. -/
def verifyHead (track : PyStr) (last : Option (Dict F)) (king : Json F) : Found F :=
  match readJsonFile (F := F) (v.dir.node (headPath track)) with
  | .ok (.obj head) =>
    v.check "Head" (.obj head) (py "tracks/" ++ track ++ py "/head.json") ++
    (match last with
      | none =>
        .errIf (!((Dict.get head (py "seq")).pyEq (.int 0) || (Dict.get head (py "seq")).pyEq .null))
          (.headClaims track)
      | some r =>
        .errIf (!(Dict.get head (py "seq")).pyEq (r.get (py "seq")) ||
            !(Dict.get head (py "event_id")).pyEq (r.get (py "event_id"))) (.headNotLast track) ++
        .errIf (!(Dict.get head (py "block")).pyEq (r.get (py "block")))
          (.headDiffers track (py "block")) ++
        .errIf (!(Dict.get head (py "finished_at")).pyEq (r.get (py "finished_at")))
          (.headDiffers track (py "finished_at"))) ++
    .errIf (!(Dict.get head (py "king")).pyEq king) (.headKing track)
  | _ => .err (.headUnreadable track)

/-- `tracks/{track}/queue.json`. -/
def verifyQueue (track : PyStr) : Except PyError (Found F) := do
  let node := v.dir.node (queuePath track)
  if ← node.exists? then
    match readJsonFile node with
    | .ok snapshot =>
      pure (v.check "QueueSnapshot" snapshot (py "tracks/" ++ track ++ py "/queue.json"))
    | .error _ => pure (.warn (.queueUnreadable track))
  else pure .none

/-- The state before a track's first line. -/
def TrackState.start (hashed : Hashed) : TrackState F := ⟨1, none, .null, hashed⟩

/-- One track : its index, its head and its queue. -/
def verifyTrack (key track : PyStr) (hashed : Hashed) : Except PyError (Found F × Hashed) := do
  let (index, s) ← v.verifyParts track key (v.dir.parts + 1) 0 (.start hashed)
  let queue ← v.verifyQueue track
  pure (index ++ v.verifyHead track s.last s.king ++ queue, s.hashed)

/-- `for track in spec.tracks`. -/
def verifyTracks (key : PyStr) : List PyStr → Hashed → Except PyError (Found F × Hashed)
  | [], hashed => .ok (.none, hashed)
  | track :: tracks, hashed => do
    let (here, hashed) ← v.verifyTrack key track hashed
    let (found, hashed) ← verifyTracks key tracks hashed
    pure (here ++ found, hashed)

/-- The entries of a folder that are no track of the spec. -/
def strayTracks (top : PyStr) : Found F :=
  .errs ((((v.dir.listing top).getD []).insertionSort fun s t => strLe s t = true).filterMap
    fun name => if v.spec.tracks.contains name then none else some (.strayTrack top name))

/-- The manifest, and the key the signatures are checked against. -/
def verifyManifest (manifest : Dict F) (validatorKey : Option PyStr) : Found F × PyStr :=
  let own := strOf ((manifest.get? (py "validator_key")).getD (.str []))
  let key := validatorKey.getD own
  let listed := manifest.get (py "tracks")
  (v.check "Manifest" (.obj manifest) (py "manifest.json") ++
    .errIf (own != key) (.otherKey own key) ++
    (if (manifest.get (py "spec_fingerprint")).pyEq (.str v.spec.fingerprint) then .none
      else .warn .fingerprint) ++
    .errIf (!listed.pyEq (.arr (v.spec.tracks.map .str))) (.tracksDiffer listed) ++
    v.strayTracks (py "tracks") ++ v.strayTracks (py "events"), key)

/-- `verify_store(root, spec, schema, validator_key)`. -/
def verifyStore (validatorKey : Option PyStr) : Except PyError (Report F) :=
  match readJsonFile (v.dir.node manifestPath) with
  | .ok (.obj manifest) => do
    let (found, key) := v.verifyManifest manifest validatorKey
    let (tracks, _) ← v.verifyTracks key v.spec.tracks []
    pure ⟨found ++ tracks, key⟩
  | _ => .ok ⟨.err .manifestUnreadable, []⟩

end Verifier

end IcilOrchestrator
