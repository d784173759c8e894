import Mathlib
import IcilOrchestrator.Files

/-!
# The store's writer

The methods of `Store` as programs over the files. An append repairs the newest part's
tail, takes the number after the index's last record, appends the signed line a byte at a
time, and then rewrites the head from the record; `rebuildHead` rewrites it from the whole
index. A process that stops anywhere in between leaves what it has written so far.

One process writes at a time, as the store's lock has it, so the track's index lock is not
part of the state. A number in the index is at least 1 wherever a part is looked up by it.
-/

namespace IcilOrchestrator

open Python

variable {F : Type}

/-- `d[k]`. -/
def item (d : Dict F) (k : PyStr) : Except PyError (Json F) :=
  match d.get? k with
  | some x => .ok x
  | none => .error .keyError

/-- `Store(root, spec, signer)`, with the libraries it calls. -/
structure Store where
  crypto : Crypto
  signer : Option (Signer crypto)
  spec : Spec
  /-- `int` of a text. -/
  intOfText : PyStr → Option ℤ

/-! ## Reading the index -/

/-- `index_parts` from `part` on ; `fuel` more are looked for. -/
def Dir.indexPartsFrom (d : Dir) (track : PyStr) : ℕ → ℕ → Except PyError (List ℕ)
  | 0, _ => .ok []
  | fuel + 1, part => do
    if ← (d.node (indexPartPath track part)).exists? then
      let parts ← indexPartsFrom d track fuel (part + 1)
      pure (part :: parts)
    else pure []

/-- `Store.index_parts`. -/
def Dir.indexParts (d : Dir) (track : PyStr) : Except PyError (List ℕ) :=
  d.indexPartsFrom track (d.parts + 1) 0

/-- What a file read as text makes of its line ends. -/
def universalNewlines : PyStr → PyStr
  | [] => []
  | 13 :: 10 :: s => 10 :: universalNewlines s
  | 13 :: s => 10 :: universalNewlines s
  | c :: s => c :: universalNewlines s

variable [PyFloat F]

/-- The record of a line, as the writer reads its last one : whatever follows the first tab. -/
def recordOf (line : Bytes) : Option (Dict F) :=
  match (decodeUtf8 (line.takeWhile (· != 9))).bind (loads (F := F) true) with
  | some (.obj record) => if (asInt? (Dict.get record (py "seq"))).isSome then some record else none
  | _ => none

/-- The last record of some parts, from the first of the list on. -/
def Dir.lastRecordOf (d : Dir) (track : PyStr) : List ℕ → Except PyError (Option (Dict F))
  | [] => .ok none
  | part :: parts => do
    let data ← (d.node (indexPartPath track part)).readBytes
    match (lines data).reverse.findSome? (recordOf (F := F)) with
    | some record => pure (some record)
    | none => lastRecordOf d track parts

/-- `Store.last_record`. -/
def Dir.lastRecord (d : Dir) (track : PyStr) : Except PyError (Option (Dict F)) := do
  let parts ← d.indexParts track
  d.lastRecordOf track parts.reverse

/-- The number after a record, or the first. -/
def seqAfter : Option (Dict F) → ℤ
  | some record => (asInt? (record.get (py "seq"))).getD 0 + 1
  | none => 1

/-- `Store.next_seq`. -/
def nextSeq (F : Type) [PyFloat F] (d : Dir) (track : PyStr) : Except PyError ℤ := do
  let last ← d.lastRecord (F := F) track
  pure (seqAfter last)

/-- The documents of a part, those of its lines that parse ; a blank line does not. -/
def partDocs (data : Bytes) : Except PyError (List (Json F)) :=
  match decodeUtf8 data with
  | none => .error .valueError
  | some text => .ok (((universalNewlines text).splitOn 10).filterMap fun raw =>
      loads (F := F) true (raw.takeWhile (· != 9)))

/-- The documents of the parts from `part` on ; `fuel` more are looked for. -/
def Dir.docsFrom (d : Dir) (track : PyStr) : ℕ → ℕ → Except PyError (List (Json F))
  | 0, _ => .ok []
  | fuel + 1, part => do
    if ← (d.node (indexPartPath track part)).exists? then
      let data ← (d.node (indexPartPath track part)).readBytes
      let docs ← partDocs data
      let rest ← docsFrom d track fuel (part + 1)
      pure (docs ++ rest)
    else pure []

omit [PyFloat F] in
/-- `r.get`, of every document. -/
def asDicts : List (Json F) → Except PyError (List (Dict F))
  | [] => .ok []
  | .obj r :: docs => do
    let rs ← asDicts docs
    pure (r :: rs)
  | _ :: _ => .error .attributeError

/-- `r.get("seq", 0)`, of a record whose number is one. -/
def seqKey (r : Dict F) : Option ℚ := ((r.get? (py "seq")).getD (.int 0)).num?

/-- `out.sort(key=seq)`. Numbers that are not finite, and texts among themselves, which have
an order too, are refused as the other types are. -/
def sortBySeq (rs : List (Dict F)) : Except PyError (List (Dict F)) :=
  if rs.all fun r => (seqKey r).isSome then
    .ok (rs.insertionSort fun r s => (seqKey r).getD 0 ≤ (seqKey s).getD 0)
  else if rs.length ≤ 1 then .ok rs
  else .error .typeError

/-- `Store.iter_index`. -/
def Dir.iterIndex (d : Dir) (track : PyStr) : Except PyError (List (Dict F)) := do
  let docs ← d.docsFrom track (d.parts + 1) 0
  let rs ← asDicts docs
  sortBySeq rs

/-- `read_json` ; none for a file that is missing, unreadable or holds `null`. -/
def readJson : Node → Json F
  | .file data => ((decodeUtf8 data).bind (loads true)).getD .null
  | _ => .null

namespace Store

variable (st : Store)

/-! ## Files of JSON -/

/-- `atomic_write_json`. -/
def atomicWriteJson (p : Path) (obj : Json F) : StoreProg Unit :=
  match dumps indented true obj with
  | some text => atomicWrite p (encodeUtf8 (text ++ [10]))
  | none => .raise .valueError

/-- The document of `head.json`. -/
def headDict (seq : ℤ) (eventId : PyStr) (block : ℤ) (finishedAt : PyStr) (king : Json F) :
    Dict F :=
  [(py "schema", .int st.spec.schema), (py "seq", .int seq), (py "event_id", .str eventId),
    (py "block", .int block), (py "finished_at", .str finishedAt), (py "king", king)]

/-- `Store.write_head`. -/
def writeHead (track : PyStr) (seq : ℤ) (eventId : PyStr) (block : ℤ) (finishedAt : PyStr)
    (king : Json F) : StoreProg Unit := do
  atomicWriteJson (headPath track) (.obj (st.headDict seq eventId block finishedAt king))
  touch (headPath track)

/-- The document of `manifest.json`. -/
def manifestDict (F : Type) (validatorKey : PyStr) : Dict F :=
  [(py "schema", .int st.spec.schema), (py "validator_key", .str validatorKey),
    (py "spec_version", .int st.spec.version), (py "spec_fingerprint", .str st.spec.fingerprint),
    (py "tracks", .arr (st.spec.tracks.map .str))]

/-- The head of a track that has none. -/
def initHead (F : Type) [PyFloat F] (track : PyStr) : StoreProg Unit := do
  if ← .try' () fun s => (s.dir.node (headPath track)).exists? then pure ()
  else st.writeHead track 0 [] 0 [] (.null : Json F)

/-- `Store.init`. -/
def init (F : Type) [PyFloat F] (validatorKey : PyStr) : StoreProg Unit := do
  atomicWriteJson manifestPath (.obj (st.manifestDict F validatorKey))
  touch manifestPath
  .each (st.initHead F) st.spec.tracks

variable [PyRepr F]

/-- `Store.write_event`. -/
def writeEvent (track : PyStr) (event : Dict F) : StoreProg Unit := do
  let eventId ← .ret (item event (py "event_id"))
  atomicWriteJson (eventPath track (strOf eventId)) (.obj event)
  touch (eventPath track (strOf eventId))

/-! ## The tail of the index -/

/-- The key that lines are checked against. -/
def verifyKeyHex : PyStr := (st.signer.map Signer.verifyKeyHex).getD []

/-- `Store._is_signed_line`. -/
def isSignedLine (line : Bytes) : Bool :=
  match decodeUtf8 line with
  | none => false
  | some text =>
    text.contains 9 &&
      verifySignature st.crypto st.verifyKeyHex (splitTab text).1 (splitTab text).2

/-- What a part is once its tail is repaired. -/
def repaired (data : Bytes) : Bytes :=
  if data.isEmpty || data.getLast? == some 10 then data
  else if st.isSignedLine (rpartition data).2 then data ++ [10]
  else data.take (if (rpartition data).1.isEmpty then 0 else (rpartition data).1.length + 1)

/-- What the repair of a part makes of the files. -/
def repairFile (p : Path) (s : Files) : Files :=
  match s.dir.node p with
  | .file data => if st.repaired data = data then s else s.put p (st.repaired data)
  | _ => s

/-- `Store.repair_tail`. -/
def repairTail (track : PyStr) : StoreProg Unit := do
  let parts ← .try' () fun s => s.dir.indexParts track
  match parts.getLast? with
  | none => pure ()
  | some part =>
    .act () (st.repairFile (indexPartPath track part)) fun s =>
      .ret ((s.dir.node (indexPartPath track part)).readBytes.map fun _ => ())

/-! ## Appending -/

/-- `int(x)`. -/
def intOf : Json F → Except PyError ℤ
  | .int z => .ok z
  | .bool b => .ok (if b then 1 else 0)
  | .float x => .ok ((PyFloat.val x).num.tdiv (PyFloat.val x).den)
  | .inf _ => .error .overflowError
  | .nan => .error .valueError
  | .str s => ((st.intOfText s).map Except.ok).getD (.error .valueError)
  | _ => .error .typeError

/-- The head that a record gives. -/
def writeHeadOf (track : PyStr) (seq : ℤ) (record : Dict F) (king : Json F) : StoreProg Unit := do
  let eventId ← .ret (item record (py "event_id"))
  let block ← .ret (item record (py "block") >>= st.intOf)
  let finishedAt ← .ret (item record (py "finished_at"))
  st.writeHead track seq (strOf eventId) block (strOf finishedAt) king

/-- `sha256_file` of an event that is there. -/
def eventHash (d : Dir) (p : Path) : Except PyError PyStr := do
  if ← (d.node p).isFile then
    let data ← (d.node p).readBytes
    pure (st.crypto.sha256 data)
  else .error .runtimeError

/-- `head.get("king") if head else None`. -/
def headKing (d : Dir) (track : PyStr) : Except PyError (Json F) :=
  match readJson (F := F) (d.node (headPath track)) with
  | .obj head => .ok (Dict.get head (py "king"))
  | j => if j.truthy then .error .attributeError else .ok .null

/-- The signed line of a record. -/
def signedLine (signer : Signer st.crypto) (record : Dict F) : Except PyError Bytes :=
  match canonicalJson (.obj record) with
  | some canonical => .ok (encodeUtf8 (canonical ++ 9 :: signer.sign canonical) ++ [10])
  | none => .error .valueError

/-- The line of a record, at the end of the index. -/
def appendLine (track : PyStr) (signer : Signer st.crypto) (seq : ℤ) (record : Dict F) :
    StoreProg Unit := do
  let line ← .ret (st.signedLine signer record)
  openAppend (indexPartPath track (st.spec.partOf seq).toNat)
  appendBytes (indexPartPath track (st.spec.partOf seq).toNat) line
  touch (indexPartPath track (st.spec.partOf seq).toNat)

/-- The head that follows the line of a record. -/
def advanceHead (track : PyStr) (seq : ℤ) (record : Dict F) : StoreProg Unit := do
  let previous ← .try' () fun s => headKing s.dir track
  let king ← .ret (kingAfter record previous)
  st.writeHeadOf track seq record king

/-- `Store.append`. -/
def append (track : PyStr) (record : Dict F) : StoreProg ℤ :=
  match st.signer with
  | none => .raise .runtimeError
  | some signer => do
    let eventId ← .ret (item record (py "event_id"))
    let sha ← .try' () fun s => st.eventHash s.dir (eventPath track (strOf eventId))
    st.repairTail track
    let seq ← .try' () fun s => nextSeq F s.dir track
    let signed := (record.set (py "event_sha256") (.str sha)).set (py "seq") (.int seq)
    st.appendLine track signer seq signed
    st.advanceHead track seq signed
    pure seq

/-- `Store.rebuild_head`. -/
def rebuildHead (F : Type) [PyFloat F] [PyRepr F] (track : PyStr) : StoreProg (Json F) := do
  st.repairTail track
  let records ← .try' () fun s => s.dir.iterIndex (F := F) track
  let king ← .ret (foldKing .null records)
  match records.getLast? with
  | none => pure .null
  | some last =>
    let seq ← .ret (item last (py "seq") >>= st.intOf)
    st.writeHeadOf track seq last king
    .read () fun s => readJson (s.dir.node (headPath track))

end Store

end IcilOrchestrator
