import Mathlib
import IcilOrchestrator.Ids
import IcilOrchestrator.JsonLoads
import IcilOrchestrator.Program
import IcilOrchestrator.Store

/-!
# The queue file

A queue file is JSON : the waiting entries, the duel in progress and the block counter, and
whatever else another version wrote. `load` is what a `Queue` makes of it and `save` what it
writes; an entry's fields may hold any value, since nothing checks their types.

A `Mutation` is a method that changes the queue, and `Mutation.body` what it does to the state
it has loaded, statement by statement. `Mutation.apply` is the mutation on its own, from one
file to the next.

`load_save` : a state of well-formed values is read back as it was saved, its dicts sorted.
-/

namespace IcilOrchestrator

open Python

variable {F : Type} [PyFloat F]

/-! ## `int` -/

/-- What Unicode says of a character : whether it is white space, and which decimal digit it
is. -/
class Unicode where
  isSpace : ℕ → Bool
  digit : ℕ → Option ℕ

/-- The digits of a literal, single underscores between them. -/
def intDigits [Unicode] : PyStr → Option (List ℕ)
  | [] => none
  | [c] => (Unicode.digit c).map ([·])
  | c :: d :: s =>
    match Unicode.digit c with
    | none => none
    | some n =>
      if d = 95 then (intDigits s).map (n :: ·) else (intDigits (d :: s)).map (n :: ·)

/-- `int` of a string. -/
def intOfStr [Unicode] (s : PyStr) : Option ℤ :=
  let t := ((s.dropWhile Unicode.isSpace).reverse.dropWhile Unicode.isSpace).reverse
  let neg : Bool := t.head? = some 45
  let t := if neg || t.head? = some 43 then t.tail else t
  match intDigits t with
  | none => none
  | some ds =>
    if ds.length ≤ maxStrDigits then
      let n : ℤ := ds.foldl (fun n d => n * 10 + d) 0
      some (if neg then -n else n)
    else none

/-- `int`. -/
def intOf [Unicode] : Json F → Except PyError ℤ
  | .int z => .ok z
  | .bool b => .ok (if b then 1 else 0)
  | .float x => .ok (if 0 ≤ PyFloat.val x then ⌊PyFloat.val x⌋ else ⌈PyFloat.val x⌉)
  | .inf _ => .error .overflowError
  | .nan => .error .valueError
  | .str s =>
    match intOfStr s with
    | some z => .ok z
    | none => .error .valueError
  | _ => .error .typeError

/-! ## The state of a queue -/

/-- `QueueEntry`. -/
structure QueueEntry (F : Type) where
  key : Json F
  repo : Json F
  revision : Json F
  commitBlock : Json F
  duelSize : Json F
  acceptedAt : Json F
  source : Json F

/-- `InProgress`. -/
structure InProgress (F : Type) where
  eventId : Json F
  challenger : Json F
  startedAt : Json F
  entry : Json F

/-- `QueueState`. -/
structure QueueState (F : Type) where
  entries : List (QueueEntry F)
  inProgress : Option (InProgress F)
  block : ℤ

/-- `asdict`. -/
def QueueEntry.asdict (e : QueueEntry F) : Dict F :=
  [(py "key", e.key), (py "repo", e.repo), (py "revision", e.revision),
    (py "commit_block", e.commitBlock), (py "duel_size", e.duelSize),
    (py "accepted_at", e.acceptedAt), (py "source", e.source)]

/-- `asdict`. -/
def InProgress.asdict (p : InProgress F) : Dict F :=
  [(py "event_id", p.eventId), (py "challenger", p.challenger), (py "started_at", p.startedAt),
    (py "entry", p.entry)]

/-- `QueueEntry(**fields)`, of the fields it has. -/
def QueueEntry.ofDict (d : Dict F) : Except PyError (QueueEntry F) :=
  match d.get? (py "key"), d.get? (py "repo"), d.get? (py "revision"), d.get? (py "commit_block"),
    d.get? (py "duel_size"), d.get? (py "accepted_at") with
  | some key, some repo, some revision, some commitBlock, some duelSize, some acceptedAt =>
    .ok ⟨key, repo, revision, commitBlock, duelSize, acceptedAt,
      (d.get? (py "source")).getD (.str [])⟩
  | _, _, _, _, _, _ => .error .typeError

/-- `InProgress(**fields)`, of the fields it has. -/
def InProgress.ofDict (d : Dict F) : Except PyError (InProgress F) :=
  match d.get? (py "event_id"), d.get? (py "challenger"), d.get? (py "started_at") with
  | some eventId, some challenger, some startedAt =>
    .ok ⟨eventId, challenger, startedAt, (d.get? (py "entry")).getD .null⟩
  | _, _, _ => .error .typeError

/-- `entry.ref.as_dict()`. -/
def QueueEntry.refDict (e : QueueEntry F) : Json F :=
  .obj [(py "key", e.key), (py "repo", e.repo), (py "revision", e.revision)]

/-- `ref.as_dict()`. -/
def SubmissionRef.asDict (r : SubmissionRef) : Json F :=
  .obj [(py "key", .str r.key), (py "repo", .str r.repo), (py "revision", .str r.revision)]

/-! ## The file -/

/-- The entries of a file : what iterating `doc.get("entries", [])` makes of it. -/
def entryOf : Json F → Except PyError (QueueEntry F)
  | .obj d => QueueEntry.ofDict d
  | _ => .error .attributeError

/-- `[QueueEntry(...) for e in entries]`. -/
def entriesOf : Json F → Except PyError (List (QueueEntry F))
  | .arr xs => xs.mapM entryOf
  | .obj d => if d.isEmpty then .ok [] else .error .attributeError
  | .str s => if s.isEmpty then .ok [] else .error .attributeError
  | _ => .error .typeError

/-- The duel in progress of a file. -/
def inProgressOf (j : Json F) : Except PyError (Option (InProgress F)) :=
  if j.truthy then
    match j with
    | .obj d => (InProgress.ofDict d).map some
    | _ => .error .attributeError
  else .ok none

/-- The state that a document holds. -/
def stateOf [Unicode] (d : Dict F) : Except PyError (QueueState F) :=
  match entriesOf ((d.get? (py "entries")).getD (.arr [])) with
  | .error e => .error e
  | .ok entries =>
    match inProgressOf (d.get (py "in_progress")) with
    | .error e => .error e
    | .ok inProgress =>
      match intOf ((d.get? (py "block")).getD (.int 0)) with
      | .error e => .error e
      | .ok block => .ok ⟨entries, inProgress, block⟩

/-- `_load`, of the file's bytes if there is one. -/
def load [Unicode] : Option Bytes → Except PyError (QueueState F)
  | none => stateOf []
  | some b =>
    match (decodeUtf8 b).bind (loads true) with
    | some (.obj d) => stateOf d
    | _ => .error .valueError

/-- What a queue is saved as. -/
def QueueState.doc (s : QueueState F) : Json F :=
  .obj [(py "entries", .arr (s.entries.map fun e => .obj e.asdict)),
    (py "in_progress",
      match s.inProgress with
      | some p => .obj p.asdict
      | none => .null),
    (py "block", .int s.block)]

/-- The bytes that `save` writes. -/
def save (s : QueueState F) : Except PyError Bytes :=
  match dumps indented true s.doc with
  | some t => .ok (encodeUtf8 (t ++ [10]))
  | none => .error .valueError

/-! ## Mutations -/

/-- A string that no two surrogates of are a pair : what JSON, a command line or the clock
gives. -/
structure Str where
  val : PyStr
  wf : StrWF val

/-- Every value of an entry is one that JSON denotes. -/
structure QueueEntry.WF (e : QueueEntry F) : Prop where
  key : e.key.WF
  repo : e.repo.WF
  revision : e.revision.WF
  commitBlock : e.commitBlock.WF
  duelSize : e.duelSize.WF
  acceptedAt : e.acceptedAt.WF
  source : e.source.WF

/-- A method that changes the queue, with `now` the time it stamps. -/
inductive Mutation (F : Type) where
  | add (repo revision : PyStr) (duelSize : Option Str) (source now : Str)
  | offer (repo revision : PyStr) (duelSize : Option Str) (source now : Str)
  | remove (key : PyStr)
  | pop
  | take (key : PyStr) (block : ℤ) (eventId now : Str)
  | putBack (fallback : Option (QueueEntry F)) (wf : ∀ e ∈ fallback, e.WF)
  | start (eventId : Str) (key repo revision : Str) (now : Str)
  | finish
  | claimBlock (floor : ℤ)
  | setBlock (block : ℤ)

/-- What a method returns. -/
inductive Answer (F : Type) where
  | nothing
  | entry (e : Option (QueueEntry F))
  | placed (e : QueueEntry F) (position : ℕ)
  | offered (e : QueueEntry F) (position : ℕ) (new : Bool)
  | removed (b : Bool)
  | block (z : ℤ)

/-- The statements of a method, on the state it has loaded. -/
abbrev Body (F α : Type) := Prog (QueueState F) Unit PyError α

/-- `e.key == key`. -/
def QueueEntry.hasKey (e : QueueEntry F) (key : Json F) : Bool := e.key.pyEq key

/-- The entries without those of a key. -/
def without (key : Json F) (es : List (QueueEntry F)) : List (QueueEntry F) :=
  es.filter fun e => !e.hasKey key

/-- A string, or `None`. -/
def ofOption : Option Str → Json F
  | none => .null
  | some s => .str s.val

/-- The entry of a submission that is queued now. -/
def entryFor (ref : SubmissionRef) (block : ℤ) (duelSize : Option Str) (source now : Str) :
    QueueEntry F :=
  ⟨.str ref.key, .str ref.repo, .str ref.revision, .int block, ofOption duelSize, .str now.val,
    .str source.val⟩

/-- `add`, once the submission is resolved. -/
def addBody (ref : SubmissionRef) (duelSize : Option Str) (source now : Str) : Body F (Answer F) := do
  .write () fun s => { s with entries := without (.str ref.key) s.entries }
  let entry ← .read () fun s => entryFor ref s.block duelSize source now
  .write () fun s => { s with entries := s.entries ++ [entry] }
  let position ← .read () fun s => s.entries.length
  pure (.placed entry position)

/-- `offer`, once the submission is resolved. -/
def offerBody (ref : SubmissionRef) (duelSize : Option Str) (source now : Str) : Body F (Answer F) := do
  let waiting ← .read () fun s => s.entries.findIdx? fun e => e.hasKey (.str ref.key)
  if waiting.isNone then
    .write () fun s =>
      { s with entries := s.entries ++ [entryFor ref s.block duelSize source now] }
  let index ← .read () fun s => waiting.getD (s.entries.length - 1)
  .try' () fun s =>
    match s.entries[index]? with
    | some e => .ok (.offered e (index + 1) waiting.isNone)
    | none => .error .keyError

/-- `remove`. -/
def removeBody (key : PyStr) : Body F (Answer F) := do
  let before ← .read () fun s => s.entries.length
  .write () fun s => { s with entries := without (.str key) s.entries }
  let removed ← .read () fun s => s.entries.length != before
  pure (.removed removed)

/-- `pop`. -/
def popBody : Body F (Answer F) :=
  .act () (fun s => { s with entries := s.entries.tail }) fun s =>
    .ret (.ok (.entry s.entries.head?))

/-- `take`. -/
def takeBody (key : PyStr) (block : ℤ) (eventId now : Str) : Body F (Answer F) := do
  let entry ← .read () fun s => s.entries.find? fun e => e.hasKey (.str key)
  match entry with
  | none => pure (.entry none)
  | some e =>
    .write () fun s => { s with entries := without (.str key) s.entries }
    .write () fun s => { s with block := max s.block block }
    .write () fun s =>
      { s with
        inProgress := some ⟨.str eventId.val, e.refDict, .str now.val, .obj e.asdict⟩ }
    pure (.entry (some e))

/-- The entry that `put_back` puts back. -/
def backEntry (fallback : Option (QueueEntry F)) (s : QueueState F) :
    Except PyError (Option (QueueEntry F)) :=
  match s.inProgress with
  | none => .ok none
  | some p =>
    if p.entry.truthy then (entryOf p.entry).map some else .ok fallback

/-- `put_back`. -/
def putBackBody (fallback : Option (QueueEntry F)) : Body F (Answer F) := do
  let entry ← .try' () (backEntry fallback)
  match entry with
  | none => pure ⟨⟩
  | some e => .write () fun s => { s with entries := e :: without e.key s.entries }
  .write () fun s => { s with inProgress := none }
  pure (.entry entry)

/-- `start`. -/
def startBody (eventId : Str) (ref : SubmissionRef) (now : Str) : Body F (Answer F) := do
  .write () fun s =>
    { s with inProgress := some ⟨.str eventId.val, ref.asDict, .str now.val, .null⟩ }
  pure .nothing

/-- `finish`. -/
def finishBody : Body F (Answer F) := do
  .write () fun s => { s with inProgress := none }
  pure .nothing

/-- `claim_block`. -/
def claimBlockBody (floor : ℤ) : Body F (Answer F) := do
  .write () fun s => { s with block := max s.block floor + 1 }
  let block ← .read () fun s => s.block
  pure (.block block)

/-- `set_block`. -/
def setBlockBody (block : ℤ) : Body F (Answer F) := do
  .write () fun s => { s with block := block }
  pure (.block block)

/-- What a method does with the state it loads, where it gets so far. -/
def Mutation.body (c : Crypto) : Mutation F → Except PyError (Body F (Answer F))
  | .add repo revision duelSize source now =>
    match SubmissionRef.resolved c repo revision with
    | some ref => .ok (addBody ref duelSize source now)
    | none => .error .valueError
  | .offer repo revision duelSize source now =>
    match SubmissionRef.resolved c repo revision with
    | some ref => .ok (offerBody ref duelSize source now)
    | none => .error .valueError
  | .remove key => .ok (removeBody key)
  | .pop => .ok popBody
  | .take key block eventId now => .ok (takeBody key block eventId now)
  | .putBack fallback _ => .ok (putBackBody fallback)
  | .start eventId key repo revision now =>
    .ok (startBody eventId ⟨key.val, repo.val, revision.val⟩ now)
  | .finish => .ok finishBody
  | .claimBlock floor => .ok (claimBlockBody floor)
  | .setBlock block => .ok (setBlockBody block)

/-- A body run on the state of a file : the file it saves, and what it returns. -/
def applyBody [Unicode] (b : Body F (Answer F)) (file : Option Bytes) :
    Except PyError (Option Bytes × Answer F) :=
  match load file with
  | .error e => .error e
  | .ok s =>
    match b.exec s with
    | (.error e, _) => .error e
    | (.ok a, t) =>
      match save t with
      | .error e => .error e
      | .ok data => .ok (some data, a)

/-- A mutation on its own. -/
def Mutation.apply [Unicode] (c : Crypto) (m : Mutation F) (file : Option Bytes) :
    Except PyError (Option Bytes × Answer F) :=
  match m.body c with
  | .error e => .error e
  | .ok b => applyBody b file

/-! ## Texts to evaluate with -/

namespace Ascii

/-- The characters of ASCII. -/
scoped instance : Unicode where
  isSpace c := c == 32
  digit c := if 48 ≤ c ∧ c ≤ 57 then some (c - 48) else none

/-- Every value but a string has no text. -/
scoped instance : PyRepr Tenths := ⟨fun _ => []⟩

end Ascii

end IcilOrchestrator
