import Mathlib
import IcilOrchestrator.Canon

/-!
# The store and its files

A store is a directory (`Dir`) : what the file system answers for a path, given by the
components it is built from, and the names two of its folders list. A component comes
from the spec, or from the contents of the store : an event id or a clip's name, which
may be any text. So a path may name nothing, a folder or a file, and a look-up may be
refused with an error that is not "not found", as for a name too long (`Node`).

The paths are those of `Store`, under its names. `kingAfter` is `king_after`, the crown
that records give one after another, with Python's exception for the kind that cannot be
hashed (`kingAfter_eq_error_iff`); for the four kinds of the schema the crown never
depends on who held it before (`kingAfter_of_crowns`). `unitTally` and `mediaShas` are
what a record counts of its event's units.
-/

namespace IcilOrchestrator

open Python

/-- What a call that raises, raises. -/
inductive PyError where
  | typeError
  | valueError
  | attributeError
  | keyError
  | osError
  | runtimeError
  | overflowError
deriving DecidableEq

/-- Python's `repr` of a value, beyond the strings. -/
class PyRepr (F : Type) where
  repr : Json F → PyStr

variable {F : Type}

/-- `str(x)`. -/
def strOf [PyRepr F] : Json F → PyStr
  | .str s => s
  | j => PyRepr.repr j

/-! ## Files -/

/-- What the file system answers for a path. -/
inductive Node where
  /-- An error other than "not found" : the name is too long. -/
  | refused
  | missing
  | folder
  | file (data : Bytes)
deriving DecidableEq

namespace Node

/-- `Path.exists()`. -/
def exists? : Node → Except PyError Bool
  | .refused => .error .osError
  | .missing => .ok false
  | _ => .ok true

/-- `Path.is_file()`. -/
def isFile : Node → Except PyError Bool
  | .refused => .error .osError
  | .file _ => .ok true
  | _ => .ok false

/-- `Path.read_bytes()`. -/
def readBytes : Node → Except PyError Bytes
  | .file data => .ok data
  | _ => .error .osError

@[simp] theorem exists?_file (data : Bytes) : (file data).exists? = .ok true := rfl
@[simp] theorem exists?_missing : missing.exists? = .ok false := rfl
@[simp] theorem isFile_file (data : Bytes) : (file data).isFile = .ok true := rfl
@[simp] theorem readBytes_file (data : Bytes) : (file data).readBytes = .ok data := rfl

end Node

/-- `{n:04d}`. -/
def pad4 (n : ℕ) : PyStr := List.replicate (4 - (decimal n).length) 48 ++ decimal n

/-- The parts of `spec.json` that the store is laid out by. -/
structure Spec where
  fingerprint : PyStr
  tracks : List PyStr
  videoFormat : PyStr
  /-- `store.schema`. -/
  schema : ℤ
  indexLinesPerPart : ℕ
  mediaBucketHex : ℕ
  version : ℤ

/-- A path in the store, by its components. -/
abbrev Path := List PyStr

def trackDir (track : PyStr) : Path := [py "tracks", track]

def indexPartPath (track : PyStr) (part : ℕ) : Path :=
  trackDir track ++ [py "index-" ++ pad4 part ++ py ".jsonl"]

def headPath (track : PyStr) : Path := trackDir track ++ [py "head.json"]

def queuePath (track : PyStr) : Path := trackDir track ++ [py "queue.json"]

def eventPath (track eventId : PyStr) : Path := [py "events", track, eventId ++ py ".json"]

def manifestPath : Path := [py "manifest.json"]

namespace Spec

variable (spec : Spec)

def mediaPath (sha ext : PyStr) : Path :=
  [py "media", sha.take spec.mediaBucketHex, sha ++ 46 :: ext]

/-- The lines of a part, at least one. -/
def per : ℕ := max 1 spec.indexLinesPerPart

/-- `Store.part_of`. -/
def partOf (seq : ℤ) : ℤ := (seq - 1) / spec.per

theorem per_pos : 0 < spec.per := by simp [per]

end Spec

/-- A store on disk. A folder holds finitely many files, so the index has finitely many parts. -/
structure Dir where
  node : Path → Node
  /-- The names in a folder of the root ; none when there is no such folder. -/
  listing : PyStr → Option (List PyStr)
  parts : ℕ
  finite : ∀ track part, parts ≤ part → node (indexPartPath track part) = .missing

/-- Zeros before a number are no matter. -/
theorem digitsVal_zeros (k : ℕ) (ds : PyStr) :
    digitsVal (List.replicate k 48 ++ ds) = digitsVal ds := by
  induction k with
  | zero => rfl
  | succ k ih =>
    rw [List.replicate_succ, List.cons_append]
    simpa [digitsVal] using ih

theorem digitsVal_pad4 (n : ℕ) : digitsVal (pad4 n) = n := by
  rw [pad4, digitsVal_zeros, digitsVal_decimal]

/-- Two parts have two paths. -/
theorem indexPartPath_inj {track track' : PyStr} {part part' : ℕ} :
    indexPartPath track part = indexPartPath track' part' ↔ track = track' ∧ part = part' := by
  constructor
  · intro h
    simp only [indexPartPath, trackDir, List.cons_append, List.nil_append, List.cons.injEq,
      true_and, and_true, List.append_assoc, List.append_cancel_left_eq,
      List.append_cancel_right_eq] at h
    obtain ⟨ht, hp⟩ := h
    refine ⟨ht, ?_⟩
    rw [← digitsVal_pad4 part, hp, digitsVal_pad4]
  · rintro ⟨rfl, rfl⟩
    rfl

/-- No path of a track's folder but the index parts is one of them. -/
theorem indexPartPath_ne {track track' : PyStr} {part : ℕ} {name : String}
    (h : (py name).head? ≠ some 105) : indexPartPath track part ≠ trackDir track' ++ [py name] := by
  intro heq
  simp only [indexPartPath, trackDir, List.cons_append, List.nil_append, List.cons.injEq,
    true_and, and_true] at heq
  refine h ?_
  rw [← heq.2, List.append_assoc, show py "index-" = [105, 110, 100, 101, 120, 45] by decide]
  rfl

/-- A store of the files of a list, and nothing else but its folders. -/
def Dir.ofFiles (files : List (Path × Bytes)) (folders : PyStr → Option (List PyStr)) (parts : ℕ)
    (h : ∀ track part, parts ≤ part → files.lookup (indexPartPath track part) = none) : Dir where
  node p := ((files.lookup p).map Node.file).getD .missing
  listing := folders
  parts := parts
  finite := fun track part hp => by rw [h track part hp]; rfl

theorem Dir.ofFiles_node {files : List (Path × Bytes)} {folders : PyStr → Option (List PyStr)}
    {parts : ℕ} {h} (p : Path) : (Dir.ofFiles files folders parts h).node p = .missing ∨
      ∃ data, (Dir.ofFiles files folders parts h).node p = .file data := by
  simp only [Dir.ofFiles]
  cases files.lookup p <;> simp

theorem Dir.ofFiles_ne_refused {files : List (Path × Bytes)}
    {folders : PyStr → Option (List PyStr)} {parts : ℕ} {h} (p : Path) :
    (Dir.ofFiles files folders parts h).node p ≠ .refused := by
  simp only [Dir.ofFiles]
  cases files.lookup p <;> simp

/-! ## The crown -/

/-- `CROWNING`. -/
def crowning : List PyStr := [py "duel", py "genesis", py "succession"]

/-- `x in CROWNING` : membership in a frozenset hashes `x` first. -/
def inCrowning : Json F → Except PyError Bool
  | .str s => .ok (crowning.contains s)
  | j => if j.hashable then .ok false else .error .typeError

/-- `x == text`. -/
def isStr (x : Json F) (text : String) : Bool :=
  match x with
  | .str s => s == py text
  | _ => false

/-- `isinstance(x, int)`, with the number ; a `bool` is one. -/
def asInt? : Json F → Option ℤ
  | .int z => some z
  | .bool b => some (if b then 1 else 0)
  | _ => none

variable [PyFloat F]

/-- `king_after`. -/
def kingAfter (record : Dict F) (previous : Json F) : Except PyError (Json F) := do
  let kind := record.get (py "kind")
  let crowns ← if (record.get (py "new_king")).truthy then inCrowning kind else pure false
  if crowns then pure (record.get (py "new_king"))
  else if isStr kind "genesis" || isStr kind "succession" then pure (record.get (py "king"))
  else if isStr kind "vacancy" then pure .null
  else if isStr kind "duel" then
    pure (if (record.get (py "dethroned")).truthy then record.get (py "new_king")
      else record.get (py "king"))
  else pure previous

/-- The crown after records, one after another. -/
def foldKing (king : Json F) : List (Dict F) → Except PyError (Json F)
  | [] => .ok king
  | r :: rs => do foldKing (← kingAfter r king) rs

theorem foldKing_append (king : Json F) (rs ts : List (Dict F)) :
    foldKing king (rs ++ ts) = (foldKing king rs).bind fun k => foldKing k ts := by
  induction rs generalizing king with
  | nil => rfl
  | cons r rs ih =>
    simp only [List.cons_append, foldKing, ih]
    cases kingAfter r king <;> rfl

/-- `king_after` raises exactly at a crown whose kind cannot be hashed. -/
theorem kingAfter_eq_error_iff (record : Dict F) (previous : Json F) :
    (∃ e, kingAfter record previous = .error e) ↔
      (record.get (py "new_king")).truthy ∧ (record.get (py "kind")).hashable = false := by
  unfold kingAfter
  by_cases hn : (record.get (py "new_king")).truthy
  · cases hk : record.get (py "kind")
    all_goals
      simp only [hn, inCrowning, Json.hashable, if_true, true_and]
      first
        | (simp [bind, Except.bind]; done)
        | (simp only [bind, Except.bind]
           split_ifs <;> simp [pure, Except.pure])
  · simp only [hn, Bool.false_eq_true, if_false, false_and, iff_false]
    simp only [bind, Except.bind, pure, Except.pure]
    split_ifs <;> simp

/-- The kinds of the schema, which all decide the crown. -/
def crowns (kind : Json F) : Bool :=
  isStr kind "duel" || isStr kind "genesis" || isStr kind "succession" || isStr kind "vacancy"

omit [PyFloat F] in
theorem crowns_iff {kind : Json F} : crowns kind ↔ kind = .str (py "duel") ∨
    kind = .str (py "genesis") ∨ kind = .str (py "succession") ∨ kind = .str (py "vacancy") := by
  cases kind <;> simp [crowns, isStr, or_assoc]

/-- The crown that a record of one of the four kinds gives. -/
def crownOf (record : Dict F) : Json F :=
  if isStr (record.get (py "kind")) "vacancy" then .null
  else if (record.get (py "new_king")).truthy then record.get (py "new_king")
  else if isStr (record.get (py "kind")) "duel" && (record.get (py "dethroned")).truthy then
    record.get (py "new_king")
  else record.get (py "king")

/-- Of the four kinds, the crown is the record's own, whoever held it before. -/
theorem kingAfter_of_crowns {record : Dict F} (h : crowns (record.get (py "kind")))
    (previous : Json F) : kingAfter record previous = .ok (crownOf record) := by
  unfold kingAfter crownOf
  rcases crowns_iff.1 h with hk | hk | hk | hk <;>
    by_cases hn : (record.get (py "new_king")).truthy <;>
    simp [hk, hn, inCrowning, crowning, isStr, bind, Except.bind, pure, Except.pure]

/-! ## What a record counts -/

/-- The counts of `unit_tally`. -/
structure Tally where
  wins : ℕ
  losses : ℕ
  ties : ℕ
  void : ℕ
deriving DecidableEq

namespace Tally

/-- The counts under their names, with `decided`. -/
def items (t : Tally) : List (PyStr × ℕ) :=
  [(py "wins", t.wins), (py "losses", t.losses), (py "ties", t.ties),
    (py "decided", t.wins + t.losses), (py "void", t.void)]

/-- One more unit. -/
def add (t : Tally) (u : Dict F) : Tally :=
  if (u.get (py "void")).truthy then { t with void := t.void + 1 }
  else if isStr (u.get (py "outcome")) "challenger" then { t with wins := t.wins + 1 }
  else if isStr (u.get (py "outcome")) "king" then { t with losses := t.losses + 1 }
  else { t with ties := t.ties + 1 }

end Tally

/-- `unit_tally`. -/
def unitTally (units : List (Dict F)) : Tally := units.foldl Tally.add ⟨0, 0, 0, 0⟩

/-- The fields of a unit that name a clip. -/
def clipKeys : List PyStr := [py "demo_video", py "king_video", py "challenger_video"]

omit [PyFloat F] in
/-- The clips one unit names. -/
def unitClips (u : Dict F) : List PyStr :=
  clipKeys.filterMap fun k =>
    match u.get k with
    | .str [] => none
    | .str s => some s
    | _ => none

/-- `media_shas`. -/
def mediaShas (units : List (Dict F)) : List PyStr :=
  ((units.flatMap unitClips).dedup).insertionSort fun s t => strLe s t = true

omit [PyFloat F] in
theorem mem_mediaShas {units : List (Dict F)} {sha : PyStr} :
    sha ∈ mediaShas units ↔ ∃ u ∈ units, sha ∈ unitClips u := by
  simp [mediaShas, List.mem_dedup]

/-! ## Records in sequence -/

/-- Records that number themselves from `seq` on. -/
def InSequence : ℤ → List (Dict F) → Prop
  | _, [] => True
  | seq, r :: rs => r.get (py "seq") = .int seq ∧ InSequence (seq + 1) rs

omit [PyFloat F] in
theorem inSequence_append {seq : ℤ} {rs ts : List (Dict F)} :
    InSequence seq (rs ++ ts) ↔ InSequence seq rs ∧ InSequence (seq + rs.length) ts := by
  induction rs generalizing seq with
  | nil => simp [InSequence]
  | cons r rs ih =>
    simp only [List.cons_append, InSequence, ih, and_assoc, List.length_cons, Nat.cast_add,
      Nat.cast_one]
    rw [show seq + 1 + (rs.length : ℤ) = seq + (rs.length + 1) by ring]

omit [PyFloat F] in
theorem InSequence.get {seq : ℤ} {rs : List (Dict F)} (h : InSequence seq rs) {i : ℕ}
    {r : Dict F} (hr : rs[i]? = some r) : r.get (py "seq") = .int (seq + i) := by
  induction rs generalizing seq i with
  | nil => simp at hr
  | cons x rs ih =>
    cases i with
    | zero =>
      obtain rfl : x = r := by simpa using hr
      simpa using h.1
    | succ i =>
      rw [ih h.2 (by simpa using hr)]
      congr 1
      push_cast
      ring

/-! ## Documents -/

/-- `parse_json_bytes` : the document, or why there is none. A document nested past what the
interpreter follows is unparsable in the same way. -/
def parseJsonBytes (data : Bytes) : Except PyStr (Json F) :=
  match decodeUtf8 data with
  | none => .error (py "not UTF-8")
  | some text =>
    match loads false text with
    | some j => .ok j
    | none => .error (py "unparsable")

/-- `read_json_file`. -/
def readJsonFile (n : Node) : Except PyStr (Json F) :=
  match n with
  | .missing => .error (py "missing")
  | .refused => .error (py "unreadable")
  | .folder => .error (py "unreadable")
  | .file data => parseJsonBytes data

end IcilOrchestrator
