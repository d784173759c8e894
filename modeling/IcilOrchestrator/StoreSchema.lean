import Mathlib
import IcilOrchestrator.Canon
import IcilOrchestrator.JsonSchema

/-!
# `store-schema.json`

The definitions of the store's schema that the verifier checks documents against, under
their names. `accepts ref` is the schema a `$ref` to `#/$defs/{ref}` stands for.
-/

namespace IcilOrchestrator.StoreSchema

open Python Schema

variable {F : Type} [PyFloat F]

/-! ## Texts and numbers -/

/-- `[0-9a-f]{n}`. -/
def hexDigits (n : ℕ) (s : PyStr) : Bool := s.length == n && s.all isHexLower

/-- `[a-z][a-z0-9_]*`. -/
def isSlug : PyStr → Bool
  | [] => false
  | c :: s => decide (97 ≤ c ∧ c ≤ 122) &&
    s.all fun x => decide (97 ≤ x ∧ x ≤ 122) || decide (48 ≤ x ∧ x ≤ 57) || x == 95

/-- `[A-Za-z0-9]`. -/
def isAlnum (c : ℕ) : Bool :=
  decide (65 ≤ c ∧ c ≤ 90) || decide (97 ≤ c ∧ c ≤ 122) || decide (48 ≤ c ∧ c ≤ 57)

/-- `[A-Za-z0-9][A-Za-z0-9._-]*`. -/
def isRepoName : PyStr → Bool
  | [] => false
  | c :: s => isAlnum c && s.all fun x => isAlnum x || x == 46 || x == 95 || x == 45

/-- Two names and a slash between them. -/
def isRepo (s : PyStr) : Bool :=
  s.contains 47 && isRepoName (s.takeWhile (· != 47)) && isRepoName (s.dropWhile (· != 47)).tail

def sha256 : Schema F := allOf [ofType .string, pattern (anchored (hexDigits 64))]

def hex64 : Schema F := allOf [ofType .string, pattern (anchored (hexDigits 64))]

def isoDate : Schema F := allOf [ofType .string, minLength 20]

def eventKind : Schema F :=
  allOf [ofType .string, enum [py "duel", py "genesis", py "succession", py "vacancy"]]

def outcome : Schema F := allOf [ofType .string, enum [py "challenger", py "king", py "tie"]]

def rate : Schema F := allOf [ofTypes [.number, .null], minimum 0, maximum 1]

def skill : Schema F := allOf [ofType .string, pattern (anchored isSlug)]

/-- `{"type": "integer", "minimum": m}`. -/
def integerFrom (m : ℤ) : Schema F := allOf [ofType .integer, minimum m]

def stringOrNull : Schema F := ofTypes [.string, .null]

/-! ## Records -/

def skillScores : Schema F :=
  allOf [ofType .object, required ["average"], property "average" rate,
    additionalProperties ["average"] rate]

def modelRef : Schema F :=
  allOf [ofType .object, required ["key", "repo", "revision"],
    property "key" (allOf [ofType .string, pattern (anchored (hexDigits 16))]),
    property "repo" (allOf [ofType .string, pattern (anchored isRepo)]),
    property "revision" (allOf [ofType .string, minLength 7])]

def prompt : Schema F :=
  allOf [ofType .object, required ["demo_id"], property "demo_id" (ofType .string),
    property "steps" (integerFrom 0), property "chunks" (integerFrom 0),
    property "view" stringOrNull, property "sha256" (orNull sha256)]

def unitVerdict : Schema F :=
  allOf [ofType .object,
    required ["unit_id", "skill", "index", "task", "instance", "seed", "instance_params",
      "prompt", "king_success", "challenger_success", "outcome", "void"],
    property "unit_id" (ofType .string), property "skill" skill,
    property "index" (integerFrom 0), property "task" (ofType .string),
    property "task_label" (ofType .string), property "instance" (integerFrom 0),
    property "seed" (integerFrom 0), property "instance_params" (ofType .object),
    property "prompt" prompt, property "demo_video" (orNull sha256),
    property "king_video" (orNull sha256), property "challenger_video" (orNull sha256),
    property "king_success" (ofTypes [.boolean, .null]),
    property "challenger_success" (ofTypes [.boolean, .null]), property "outcome" outcome,
    property "king_progress" rate, property "challenger_progress" rate,
    property "king_metric" (ofTypes [.number, .null]),
    property "challenger_metric" (ofTypes [.number, .null]),
    property "king_steps" (allOf [ofTypes [.integer, .null], minimum 0]),
    property "challenger_steps" (allOf [ofTypes [.integer, .null], minimum 0]),
    property "king_error" stringOrNull, property "challenger_error" stringOrNull,
    property "void" (ofType .boolean)]

def recordBase : Schema F :=
  allOf [ofType .object,
    required ["schema", "event_id", "kind", "track", "block", "finished_at", "king",
      "challenger", "king_scores", "challenger_scores", "score_margin", "dethroned", "new_king",
      "wins", "losses", "ties", "decided", "void", "media_count"],
    property "schema" (integerFrom 1), property "event_id" hex64, property "kind" eventKind,
    property "track" (ofType .string), property "block" (integerFrom 0),
    property "finished_at" isoDate, property "duel_size" stringOrNull,
    property "duel_id" (orNull hex64), property "king" (orNull modelRef),
    property "challenger" (orNull modelRef), property "king_scores" (orNull skillScores),
    property "challenger_scores" (orNull skillScores),
    property "score_margin" (allOf [ofType .number, minimum 0, maximum 100]),
    property "dethroned" (ofType .boolean), property "new_king" (orNull modelRef),
    property "wins" (integerFrom 0), property "losses" (integerFrom 0),
    property "ties" (integerFrom 0), property "decided" (integerFrom 0),
    property "void" (integerFrom 0), property "media_count" (integerFrom 0)]

def indexRecord : Schema F :=
  allOf [recordBase, ofType .object, required ["seq"], property "seq" (integerFrom 1),
    property "event_sha256" sha256]

def demonstration : Schema F :=
  allOf [ofType .object, property "view" (ofType .string),
    property "modalities" (allOf [ofType .array, items (ofType .string)]),
    property "withheld" (allOf [ofType .array, items (ofType .string)])]

def promptEntry : Schema F :=
  allOf [ofType .object, required ["unit_id", "sha256"], property "unit_id" (ofType .string),
    property "sha256" sha256, property "substituted_from" (ofType .string)]

def duelEvent : Schema F :=
  allOf [recordBase, ofType .object, required ["spec_version", "spec_fingerprint", "units"],
    property "spec_version" (ofType .integer), property "spec_fingerprint" sha256,
    property "units_per_skill" (integerFrom 0), property "started_at" isoDate,
    property "wall_seconds" (allOf [ofType .number, minimum 0]),
    property "sides" (ofType .object),
    property "units" (allOf [ofType .array, items unitVerdict]),
    property "notes" (allOf [ofType .array, items (ofType .string)]),
    property "demonstration" demonstration,
    property "prompts" (allOf [ofType .array, items promptEntry])]

/-! ## The other files -/

def head : Schema F :=
  allOf [ofType .object,
    required ["schema", "seq", "event_id", "block", "finished_at", "king"],
    property "schema" (ofType .integer), property "seq" (integerFrom 0),
    property "event_id" (ofType .string), property "block" (ofType .integer),
    property "finished_at" (ofType .string), property "king" (orNull modelRef)]

def manifest : Schema F :=
  allOf [ofType .object,
    required ["schema", "validator_key", "spec_version", "spec_fingerprint", "tracks"],
    property "schema" (ofType .integer), property "validator_key" hex64,
    property "spec_version" (ofType .integer), property "spec_fingerprint" sha256,
    property "tracks" (allOf [ofType .array, items (ofType .string)])]

def queueEntry : Schema F :=
  allOf [ofType .object,
    required ["position", "key", "repo", "revision", "commit_block", "duel_size",
      "skip_model_config_check"],
    property "position" (integerFrom 1), property "key" (ofType .string),
    property "repo" (ofType .string), property "revision" (ofType .string),
    property "commit_block" (ofType .integer), property "duel_size" stringOrNull,
    property "skip_model_config_check" (ofType .boolean),
    property "accepted_at" (ofType .string)]

def queueInProgress : Schema F :=
  allOf [ofType .object, required ["event_id", "challenger", "started_at"],
    property "event_id" (ofType .string), property "challenger" modelRef,
    property "started_at" (ofType .string)]

def queueSnapshot : Schema F :=
  allOf [ofType .object,
    required ["schema", "track", "block", "written_at", "king", "in_progress", "entries"],
    property "schema" (ofType .integer), property "track" (ofType .string),
    property "block" (ofType .integer), property "written_at" (ofType .string),
    property "king" (orNull modelRef), property "in_progress" (orNull queueInProgress),
    property "entries" (allOf [ofType .array, items queueEntry])]

/-- The schema under a name of `$defs`. -/
def accepts (ref : PyStr) : Schema F :=
  if ref = py "Manifest" then manifest
  else if ref = py "IndexRecord" then indexRecord
  else if ref = py "DuelEvent" then duelEvent
  else if ref = py "Head" then head
  else if ref = py "QueueSnapshot" then queueSnapshot
  else fun _ => false

end IcilOrchestrator.StoreSchema
