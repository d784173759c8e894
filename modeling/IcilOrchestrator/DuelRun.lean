import Mathlib
import IcilOrchestrator.DuelRows
import IcilOrchestrator.Frames

/-!
# A run of a duel

`run` takes a duel from its request to what is decided of it : the submissions are fetched and
prepared, the prompts materialized, each side's units played, and the record published. What it
does is kept in the duel's run directory and in the store, so that a duel which is stopped goes on
where it was when it is run again.

What the benchmarks, the runtime, Docker, the clock and the disk answer is the `World`, which
anything may change between two acts. `Disk` is what only the duel's own runs write, and its `log`
the deeds of the run directory's runs, in order. A process may be killed, or an act raise, between
any two writes, each of which is whole.
-/

namespace IcilOrchestrator

open Python Prog

namespace DuelRun

variable {F : Type} [PyFloat F]

/-! ## The duel and the world -/

/-- A duel, by its units and by what the spec says of its track. -/
structure Duel where
  units : List UnitDef
  distinct : (units.map UnitDef.unitId).Nodup
  /-- Whether the track has a king. -/
  hasKing : Bool
  maxVoidFraction : ℚ
  scoreMargin : ℚ
  skills : List PyStr
  /-- `submission_tag` of a side's submission. -/
  tag : Side → PyStr

/-- `_sides`. -/
def Duel.sides (D : Duel) : List Side := if D.hasKing then [.challenger, .king] else [.challenger]

/-- `Outcome`, with the prompt that the benchmark says it read. -/
structure Outcome (F : Type) where
  success : Option Bool
  void : Bool
  steps : Option ℤ
  error : Option PyStr
  progress : Option F
  metric : Option F
  reported : Option PyStr

/-- `voided`. -/
def voided (reason : PyStr) : Outcome F := ⟨none, true, none, some reason, none, none, none⟩

/-- `failed`. -/
def failed (reason : PyStr) : Outcome F := ⟨some false, false, none, some reason, none, none, none⟩

/-- What the runtime raises. -/
inductive Trouble where
  /-- `SubmissionRefused`. -/
  | refused (step reason : PyStr)
  /-- `RuntimeUnavailable`. -/
  | unavailable

/-- `str` of a `SubmissionRefused`. -/
def refusedText (step reason : PyStr) : PyStr := step ++ py ": " ++ reason

/-- What a duel is run in. -/
structure World (F : Type) where
  fetch : Side → Option Trouble
  /-- The id of the image that `prepare` builds. -/
  prepare : Side → Except Trouble PyStr
  /-- `materialize_unit`. -/
  material : PyStr → Except PyStr Made
  /-- `_play`. -/
  play : Side → PyStr → Outcome F
  /-- The hash of a unit's prompt file, or why it cannot be read. -/
  file : PyStr → Except PyStr PyStr
  /-- The image that a tag names. -/
  tags : PyStr → PyStr
  /-- Whether the duel's deadline is past. -/
  late : Bool
  /-- Whether the side's deadline is past. -/
  sideLate : Bool
  /-- Whether the track's head names the king that the duel was asked against. -/
  kingHolds : Bool
  /-- Whether the next act raises. -/
  faulty : Bool

/-! ## What a duel leaves -/

/-- A record of the index, by what is scored. -/
structure IndexLine where
  kingScores : Score.Scores
  challengerScores : Option Score.Scores
  dethroned : Bool
  tally : Tally

/-- An event. -/
structure Event (F : Type) where
  line : IndexLine
  units : List (Row F)
  /-- The reason and the void fraction of `scoring`. -/
  reason : PyStr
  voidFraction : ℚ
  /-- The units' prompts, by their hashes. -/
  prompts : List (PyStr × PyStr)
  /-- The note of a king's forfeit. -/
  forfeit : Option PyStr
  /-- The `image` of each of `sides`. -/
  images : Side → Option PyStr

inductive Status where
  | published
  | refused
  | void
deriving DecidableEq

/-- `DuelResult`. -/
structure DuelResult (F : Type) where
  status : Status
  reason : PyStr
  record : Option IndexLine
  units : List (Row F)

/-- What a run of a duel has done. -/
inductive Deed (F : Type) where
  /-- A submission's image was built. -/
  | prepared (side : Side) (image : PyStr)
  | forfeited (reason : PyStr)
  /-- A unit's prompt was produced. -/
  | materialized (unitId : PyStr)
  /-- A line was written to the manifest. -/
  | prompted (p : Prompt)
  /-- A unit's prompt file was hashed. -/
  | hashed (unitId : PyStr) (file : Except PyStr PyStr)
  /-- A unit was played, in a container of an image. -/
  | played (side : Side) (unitId image : PyStr)
  /-- A line was written to a side's results. -/
  | recorded (side : Side) (r : Record F)

/-- The run directory of a duel, and what the store has of it. -/
structure Disk (F : Type) where
  manifest : List Prompt
  results : Side → List (Record F)
  forfeit : Option PyStr
  outcome : Option (DuelResult F)
  log : List (Deed F)
  event : Option (Event F)
  line : Option IndexLine

namespace Disk

/-- Nothing was run yet. -/
def fresh : Disk F := ⟨[], fun _ => [], none, none, [], none, none⟩

variable (d : Disk F)

/-- A deed is done. -/
def note (deed : Deed F) : Disk F := { d with log := d.log ++ [deed] }

/-- `_append`, of the manifest. -/
def prompt (p : Prompt) : Disk F := { d.note (.prompted p) with manifest := d.manifest ++ [p] }

/-- `_append`, of a side's results. -/
def record (side : Side) (r : Record F) : Disk F :=
  { d.note (.recorded side r) with
    results := Function.update d.results side (d.results side ++ [r]) }

/-- The king's forfeit is recorded. -/
def forfeits (reason : PyStr) : Disk F := { d.note (.forfeited reason) with forfeit := some reason }

/-- `move_aside`, of the run directory. -/
def moveAside : Disk F := { fresh with event := d.event, line := d.line }

end Disk

/-- A duel's run directory and store, in the world. -/
structure Bench (F : Type) where
  world : World F
  disk : Disk F

/-- The disk changes. -/
def Bench.on (s : Bench F) (f : Disk F → Disk F) : Bench F := { s with disk := f s.disk }

/-- The last of a unit's entries in a journal. -/
def lastOf {α : Type} (unitOf : α → PyStr) (xs : List α) (unitId : PyStr) : Option α :=
  xs.reverse.find? fun x => unitOf x = unitId

/-- `read_manifest`. -/
def Disk.promptOf (d : Disk F) : PyStr → Option Prompt := lastOf Prompt.unitId d.manifest

/-- `read_results`, by unit. -/
def Disk.recordOf (d : Disk F) (side : Side) : PyStr → Option (Record F) :=
  lastOf Record.unitId (d.results side)

/-- The values of `read_results` : a unit's last record, at the place of its first. -/
def readResults (rs : List (Record F)) : List (Record F) :=
  ((rs.map Record.unitId).reverse.dedup.reverse).filterMap (lastOf Record.unitId rs)

/-! ## Programs -/

inductive Raised where
  /-- `HarnessUnavailable`. -/
  | unavailable
  | crownMoved
  | crashed
deriving DecidableEq

/-- What an act is about. -/
inductive Tag where
  | nothing
  /-- A side's image is built. -/
  | prepares (side : Side)
  /-- The king's forfeit is recorded. -/
  | forfeits
  /-- A unit is played, by a side that was prepared with this image. -/
  | plays (side : Side) (image : Option PyStr)

abbrev RProg (F α : Type) := Prog (Bench F) Tag Raised α

/-- What the next act raises. -/
def Bench.fault (s : Bench F) : Option Raised := if s.world.faulty then some .crashed else none

/-- One act, or the exception it raises instead. -/
def act {α : Type} (t : Tag) (f : Bench F → Bench F) (g : Bench F → α) : RProg F α :=
  Prog.fallible Bench.fault (.act t f fun s => .ret (.ok (g s)))

def look {α : Type} (g : Bench F → α) : RProg F α := act .nothing id g

def put (f : Disk F → Disk F) : RProg F Unit := act .nothing (Bench.on · f) fun _ => ()

/-- A row is changed. -/
def update (unitId : PyStr) (f : Row F → Row F) (rows : List (Row F)) : RProg F (List (Row F)) :=
  match onRow unitId f rows with
  | some rows => pure rows
  | none => raise .crashed

/-! ### Fetching and preparing -/

/-- Why a side was refused. -/
abbrev Refused := Side → Option PyStr

/-- The loop that fetches. -/
def fetchAll : List Side → Refused → List Side → RProg F (Refused × List Side)
  | [], refused, fetched => pure (refused, fetched)
  | side :: sides, refused, fetched =>
    if (refused side).isSome then fetchAll sides refused fetched
    else do
      match ← look fun s => s.world.fetch side with
      | none => fetchAll sides refused (fetched ++ [side])
      | some .unavailable => raise .unavailable
      | some (.refused step reason) =>
        let refused := Function.update refused side (some (refusedText step reason))
        if side = .challenger then pure (refused, fetched) else fetchAll sides refused fetched

/-- `prepare`, of a side. -/
def prepare (D : Duel) (side : Side) : RProg F (Except Trouble PyStr) :=
  act (.prepares side)
    (fun s =>
      match s.world.prepare side with
      | .ok image =>
        { world := { s.world with tags := Function.update s.world.tags (D.tag side) image }
          disk := s.disk.note (.prepared side image) }
      | .error _ => s)
    fun s => s.world.prepare side

/-- The images that the sides were prepared with. -/
abbrev Images := Side → Option PyStr

/-- The loop that checks and prepares. -/
def checkAll (D : Duel) (fetched : List Side) :
    List Side → Refused → Images → RProg F (Refused × Images)
  | [], refused, images => pure (refused, images)
  | side :: sides, refused, images =>
    if (refused .challenger).isSome then pure (refused, images)
    else if (refused side).isSome ∨ side ∉ fetched then checkAll D fetched sides refused images
    else do
      match ← prepare D side with
      | .ok image => checkAll D fetched sides refused (Function.update images side (some image))
      | .error (.refused step reason) =>
        checkAll D fetched sides
          (Function.update refused side (some (refusedText step reason))) images
      | .error .unavailable => raise .unavailable

/-! ### Materializing -/

/-- `changed`, of the prompt's file as it is now. -/
def changed (p : Prompt) : RProg F (Option PyStr) :=
  if p.void then pure none
  else
    act .nothing (fun s => s.on (·.note (.hashed p.unitId (s.world.file p.unitId))))
      fun s => p.changed (s.world.file p.unitId)

/-- A prompt is appended to the manifest. -/
def prompted (p : Prompt) : RProg F Prompt := act .nothing (Bench.on · (·.prompt p)) fun _ => p

/-- `materialize_unit`, which writes the prompt's file. -/
def materializeUnit (unitId : PyStr) : RProg F Prompt :=
  act .nothing
    (fun s =>
      { world :=
          match s.world.material unitId with
          | .ok made =>
            { s.world with file := Function.update s.world.file unitId (.ok made.sha256) }
          | .error _ => s.world
        disk := s.disk.note (.materialized unitId) })
    fun s => ⟨unitId, s.world.material unitId⟩

/-- A unit's prompt, as the loop of `materialize_units` comes by it. -/
def promptFor (done : PyStr → Option Prompt) (unitId : PyStr) : RProg F Prompt :=
  match done unitId with
  | some p => do
    match ← changed p with
    | none => pure p
    | some reason => prompted ⟨unitId, .error (py "materialize: " ++ reason)⟩
  | none => do
    if ← look fun s => s.world.late then
      prompted ⟨unitId, .error (py "materialize: the duel ran out of its wall-clock budget")⟩
    else do
      let p ← materializeUnit unitId
      prompted p

/-- The loop of `materialize_units`, with `halts` for `stop`. -/
def materializeUnits (halts : List (Row F) → Bool) (done : PyStr → Option Prompt) :
    List UnitDef → List Prompt → List (Row F) → RProg F (List Prompt × List (Row F))
  | [], prompts, rows => pure (prompts, rows)
  | u :: us, prompts, rows =>
    if halts rows then pure (prompts, rows)
    else do
      let p ← promptFor done u.unitId
      let rows ← update u.unitId (Row.onPrompt p) rows
      materializeUnits halts done us (prompts ++ [p]) rows

/-! ### Playing -/

/-- A side as it plays : its prompts, why it was refused, the image it was prepared with, and the
units that are void on the other side. -/
structure Player where
  side : Side
  prompts : List Prompt
  refused : Option PyStr
  image : Option PyStr
  voidUnits : PyStr → Option PyStr

/-- What `_evaluate` gives `run_side`. -/
def playerOf (prompts : List Prompt) (forfeit : Option PyStr) (images : Side → Option PyStr)
    (side : Side) (voidUnits : PyStr → Option PyStr) : Player where
  side := side
  prompts := prompts
  refused := if side = .king then forfeit else none
  image := images side
  voidUnits := voidUnits

/-- `refused` of `run_side`. -/
def Player.refusal (P : Player) : Option PyStr :=
  if P.image.isNone then P.refused.or (some (py "the submission was not prepared")) else P.refused

/-- `_play`, in a container of the image that the submission's tag names. -/
def play (D : Duel) (P : Player) (unitId : PyStr) : RProg F (Outcome F) :=
  act (.plays P.side P.image)
    (fun s => s.on (·.note (.played P.side unitId (s.world.tags (D.tag P.side)))))
    fun s => s.world.play P.side unitId

/-- A unit that is played, from a prompt that must stay as it was recorded. -/
def playUnit (D : Duel) (P : Player) (p : Prompt) (made : Made) : RProg F (Outcome F) := do
  match ← changed p with
  | some reason => pure (voided (py "no prompt: " ++ reason))
  | none => do
    let outcome ← play D P p.unitId
    match ← changed p with
    | some reason => pure (voided (py "no prompt: " ++ reason ++ py " during the unit"))
    | none =>
      match outcome.reported with
      | none => pure outcome
      | some found =>
        if found = made.sha256 then pure outcome
        else pure (voided (py "no prompt: the benchmark read a prompt hashing to " ++
          found.take 12 ++ py "..., not the recorded " ++ made.sha256.take 12 ++ py "..."))

/-- What a unit comes to. -/
def outcomeOf (D : Duel) (P : Player) (unitId : PyStr) : RProg F (Outcome F) :=
  match P.prompts.find? (·.unitId = unitId) with
  | none => pure (voided (py "no prompt: no prompt was materialized"))
  | some p =>
    match p.made with
    | .error error => pure (voided (py "no prompt: " ++ error))
    | .ok made =>
      match P.voidUnits unitId, P.refusal with
      | some reason, _ => pure (voided (py "not played: " ++ reason))
      | none, some reason =>
        pure (failed (py "the " ++ P.side.text ++ py "'s submission was refused: " ++ reason))
      | none, none => do
        if ← look fun s => s.world.sideLate then
          pure (voided (py "the side ran out of its wall-clock budget"))
        else playUnit D P p made

/-- `unit_record`. -/
def unitRecord (P : Player) (unitId : PyStr) (outcome : Outcome F) : Record F where
  unitId := unitId
  success := outcome.success
  void := outcome.void
  steps := outcome.steps
  error := outcome.error
  progress := outcome.progress
  metric := outcome.metric
  promptSha256 := (P.prompts.find? (·.unitId = unitId)).bind Prompt.sha256

/-- The loop of `run_side`, with `halts` for `stop`. -/
def runSide (D : Duel) (halts : List (Row F) → Bool) (P : Player) (done : List (Record F)) :
    List UnitDef → List (Row F) → RProg F (List (Row F))
  | [], rows => pure rows
  | u :: us, rows =>
    if done.any (·.unitId = u.unitId) then runSide D halts P done us rows
    else if halts rows then pure rows
    else do
      let outcome ← outcomeOf D P u.unitId
      put (·.record P.side (unitRecord P u.unitId outcome))
      let rows ← update u.unitId (·.merge P.side (unitRecord P u.unitId outcome)) rows
      runSide D halts P done us rows

/-- What an earlier run finished is merged. -/
def mergeAll (side : Side) : List (Record F) → List (Row F) → RProg F (List (Row F))
  | [], rows => pure rows
  | r :: rs, rows => do
    let rows ← update r.unitId (·.merge side r) rows
    mergeAll side rs rows

/-- The units that are void on the other side. -/
def voidUnits (other : Side) (rs : List (Record F)) (unitId : PyStr) : Option PyStr :=
  (rs.find? fun r => r.unitId = unitId && r.void).map fun r =>
    py "void on the " ++ other.text ++ py "'s side: " ++ r.error.getD (py "None")

/-- `_evaluate`. -/
def evaluate (D : Duel) (halts : List (Row F) → Bool) (prompts : List Prompt)
    (forfeit : Option PyStr) (images : Images) (side : Side) (rows : List (Row F)) :
    RProg F (List (Row F)) := do
  let found ← look fun s => readResults (s.disk.results side)
  let rows ← mergeAll side found rows
  let others ← look fun s => readResults (s.disk.results side.other)
  let done ← look fun s => readResults (s.disk.results side)
  let P := playerOf prompts forfeit images side (voidUnits side.other others)
  runSide D halts P done D.units rows

/-! ### Publishing -/

/-- What is decided, in `outcome.json`. -/
def decided (r : DuelResult F) : RProg F (DuelResult F) :=
  act .nothing (Bench.on · fun d => { d with outcome := some r }) fun _ => r

/-- `_void`, of what the reason says. -/
def void (rows : List (Row F)) (reason : PyStr) : RProg F (DuelResult F) :=
  decided ⟨.void, reason, none, rows⟩

/-- `_refused`. -/
def refuse (rows : List (Row F)) (why : PyStr) : RProg F (DuelResult F) :=
  let reason := py "the challenger's submission was refused: " ++ why
  decided ⟨.refused, reason, none, rows.map fun row =>
    row.onCells .challenger fun cells => { cells with success := some false, error := some reason }⟩

/-- `_check_crown`. -/
def checkCrown : RProg F Unit := do
  if ← look fun s => s.world.kingHolds then pure ⟨⟩
  else do
    put Disk.moveAside
    raise .crownMoved

/-- What a verdict gives as its reason. -/
def reasonText : Score.Reason → PyStr
  | .marginMet => py "margin-met"
  | .shortOfMargin => py "short-of-margin"
  | .unscored => py "unscored"
  | .noUnits => py "no-units"

/-- `kind`. -/
def Duel.kind (D : Duel) : PyStr := if D.hasKing then py "duel" else py "genesis"

/-- The event of a duel that stands. -/
def eventOf (D : Duel) (rows : List (Row F)) (prompts : List Prompt) (forfeit : Option PyStr)
    (images : Images) : Event F :=
  if D.hasKing then
    let verdict := Score.verdict (rows.map Row.dict) D.scoreMargin D.skills
    { line := ⟨verdict.kingScores, some verdict.challengerScores, verdict.dethroned,
        unitTally (rows.map Row.dict)⟩
      units := rows
      reason := reasonText verdict.reason
      voidFraction := verdict.voidFraction
      prompts := published
      forfeit := forfeit.filter (· ≠ [])
      images }
  else
    let rows := rows.map Row.asKing
    { line := ⟨Score.skillScores (rows.map Row.dict) (py "king") D.skills, none, false,
        unitTally (rows.map Row.dict)⟩
      units := rows
      reason := py "genesis"
      voidFraction := Score.voidFraction (rows.map Row.dict)
      prompts := published
      forfeit := forfeit.filter (· ≠ [])
      images := fun side => if side = .king then images .challenger else none }
where
  /-- `manifest`. -/
  published : List (PyStr × PyStr) :=
    prompts.filterMap fun p => p.sha256.map fun sha => (p.unitId, sha)

/-- `_republished`. -/
def republished (D : Duel) (line : IndexLine) : RProg F (DuelResult F) := do
  let event ← look fun s => s.disk.event
  decided ⟨.published, (event.map Event.reason).getD D.kind, some line,
    (event.map Event.units).getD []⟩

/-- `_publish`. -/
def publish (D : Duel) (rows : List (Row F)) (prompts : List Prompt) (forfeit : Option PyStr)
    (images : Images) : RProg F (DuelResult F) := do
  match ← look fun s => s.disk.line with
  | some line => republished D line
  | none => do
    checkCrown
    let event := eventOf D rows prompts forfeit images
    put fun d => { d with event := some event }
    put fun d => { d with line := some event.line }
    decided ⟨.published, event.reason, some event.line, event.units⟩

/-! ### The whole run -/

/-- Both sides' units, with the checks after each side. -/
def evaluateAll (D : Duel) (halts : List (Row F) → Bool) (prompts : List Prompt)
    (forfeit : Option PyStr) (images : Images) :
    List Side → List (Row F) → RProg F (Option (DuelResult F) × List (Row F))
  | [], rows => pure (none, rows)
  | side :: sides, rows => do
    let rows ← evaluate D halts prompts forfeit images side rows
    if halts rows then do
      let result ← void rows (decimal (rows.countP Row.void) ++ py " of " ++ decimal rows.length ++
        py " units are void after the " ++ side.text ++ py "'s side")
      pure (some result, rows)
    else evaluateAll D halts prompts forfeit images sides rows

/-- `_run`, once the sides are prepared. -/
def materializeAndPlay (D : Duel) (halts : List (Row F) → Bool) (forfeit : Option PyStr)
    (images : Images) : RProg F (DuelResult F) := do
  let done ← look fun s => s.disk.promptOf
  let (prompts, rows) ← materializeUnits halts done D.units [] (D.units.map Row.ofUnit)
  if halts rows then
    void rows (decimal (prompts.countP Prompt.void) ++ py " of " ++ decimal rows.length ++
      py " prompts are void")
  else do
    match ← evaluateAll D halts prompts forfeit images D.sides rows with
    | (some result, _) => pure result
    | (none, rows) => publish D rows prompts forfeit images

/-- The forfeit that `forfeit.json` has, if the duel has a king. -/
def recordedForfeit (D : Duel) (d : Disk F) : Refused
  | .king => if D.hasKing then d.forfeit.filter (· ≠ []) else none
  | .challenger => none

/-- `_run`, with `next` for what comes once the sides are prepared. -/
def prepareAll (D : Duel) (next : Option PyStr → Images → RProg F (DuelResult F)) :
    RProg F (DuelResult F) := do
  let recorded ← look fun s => recordedForfeit D s.disk
  let (refused, fetched) ← fetchAll D.sides recorded []
  let (refused, images) ← checkAll D fetched D.sides refused fun _ => none
  match refused .challenger, refused .king with
  | some why, _ => refuse (D.units.map Row.ofUnit) why
  | none, none => next none images
  | none, some reason => do
    act .forfeits (Bench.on · (·.forfeits reason)) fun _ => ()
    next (some reason) images

/-- `_run`. -/
def runDuel (D : Duel) : RProg F (DuelResult F) :=
  prepareAll D (materializeAndPlay D (tooVoid D.maxVoidFraction))

/-- `run`. -/
def run (D : Duel) : RProg F (DuelResult F) := do
  match ← look fun s => s.disk.outcome with
  | some result => pure result
  | none => do
    match ← look fun s => s.disk.line with
    | some line => republished D line
    | none => do
      checkCrown
      runDuel D

/-! ## Runs -/

/-- A duel that is run again and again, by a process that may be killed. -/
def system (D : Duel) : System (Bench F) Tag Raised (DuelResult F) Unit where
  prog _ := run D
  starts _ _ := True
  mayDie _ := True
  reset s := s

/-- Anything may change the world, and nothing else the disk. -/
def others (meets : Tag → Bench F → Prop) : Env (Bench F) Tag where
  rely s s' := s'.disk = s.disk
  refl _ := rfl
  trans h h' := h'.trans h
  meets := meets

/-- A duel that was not run yet. -/
def Bench.Fresh (s : Bench F) : Prop := s.disk = .fresh

end DuelRun

end IcilOrchestrator
