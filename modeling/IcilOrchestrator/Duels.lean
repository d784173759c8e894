import Mathlib
import IcilOrchestrator.Ids
import IcilOrchestrator.Frames

/-!
# Duels by hand and by the daemon

The daemon and the `duel` command number the duels of one track from one counter, and run them in
one directory of runs. Each holds the store's lock, so one command runs at a time; others change
only the queue's entries. A run directory is what says whose a block is : `holds_request` compares
its `request.json`, and `outcome.json` is what was decided.

Publishing writes the event, a line of the index and the head, one after another, and then the
outcome. A process may be killed, or an act raise, between any two writes.

Beside what is on disk, `Host.given` is which duel each block was handed out to, `Host.hand` what
each `duel` command ran, with what it found, and `Host.owed` the submissions that were queued and
are to be dueled yet.
-/

namespace IcilOrchestrator

open Python Prog

namespace Duels

/-! ## Requests -/

/-- What the spec says of one track. -/
structure Contract where
  version : ℕ
  track : PyStr
  /-- The names of the sizes that the track's duels may have. -/
  sizes : List PyStr
  defaultSize : PyStr
  /-- The baseline, by its repository and revision. -/
  baseline : Option (PyStr × PyStr)

/-- `spec.size_of`. -/
def Contract.sizeOf (S : Contract) (size : Option PyStr) : PyStr :=
  match size with
  | some s => if s ∈ S.sizes then s else S.defaultSize
  | none => S.defaultSize

/-- A `DuelRequest` on the track. -/
structure DuelRequest where
  challenger : SubmissionRef
  king : Option SubmissionRef
  size : Option PyStr
  block : ℤ
deriving DecidableEq

/-- What `request.json` holds, but for `started_at`. -/
structure RequestDoc where
  track : PyStr
  kind : PyStr
  challenger : SubmissionRef
  king : Option SubmissionRef
  size : PyStr
  block : ℤ
  duelId : PyStr
  eventId : PyStr
deriving DecidableEq

namespace DuelRequest

variable (c : Crypto) (S : Contract) (req : DuelRequest)

/-- `kind`. -/
def kind : PyStr := if req.king.isSome then py "duel" else py "genesis"

/-- `duel_id`. -/
def duelId : PyStr := IcilOrchestrator.duelId c S.version S.track req.challenger req.king

/-- `event_id`. -/
def eventId : PyStr := eventIdOf c req.kind S.track req.block (req.duelId c S)

/-- `as_dict`. -/
def asDict : RequestDoc where
  track := S.track
  kind := req.kind
  challenger := req.challenger
  king := req.king
  size := S.sizeOf req.size
  block := req.block
  duelId := req.duelId c S
  eventId := req.eventId c S

/-- `from_dict`. -/
def fromDict (doc : RequestDoc) : DuelRequest := ⟨doc.challenger, doc.king, some doc.size, doc.block⟩

/-- The name of a request's run directory. -/
def runDir : PyStr := (req.eventId c S).take 16

end DuelRequest

/-! ## The queue -/

/-- A `QueueEntry`, by what a duel is made of. -/
structure Entry where
  ref : SubmissionRef
  duelSize : Option PyStr

/-- `InProgress`. -/
structure Mark where
  eventId : PyStr
  entry : Option Entry

/-- `QueueState`. -/
structure Queue where
  entries : List Entry
  inProgress : Option Mark
  block : ℤ

namespace Queue

variable (q : Queue)

/-- The entries of other keys. -/
def without (key : PyStr) : List Entry := q.entries.filter (·.ref.key ≠ key)

/-- A submission waits in the queue. -/
def has (key : PyStr) : Bool := q.entries.any (·.ref.key = key)

/-- A submission's duel is in progress. -/
def duels (key : PyStr) : Bool := (q.inProgress.bind Mark.entry).any (·.ref.key = key)

/-- `add`. -/
def add (e : Entry) : Queue := { q with entries := q.without e.ref.key ++ [e] }

/-- `offer`. -/
def offer (e : Entry) : Queue :=
  if q.has e.ref.key then q else { q with entries := q.entries ++ [e] }

/-- `remove`. -/
def remove (key : PyStr) : Queue := { q with entries := q.without key }

/-- The entry that `take` takes. -/
def taken (key : PyStr) : Option Entry := q.entries.find? (·.ref.key = key)

/-- `take`. -/
def take (key : PyStr) (block : ℤ) (eventId : PyStr) : Queue :=
  match q.taken key with
  | some e => ⟨q.without key, some ⟨eventId, some e⟩, max q.block block⟩
  | none => q

/-- `put_back`. -/
def putBack (fallback : Option Entry) : Queue :=
  match q.inProgress.bind fun m => m.entry.or fallback with
  | some e => ⟨e :: q.without e.ref.key, none, q.block⟩
  | none => { q with inProgress := none }

/-- `start`. -/
def start (eventId : PyStr) : Queue := { q with inProgress := some ⟨eventId, none⟩ }

/-- `finish`. -/
def finish : Queue := { q with inProgress := none }

/-- `set_block`. -/
def setBlock (block : ℤ) : Queue := { q with block }

/-- The block that `claim_block` returns. -/
def claimed (floor : ℤ) : ℤ := max q.block floor + 1

/-- `claim_block`. -/
def claimBlock (floor : ℤ) : Queue := { q with block := q.claimed floor }

end Queue

/-! ## The host -/

/-- A record of the index. -/
structure Record where
  seq : ℕ
  eventId : PyStr
  kind : PyStr
  block : ℤ
  king : Option SubmissionRef
  challenger : Option SubmissionRef
  dethroned : Bool
  newKing : Option SubmissionRef
  /-- Its other fields : when it finished, the scores and the tally. -/
  rest : PyStr
  /-- Only a line of the index has it. -/
  eventSha256 : Option PyStr
deriving DecidableEq

/-- `king_after`. -/
def kingAfter (previous : Option SubmissionRef) (r : Record) : Option SubmissionRef :=
  if r.newKing.isSome && r.kind ∈ [py "duel", py "genesis", py "succession"] then r.newKing
  else if r.kind = py "genesis" ∨ r.kind = py "succession" then r.king
  else if r.kind = py "vacancy" then none
  else if r.kind = py "duel" then if r.dethroned then r.newKing else r.king
  else previous

/-- `iter_index`. -/
def iterIndex (index : List Record) : List Record :=
  index.insertionSort fun r r' => r.seq ≤ r'.seq

/-- `next_seq`. -/
def nextSeq (index : List Record) : ℕ := (index.getLast?.map fun r => r.seq + 1).getD 1

/-- The track's head, of no king and block 0 where there is none. -/
structure Head where
  seq : ℕ
  eventId : PyStr
  block : ℤ
  king : Option SubmissionRef
deriving DecidableEq

/-- What a duel was decided as. -/
inductive Status where
  | published
  | refused
  | void
deriving DecidableEq

/-- `DuelResult`, but for the units and the reason. -/
structure DuelResult where
  status : Status
  kind : PyStr
  eventId : PyStr
  duelId : PyStr
  record : Option Record
deriving DecidableEq

/-- A run directory : what was asked, and what was decided. -/
structure RunDir where
  request : Option RequestDoc
  outcome : Option DuelResult
deriving DecidableEq

/-- A run directory that is not there. -/
def RunDir.empty : RunDir := ⟨none, none⟩

/-- What playing a duel comes to. -/
inductive Fate where
  /-- `HarnessUnavailable`. -/
  | unavailable
  /-- `DuelFailed`. -/
  | failed
  | crashes
  | refused
  | void
  /-- The challenger dethrones the king or not; with the event, and the record's other fields. -/
  | stands (dethroned : Bool) (event : Bytes) (rest : PyStr)

inductive Raised where
  | unavailable
  | failed
  | crownMoved
  | crashed
deriving DecidableEq

/-- What a `duel` command runs, and what it found. -/
structure HandRun where
  request : DuelRequest
  /-- The queue's counter. -/
  counter : ℤ
  headBlock : ℤ
  given : List RequestDoc
  /-- What its run directory says was decided. -/
  decided : Option DuelResult

/-- What the daemon and the `duel` command of a track work on. -/
structure Host where
  queue : Queue
  dirs : PyStr → RunDir
  /-- The event files. -/
  events : PyStr → Option Bytes
  /-- The lines of the index. -/
  index : List Record
  head : Head
  /-- Whether the track's benchmarks are ready. -/
  ready : Bool
  fate : Fate
  /-- Whether the next act raises. -/
  faulty : Bool
  /-- Whether the track is one that the daemon no longer tries. -/
  stalled : Bool
  /-- The duels that blocks were handed out to. -/
  given : List RequestDoc
  hand : List HandRun
  /-- The submissions that were queued and not removed, and whose duels are not over. -/
  owed : List PyStr

namespace Host

/-- What the next act raises. -/
def fault (h : Host) : Option Raised := if h.faulty then some .crashed else none

def setDir (h : Host) (dir : PyStr) (d : RunDir) : Host :=
  { h with dirs := Function.update h.dirs dir d }

/-- `holds_request`. -/
def holdsRequest (c : Crypto) (S : Contract) (req : DuelRequest) (h : Host) : Bool :=
  (h.dirs (req.runDir c S)).request = some (req.asDict c S)

/-- What was decided of the request that a run directory holds. -/
def decided (c : Crypto) (S : Contract) (req : DuelRequest) (h : Host) : Option DuelResult :=
  if h.holdsRequest c S req then (h.dirs (req.runDir c S)).outcome else none

/-- The queue changes. -/
def change (h : Host) (f : Queue → Queue) : Host := { h with queue := f h.queue }

/-- A submission is owed no duel any more. -/
def settle (h : Host) (key : PyStr) : Host := { h with owed := h.owed.filter (· ≠ key) }

/-- A submission is queued. -/
def accept (h : Host) (key : PyStr) (q : Queue) : Host :=
  { h with queue := q, owed := h.owed ++ [key] }

/-- A submission is removed from the queue : it is owed no duel, unless that is in progress. -/
def remove (h : Host) (key : PyStr) : Host :=
  (if h.queue.duels key then h else h.settle key).change (·.remove key)

/-- The duel in progress is finished; where it is over, its submission is owed no other, unless
it waits again. -/
def finish (h : Host) (ended : Bool) : Host :=
  (match h.queue.inProgress.bind Mark.entry with
    | some e => if ended && !h.queue.has e.ref.key then h.settle e.ref.key else h
    | none => h).change Queue.finish


/-- The queue changes, and a block is handed out by it. -/
def give (h : Host) (doc : RequestDoc) (f : Queue → Queue) : Host :=
  { h with queue := f h.queue, given := h.given ++ [doc] }

end Host

/-! ## Programs -/

/-- What an act is about. -/
inductive Tag where
  | nothing
  /-- The crown is checked. -/
  | crowns
  /-- A block is handed out, if it is, to a duel. -/
  | gives (doc : Host → Option RequestDoc)
  /-- A `duel` command looks whether its directory holds a request. -/
  | finds (req : DuelRequest)

abbrev DProg (α : Type) := Prog Host Tag Raised α

/-- One act, or the exception it raises instead. -/
def act {α : Type} (t : Tag) (f : Host → Host) (g : Host → α) : DProg α :=
  Prog.fallible Host.fault (.act t f fun h => .ret (.ok (g h)))

def look {α : Type} (g : Host → α) : DProg α := act .nothing id g

def put (f : Host → Host) : DProg Unit := act .nothing f fun _ => ()

/-- What a program returns or raises. -/
def attempt {α : Type} (p : DProg α) : DProg (Except Raised α) :=
  (p >>= fun a => pure (.ok a)).catch' fun e => pure (.error e)

section Programs

variable (c : Crypto) (S : Contract)

/-! ## A duel -/

section Duel

variable (req : DuelRequest)

/-- `record_request`. -/
def recordRequest : DProg Unit := do
  match ← look fun h => (h.dirs (req.runDir c S)).request with
  | some doc =>
    if doc = req.asDict c S then pure ⟨⟩ else do
      -- another duel's run is moved aside
      put fun h => h.setDir (req.runDir c S) .empty
      record
  | none => record
where
  record : DProg Unit := put fun h => h.setDir (req.runDir c S)
    { h.dirs (req.runDir c S) with request := some (req.asDict c S) }

/-- `_check_crown`. -/
def checkCrown : DProg Unit := do
  let king ← act .crowns id fun h => h.head.king
  if king = req.king then pure ⟨⟩ else do
    put fun h => h.setDir (req.runDir c S) .empty
    raise .crownMoved

/-- What is decided, in `outcome.json`. -/
def decide (status : Status) (record : Option Record) : DProg DuelResult := do
  let result : DuelResult := ⟨status, req.kind, req.eventId c S, req.duelId c S, record⟩
  put fun h => h.setDir (req.runDir c S)
    { h.dirs (req.runDir c S) with outcome := some result }
  pure result

/-- `_published`. -/
def published : DProg (Option Record) :=
  look fun h => (iterIndex h.index).reverse.find? (·.eventId = req.eventId c S)

/-- `rebuild_head`. -/
def rebuildHead : DProg Unit := put fun h =>
  match (iterIndex h.index).getLast? with
  | some r =>
    { h with head := ⟨r.seq, r.eventId, r.block, (iterIndex h.index).foldl kingAfter none⟩ }
  | none => h

/-- `_republished`. -/
def republished (record : Record) : DProg DuelResult := do
  rebuildHead
  decide c S req .published (some record)

/-- `append`. -/
def append (record : Record) : DProg ℕ := do
  match ← look fun h => h.events record.eventId with
  | none => raise .crashed
  | some event => do
    let seq ← look fun h => nextSeq h.index
    let line : Record := { record with seq, eventSha256 := some (c.sha256 event) }
    put fun h => { h with index := h.index ++ [line] }
    put fun h => { h with head := ⟨seq, line.eventId, line.block, kingAfter h.head.king line⟩ }
    pure seq

/-- The record of a duel that stands. -/
def recordOf (dethroned : Bool) (rest : PyStr) : Record where
  seq := 0
  eventId := req.eventId c S
  kind := req.kind
  block := req.block
  king := if req.king.isNone then some req.challenger else req.king
  challenger := if req.king.isNone then none else some req.challenger
  dethroned := req.king.isSome && dethroned
  newKing := if req.king.isSome && dethroned then some req.challenger else none
  rest := rest
  eventSha256 := none

/-- `_publish`. -/
def publish (dethroned : Bool) (event : Bytes) (rest : PyStr) : DProg DuelResult := do
  match ← published c S req with
  | some record => republished c S req record
  | none => do
    checkCrown c S req
    let record := recordOf c S req dethroned rest
    put fun h => { h with events := Function.update h.events record.eventId (some event) }
    let seq ← append c record
    decide c S req .published (some { record with seq })

/-- `_run`, of the orchestrator. -/
def play : DProg DuelResult := do
  match ← look Host.fate with
  | .unavailable => raise .unavailable
  | .failed => raise .failed
  | .crashes => raise .crashed
  | .refused => decide c S req .refused none
  | .void => decide c S req .void none
  | .stands dethroned event rest => publish c S req dethroned event rest

/-- `run`, of the orchestrator. -/
def run : DProg DuelResult := do
  recordRequest c S req
  match ← look fun h => (h.dirs (req.runDir c S)).outcome with
  | some result => pure result
  | none => do
    match ← published c S req with
    | some record => republished c S req record
    | none => do
      checkCrown c S req
      (play c S req).catch' fun e => raise (if e = .crashed then .failed else e)

end Duel

/-! ## The daemon -/

/-- `publish_queue`, which leaves what a duel is numbered by as it is. -/
def publishQueue : DProg Unit := put id

/-- `next_block`. -/
def nextBlock : DProg ℤ := do
  let head ← look fun h => h.head.block
  let block ← look fun h => h.queue.block
  pure (max block head + 1)

/-- `Queue.take`. -/
def take (req : DuelRequest) : DProg (Option Entry) :=
  act (.gives fun h => (h.queue.taken req.challenger.key).map fun _ => req.asDict c S)
    (fun h =>
      match h.queue.taken req.challenger.key with
      | some _ =>
        h.give (req.asDict c S) (·.take req.challenger.key req.block (req.eventId c S))
      | none => h)
    fun h => h.queue.taken req.challenger.key

/-- `_entry_of`. -/
def entryOf (req : DuelRequest) : Option Entry :=
  if req.king = none ∧ S.baseline = some (req.challenger.repo, req.challenger.revision) then none
  else some ⟨req.challenger, req.size⟩

/-- `_run`, of the daemon. -/
def runDuel (req : DuelRequest) : DProg Bool := do
  match ← attempt (run c S req) with
  | .error .unavailable => pure false
  | .error .crownMoved => do
    put (·.change (·.putBack (entryOf S req)))
    publishQueue
    pure true
  | .error .crashed => raise .crashed
  | .error .failed => finish true
  | .ok _ => finish true
where
  /-- `finish`, of a duel that is over or not. -/
  finish (ended : Bool) : DProg Bool := do
    put (·.finish ended)
    publishQueue
    pure true

/-- `_resume`. -/
def resume (mark : Mark) : DProg Bool := do
  match ← look fun h => (h.dirs (mark.eventId.take 16)).request with
  | some doc =>
    if (DuelRequest.fromDict doc).eventId c S = mark.eventId then
      runDuel c S (.fromDict doc)
    else runDuel.finish false
  | none => runDuel.finish false

/-- `_baseline_genesis`. -/
def baselineGenesis (repo revision : PyStr) : DProg Bool :=
  match SubmissionRef.resolved c repo revision with
  | none => do
    put fun h => { h with stalled := true }
    pure false
  | some ref => do
    if ← look Host.ready then do
      let block ← nextBlock
      let req : DuelRequest := ⟨ref, none, none, block⟩
      recordRequest c S req
      act (.gives fun _ => some (req.asDict c S))
        (fun h => h.give (req.asDict c S) (·.setBlock req.block)) fun _ => ()
      put (·.change (·.start (req.eventId c S)))
      publishQueue
      if ← runDuel c S req then do
        let king ← look fun h => h.head.king
        if king.isNone then do
          put fun h => { h with stalled := true }
          pure true
        else pure true
      else pure false
    else pure false

/-- What a step does with the entry that it has peeked. -/
def duelEntry (king : Option SubmissionRef) (entry : Entry) : DProg Bool := do
  let block ← nextBlock
  let req : DuelRequest := ⟨entry.ref, king, entry.duelSize, block⟩
  recordRequest c S req
  match ← take c S req with
  | none => pure true -- removed from the queue meanwhile
  | some _ => do
    publishQueue
    runDuel c S req

/-- `Daemon.step`. -/
def step : DProg Bool := do
  match ← look fun h => h.queue.inProgress with
  | some mark => do
    if ← look Host.ready then resume c S mark else pure false
  | none => do
    if ← look Host.stalled then pure false else do
      let king ← look fun h => h.head.king
      match king, S.baseline with
      | none, some baseline => baselineGenesis c S baseline.1 baseline.2
      | _, _ => do
        match ← look fun h => h.queue.entries.head? with
        | none => pure false
        | some entry => do
          if ← look Host.ready then
            if king.any (·.key = entry.ref.key) then do
              put (·.remove entry.ref.key)
              publishQueue
              pure true
            else duelEntry c S king entry
          else pure false

/-! ## The command -/

/-- `orchestrator.run`, of the request that a `duel` command has settled on. -/
def runByHand (counter headBlock : ℤ) (req : DuelRequest) : DProg (Option DuelResult) := do
  .write .nothing fun h =>
    { h with hand := h.hand ++ [⟨req, counter, headBlock, h.given, h.decided c S req⟩] }
  let result ← run c S req
  pure (some result)

/-- `claim_block`, for a duel. -/
def claimBlock (challenger : SubmissionRef) (king : Option SubmissionRef) (size : Option PyStr)
    (floor : ℤ) : DProg ℤ :=
  act (.gives fun h => some (doc h)) (fun h => h.give (doc h) (·.claimBlock floor))
    fun h => h.queue.claimed floor
where
  /-- The duel that the block is claimed for. -/
  doc (h : Host) : RequestDoc :=
    (DuelRequest.mk challenger king size (h.queue.claimed floor)).asDict c S

/-- `_duel`, of a resolved submission; none where it is refused. -/
def duel (challenger : SubmissionRef) (size : Option PyStr) : DProg (Option DuelResult) :=
  if size.all (· ∈ S.sizes) then do
    let head ← look Host.head
    if head.king.any (·.key = challenger.key) then pure none
    else if head.king.isNone && S.baseline.isSome then pure none
    else do
      let counter ← look fun h => h.queue.block
      let req : DuelRequest := ⟨challenger, head.king, size, max counter head.block⟩
      if req.block ≤ head.block then fresh head counter
      else do
        if ← act (.finds req) id fun h => h.holdsRequest c S req then
          runByHand c S counter head.block req
        else fresh head counter
  else pure none
where
  /-- A duel at a block of its own. -/
  fresh (head : Head) (counter : ℤ) : DProg (Option DuelResult) := do
    let block ← claimBlock c S challenger head.king size head.block
    runByHand c S counter head.block ⟨challenger, head.king, size, block⟩

end Programs

/-! ## Runs -/

/-- What is run under the store's lock. -/
inductive Command where
  | step
  | duel (challenger : SubmissionRef) (size : Option PyStr)

def Command.prog (c : Crypto) (S : Contract) : Command → DProg (Option DuelResult)
  | .step => do
    let _ ← Duels.step c S
    pure none
  | .duel challenger size => Duels.duel c S challenger size

/-- What the world makes of the host between two acts : others change the queue, and it is seen
how the next duel goes. -/
inductive Meanwhile : Host → Host → Prop
  | add (h : Host) (e : Entry) : Meanwhile h (h.accept e.ref.key (h.queue.add e))
  | offer (h : Host) (e : Entry) : Meanwhile h (h.accept e.ref.key (h.queue.offer e))
  | remove (h : Host) (key : PyStr) : Meanwhile h (h.remove key)
  | finds (h : Host) (ready faulty : Bool) (fate : Fate) :
      Meanwhile h { h with ready, faulty, fate }

/-- The world of the commands, whose acts are done under a condition. -/
def world (meets : Tag → Host → Prop) : Env Host Tag where
  rely := Relation.ReflTransGen Meanwhile
  refl _ := .refl
  trans := .trans
  meets := meets

/-- A daemon, which may be killed and started again, and `duel` commands while there is none. -/
def system (c : Crypto) (S : Contract) :
    System Host Tag Raised (Option DuelResult) Command where
  prog := Command.prog c S
  starts
    | .step, _ => True
    | .duel _ _, h => h.stalled = false
  mayDie _ := True
  reset h := { h with stalled := false }

/-- A host on which nothing was run yet. -/
def Host.fresh (h : Host) : Prop :=
  (∀ dir, h.dirs dir = .empty) ∧ h.given = [] ∧ h.hand = []

/-! ## Rules -/

section Rules

variable {κ α : Type} {Φ : Frame Host Tag κ} {P : κ → Prop} {A : α → κ → Prop}
  {B : Raised → κ → Prop}

/-- An act is done, or raises and does nothing. -/
theorem goes_act {t : Tag} {f : Host → Host} {g : Host → α}
    (hact : ∀ h, Φ.inv h → P (Φ.core h) → Φ.env.meets t h →
      Φ.inv (f h) ∧ A (g h) (Φ.core (f h)))
    (hbad : ∀ h, Φ.inv h → P (Φ.core h) → B .crashed (Φ.core h) := by exact fun _ _ _ => trivial) :
    Φ.Goes P A B (act t f g) := by
  refine Frame.goes_fallible hact fun h e hinv hp _ hf => ?_
  unfold Host.fault at hf
  split_ifs at hf
  exact Option.some.inj hf ▸ hbad h hinv hp

theorem goes_look {g : Host → α} (hlook : ∀ h, Φ.inv h → P (Φ.core h) → A (g h) (Φ.core h))
    (hbad : ∀ h, Φ.inv h → P (Φ.core h) → B .crashed (Φ.core h) := by exact fun _ _ _ => trivial) :
    Φ.Goes P A B (look g) :=
  goes_act (fun h hinv hp _ => ⟨hinv, hlook h hinv hp⟩) hbad

theorem goes_put {f : Host → Host} {A : Unit → κ → Prop}
    (hput : ∀ h, Φ.inv h → P (Φ.core h) → Φ.inv (f h) ∧ A () (Φ.core (f h)))
    (hbad : ∀ h, Φ.inv h → P (Φ.core h) → B .crashed (Φ.core h) := by exact fun _ _ _ => trivial) :
    Φ.Goes P A B (put f) :=
  goes_act (fun h hinv hp _ => hput h hinv hp) hbad

/-- A look that nothing is to be learnt of. -/
theorem goes_see {g : Host → α} : Φ.Runs P (fun _ => P) (look g) := goes_look fun _ _ hp => hp

theorem goes_attempt {p : DProg α} (hp : Φ.Goes P A B p) :
    Φ.Goes P (Frame.Either A B) (fun _ _ => False) (attempt p) := by
  have hok : ∀ a, Φ.Goes (A a) (Frame.Either A B) B (pure (.ok a) : DProg (Except Raised α)) :=
    fun a => Frame.goes_ret fun _ hk => hk
  exact (hp.bind hok).catch fun e => Frame.goes_ret (a := Except.error e) fun _ hk => hk

end Rules

/-! ## What a `duel` command is to run -/

namespace HandRun

variable (c : Crypto) (S : Contract) (x : HandRun)

/-- It runs at the last block handed out, which was handed out to this very duel. -/
def Resumes : Prop :=
  x.request.block = x.counter ∧ x.headBlock < x.request.block ∧
    x.given.getLast? = some (x.request.asDict c S)

/-- It runs at a block above the queue's counter and the head's. -/
def Above : Prop := x.counter < x.request.block ∧ x.headBlock < x.request.block

/-- A duel that is not decided is resumed, or run at a fresh block. -/
def Proper : Prop := (x.Resumes c S ∨ x.Above) ∧ x.decided = none

end HandRun

/-- Where a block is handed out, no other request is recorded above the queue's counter; where a
`duel` command finds its request at the last block, its directory holds no outcome. -/
def Clear (c : Crypto) (S : Contract) : Tag → Host → Prop
  | .nothing, _ => True
  | .crowns, _ => True
  | .gives doc, h => ∀ r, doc h = some r → ∀ dir r', (h.dirs dir).request = some r' →
      h.queue.block < r'.block → r' = r
  | .finds req, h => h.decided c S req = none

end Duels

end IcilOrchestrator
