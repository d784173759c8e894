import Mathlib
import IcilOrchestrator.QueueKeys

/-!
# A step of the daemon

`Daemon.step` takes one track's next duel and runs it. The state is the host it runs on : the
queue file, which other processes and the intake change too, the run directories' requests, and
what the step finds when it looks at the store, the benchmarks and the clock. A mutation of the
queue is one act here, as queues are linearizable.

`Host.ran` is which duels were run, with the entry that was taken for each.
-/

namespace IcilOrchestrator

open Python Prog

namespace Daemon

variable {F : Type} [PyFloat F]

/-! ## Requests -/

/-- What a step reads of the spec, and of one track's. -/
structure Contract (F : Type) where
  version : ℕ
  track : PyStr
  tracks : List PyStr
  /-- The names of the sizes that the track's duels may have. -/
  sizes : List PyStr
  defaultSize : PyStr
  baseline : Option (Dict F)

/-- `spec.size_of`. -/
def Contract.sizeOf (S : Contract F) : Json F → Except PyError PyStr
  | .str s => .ok (if s ∈ S.sizes then s else S.defaultSize)
  | .arr _ => .error .typeError
  | .obj _ => .error .typeError
  | _ => .ok S.defaultSize

/-- A `SubmissionRef` made of a queue entry. -/
structure Ref (F : Type) where
  key : Json F
  repo : Json F
  revision : Json F

def Ref.asDict (r : Ref F) : Json F :=
  .obj [(py "key", r.key), (py "repo", r.repo), (py "revision", r.revision)]

/-- `entry.ref`. -/
def ref (e : QueueEntry F) : Ref F := ⟨e.key, e.repo, e.revision⟩

/-- `DuelRequest`. -/
structure DuelRequest (F : Type) where
  track : PyStr
  challenger : Ref F
  king : Option SubmissionRef
  size : Json F
  block : ℤ

namespace DuelRequest

/-- `kind`. -/
def kind (r : DuelRequest F) : PyStr := if r.king.isSome then py "duel" else py "genesis"

/-- `duel_id`. -/
def duelId (c : Crypto) (S : Contract F) (r : DuelRequest F) : Except PyError PyStr :=
  match r.challenger.key, r.challenger.revision with
  | .str key, .str revision =>
    .ok (IcilOrchestrator.duelId c S.version r.track ⟨key, [], revision⟩ r.king)
  | _, _ => .error .typeError

/-- `event_id`. -/
def eventId (c : Crypto) (S : Contract F) (r : DuelRequest F) : Except PyError Str :=
  (r.duelId c S).map fun d =>
    ⟨eventIdOf c r.kind r.track r.block d, strWF_of_isAscii (isAscii_sha256 c _)⟩

/-- `as_dict`. -/
def asDict (c : Crypto) (S : Contract F) (r : DuelRequest F) : Except PyError (Dict F) := do
  let size ← S.sizeOf r.size
  let duel ← r.duelId c S
  let event ← r.eventId c S
  pure [(py "track", .str r.track), (py "kind", .str r.kind),
    (py "challenger", r.challenger.asDict),
    (py "king", (r.king.map fun k => k.asDict).getD .null), (py "size", .str size),
    (py "block", .int r.block), (py "duel_id", .str duel), (py "event_id", .str event.val)]

end DuelRequest

/-- `SubmissionRef.from_dict`. -/
def refFromDict [PyRepr F] (j : Json F) : Except PyError (Option SubmissionRef) :=
  if j.truthy then
    match j with
    | .obj d =>
      match Dict.get? d (py "key"), Dict.get? d (py "repo"), Dict.get? d (py "revision") with
      | some key, some repo, some revision => .ok (some ⟨strOf key, strOf repo, strOf revision⟩)
      | _, _, _ => .error .keyError
    | _ => .error .typeError
  else .ok none

/-- `DuelRequest.from_dict`. -/
def requestFromDict [PyRepr F] [Unicode] (d : Dict F) : Except PyError (DuelRequest F) :=
  match d.get? (py "challenger") with
  | none => .error .keyError
  | some j => do
    match ← refFromDict j with
    | none => .error .valueError
    | some challenger =>
      match d.get? (py "track"), d.get? (py "block") with
      | some track, some block =>
        let king ← refFromDict (d.get (py "king"))
        let block ← intOf block
        pure ⟨strOf track, ⟨.str challenger.key, .str challenger.repo, .str challenger.revision⟩,
          king, d.get (py "size"), block⟩
      | _, _ => .error .keyError

/-! ## The host -/

/-- How `Orchestrator.run` ends. -/
inductive Outcome where
  | returned
  | failed
  /-- `HarnessUnavailable`. -/
  | unavailable
  | crownMoved
  | raised (e : PyError)

/-- A duel that was run. -/
structure Ran (F : Type) where
  request : DuelRequest F
  /-- The queue as `take` found it, and the entry that it removed; none where the duel is resumed
  or a baseline's. -/
  taken : Option (QueueState F × QueueEntry F)

/-- What a daemon works on. -/
structure Host (F : Type) where
  /-- The track's queue file. -/
  file : Option Bytes
  /-- The document in `request.json` of a run directory. -/
  requests : PyStr → Option (Json F)
  /-- What `current_king` makes of the head. -/
  king : Except PyError (Option SubmissionRef)
  /-- The head's block. -/
  headBlock : Except PyError ℤ
  /-- Whether the track's benchmarks are ready. -/
  ready : Bool
  /-- How the next duel ends. -/
  outcome : Outcome
  clock : Str
  /-- What the next act raises, if it does. -/
  luck : Option PyError
  /-- Whether the track is one that this process no longer tries. -/
  stalled : Bool
  /-- The entry that a step has peeked, and not taken yet. -/
  peeked : Option (QueueEntry F)
  ran : List (Ran F)

abbrev HProg (F α : Type) := Prog (Host F) Unit PyError α

/-- One act that a method of `Queue` is. -/
def change [Unicode] (b : Body F (Answer F)) : HProg F (Answer F) :=
  .act ()
    (fun h =>
      match applyBody b h.file with
      | .ok (file, _) => { h with file := file }
      | .error _ => h)
    fun h => .ret ((applyBody b h.file).map Prod.snd)

/-- `Queue.reload`. -/
def reload [Unicode] : HProg F (QueueState F) := .try' () fun h => load h.file

/-- `Queue.peek`. -/
def peek [Unicode] : HProg F (Option (QueueEntry F)) :=
  .act ()
    (fun h =>
      match load h.file with
      | .ok s => { h with peeked := s.entries.head? }
      | .error _ => h)
    fun h => .ret ((load h.file).map fun s => s.entries.head?)

/-- The entry that `take` returns. -/
def entryTaken : Answer F → Option (QueueEntry F)
  | .entry e => e
  | _ => none

/-- What `take` returns, and the state in which it found the entry. -/
def took [Unicode] (key : PyStr) (block : ℤ) (eventId now : Str) (file : Option Bytes) :
    Except PyError (Option (QueueState F × QueueEntry F)) := do
  let s ← load file
  let r ← applyBody (F := F) (takeBody key block eventId now) file
  pure ((entryTaken r.2).map fun e => (s, e))

/-- `Queue.take`, and the state in which it found the entry. -/
def take [Unicode] (key : PyStr) (block : ℤ) (eventId now : Str) :
    HProg F (Option (QueueState F × QueueEntry F)) :=
  .act ()
    (fun h =>
      match applyBody (F := F) (takeBody key block eventId now) h.file with
      | .ok (file, _) => { h with file := file, peeked := none }
      | .error _ => h)
    fun h => .ret (took key block eventId now h.file)

/-! ## The step -/

section Step

variable [PyRepr F] [Unicode] (c : Crypto) (S : Contract F)

/-- `publish_queue`, which leaves what a step works on as it is. -/
def publishQueue : HProg F Unit := .write () id

/-- `next_block`. -/
def nextBlock : HProg F ℤ := do
  let head ← .try' () Host.headBlock
  let s ← reload
  pure (max s.block head + 1)

/-- The name of a request's run directory. -/
def runDir (req : DuelRequest F) : Except PyError PyStr := (req.eventId c S).map (·.val.take 16)

/-- `holds_request`, of the document in a run directory. -/
def holdsRequest (wanted : Dict F) : Option (Json F) → Bool
  | some (.obj d) => (Json.obj (d.filter fun kv => kv.1 != py "started_at")).pyEq (.obj wanted)
  | _ => false

/-- `record_request`. -/
def recordRequest (req : DuelRequest F) : HProg F Unit :=
  if req.track ∈ S.tracks then do
    let dir ← .try' () fun _ => runDir c S req
    let wanted ← .try' () fun _ => req.asDict c S
    let existing ← .read () fun h => h.requests dir
    let holds ← .read () fun h => holdsRequest wanted (h.requests dir)
    match existing, holds with
    | some (.obj _), true => pure ⟨⟩
    | some (.obj _), false => do
      -- another duel's run is moved aside
      .write () fun h => { h with requests := Function.update h.requests dir none }
      record dir wanted
    | _, _ => record dir wanted
  else raise .runtimeError
where
  record (dir : PyStr) (wanted : Dict F) : HProg F Unit := .write () fun h =>
    { h with
      requests := Function.update h.requests dir
        (some (Json.sortKeys (.obj (wanted ++ [(py "started_at", .str h.clock.val)])))) }

/-- `_entry_of`. -/
def entryOf (req : DuelRequest F) (now : PyStr) : Option (QueueEntry F) :=
  let back : QueueEntry F := ⟨req.challenger.key, req.challenger.repo, req.challenger.revision,
    .int req.block, req.size, .str now, .str (py "requeued")⟩
  match req.king, S.baseline with
  | none, some b =>
    if (b.get (py "repo")).pyEq req.challenger.repo &&
        (b.get (py "revision")).pyEq req.challenger.revision then none
    else some back
  | _, _ => some back

/-- `_run`. -/
def runDuel (req : DuelRequest F) (taken : Option (QueueState F × QueueEntry F)) : HProg F Bool := do
  .write () fun h => { h with ran := h.ran ++ [⟨req, taken⟩] }
  match ← .read () Host.outcome with
  | .unavailable => pure false
  | .raised e => raise e
  | .crownMoved => do
    let now ← .read () Host.clock
    let _ ← change (putBackBody (entryOf S req now.val))
    publishQueue
    pure true
  | .returned => finish
  | .failed => finish
where
  finish : HProg F Bool := do
    let _ ← change finishBody
    publishQueue
    pure true

/-- The request that a run directory holds, if it holds one. -/
def heldRequest : Option (Json F) → Except PyError (Option (DuelRequest F))
  | some (.obj d) =>
    match requestFromDict d with
    | .ok req => .ok (some req)
    | .error .overflowError => .error .overflowError
    | .error _ => .ok none
  | _ => .ok none

/-- `_resume`. -/
def resume (mark : InProgress F) : HProg F Bool :=
  match mark.eventId with
  | .str eid => do
    match ← .try' () fun h => heldRequest (h.requests (eid.take 16)) with
    | some req =>
      if (req.eventId c S).map Str.val = .ok eid then runDuel S req none
      else runDuel.finish
    | none => runDuel.finish
  | _ => raise .typeError

/-- `_baseline_genesis`. -/
def baselineGenesis (baseline : Dict F) : HProg F Bool := do
  match SubmissionRef.resolved c (strOf (baseline.get (py "repo")))
    (strOf (baseline.get (py "revision"))) with
  | none => do
    .write () fun h => { h with stalled := true }
    pure false
  | some r =>
    if ← .read () Host.ready then do
      let block ← nextBlock
      let req : DuelRequest F :=
        ⟨S.track, ⟨.str r.key, .str r.repo, .str r.revision⟩, none, .null, block⟩
      recordRequest c S req
      let _ ← change (setBlockBody req.block)
      let eid ← .try' () fun _ => req.eventId c S
      let now ← .read () Host.clock
      let _ ← change (startBody eid r now)
      publishQueue
      if ← runDuel S req none then do
        let king ← .try' () Host.king
        if king.isNone then do
          .write () fun h => { h with stalled := true }
          pure true
        else pure true
      else pure false
    else pure false

/-- What a step does with the entry that it has peeked. -/
def duelEntry (king : Option SubmissionRef) (entry : QueueEntry F) : HProg F Bool := do
  let block ← nextBlock
  let req : DuelRequest F := ⟨S.track, ref entry, king, entry.duelSize, block⟩
  recordRequest c S req
  let eid ← .try' () fun _ => req.eventId c S
  let now ← .read () Host.clock
  match entry.key with
  | .str key => do
    match ← take key req.block eid now with
    | none => pure true -- removed from the queue meanwhile
    | some taken => do
      publishQueue
      runDuel S req (some taken)
  | _ => raise .typeError

/-- `Daemon.step`. -/
def step : HProg F Bool := do
  let s ← reload
  match s.inProgress with
  | some mark => do
    if ← .read () Host.ready then resume c S mark else pure false
  | none => do
    if ← .read () Host.stalled then pure false else do
      let king ← .try' () Host.king
      match king, S.baseline with
      | none, some baseline => baselineGenesis c S baseline
      | _, _ => do
        match ← peek with
        | none => pure false
        | some entry => do
          if ← .read () Host.ready then do
            match king, entry.key with
            | some k, .str key => do
              if k.key = key then do
                let _ ← change (removeBody key)
                publishQueue
                pure true
              else duelEntry c S king entry
            | _, _ => duelEntry c S king entry
          else pure false

end Step

/-! ## Runs -/

/-- What another process, or the intake, may ask of the queue while a step runs. -/
def byOthers : Mutation F → Prop
  | .add _ _ _ _ _ => True
  | .offer _ _ _ _ _ => True
  | .remove _ => True
  | _ => False

/-- What the world makes of the host between two acts of the daemon's. -/
inductive Meanwhile [Unicode] (c : Crypto) (fair : Host F → Mutation F → Prop) :
    Host F → Host F → Prop
  | mutates {h : Host F} {m : Mutation F} {file : Option Bytes} {a : Answer F} : byOthers m →
      fair h m → m.apply c h.file = .ok (file, a) → Meanwhile c fair h { h with file := file }
  | finds {h : Host F} (king : Except PyError (Option SubmissionRef)) (block : Except PyError ℤ)
      (ready : Bool) (outcome : Outcome) (clock : Str) (luck : Option PyError) :
      Meanwhile c fair h { h with
        king := king, headBlock := block, ready := ready, outcome := outcome, clock := clock,
        luck := luck }

/-- The daemon's world, where others ask what `fair` allows. -/
def world [Unicode] (c : Crypto) (fair : Host F → Mutation F → Prop) : Env (Host F) Unit where
  rely := Relation.ReflTransGen (Meanwhile c fair)
  refl _ := .refl
  trans := .trans
  meets _ _ := True

/-- A daemon that steps one track, is killed and started again. -/
def system [PyRepr F] [Unicode] (c : Crypto) (S : Contract F) :
    System (Host F) Unit PyError Bool Unit where
  prog _ := Prog.fallible Host.luck (step c S)
  starts _ _ := True
  mayDie _ := True
  reset h := { h with stalled := false, peeked := none }

/-- A host on which no daemon has run yet. -/
def Host.fresh (h : Host F) : Prop := h.peeked = none ∧ h.ran = []

/-! ## What a duel is run for -/

/-- Two `SubmissionRef`s are the same, but for the order of dicts in them. -/
def Ref.Same (r r' : Ref F) : Prop :=
  r.key.sortKeys = r'.key.sortKeys ∧ r.repo.sortKeys = r'.repo.sortKeys ∧
    r.revision.sortKeys = r'.revision.sortKeys

/-- The entry that was taken was the queue's first, and the request names its submission and
asks for its size. -/
def Ran.Fits (S : Contract F) (x : Ran F) : Prop :=
  ∀ s e, x.taken = some (s, e) → s.entries.head? = some e ∧ x.request.challenger.Same (ref e) ∧
    S.sizeOf x.request.size = S.sizeOf e.duelSize

/-- The entry that a mutation queues in a state. -/
def queued (c : Crypto) (s : QueueState F) : Mutation F → Option (QueueEntry F)
  | .add repo revision duelSize source now =>
    (SubmissionRef.resolved c repo revision).map fun r =>
      entryFor r s.block duelSize source now
  | .offer repo revision duelSize source now =>
    (SubmissionRef.resolved c repo revision).bind fun r =>
      if s.entries.any fun e => e.hasKey (.str r.key) then none
      else some (entryFor r s.block duelSize source now)
  | _ => none

/-- Whoever queues anew the key that a step has peeked does so when nothing else waits, and asks
for the same submission at the same size. -/
def Fair [Unicode] (c : Crypto) (S : Contract F) (h : Host F) (m : Mutation F) : Prop :=
  ∀ e s x, h.peeked = some e → load h.file = .ok s → queued c s m = some x → x.hasKey e.key →
    (∀ y ∈ s.entries, y.hasKey e.key) ∧ (ref e).Same (ref x) ∧
      S.sizeOf e.duelSize = S.sizeOf x.duelSize

end Daemon

end IcilOrchestrator
