import Mathlib
import IcilOrchestrator.QueueKeys
import IcilOrchestrator.Threads

/-!
# Queues that threads and processes share

The state is one queue file and whatever works on it (`World`) : `Queue` objects, each with a
thread lock and the `QueueState`s it has loaded, the last of them its `state`; and the file
lock. An operation is a program of acts (`Request.prog`), each of which may raise instead, and
a thread may be killed between any two of them, which frees the locks it holds. To kill a
process is to kill its threads at once.

`World.log` is what has happened : which operations began, took the file lock, saved, and
ended; and `World.handed` the states that `reload` has returned.
-/

namespace IcilOrchestrator

open Python Prog

variable {F : Type} [PyFloat F]

namespace Queue

/-! ## The state -/

/-- An operation that changes nothing. -/
inductive Query where
  | reload
  | snapshot (track : PyStr) (king : Option SubmissionRef) (schema : ℤ) (now : PyStr)

/-- An operation. -/
inductive Request (F : Type) where
  | mutate (m : Mutation F)
  | query (q : Query)

/-- What an operation returns; a state is returned as the `Queue` object and the number of the
state it loaded. -/
inductive Reply (F : Type) where
  | answer (a : Answer F)
  | state (q k : ℕ)
  | doc (j : Json F)

/-- What happens in the operation with a number. -/
inductive Event (F : Type) where
  | began (n : ℕ) (r : Request F)
  /-- It has the file lock. -/
  | locked (n : ℕ)
  | saved (n : ℕ) (m : Mutation F)
  | ended (n : ℕ) (r : Except PyError (Reply F))
  | killed (n : ℕ)

/-- A `Queue` object. -/
structure Shared (F : Type) where
  /-- The thread that holds its thread lock. -/
  owner : Option ℕ
  states : List (QueueState F)

/-- A queue file, the objects that work on it, and what has happened. -/
structure World (F : Type) where
  file : Option Bytes
  /-- What the next act raises, if it does. -/
  luck : Option PyError
  /-- The thread that holds the file lock. -/
  holder : Option ℕ
  queues : ℕ → Shared F
  count : ℕ
  /-- The operation that a thread runs. -/
  current : ℕ → Option ℕ
  log : List (Event F)
  handed : List (ℕ × ℕ × QueueState F)

namespace World

/-- `self.state`. -/
def state (w : World F) (q : ℕ) : QueueState F :=
  (w.queues q).states.getLast?.getD ⟨[], none, 0⟩

/-- A state that a `Queue` object has loaded. -/
def stateAt (w : World F) (q k : ℕ) : QueueState F :=
  (w.queues q).states[k]?.getD ⟨[], none, 0⟩

def setOwner (w : World F) (q : ℕ) (o : Option ℕ) : World F :=
  { w with queues := Function.update w.queues q { w.queues q with owner := o } }

/-- `self.state = state`. -/
def loads (w : World F) (q : ℕ) (s : QueueState F) : World F :=
  { w with
    queues := Function.update w.queues q
      { w.queues q with states := (w.queues q).states ++ [s] } }

/-- A change of `self.state`. -/
def changes (w : World F) (q : ℕ) (s : QueueState F) : World F :=
  { w with
    queues := Function.update w.queues q
      { w.queues q with states := (w.queues q).states.dropLast ++ [s] } }

/-- `return self.state`. -/
def hands (w : World F) (q : ℕ) : World F :=
  { w with handed := w.handed ++ [(q, (w.queues q).states.length - 1, w.state q)] }

def begins (w : World F) (i : ℕ) (r : Request F) : World F :=
  { w with
    count := w.count + 1
    current := Function.update w.current i (some w.count)
    log := w.log ++ [.began w.count r] }

def locks (w : World F) (i n : ℕ) : World F :=
  { w with holder := some i, log := w.log ++ [.locked n] }

def saves (w : World F) (n : ℕ) (m : Mutation F) (data : Bytes) : World F :=
  { w with file := some data, log := w.log ++ [.saved n m] }

def closes (w : World F) : World F := { w with holder := none }

def ends (w : World F) (i n : ℕ) (r : Except PyError (Reply F)) : World F :=
  { w with
    current := Function.update w.current i none
    log := w.log ++ [.ended n r] }

/-- The threads of a list are killed. -/
def kill (dead : List ℕ) (w : World F) : World F :=
  { w with
    holder := w.holder.filter (· ∉ dead)
    queues := fun q => { w.queues q with owner := (w.queues q).owner.filter (· ∉ dead) }
    current := fun i => if i ∈ dead then none else w.current i
    log := w.log ++ (dead.dedup.filterMap w.current).map .killed }

end World

/-! ## Programs -/

/-- What an act waits for. -/
inductive Tag where
  | nothing
  /-- The thread lock of a `Queue` object. -/
  | thread (q : ℕ)
  /-- The file lock. -/
  | file
deriving DecidableEq

/-- Whether an act need not wait. -/
def free : Tag → World F → Prop
  | .nothing, _ => True
  | .thread q, w => (w.queues q).owner = none
  | .file, w => w.holder = none

instance decidableFree : (t : Tag) → (w : World F) → Decidable (free t w)
  | .nothing, _ => inferInstanceAs (Decidable True)
  | .thread q, w => inferInstanceAs (Decidable ((w.queues q).owner = none))
  | .file, w => inferInstanceAs (Decidable (w.holder = none))

abbrev QProg (F α : Type) := Prog (World F) Tag PyError α

/-- An act that may raise once it is done. -/
def closing (f : World F → World F) : QProg F Unit :=
  .act .nothing f fun w =>
    match w.luck with
    | some e => .ret (.error e)
    | none => .ret (.ok ())

/-- `self._thread_lock`, taken by a thread. -/
def acquire (i q : ℕ) : QProg F Unit := .write (.thread q) (·.setOwner q (some i))

def release (q : ℕ) : QProg F Unit := closing (·.setOwner q none)

/-- `fcntl.flock(fd, fcntl.LOCK_EX)`. -/
def flock (i n : ℕ) : QProg F Unit := .write .file (·.locks i n)

/-- `os.close(fd)`. -/
def closeLock (i : ℕ) : QProg F Unit :=
  closing fun w => if w.holder = some i then w.closes else w

/-- `self.state = self._load()`. -/
def loadState [Unicode] (q : ℕ) : QProg F Unit :=
  .act .nothing
    (fun w =>
      match load w.file with
      | .ok s => w.loads q s
      | .error _ => w)
    fun w =>
      match load (F := F) w.file with
      | .ok _ => .ret (.ok ())
      | .error e => .ret (.error e)

/-- `self.save()`. -/
def saveState (q n : ℕ) (m : Mutation F) : QProg F Unit :=
  .act .nothing
    (fun w =>
      match save (w.state q) with
      | .ok data => w.saves n m data
      | .error _ => w)
    fun w =>
      match save (w.state q) with
      | .ok _ => .ret (.ok ())
      | .error e => .ret (.error e)

/-- `self.state`, as a part of the world. -/
def onState (F : Type) (q : ℕ) : Lens (World F) (QueueState F) where
  get w := w.state q
  put s w := w.changes q s
  get_put s w := by simp [World.state, World.changes]

/-- What is done under the file lock. -/
def critical [Unicode] (i q n : ℕ) (m : Mutation F) (b : Body F (Answer F)) :
    QProg F (Reply F) := do
  flock i n
  loadState q
  let a ← b.lift (onState F q) fun _ => .nothing
  saveState q n m
  pure (.answer a)

/-- `with self._locked()`, and what it locks. -/
def locked [Unicode] (i q n : ℕ) (m : Mutation F) (b : Body F (Answer F)) : QProg F (Reply F) := do
  Prog.fallible World.luck (.write .nothing id) -- the lock's directory
  Prog.fallible World.luck (acquire i q)
  finally' (do
    Prog.fallible World.luck (.write .nothing id) -- the lock file
    finally' (Prog.fallible World.luck (critical i q n m b)) (closeLock i)) (release q)

/-- `reload`. -/
def reload [Unicode] (i q : ℕ) : QProg F ℕ := do
  Prog.fallible World.luck (acquire i q)
  finally' (Prog.fallible World.luck (do
    loadState q
    .act .nothing (·.hands q) fun w => .ret (.ok ((w.queues q).states.length - 1)))) (release q)

/-- What a snapshot shows of the duel in progress. -/
def shownMark : Option (InProgress F) → Json F
  | none => .null
  | some p => .obj [(py "event_id", p.eventId), (py "challenger", p.challenger),
      (py "started_at", p.startedAt)]

/-- What a snapshot shows of the entries. -/
def shownEntries (es : List (QueueEntry F)) : Json F :=
  .arr (es.mapIdx fun i e =>
    .obj [(py "position", .int (i + 1)), (py "key", e.key), (py "repo", e.repo),
      (py "revision", e.revision), (py "commit_block", e.commitBlock),
      (py "duel_size", e.duelSize), (py "skip_model_config_check", .bool false),
      (py "accepted_at", e.acceptedAt)])

/-- The document of a snapshot. -/
def snapshotDoc (track : PyStr) (king : Option SubmissionRef) (schema : ℤ) (now : PyStr)
    (block : ℤ) (mark : Option (InProgress F)) (entries : List (QueueEntry F)) : Json F :=
  .obj [(py "schema", .int schema), (py "track", .str track), (py "block", .int block),
    (py "written_at", .str now), (py "king", (king.map fun k => k.asDict).getD .null),
    (py "in_progress", shownMark mark), (py "entries", shownEntries entries)]

/-- `snapshot` : a state is reloaded, and read when nothing is locked any more. -/
def snapshot [Unicode] (i q : ℕ) (track : PyStr) (king : Option SubmissionRef) (schema : ℤ)
    (now : PyStr) : QProg F (Json F) := do
  let k ← reload i q
  Prog.fallible World.luck (do
    let block ← .read .nothing fun w => (w.stateAt q k).block
    let mark ← .read .nothing fun w => (w.stateAt q k).inProgress
    let entries ← .read .nothing fun w => (w.stateAt q k).entries
    pure (snapshotDoc track king schema now block mark entries))

/-- An operation with a number, run by a thread on a `Queue` object. -/
def Request.prog [Unicode] (c : Crypto) (i q n : ℕ) : Request F → QProg F (Reply F)
  | .mutate m =>
    match m.body c with
    | .error e => raise e
    | .ok b => locked i q n m b
  | .query .reload => do
    let k ← reload i q
    pure (.state q k)
  | .query (.snapshot track king schema now) => do
    let doc ← snapshot i q track king schema now
    pure (.doc doc)

/-- An operation from its beginning to its end. -/
def operation [Unicode] (c : Crypto) (i q : ℕ) (r : Request F) : QProg F (Reply F) :=
  .act .nothing (·.begins i r) fun w =>
    ((r.prog c i q w.count).catch' fun e =>
      .act .nothing (·.ends i w.count (.error e)) fun _ => raise e).bind fun v =>
      .act .nothing (·.ends i w.count (.ok v)) fun _ => .ret (.ok v)

/-- Threads that run operations on `Queue` objects. -/
def pool [Unicode] (F : Type) [PyFloat F] (c : Crypto) :
    Pool (World F) Tag PyError (Reply F) (ℕ × Request F) where
  prog i g := operation c i g.1 g.2
  starts _ _ _ := True
  meets := free
  reset := World.kill
  others w w' := ∃ luck, w' = { w with luck := luck }

instance [Unicode] (c : Crypto) (t : Tag) (w : World F) : Decidable ((pool F c).meets t w) :=
  decidableFree t w

/-- A queue file that nothing works on yet. -/
def World.start (file : Option Bytes) : World F where
  file := file
  luck := none
  holder := none
  queues _ := ⟨none, []⟩
  count := 0
  current _ := none
  log := []
  handed := []

end Queue

end IcilOrchestrator
