import Mathlib
import IcilOrchestrator.QueueLinear

/-!
# Publishing a queue

The threads of one process (`Process`) change a queue and publish snapshots of it. A snapshot
is computed and written under one lock (`publishQueue`), so it is never written over a newer one.

`shows_of_reach` : when each save has been followed by a `publish_queue` that is done, begun
after it, the published snapshot shows the state of the queue file.
-/

set_option linter.unusedSectionVars false

namespace IcilOrchestrator

open Python Prog

namespace Publish

open Queue

section Model

variable {F : Type} [PyFloat F]

/-! ## The state -/

/-- A queue, what is published of it, and the lock of the threads that publish. -/
structure Process (F : Type) where
  world : World F
  /-- The thread that holds `_publishing`. -/
  publishing : Option ℕ
  /-- What `current_king` makes of the head. -/
  king : Except PyError (Option SubmissionRef)
  /-- The bytes of `tracks/{track}/queue.json`. -/
  published : Option Bytes
  /-- How much had happened when `_publishing` was last taken. -/
  entered : ℕ
  /-- How much had, when it was taken for what is published. -/
  seen : ℕ
  /-- How much had happened when each `publish_queue` began that is done. -/
  done : List ℕ

namespace Process

def enters (p : Process F) (i : ℕ) : Process F :=
  { p with publishing := some i, entered := p.world.log.length }

def leaves (p : Process F) : Process F := { p with publishing := none }

def writes (p : Process F) (data : Bytes) : Process F :=
  { p with published := some data, seen := p.entered }

def finishes (p : Process F) (begun : ℕ) : Process F := { p with done := p.done ++ [begun] }

/-- The threads of a list are killed. -/
def kill (dead : List ℕ) (p : Process F) : Process F :=
  { p with world := p.world.kill dead, publishing := p.publishing.filter (· ∉ dead) }

/-- A process that has published nothing yet. -/
def start (file published : Option Bytes) : Process F where
  world := .start file
  publishing := none
  king := .ok none
  published := published
  entered := 0
  seen := 0
  done := []

end Process

/-- The queue, as a part of the process. -/
def onWorld (F : Type) : Lens (Process F) (World F) where
  get p := p.world
  put w p := { p with world := w }
  get_put _ _ := rfl

/-! ## Programs -/

/-- What an act waits for. -/
inductive Gate where
  /-- What the queue waits for. -/
  | queue (t : Tag)
  | publishing

/-- Whether an act need not wait. -/
def Process.opens : Gate → Process F → Prop
  | .queue t, p => free t p.world
  | .publishing, p => p.publishing = none

instance : (t : Gate) → (p : Process F) → Decidable (Process.opens t p)
  | .queue t, p => decidableFree t p.world
  | .publishing, p => inferInstanceAs (Decidable (p.publishing = none))

abbrev PublishProg (F α : Type) := Prog (Process F) Gate PyError α

/-- What the next act of a process raises, if it does. -/
def Process.luck (p : Process F) : Option PyError := p.world.luck

/-- `store.write_queue`, of what `snapshot` returned. -/
def writeQueue : Reply F → PublishProg F Unit
  | .doc doc =>
    match dumps indented true doc with
    | some t => .write (.queue .nothing) (·.writes (encodeUtf8 (t ++ [10])))
    | none => raise .valueError
  | _ => raise .typeError

/-- `publish_queue`, of a thread. -/
def publishQueue [Unicode] (c : Crypto) (i q : ℕ) (track : PyStr) (schema : ℤ) (now : PyStr)
    (mirror : Bool) : PublishProg F Unit := do
  let begun ← .read (.queue .nothing) fun p => p.world.log.length
  Prog.fallible Process.luck (.write .publishing (·.enters i))
  finally' (do
    let king ← Prog.fallible Process.luck (.try' (.queue .nothing) (·.king))
    let doc ← (operation c i q (.query (.snapshot track king schema now))).lift (onWorld F) .queue
    Prog.fallible Process.luck (writeQueue doc)) (.write (.queue .nothing) (·.leaves))
  if mirror then Prog.fallible Process.luck (.write (.queue .nothing) id)
  .write (.queue .nothing) (·.finishes begun)

/-- What a thread is given to do. -/
inductive Task (F : Type) where
  | operate (q : ℕ) (r : Request F)
  | publish (q : ℕ) (track : PyStr) (schema : ℤ) (now : PyStr) (mirror : Bool)

def Task.prog [Unicode] (c : Crypto) (i : ℕ) : Task F → PublishProg F Unit
  | .operate q r => do
    let _ ← (operation c i q r).lift (onWorld F) .queue
    pure ⟨⟩
  | .publish q track schema now mirror => publishQueue c i q track schema now mirror

/-- The threads of a process; what the head says of the king may change. -/
def pool [Unicode] (F : Type) [PyFloat F] (c : Crypto) :
    Pool (Process F) Gate PyError Unit (Task F) where
  prog i t := t.prog c i
  starts _ _ _ := True
  meets := Process.opens
  reset := Process.kill
  others p p' := ∃ luck king, p' = { p with world := { p.world with luck := luck }, king := king }

instance [Unicode] (c : Crypto) (t : Gate) (p : Process F) : Decidable ((pool F c).meets t p) :=
  inferInstanceAs (Decidable (Process.opens t p))

/-! ## What is published -/

/-- A published snapshot holds the block, the duel in progress and the entries of a queue file. -/
def Shows [Unicode] (published file : Option Bytes) : Prop :=
  ∃ (s : QueueState F) (track : PyStr) (king : Option SubmissionRef) (schema : ℤ) (now t : PyStr),
    load file = .ok s ∧
      dumps indented true (snapshotDoc track king schema now s.block s.inProgress s.entries) =
        some t ∧ published = some (encodeUtf8 (t ++ [10]))

def isSaved : Event F → Bool
  | .saved _ _ => true
  | _ => false

/-- A mutation is owed its `publish_queue` : none that began once it was saved is done. -/
def Owed (p : Process F) : Prop :=
  ∃ k < p.world.log.length, p.world.log[k]?.any isSaved = true ∧ ∀ d ∈ p.done, d ≤ k

instance (p : Process F) : Decidable (Owed p) :=
  inferInstanceAs (Decidable (∃ k < _, _))

end Model

section Fresh

variable {F : Type} [PyFloat F] [Unicode] {c : Crypto} {file pub : Option Bytes} {i j : ℕ}
  {p p' : Process F}

/-! ## The invariant -/

/-- What is published shows a state that the file had no earlier than `seen` says. -/
def Shown (c : Crypto) (file : Option Bytes) (p : Process F) : Prop :=
  ∃ es es' f, p.world.log = es ++ es' ∧ p.seen ≤ es.length ∧ replay c file (saved es) = some f ∧
    Shows (F := F) p.published f

theorem Shown.mono (h : Shown c file p) (hlog : p.world.log <+: p'.world.log)
    (hseen : p'.seen = p.seen) (hpub : p'.published = p.published) : Shown c file p' := by
  obtain ⟨es, es', f, heq, hle, hreplay, hshows⟩ := h
  obtain ⟨more, hmore⟩ := hlog
  exact ⟨es, es' ++ more, f, by rw [← hmore, heq, List.append_assoc], by rwa [hseen], hreplay,
    by rwa [hpub]⟩

/-- What holds in every state of a process. -/
structure Holds (c : Crypto) (file pub : Option Bytes) (p : Process F) : Prop where
  world : Inv c file p.world
  seen : p.seen ≤ p.entered
  entered : p.entered ≤ p.world.log.length
  done : ∀ k ∈ p.done, k ≤ p.seen
  shown : p.done ≠ [] ∨ Shows (F := F) pub file → Shown c file p

/-- All that an act of a thread's does. -/
inductive Acts (c : Crypto) (file : Option Bytes) (i : ℕ) : Process F → Process F → Prop
  | world {v : Process F} {w : World F} : Does c file i v.world w →
      Acts c file i v { v with world := w }
  | enters {v : Process F} : v.publishing = none → Acts c file i v (v.enters i)
  | leaves {v : Process F} : v.publishing = some i → Acts c file i v v.leaves
  | writes {v : Process F} {data : Bytes} : v.publishing = some i →
      Shown c file (v.writes data) → Acts c file i v (v.writes data)
  | finishes {v : Process F} {k : ℕ} : k ≤ v.seen → Shown c file v →
      Acts c file i v (v.finishes k)

theorem acts_stays : Acts c file i p p := .world .stays

/-- An act adds to the log. -/
theorem does_log {w w' : World F} (h : Does c file i w w') : w.log <+: w'.log := by
  cases h <;> first | exact List.prefix_rfl | exact List.prefix_append _ _

theorem Holds.acts (hp : Holds c file pub p) (h : Acts c file i p p') : Holds c file pub p' := by
  cases h with
  | world hdoes =>
    have hlog := does_log hdoes
    exact ⟨hp.world.does hdoes, hp.seen, hp.entered.trans hlog.length_le, hp.done,
      fun h => (hp.shown h).mono hlog rfl rfl⟩
  | enters _ =>
    exact ⟨hp.world, hp.seen.trans hp.entered, le_refl _, hp.done,
      fun h => (hp.shown h).mono List.prefix_rfl rfl rfl⟩
  | leaves _ =>
    exact ⟨hp.world, hp.seen, hp.entered, hp.done,
      fun h => (hp.shown h).mono List.prefix_rfl rfl rfl⟩
  | writes _ hshown =>
    exact ⟨hp.world, le_refl _, hp.entered, fun k hk => (hp.done k hk).trans hp.seen,
      fun _ => hshown⟩
  | finishes hk hshown =>
    refine ⟨hp.world, hp.seen, hp.entered, fun d hd => ?_,
      fun _ => hshown.mono List.prefix_rfl rfl rfl⟩
    rcases List.mem_append.1 hd with hd | hd
    · exact hp.done d hd
    · exact List.mem_singleton.1 hd ▸ hk

/-! ## What a thread relies on -/

/-- What the other threads leave to a thread. -/
structure Leaves (c : Crypto) (file pub : Option Bytes) (i : ℕ) (p p' : Process F) : Prop where
  holds : Holds c file pub p → Holds c file pub p'
  world : Rely c file i p.world p'.world
  held : p.publishing = some i → p'.publishing = some i ∧ p'.entered = p.entered
  unheld : p.publishing ≠ some i → p'.publishing ≠ some i
  seen : Holds c file pub p → p.seen ≤ p'.seen
  shown : Shown c file p → Shown c file p'

theorem Leaves.refl (p : Process F) : Leaves c file pub i p p :=
  ⟨id, Rely.refl _, fun h => ⟨h, rfl⟩, id, fun _ => le_refl _, id⟩

theorem Leaves.trans {u : Process F} (h : Leaves c file pub i p p')
    (h' : Leaves c file pub i p' u) : Leaves c file pub i p u where
  holds hp := h'.holds (h.holds hp)
  world := h.world.trans h'.world
  held hp := by
    obtain ⟨h1, h2⟩ := h.held hp
    obtain ⟨h1', h2'⟩ := h'.held h1
    exact ⟨h1', h2'.trans h2⟩
  unheld hp := h'.unheld (h.unheld hp)
  seen hp := (h.seen hp).trans (h'.seen (h.holds hp))
  shown hp := h'.shown (h.shown hp)

/-- What each thread relies on. -/
def share (c : Crypto) (file pub : Option Bytes) : Pool.Share (Process F) where
  rely := Leaves c file pub
  refl _ := Leaves.refl
  trans _ := Leaves.trans

/-- What one thread does is what every other relies on. -/
theorem Leaves.acts (hp : Holds c file pub p) (h : Acts c file i p p') (hij : j ≠ i) :
    Leaves c file pub j p p' := by
  have hp' := hp.acts h
  have hother : p.publishing = some i → p.publishing ≠ some j := fun hi hj =>
    hij (Option.some.inj (hj.symm.trans hi))
  cases h with
  | world hdoes =>
    exact ⟨fun _ => hp', Rely.does hp.world hdoes hij, fun h => ⟨h, rfl⟩, id, fun _ => le_refl _,
      fun h => h.mono (does_log hdoes) rfl rfl⟩
  | enters hfree =>
    refine ⟨fun _ => hp', Rely.refl _, fun h => ?_, fun _ h => ?_, fun _ => le_refl _,
      fun h => h.mono List.prefix_rfl rfl rfl⟩
    · simp [hfree] at h
    · exact hij (Option.some.inj h).symm
  | leaves hheld =>
    exact ⟨fun _ => hp', Rely.refl _, fun h => absurd h (hother hheld),
      fun _ => by simp [Process.leaves], fun _ => le_refl _,
      fun h => h.mono List.prefix_rfl rfl rfl⟩
  | writes hheld hshown =>
    exact ⟨fun _ => hp', Rely.refl _, fun h => absurd h (hother hheld), id, fun hp => hp.seen,
      fun _ => hshown⟩
  | finishes _ hshown =>
    exact ⟨fun _ => hp', Rely.refl _, fun h => ⟨h, rfl⟩, id, fun _ => le_refl _,
      fun _ => hshown.mono List.prefix_rfl rfl rfl⟩

theorem Holds.kill (hp : Holds c file pub p) (dead : List ℕ) :
    Holds c file pub (p.kill dead) := by
  have hlog : p.world.log <+: (p.kill dead).world.log := List.prefix_append _ _
  exact ⟨hp.world.kill dead, hp.seen, hp.entered.trans hlog.length_le, hp.done,
    fun h => (hp.shown h).mono hlog rfl rfl⟩

theorem Leaves.kill (hp : Holds c file pub p) {dead : List ℕ} (hi : i ∉ dead) :
    Leaves c file pub i p (p.kill dead) where
  holds _ := hp.kill dead
  world := Rely.kill hp.world hi
  held h := ⟨by simp [Process.kill, h, hi], rfl⟩
  unheld h h' := h (Option.filter_eq_some_iff.1 h').1
  seen _ := le_refl _
  shown h := h.mono (List.prefix_append _ _) rfl rfl

theorem Holds.others (hp : Holds c file pub p) (luck : Option PyError)
    (king : Except PyError (Option SubmissionRef)) :
    Holds c file pub { p with world := { p.world with luck := luck }, king := king } :=
  ⟨hp.world.luck luck, hp.seen, hp.entered, hp.done,
    fun h => (hp.shown h).mono List.prefix_rfl rfl rfl⟩

theorem Leaves.others (hp : Holds c file pub p) (luck : Option PyError)
    (king : Except PyError (Option SubmissionRef)) :
    Leaves c file pub i p { p with world := { p.world with luck := luck }, king := king } where
  holds _ := hp.others luck king
  world := Rely.luck hp.world luck
  held h := ⟨h, rfl⟩
  unheld := id
  seen _ := le_refl _
  shown h := h.mono List.prefix_rfl rfl rfl

/-- A thread between two operations on the queue, with `_publishing` or without it. -/
structure Stage (c : Crypto) (file pub : Option Bytes) (i : ℕ) (held : Bool) (p : Process F) :
    Prop where
  holds : Holds c file pub p
  idle : Idle i p.world
  lock : p.publishing = some i ↔ held = true

/-- What holds of a process outlasts what a thread relies on. -/
def Lasts (c : Crypto) (file pub : Option Bytes) (i : ℕ) (P : Process F → Prop) : Prop :=
  ∀ p p', P p → Leaves c file pub i p p' → P p'

theorem Leaves.lock (h : Leaves c file pub i p p') {held : Bool}
    (hp : p.publishing = some i ↔ held = true) : p'.publishing = some i ↔ held = true := by
  by_cases hi : p.publishing = some i
  · exact iff_of_true (h.held hi).1 (hp.1 hi)
  · exact iff_of_false (h.unheld hi) fun hh => hi (hp.2 hh)

variable {held : Bool} {k : ℕ}

theorem Stage.lasts : Lasts c file pub i (Stage (F := F) c file pub i held) := fun _ _ hp h =>
  ⟨h.holds hp.holds, hp.idle.rely h.world, h.lock hp.lock⟩

/-- What is published was seen once `k` had happened. -/
structure Told (c : Crypto) (file pub : Option Bytes) (i : ℕ) (held : Bool) (k : ℕ)
    (p : Process F) : Prop where
  stage : Stage c file pub i held p
  seen : k ≤ p.seen
  shown : Shown c file p

theorem Told.lasts : Lasts c file pub i (Told (F := F) c file pub i held k) := fun _ _ hp h =>
  ⟨Stage.lasts _ _ hp.stage h, hp.seen.trans (h.seen hp.stage.holds), h.shown hp.shown⟩

/-- A thread that has `_publishing`, which it waited for once `k` had happened. -/
structure Within (c : Crypto) (file pub : Option Bytes) (i k : ℕ) (p : Process F) : Prop where
  stage : Stage c file pub i true p
  entered : k ≤ p.entered

theorem Within.lasts : Lasts c file pub i (Within (F := F) c file pub i k) := fun _ _ hp h =>
  ⟨Stage.lasts _ _ hp.stage h, by rw [(h.held (hp.stage.lock.2 rfl)).2]; exact hp.entered⟩

/-- A document shows a state that the file has had since `_publishing` was taken. -/
def Fetched (c : Crypto) (file : Option Bytes) (doc : Json F) (p : Process F) : Prop :=
  ∃ es es' f, p.world.log = es ++ es' ∧ p.entered ≤ es.length ∧
    replay c file (saved es) = some f ∧ ∃ s track king schema now, load f = .ok s ∧
      doc = snapshotDoc track king schema now s.block s.inProgress s.entries

theorem Fetched.lasts {doc : Json F} :
    Lasts c file pub i fun p => Within c file pub i k p ∧ Fetched c file doc p := by
  rintro p p' ⟨hp, es, es', f, heq, hle, hf⟩ h
  obtain ⟨more, hmore⟩ := h.world.log
  refine ⟨Within.lasts _ _ hp h, es, es' ++ more, f, by rw [← hmore, heq, List.append_assoc], ?_,
    hf⟩
  rwa [(h.held (hp.stage.lock.2 rfl)).2]

/-- The state that a snapshot shows is one since its operation began. -/
theorem fetched_of_answered {log : List (Event F)} {doc : Json F}
    (h : AnsweredAfter c file log p.world (.doc doc)) (hlog : log <+: p.world.log)
    (hle : p.entered ≤ log.length) : Fetched c file doc p := by
  obtain ⟨n, hnew, es, es', r, f, heq, hbegan, -, hreplay, hr⟩ := h
  have hlen : log.length ≤ es.length := by
    by_contra hlt
    have hpre : es <+: log :=
      List.prefix_of_prefix_length_le (heq ▸ List.prefix_append es es') hlog (by omega)
    exact hnew _ (hpre.subset hbegan) rfl
  refine ⟨es, es', f, heq, hle.trans hlen, hreplay, ?_⟩
  cases r with
  | mutate m =>
    obtain ⟨es'', f', a, -, -, hdoc⟩ := hr
    simp at hdoc
  | query q =>
    obtain ⟨s, hload, hq⟩ := hr
    cases q with
    | reload =>
      obtain ⟨q, k, hdoc, -⟩ := hq
      simp at hdoc
    | snapshot track king schema now =>
      exact ⟨s, track, king, schema, now, hload, by simpa [Query.Answers] using hq⟩

/-! ## What programs keep -/

/-- What a program of a thread's keeps, and how it ends. -/
abbrev Goes {α : Type} (c : Crypto) (file pub : Option Bytes) (i : ℕ)
    (Q : Except PyError α → Process F → Prop) (b : PublishProg F α) (p : Process F) : Prop :=
  Wp ((share c file pub).env Process.opens i) (fun _ => Acts c file i) Q b p

/-- An operation on the queue. -/
theorem goes_operation (hp : Stage c file pub i held p) (q : ℕ) (r : Request F) :
    Goes c file pub i (fun x u => Stage c file pub i held u ∧
        (held = true → u.entered = p.entered) ∧ p.world.log <+: u.world.log ∧
        ∀ v, x = .ok v → AnsweredAfter c file p.world.log u.world v)
      ((operation c i q r).lift (onWorld F) .queue) p := by
  refine Wp.lift (Φ := fun u => (Holds c file pub u ∧ (u.publishing = some i ↔ held = true)) ∧
    (held = true → u.entered = p.entered) ∧ p.world.log <+: u.world.log) ?_ ?_ ?_
    ⟨⟨hp.holds, hp.lock⟩, fun _ => rfl, List.prefix_rfl⟩ (runs_operation hp.idle hp.holds.world)
  · intro u u' hu h
    exact ⟨⟨⟨h.holds hu.1.1, h.lock hu.1.2⟩,
      fun hh => (h.held (hu.1.2.2 hh)).2.trans (hu.2.1 hh), hu.2.2.trans h.world.log⟩, h.world⟩
  · intro t u w hu ht
    exact ⟨ht, fun hdoes => ⟨.world hdoes, ⟨hu.1.1.acts (.world hdoes), hu.1.2⟩, hu.2.1,
      hu.2.2.trans (does_log hdoes)⟩⟩
  · intro x u hu hx
    refine ⟨⟨hu.1.1, hx.idle, hu.1.2⟩, hu.2.1, hu.2.2, ?_⟩
    rintro v rfl
    exact hx.2

/-- One act, or an exception instead. -/
theorem goes_fallible {α : Type} {P : Process F → Prop} {Q : Except PyError α → Process F → Prop}
    {t : Gate} {f : Process F → Process F} {r : Process F → Except PyError α} (hp : P p)
    (hP : Lasts c file pub i P) (herror : ∀ e u, P u → Q (.error e) u)
    (hact : ∀ u, P u → Process.opens t u → Acts c file i u (f u) ∧
      ∀ u', Leaves c file pub i (f u) u' → Q (r u) u') :
    Goes c file pub i Q (Prog.fallible Process.luck (.act t f fun u => .ret (r u))) p := by
  refine Wp.fallible (R := P) (fun _ _ _ => acts_stays)
    (fun e u u' hu h => herror e u' (hP u u' hu h)) ?_
  refine Wp.step hp hP fun u hu ht => ?_
  obtain ⟨hacts, hq⟩ := hact u hu ht
  exact ⟨⟨hacts, hu⟩, Wp.done (P := fun u' => Leaves c file pub i (f u) u') (.refl _)
    (fun _ _ h h' => h.trans h') hq⟩

/-- A snapshot is written. -/
theorem Within.writes {doc : Json F} (hp : Within c file pub i k p) (hf : Fetched c file doc p)
    {t : PyStr} (ht : dumps indented true doc = some t) :
    Acts c file i p (p.writes (encodeUtf8 (t ++ [10]))) ∧
      Told c file pub i true k (p.writes (encodeUtf8 (t ++ [10]))) := by
  obtain ⟨es, es', f, heq, hle, hreplay, s, track, king, schema, now, hload, rfl⟩ := hf
  have hshown : Shown c file (p.writes (encodeUtf8 (t ++ [10]))) :=
    ⟨es, es', f, heq, hle, hreplay, s, track, king, schema, now, t, hload, ht, rfl⟩
  have hacts : Acts c file i p (p.writes (encodeUtf8 (t ++ [10]))) :=
    .writes (hp.stage.lock.2 rfl) hshown
  exact ⟨hacts, ⟨⟨hp.stage.holds.acts hacts, hp.stage.idle, hp.stage.lock⟩, hp.entered, hshown⟩⟩

/-- What is written is the snapshot. -/
theorem goes_writeQueue {v : Reply F} (hp : Within c file pub i k p)
    (hv : ∀ doc, v = .doc doc → Fetched c file doc p) :
    Goes c file pub i (Post (Stage c file pub i true) fun _ => Told c file pub i true k)
      (Prog.fallible Process.luck (writeQueue v)) p := by
  have hraise : ∀ e, Goes c file pub i (Post (Stage c file pub i true)
      fun _ : Unit => Told c file pub i true k) (.ret (.error e)) p := fun e =>
    Wp.done hp Within.lasts fun u hu => hu.stage
  cases v with
  | answer a => exact hraise .typeError
  | state q n => exact hraise .typeError
  | doc doc =>
    rw [writeQueue]
    cases ht : dumps indented true doc with
    | none => exact hraise .valueError
    | some t =>
      have hlasts : Lasts c file pub i fun u => Within c file pub i k u ∧ Fetched c file doc u :=
        Fetched.lasts
      refine goes_fallible ⟨hp, hv doc rfl⟩ hlasts (fun e u hu => hu.1.stage) fun u hu _ => ?_
      obtain ⟨hacts, htold⟩ := hu.1.writes hu.2 ht
      exact ⟨hacts, fun u' h => Told.lasts _ _ htold h⟩

/-- `_publishing` is taken, or the thread raises. -/
theorem goes_enters (hp : Stage c file pub i false p ∧ k ≤ p.world.log.length) :
    Goes c file pub i (Post (Stage c file pub i false) fun _ => Within c file pub i k)
      (Prog.fallible Process.luck (.write .publishing (·.enters i))) p := by
  have hlasts : Lasts c file pub i fun u : Process F =>
      Stage c file pub i false u ∧ k ≤ u.world.log.length :=
    fun u u' hu h => ⟨Stage.lasts _ _ hu.1 h, hu.2.trans h.world.log.length_le⟩
  refine goes_fallible hp hlasts (fun e u hu => hu.1) fun u hu hfree => ?_
  have hacts : Acts c file i u (u.enters i) := .enters hfree
  have hwithin : Within c file pub i k (u.enters i) :=
    ⟨⟨hu.1.holds.acts hacts, hu.1.idle, by simp [Process.enters]⟩, hu.2⟩
  exact ⟨hacts, fun u' h => Within.lasts _ _ hwithin h⟩

/-- A snapshot is computed and written, under the lock. -/
theorem goes_within (hp : Within c file pub i k p) (q : ℕ) (track : PyStr) (schema : ℤ)
    (now : PyStr) :
    Goes c file pub i (Post (Stage c file pub i true) fun _ => Told c file pub i true k) (do
      let king ← Prog.fallible Process.luck (.try' (.queue .nothing) (·.king))
      let doc ← (operation c i q (.query (.snapshot track king schema now))).lift (onWorld F) .queue
      Prog.fallible Process.luck (writeQueue doc)) p := by
  -- the king
  refine wp_bind.2 ((goes_fallible (Q := Post (Stage c file pub i true)
    fun _ => Within c file pub i k) hp Within.lasts (fun e u hu => hu.stage) fun u hu _ =>
      ⟨acts_stays, fun u' h => ?_⟩).mono fun x u hu => ?_)
  · cases u.king with
    | error e => exact Stage.lasts _ _ hu.stage h
    | ok king => exact Within.lasts _ _ hu h
  cases x with
  | error e => exact hu
  | ok king =>
    -- the snapshot
    have hu : Within c file pub i k u := hu
    refine wp_bind.2 ((goes_operation hu.stage q _).mono fun x u' hu' => ?_)
    obtain ⟨hstage, hentered, hlog, hans⟩ := hu'
    cases x with
    | error e => exact hstage
    | ok v =>
      have hle : u'.entered = u.entered := hentered rfl
      refine goes_writeQueue ⟨hstage, by rw [hle]; exact hu.entered⟩ ?_
      rintro doc rfl
      exact fetched_of_answered (hans _ rfl) hlog (by rw [hle]; exact hu.stage.holds.entered)

/-- `_publishing` is released. -/
theorem Stage.leaves (hp : Stage c file pub i true p) :
    Acts c file i p p.leaves ∧ Stage c file pub i false p.leaves := by
  have hacts : Acts c file i p p.leaves := .leaves (hp.lock.2 rfl)
  exact ⟨hacts, hp.holds.acts hacts, hp.idle, by simp [Process.leaves]⟩

theorem Told.leaves (hp : Told c file pub i true k p) :
    Acts c file i p p.leaves ∧ Told c file pub i false k p.leaves :=
  ⟨hp.stage.leaves.1, hp.stage.leaves.2, hp.seen, hp.shown.mono List.prefix_rfl rfl rfl⟩

/-- `publish_queue`. -/
theorem goes_publishQueue (hp : Stage c file pub i false p) (q : ℕ) (track : PyStr) (schema : ℤ)
    (now : PyStr) (mirror : Bool) :
    Goes c file pub i (fun _ => Stage c file pub i false)
      (publishQueue c i q track schema now mirror) p := by
  have hstage : Lasts c file pub i (Stage (F := F) c file pub i false) := Stage.lasts
  refine wp_bind.2 (Wp.step hp hstage fun p hp _ => ⟨acts_stays, ?_⟩)
  beta_reduce
  generalize hk : p.world.log.length = k
  have hlasts : Lasts c file pub i fun u : Process F =>
      Stage c file pub i false u ∧ k ≤ u.world.log.length :=
    fun u u' hu h => ⟨Stage.lasts _ _ hu.1 h, hu.2.trans h.world.log.length_le⟩
  refine Wp.done (P := fun u => Stage c file pub i false u ∧ k ≤ u.world.log.length)
    ⟨hp, hk.ge⟩ hlasts fun u hu => ?_
  refine wp_bind.2 ((goes_enters hu).mono fun x u hu => ?_)
  cases x with
  | error e => exact hu
  | ok _ =>
    refine wp_bind.2 (Wp.finally' ((goes_within hu q track schema now).mono fun x u hu => ?_))
    cases x with
    | error e =>
      refine Wp.step (P := Stage c file pub i true) hu Stage.lasts fun u hu _ => ?_
      exact ⟨hu.leaves.1, Wp.done hu.leaves.2 hstage fun u hu => hu⟩
    | ok _ =>
      refine Wp.step (P := Told c file pub i true k) hu Told.lasts fun u hu _ => ?_
      refine ⟨hu.leaves.1, Wp.done hu.leaves.2 Told.lasts fun u hu => ?_⟩
      have hend : ∀ u : Process F, Told c file pub i false k u → Goes c file pub i
          (fun _ => Stage c file pub i false) (.write (.queue .nothing) (·.finishes k)) u := by
        refine fun u hu => Wp.step hu Told.lasts fun u hu _ => ?_
        have hacts : Acts c file i u (u.finishes k) := .finishes hu.seen hu.shown
        exact ⟨hacts, Wp.done ⟨hu.stage.holds.acts hacts, hu.stage.idle, hu.stage.lock⟩ hstage
          fun u hu => hu⟩
      cases mirror with
      | false => exact hend u hu
      | true =>
        refine wp_bind.2 ((goes_fallible (r := fun _ => .ok ()) (Q := Post
          (Stage c file pub i false) fun _ => Told c file pub i false k) hu Told.lasts (fun e u hu => hu.stage) fun u hu _ =>
            ⟨acts_stays, fun u' h => Told.lasts _ _ hu h⟩).mono fun x u hu => ?_)
        cases x with
        | error e => exact hu
        | ok _ => exact hend u hu

theorem goes_task (hp : Stage c file pub i false p) (t : Task F) :
    Goes c file pub i (fun _ => Stage c file pub i false) (t.prog c i) p := by
  cases t with
  | operate q r =>
    refine wp_bind.2 ((goes_operation hp q r).mono fun x u hu => ?_)
    cases x with
    | error e => exact hu.1
    | ok v => exact Wp.done hu.1 Stage.lasts fun u hu => hu
  | publish q track schema now mirror => exact goes_publishQueue hp q track schema now mirror

/-! ## Runs -/

/-- A thread has no lock. -/
def Rests (i : ℕ) (p : Process F) : Prop := Idle i p.world ∧ p.publishing ≠ some i

/-- The premises of the rule of threads. -/
theorem rule (c : Crypto) (file pub : Option Bytes) :
    Pool.Rule (pool F c) (share c file pub) (fun i _ => Acts c file i) (Holds c file pub)
      (fun i _ _ => Rests i) Rests where
  prog i t p _ hp hrests :=
    (goes_task ⟨hp, hrests.1, by simp [hrests.2]⟩ t).mono fun _ u hu =>
      ⟨hu.idle, fun hi => by simpa using hu.lock.1 hi⟩
  act i _ p p' hp _ h := ⟨hp.acts h, fun _ hj => Leaves.acts hp h hj⟩
  kill dead p hp := ⟨hp.kill dead, fun _ hj => Leaves.kill hp hj⟩
  others p p' hp h := by
    obtain ⟨luck, king, rfl⟩ := h
    exact ⟨hp.others luck king, fun _ => Leaves.others hp luck king⟩
  idle i p p' hrests h := ⟨hrests.1.rely h.world, h.unheld hrests.2⟩
  ended _ _ _ _ h := h
  killed dead i p hi := ⟨idle_kill hi p.world, fun h => by
    have := (Option.filter_eq_some_iff.1 h).2
    simp [hi] at this⟩

/-- The rest of a log in which nothing is saved. -/
theorem saved_eq_nil {log : List (Event F)} (h : ∀ e ∈ log, isSaved e = false) : saved log = [] := by
  refine List.filterMap_eq_nil_iff.2 fun e he => ?_
  have := h e he
  cases e <;> simp_all [isSaved]

/-- Once no mutation is owed its `publish_queue`, the snapshot shows the queue file. -/
theorem Holds.shows (hp : Holds c file pub p) (hstart : p.done ≠ [] ∨ Shows (F := F) pub file)
    (howed : ¬Owed p) : Shows (F := F) p.published p.world.file := by
  obtain ⟨es, es', f, heq, hle, hreplay, hshows⟩ := hp.shown hstart
  have hrest : saved es' = [] := by
    refine saved_eq_nil fun e he => ?_
    obtain ⟨k, hk, rfl⟩ := List.getElem_of_mem he
    by_contra hsaved
    have hsaved : isSaved es'[k] = true := by simpa using hsaved
    refine howed ⟨es.length + k, by rw [heq, List.length_append]; omega, ?_, fun d hd => ?_⟩
    · rw [heq, List.getElem?_append_right (by omega), Nat.add_sub_cancel_left,
        List.getElem?_eq_getElem hk]
      simpa using hsaved
    · have := hp.done d hd
      omega
  have hfile := hp.world.replay
  rw [heq, saved_append, hrest, List.append_nil, hreplay] at hfile
  obtain rfl := Option.some.inj hfile
  exact hshows

end Fresh

end Publish

end IcilOrchestrator
