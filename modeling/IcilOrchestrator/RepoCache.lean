import Mathlib
import IcilOrchestrator.Text
import IcilOrchestrator.Threads

/-!
# The cache of checkouts

`RepoCache` holds a checkout under its sha, with a marker that is written last. Any number of
processes look a checkout up, without a lock, or store one, under a lock : each does one act after
another, which may raise, and is killed at any time.

`whole_of_reach` : what is returned is the whole of what one fill wrote, within the bound, and stays
as it is, in every run in which no process that holds the lock fails to read a marker that is there.
`replaced` is a run in which one does : `lookup` takes that for no marker, and the checkout that
another process was given is removed and filled again.
-/

namespace IcilOrchestrator

open Python Prog

namespace RepoCache

/-! ## An entry of the cache -/

/-- The files of a directory, by their paths. -/
abbrev Files := List (PyStr × Bytes)

/-- What a `fill` does to its directory, step by step. -/
abbrev Fill := List (Files → Files)

/-- What a fill leaves that has not raised. -/
def written (fill : Fill) : Files := fill.foldl (fun files step => step files) []

/-- `measure` : bytes and files. -/
def measure (files : Files) : ℕ × ℕ := ((files.map fun x => x.2.length).sum, files.length)

/-- What the cache has for one sha. -/
structure Entry where
  /-- The checkout that is being filled. -/
  partial_ : Option Files
  /-- The checkout. -/
  repo : Option Files
  /-- The bytes and files that `fetched.json` says. -/
  marker : Option (ℕ × ℕ)
  /-- The process that holds the lock. -/
  lock : Option ℕ
  /-- The fills that have been completed. -/
  completed : List Fill

/-- An entry, and whether the next act on it fails. -/
structure World where
  entry : Entry
  trouble : Bool

/-- What is raised. -/
inductive Raised where
  | os
  | rejected
deriving DecidableEq

/-- `Fetched`, without what is known of it before. -/
structure Fetched where
  bytes : ℕ
  files : ℕ
  cached : Bool
deriving DecidableEq

/-- What an act is. -/
inductive Gate where
  | free
  /-- It waits for the lock. -/
  | lock
  /-- A marker is read, by a process that holds the lock, or by one that does not. -/
  | marker (locked : Bool)
  /-- A directory is looked for. -/
  | look (locked : Bool)
deriving DecidableEq

abbrev CacheProg (α : Type) := Prog World Gate Raised α

/-- What the next act raises. -/
def World.raises (w : World) : Option Raised := if w.trouble then some .os else none

/-- An act on the entry. -/
def onEntry (f : Entry → Entry) (w : World) : World := { w with entry := f w.entry }

/-- A write that may raise. -/
def write (f : Entry → Entry) : CacheProg Unit :=
  Prog.fallible World.raises (.write .free (onEntry f))

/-! ## `rmtree` -/

/-- A directory of the entry. -/
inductive Part where
  | partial_
  | repo
deriving DecidableEq

namespace Entry

variable (e : Entry)

def files : Part → Option Files
  | .partial_ => e.partial_
  | .repo => e.repo

def withFiles (files : Option Files) : Part → Entry
  | .partial_ => { e with partial_ := files }
  | .repo => { e with repo := files }

/-- A file is removed. -/
def unlink (p : Part) (path : PyStr) : Entry :=
  e.withFiles ((e.files p).map fun files => files.filter fun x => x.1 ≠ path) p

/-- A directory is removed that is empty. -/
def rmdir (p : Part) : Entry := if e.files p = some [] then e.withFiles none p else e

/-- A directory is moved over one that is empty or not there; else nothing is done. -/
def rename : Entry :=
  if e.repo = none ∨ e.repo = some [] then { e with repo := e.partial_, partial_ := none } else e

end Entry

/-- A write of which an error is ignored. -/
def attempt (f : Entry → Entry) : CacheProg Unit :=
  .write .free fun w => if w.trouble then w else onEntry f w

/-- `shutil.rmtree(path, ignore_errors=True)`. -/
def rmtree (p : Part) : CacheProg Unit := do
  let paths ← .read .free fun w =>
    if w.trouble then [] else ((w.entry.files p).getD []).map Prod.fst
  each (fun path => attempt fun e => e.unlink p path) paths
  attempt fun e => e.rmdir p

/-! ## `RepoCache` -/

/-- `Path.is_dir`, of the checkout; from Python 3.13 on it hides an error. -/
def isDir (hides locked : Bool) : CacheProg Bool :=
  .try' (.look locked) fun w =>
    if w.trouble then if hides then .ok false else .error .os else .ok w.entry.repo.isSome

/-- `RepoCache.lookup`. -/
def lookup (hides locked : Bool) : CacheProg (Option Fetched) := do
  let doc ← .read (.marker locked) fun w => if w.trouble then none else w.entry.marker
  match doc with
  | none => pure none
  | some (bytes, files) =>
    if ← isDir hides locked then pure (some ⟨bytes, files, true⟩) else pure none

/-- `partial.mkdir()`. -/
def mkdir : CacheProg Unit :=
  .act .free
    (fun w => if w.trouble ∨ w.entry.partial_.isSome then w
      else onEntry (fun e => { e with partial_ := some [] }) w)
    fun w => if w.trouble ∨ w.entry.partial_.isSome then raise .os else pure ⟨⟩

/-- `partial.rename(final)`. -/
def rename : CacheProg Unit :=
  .act .free (fun w => if w.trouble then w else onEntry Entry.rename w) fun w =>
    if w.trouble ∨ w.entry.partial_ = none ∨ ¬(w.entry.repo = none ∨ w.entry.repo = some []) then
      raise .os
    else pure ⟨⟩

/-- The directory is filled, measured, and moved to its place. -/
def fillAndMove (maxBytes : ℕ) (fill : Fill) : CacheProg (ℕ × ℕ) := do
  each (fun step => write fun e => { e with partial_ := e.partial_.map step }) fill
  .write .free (onEntry fun e => { e with completed := fill :: e.completed })
  let sizes ← Prog.fallible World.raises
    (.read .free fun w => measure (w.entry.partial_.getD []))
  if maxBytes < sizes.1 then raise .rejected
  rmtree .repo
  rename
  pure sizes

/-- `RepoCache._fill`. -/
def fillEntry (maxBytes : ℕ) (fill : Fill) : CacheProg Fetched := do
  rmtree .partial_
  mkdir
  let sizes ← (fillAndMove maxBytes fill).catch' fun e => do
    rmtree .partial_
    raise e
  write id
  write fun e => { e with marker := some sizes }
  pure ⟨sizes.1, sizes.2, false⟩

/-- What `store` does once it has the lock. -/
def storeHeld (hides : Bool) (maxBytes : ℕ) (fill : Fill) : CacheProg (Option Fetched) := do
  match ← lookup hides true with
  | some fetched => pure (some fetched)
  | none => return some (← fillEntry maxBytes fill)

/-- `RepoCache.store`, of a process. -/
def store (hides : Bool) (maxBytes i : ℕ) (fill : Fill) : CacheProg (Option Fetched) := do
  write id
  write id
  finally' (do
    Prog.fallible World.raises (.write .lock (onEntry fun e => { e with lock := some i }))
    storeHeld hides maxBytes fill)
    (.write .free (onEntry fun e => if e.lock = some i then { e with lock := none } else e))

/-- What a process is asked for. -/
inductive Request where
  | lookup
  | store (fill : Fill)

def Request.prog (hides : Bool) (maxBytes i : ℕ) : Request → CacheProg (Option Fetched)
  | .lookup => RepoCache.lookup hides false
  | .store fill => RepoCache.store hides maxBytes i fill

/-- The processes, whose acts fail at any time; `allows` says which runs are looked at. -/
def pool (hides : Bool) (maxBytes : ℕ) (allows : Gate → World → Prop) :
    Pool World Gate Raised (Option Fetched) Request where
  prog i r := r.prog hides maxBytes i
  starts _ _ _ := True
  meets t w := (t = .lock → w.entry.lock = none) ∧ allows t w
  reset dead w := onEntry (fun e => { e with lock := e.lock.filter (· ∉ dead) }) w
  others w w' := ∃ trouble, w' = { w with trouble := trouble }

/-- A process that holds the lock does not fail to read a marker that is there, nor to see its
directory. -/
def Reads (hides : Bool) : Gate → World → Prop
  | .marker true, w => w.entry.marker.isSome = true → w.trouble = false
  | .look true, w => hides = true → w.trouble = false
  | _, _ => True

/-- A cache that has nothing under a sha. -/
def start : World := ⟨⟨none, none, none, none, []⟩, false⟩

/-! ## What processes do and rely on -/

variable {maxBytes i j : ℕ} {hides : Bool} {e e' : Entry}

/-- The checkout is what a fill has written, within the bound, of a marker's size. -/
def Whole (maxBytes : ℕ) (e : Entry) (m : ℕ × ℕ) : Prop :=
  ∃ fill ∈ e.completed, e.repo = some (written fill) ∧ measure (written fill) = m ∧ m.1 ≤ maxBytes

/-- A marker stands beside a whole checkout. -/
def Holds (maxBytes : ℕ) (e : Entry) : Prop := ∀ m, e.marker = some m → Whole maxBytes e m

/-- All that an act of a process does to an entry. -/
inductive Acts (maxBytes i : ℕ) : Entry → Entry → Prop
  | stays {e : Entry} : Acts maxBytes i e e
  | locks {e : Entry} : e.lock = none → Acts maxBytes i e { e with lock := some i }
  | unlocks {e : Entry} : e.lock = some i → Acts maxBytes i e { e with lock := none }
  /-- What is filled, removed or moved, while there is no marker. -/
  | works {e : Entry} (partial_ repo : Option Files) (completed : List Fill) : e.lock = some i →
      e.marker = none →
      Acts maxBytes i e { e with partial_ := partial_, repo := repo, completed := completed }
  | marks {e : Entry} {m : ℕ × ℕ} : e.lock = some i → e.marker = none → Whole maxBytes e m →
      Acts maxBytes i e { e with marker := some m }

/-- What the others leave to a process. -/
structure Leaves (maxBytes i : ℕ) (e e' : Entry) : Prop where
  holds : Holds maxBytes e → Holds maxBytes e'
  /-- Nobody changes anything while it holds the lock. -/
  held : e.lock = some i → e' = e
  unheld : e.lock ≠ some i → e'.lock ≠ some i
  /-- What has a marker stays. -/
  frozen : ∀ m, e.marker = some m → e'.marker = some m ∧ e'.repo = e.repo

theorem Leaves.refl (e : Entry) : Leaves maxBytes i e e :=
  ⟨id, fun _ => rfl, id, fun _ h => ⟨h, rfl⟩⟩

theorem Leaves.trans {e'' : Entry} (h : Leaves maxBytes i e e') (h' : Leaves maxBytes i e' e'') :
    Leaves maxBytes i e e'' where
  holds he := h'.holds (h.holds he)
  held he := by
    obtain rfl := h.held he
    exact h'.held he
  unheld he := h'.unheld (h.unheld he)
  frozen m hm := by
    obtain ⟨hm', hrepo⟩ := h.frozen m hm
    obtain ⟨hm'', hrepo'⟩ := h'.frozen m hm'
    exact ⟨hm'', hrepo'.trans hrepo⟩

theorem Acts.holds (h : Acts maxBytes i e e') (he : Holds maxBytes e) : Holds maxBytes e' := by
  cases h with
  | stays => exact he
  | locks _ => exact he
  | unlocks _ => exact he
  | works partial_ repo completed _ hmarker =>
    intro m hm
    exact absurd (hmarker.symm.trans hm) (by simp)
  | @marks m _ _ hwhole =>
    rintro m' ⟨⟩
    exact hwhole

/-- No act changes what has a marker. -/
theorem Acts.frozen (h : Acts maxBytes i e e') {m : ℕ × ℕ} (hm : e.marker = some m) :
    e'.marker = some m ∧ e'.repo = e.repo := by
  cases h with
  | stays => exact ⟨hm, rfl⟩
  | locks _ => exact ⟨hm, rfl⟩
  | unlocks _ => exact ⟨hm, rfl⟩
  | works _ _ _ _ hmarker => exact absurd (hmarker.symm.trans hm) (by simp)
  | marks _ hmarker _ => exact absurd (hmarker.symm.trans hm) (by simp)

/-- What one process does, another relies on. -/
theorem Acts.leaves (h : Acts maxBytes i e e') (hij : j ≠ i) : Leaves maxBytes j e e' := by
  refine ⟨h.holds, fun hj => ?_, fun hj => ?_, fun m => h.frozen⟩
  · cases h with
    | stays => rfl
    | locks hlock => exact absurd (hlock.symm.trans hj) (by simp)
    | unlocks hlock => exact absurd (Option.some.inj (hj.symm.trans hlock)) hij
    | works _ _ _ hlock => exact absurd (Option.some.inj (hj.symm.trans hlock)) hij
    | marks hlock => exact absurd (Option.some.inj (hj.symm.trans hlock)) hij
  · cases h with
    | stays => exact hj
    | locks hlock => exact fun h => hij (Option.some.inj h).symm
    | unlocks hlock => simp
    | works _ _ _ hlock => exact hj
    | marks hlock => exact hj

/-- What each process relies on. -/
def share (maxBytes : ℕ) : Pool.Share World where
  rely i w w' := Leaves maxBytes i w.entry w'.entry
  refl _ _ := .refl _
  trans _ _ _ _ h h' := h.trans h'

/-! ## Rules -/

/-- What a process's program relies on, in the runs that are looked at. -/
abbrev env (hides : Bool) (maxBytes i : ℕ) : Env World Gate :=
  (share maxBytes).env (pool hides maxBytes (Reads hides)).meets i

/-- What is said of an entry while nobody but others act on it. -/
def Stable (maxBytes i : ℕ) (P : Entry → Prop) : Prop :=
  ∀ e e', P e → Leaves maxBytes i e e' → P e'

/-- From `P`, a program ends in `Q` of its result, or in `X` when it raises. -/
def Runs (hides : Bool) (maxBytes i : ℕ) {α : Type} (P : Entry → Prop) (p : CacheProg α)
    (X : Entry → Prop) (Q : α → Entry → Prop) : Prop :=
  ∀ w : World, P w.entry → Wp (env hides maxBytes i)
    (fun _ w w' => Acts maxBytes i w.entry w'.entry) (fun r w => Post X Q r w.entry) p w

variable {α β : Type} {P P' X X' : Entry → Prop} {Q : α → Entry → Prop} {R : β → Entry → Prop}

/-- Holding the lock, a process finds what it left. -/
theorem stable_held (h : ∀ e, P e → e.lock = some i) : Stable maxBytes i P :=
  fun _ _ he hleaves => (hleaves.held (h _ he)).symm ▸ he

theorem runs_ret {r : Except Raised α} (hP : Stable maxBytes i P) (h : ∀ e, P e → Post X Q r e) :
    Runs hides maxBytes i P (.ret r) X Q :=
  fun _ hw => Wp.done (P := fun w => P w.entry) hw (fun _ _ => hP _ _) fun _ => h _

/-- One act, and what comes after it. -/
theorem runs_act {t : Gate} {f : World → World} {k : World → CacheProg α}
    (hP : Stable maxBytes i P)
    (h : ∀ w, P w.entry → (pool hides maxBytes (Reads hides)).meets t w →
      Acts maxBytes i w.entry (f w).entry ∧
        ∃ P' : Entry → Prop, P' (f w).entry ∧ Runs hides maxBytes i P' (k w) X Q) :
    Runs hides maxBytes i P (.act t f k) X Q := by
  refine fun w hw => Wp.step (P := fun w => P w.entry) hw (fun _ _ => hP _ _) fun w hw ht => ?_
  obtain ⟨hacts, P', hP', hk⟩ := h w hw ht
  exact ⟨hacts, hk _ hP'⟩

theorem Runs.bind {p : CacheProg β} {f : β → CacheProg α} (hp : Runs hides maxBytes i P p X R)
    (hf : ∀ b, Runs hides maxBytes i (R b) (f b) X Q) :
    Runs hides maxBytes i P (p.bind f) X Q := by
  intro w hw
  refine wp_bind.2 ((hp w hw).mono fun r w' hr => ?_)
  cases r with
  | ok b => exact hf b w' hr
  | error x => exact hr

theorem Runs.catch {p : CacheProg α} {h : Raised → CacheProg α}
    (hp : Runs hides maxBytes i P p X' Q) (hh : ∀ x, Runs hides maxBytes i X' (h x) X Q) :
    Runs hides maxBytes i P (p.catch' h) X Q := by
  intro w hw
  refine wp_catch.2 ((hp w hw).mono fun r w' hr => ?_)
  cases r with
  | ok b => exact hr
  | error x => exact hh x w' hr

theorem Runs.weaken {p : CacheProg α} {Q' : α → Entry → Prop}
    (hp : Runs hides maxBytes i P p X Q) (hP : ∀ e, P' e → P e) (hX : ∀ e, X e → X' e)
    (hQ : ∀ a e, Q a e → Q' a e) : Runs hides maxBytes i P' p X' Q' := by
  intro w hw
  refine (hp w (hP _ hw)).mono fun r w' hr => ?_
  cases r with
  | ok a => exact hQ a _ hr
  | error x => exact hX _ hr

theorem runs_each {f : β → CacheProg Unit} {I : List β → Entry → Prop}
    (hstable : Stable maxBytes i (I []))
    (hcons : ∀ x xs, Runs hides maxBytes i (I (x :: xs)) (f x) X fun _ => I xs) (xs : List β) :
    Runs hides maxBytes i (I xs) (each f xs) X fun _ => I [] := by
  induction xs with
  | nil => exact runs_ret hstable fun _ h => h
  | cons x xs ih => exact (hcons x xs).bind fun _ => ih

/-- A write that may raise. -/
theorem runs_write {f : Entry → Entry} (hP : Stable maxBytes i P) (hP' : Stable maxBytes i P')
    (hX : ∀ e, P e → X e) (h : ∀ e, P e → Acts maxBytes i e (f e) ∧ P' (f e)) :
    Runs hides maxBytes i P (write f) X fun _ => P' := by
  refine runs_act hP fun w hw _ => ?_
  cases ht : w.trouble with
  | true =>
    simp only [World.raises, ht, if_true, Option.isSome_some]
    exact ⟨.stays, P, hw, runs_ret hP hX⟩
  | false =>
    simp only [World.raises, ht, Bool.false_eq_true, if_false, Option.isSome_none]
    exact ⟨(h _ hw).1, P', (h _ hw).2, runs_ret hP' fun _ h => h⟩

/-- A write of which an error is ignored. -/
theorem runs_attempt {f : Entry → Entry} (hP : Stable maxBytes i P)
    (h : ∀ e, P e → Acts maxBytes i e (f e) ∧ P (f e)) :
    Runs hides maxBytes i P (attempt f) X fun _ => P := by
  refine runs_act hP fun w hw _ => ?_
  split_ifs
  · exact ⟨.stays, P, hw, runs_ret hP fun _ h => h⟩
  · exact ⟨(h _ hw).1, P, (h _ hw).2, runs_ret hP fun _ h => h⟩

/-- A look at the entry. -/
theorem runs_read {t : Gate} {g : World → α} (hP : Stable maxBytes i P)
    (hQ : ∀ a, Stable maxBytes i (Q a))
    (h : ∀ w, P w.entry → (pool hides maxBytes (Reads hides)).meets t w → Q (g w) w.entry) :
    Runs hides maxBytes i P (.read t g) X Q :=
  runs_act hP fun w hw ht => ⟨.stays, Q (g w), h w hw ht, runs_ret (hQ _) fun _ h => h⟩

/-- A look at the entry that may raise. -/
theorem runs_riskyRead {t : Gate} {g : World → α} (hP : Stable maxBytes i P)
    (hQ : ∀ a, Stable maxBytes i (Q a)) (hX : ∀ e, P e → X e)
    (h : ∀ w, P w.entry → Q (g w) w.entry) :
    Runs hides maxBytes i P (Prog.fallible World.raises (.read t g)) X Q := by
  refine runs_act hP fun w hw _ => ?_
  cases ht : w.trouble with
  | true =>
    simp only [World.raises, ht, if_true, Option.isSome_some]
    exact ⟨.stays, P, hw, runs_ret hP hX⟩
  | false =>
    simp only [World.raises, ht, Bool.false_eq_true, if_false, Option.isSome_none]
    exact ⟨.stays, Q (g w), h w hw, runs_ret (hQ _) fun _ h => h⟩

/-! ## The lock is held -/

/-- A process fills the entry : it holds the lock, and there is no marker. -/
def Filling (i : ℕ) (φ : Entry → Prop) (e : Entry) : Prop :=
  e.lock = some i ∧ e.marker = none ∧ φ e

theorem stable_filling {φ : Entry → Prop} : Stable maxBytes i (Filling i φ) :=
  stable_held fun _ h => h.1

/-- What does not depend on a directory. -/
def Apart (p : Part) (φ : Entry → Prop) : Prop := ∀ e files, φ e → φ (e.withFiles files p)

theorem Filling.withFiles {φ : Entry → Prop} {p : Part} (hφ : Apart p φ) (files : Option Files)
    (h : Filling i φ e) :
    Acts maxBytes i e (e.withFiles files p) ∧ Filling i φ (e.withFiles files p) := by
  obtain ⟨hlock, hmarker, hφe⟩ := h
  cases p with
  | partial_ => exact ⟨.works files e.repo e.completed hlock hmarker, hlock, hmarker, hφ _ _ hφe⟩
  | repo => exact ⟨.works e.partial_ files e.completed hlock hmarker, hlock, hmarker, hφ _ _ hφe⟩

theorem runs_rmtree {φ : Entry → Prop} {p : Part} (hφ : Apart p φ) :
    Runs hides maxBytes i (Filling i φ) (rmtree p) X fun _ => Filling i φ := by
  have hread : Runs hides maxBytes i (Filling i φ) (.read .free fun w : World =>
      if w.trouble then [] else ((w.entry.files p).getD []).map Prod.fst) X
      fun _ => Filling i φ :=
    runs_read stable_filling (fun _ => stable_filling) fun _ hw _ => hw
  have hunlink : ∀ paths : List PyStr, Runs hides maxBytes i (Filling i φ)
      (each (fun path => attempt fun e => e.unlink p path) paths) X fun _ => Filling i φ :=
    runs_each (I := fun _ => Filling i φ) stable_filling fun path _ =>
      runs_attempt stable_filling fun _ he => he.withFiles hφ _
  have hrmdir : Runs hides maxBytes i (Filling i φ) (attempt fun e => e.rmdir p) X
      fun _ => Filling i φ := by
    refine runs_attempt stable_filling fun e he => ?_
    unfold Entry.rmdir
    split_ifs
    · exact he.withFiles hφ _
    · exact ⟨.stays, he⟩
  exact hread.bind fun paths => (hunlink paths).bind fun _ => hrmdir

theorem runs_mkdir : Runs hides maxBytes i (Filling i fun _ => True) mkdir
    (Filling i fun _ => True) fun _ => Filling i fun e => e.partial_ = some [] := by
  refine runs_act stable_filling fun w hw _ => ?_
  split_ifs
  · exact ⟨.stays, _, hw, runs_ret stable_filling fun _ h => h⟩
  · exact ⟨.works (some []) _ _ hw.1 hw.2.1, Filling i fun e => e.partial_ = some [],
      ⟨hw.1, hw.2.1, rfl⟩, runs_ret stable_filling fun _ h => h⟩

/-- A fill's steps, one after another. -/
theorem runs_fill (fill : Fill) : Runs hides maxBytes i
    (Filling i fun e => e.partial_ = some [])
    (each (fun step => write fun e => { e with partial_ := e.partial_.map step }) fill)
    (Filling i fun _ => True) fun _ => Filling i fun e => e.partial_ = some (written fill) := by
  let I : List (Files → Files) → Entry → Prop := fun rest =>
    Filling i fun e => ∃ done, done ++ rest = fill ∧ e.partial_ = some (written done)
  have hsteps : Runs hides maxBytes i (I fill)
      (each (fun step => write fun e => { e with partial_ := e.partial_.map step }) fill)
      (Filling i fun _ => True) fun _ => I [] := by
    refine runs_each stable_filling (fun step rest => ?_) fill
    refine runs_write stable_filling stable_filling (fun e he => ⟨he.1, he.2.1, trivial⟩) ?_
    rintro e ⟨hlock, hmarker, done, hdone, hhalf⟩
    refine ⟨.works _ _ _ hlock hmarker, hlock, hmarker, done ++ [step], by simpa using hdone, ?_⟩
    simp [hhalf, written]
  refine hsteps.weaken (fun e he => ⟨he.1, he.2.1, [], rfl, he.2.2⟩) (fun _ h => h)
    fun _ e he => ?_
  obtain ⟨hlock, hmarker, done, hdone, hhalf⟩ := he
  rw [List.append_nil] at hdone
  exact ⟨hlock, hmarker, hdone ▸ hhalf⟩

/-- The checkout is moved to where there is none. -/
theorem runs_rename {fill : Fill} : Runs hides maxBytes i
    (Filling i fun e => e.partial_ = some (written fill) ∧ fill ∈ e.completed) rename
    (Filling i fun _ => True)
    fun _ => Filling i fun e => e.repo = some (written fill) ∧ fill ∈ e.completed := by
  refine runs_act stable_filling fun w hw _ => ?_
  obtain ⟨hlock, hmarker, hhalf, hfill⟩ := hw
  cases ht : w.trouble with
  | true =>
    simp only [if_true, true_or]
    exact ⟨.stays, Filling i fun _ => True, ⟨hlock, hmarker, trivial⟩,
      runs_ret stable_filling fun _ h => h⟩
  | false =>
    by_cases hempty : w.entry.repo = none ∨ w.entry.repo = some []
    · simp only [Bool.false_eq_true, if_false, hhalf, hempty, not_true, reduceCtorEq, or_self]
      rw [onEntry, Entry.rename, if_pos hempty]
      exact ⟨.works _ _ _ hlock hmarker, _, ⟨hlock, hmarker, hhalf, hfill⟩,
        runs_ret stable_filling fun _ h => h⟩
    · simp only [Bool.false_eq_true, if_false, hempty, not_false_eq_true, or_true, if_true]
      rw [onEntry, Entry.rename, if_neg hempty]
      exact ⟨.stays, Filling i fun _ => True, ⟨hlock, hmarker, trivial⟩,
        runs_ret stable_filling fun _ h => h⟩

/-- What is moved to its place is what the fill wrote, if it is within the bound. -/
theorem runs_fillAndMove (fill : Fill) : Runs hides maxBytes i
    (Filling i fun e => e.partial_ = some []) (fillAndMove maxBytes fill)
    (Filling i fun _ => True) fun sizes => Filling i fun e => Whole maxBytes e sizes := by
  refine (runs_fill fill).bind fun _ => ?_
  have hdone : Runs hides maxBytes i (Filling i fun e => e.partial_ = some (written fill))
      (.write .free (onEntry fun e => { e with completed := fill :: e.completed }))
      (Filling i fun _ => True)
      fun _ => Filling i fun e => e.partial_ = some (written fill) ∧ fill ∈ e.completed :=
    runs_act stable_filling fun w hw _ => ⟨.works _ _ _ hw.1 hw.2.1, _,
      ⟨hw.1, hw.2.1, hw.2.2, List.mem_cons_self ..⟩, runs_ret stable_filling fun _ h => h⟩
  have hmeasure : Runs hides maxBytes i
      (Filling i fun e => e.partial_ = some (written fill) ∧ fill ∈ e.completed)
      (Prog.fallible World.raises (.read .free fun w => measure (w.entry.partial_.getD [])))
      (Filling i fun _ => True) fun sizes => Filling i fun e =>
        sizes = measure (written fill) ∧ e.partial_ = some (written fill) ∧ fill ∈ e.completed :=
    runs_riskyRead stable_filling (fun _ => stable_filling) (fun e he => ⟨he.1, he.2.1, trivial⟩)
      fun w hw => ⟨hw.1, hw.2.1, by simp [hw.2.2.1], hw.2.2⟩
  refine hdone.bind fun _ => hmeasure.bind fun sizes => ?_
  split_ifs with hsize
  · exact runs_ret stable_filling fun e he => ⟨he.1, he.2.1, trivial⟩
  have hclear : Runs hides maxBytes i
      (Filling i fun e => e.partial_ = some (written fill) ∧ fill ∈ e.completed) (rmtree .repo)
      (Filling i fun _ => True)
      fun _ => Filling i fun e => e.partial_ = some (written fill) ∧ fill ∈ e.completed :=
    runs_rmtree fun e files he => he
  by_cases hsizes : sizes = measure (written fill)
  · subst hsizes
    refine Runs.weaken (hclear.bind fun _ => runs_rename.bind fun _ => runs_ret stable_filling ?_)
      (fun e he => ⟨he.1, he.2.1, he.2.2.2⟩) (fun _ h => h) fun _ _ h => h
    exact fun e he => ⟨he.1, he.2.1, fill, he.2.2.2, he.2.2.1, rfl, not_lt.1 hsize⟩
  · exact fun w hw => absurd hw.2.2.1 hsizes

/-- An entry is filled, and marked with what was filled. -/
theorem runs_fillEntry (fill : Fill) : Runs hides maxBytes i (Filling i fun _ => True)
    (fillEntry maxBytes fill) (fun e => e.lock = some i)
    fun fetched e => e.lock = some i ∧ e.marker = some (fetched.bytes, fetched.files) := by
  have hheld : ∀ e, Filling i (fun _ => True) e → e.lock = some i := fun _ h => h.1
  have hclear : Runs hides maxBytes i (Filling i fun _ => True) (rmtree .partial_)
      (fun e => e.lock = some i) fun _ => Filling i fun _ => True :=
    runs_rmtree fun _ _ h => h
  have hcatch : Runs hides maxBytes i (Filling i fun e => e.partial_ = some [])
      ((fillAndMove maxBytes fill).catch' fun x => do
        rmtree .partial_
        raise x) (fun e => e.lock = some i) fun sizes => Filling i fun e => Whole maxBytes e sizes :=
    (runs_fillAndMove fill).catch fun x => hclear.bind fun _ => runs_ret stable_filling hheld
  refine hclear.bind fun _ => (runs_mkdir.weaken (fun _ h => h) hheld fun _ _ h => h).bind fun _ =>
    hcatch.bind fun sizes => ?_
  have htemp : Runs hides maxBytes i (Filling i fun e => Whole maxBytes e sizes) (write id)
      (fun e => e.lock = some i) fun _ => Filling i fun e => Whole maxBytes e sizes :=
    runs_write stable_filling stable_filling (fun _ h => h.1) fun e he => ⟨.stays, he⟩
  have hmark : Runs hides maxBytes i (Filling i fun e => Whole maxBytes e sizes)
      (write fun e => { e with marker := some sizes }) (fun e => e.lock = some i)
      fun _ e => e.lock = some i ∧ e.marker = some sizes :=
    runs_write stable_filling (stable_held fun _ h => h.1) (fun _ h => h.1)
      fun e he => ⟨.marks he.1 he.2.1 he.2.2, he.1, rfl⟩
  exact htemp.bind fun _ => hmark.bind fun _ =>
    runs_ret (stable_held fun _ h => h.1) fun _ h => h

/-- What `lookup` returns is said by the marker. -/
def Told (found : Option Fetched) (e : Entry) : Prop :=
  ∀ fetched, found = some fetched → e.marker = some (fetched.bytes, fetched.files)

/-- Holding the lock, a process that is told of no checkout finds no marker. -/
theorem runs_lookup_held : Runs hides maxBytes i (fun e => e.lock = some i ∧ Holds maxBytes e)
    (lookup hides true) (fun e => e.lock = some i)
    fun found e => e.lock = some i ∧ Told found e ∧ (found = none → e.marker = none) := by
  have hmarker : Runs hides maxBytes i (fun e => e.lock = some i ∧ Holds maxBytes e)
      (.read (.marker true) fun w => if w.trouble then none else w.entry.marker)
      (fun e => e.lock = some i)
      fun doc e => (e.lock = some i ∧ Holds maxBytes e) ∧ e.marker = doc := by
    refine runs_read (stable_held fun _ h => h.1) (fun _ => stable_held fun _ h => h.1.1)
      fun w hw ht => ⟨hw, ?_⟩
    cases hm : w.entry.marker with
    | none => simp
    | some m =>
      have htrouble : w.trouble = false := ht.2 (by rw [hm]; rfl)
      simp [htrouble]
  refine hmarker.bind fun doc => ?_
  cases doc with
  | none =>
    exact runs_ret (stable_held fun _ h => h.1.1) fun e he =>
      ⟨he.1.1, fun _ h => by simp at h, fun _ => he.2⟩
  | some m =>
    obtain ⟨bytes, files⟩ := m
    have hdir : Runs hides maxBytes i
        (fun e => (e.lock = some i ∧ Holds maxBytes e) ∧ e.marker = some (bytes, files))
        (isDir hides true) (fun e => e.lock = some i)
        fun there e => there = true ∧ e.lock = some i ∧ e.marker = some (bytes, files) := by
      refine runs_act (stable_held fun _ h => h.1.1) fun w hw ht => ?_
      refine ⟨.stays, fun e => (e.lock = some i ∧ Holds maxBytes e) ∧
        e.marker = some (bytes, files) ∧ e.repo.isSome = true, ⟨hw.1, hw.2, ?_⟩,
        runs_ret (stable_held fun _ h => h.1.1) fun e he => ?_⟩
      · obtain ⟨fill, -, hrepo, -⟩ := hw.1.2 _ hw.2
        simp [hrepo]
      · cases htrouble : w.trouble with
        | false =>
          obtain ⟨fill, -, hrepo, -⟩ := hw.1.2 _ hw.2
          simp only [htrouble, Bool.false_eq_true, if_false, hrepo, Option.isSome_some]
          exact ⟨rfl, he.1.1, he.2.1⟩
        | true =>
          have hhides : hides = false := by
            rw [← Bool.not_eq_true]
            intro h
            exact absurd (ht.2 h) (by simp [htrouble])
          simp only [htrouble, if_true, hhides, Bool.false_eq_true, if_false]
          exact he.1.1
    refine hdir.bind fun there => ?_
    cases there with
    | false => exact fun w hw => absurd hw.1 (by simp)
    | true =>
      refine runs_ret (stable_held fun _ h => h.2.1) fun e he => ⟨he.2.1, ?_, fun h => ?_⟩
      · rintro _ ⟨⟩
        exact he.2.2
      · simp at h

/-- Without the lock, a process is told of what a marker stands beside. -/
theorem runs_lookup_free : Runs hides maxBytes i (fun e => e.lock ≠ some i) (lookup hides false)
    (fun e => e.lock ≠ some i) fun found e => e.lock ≠ some i ∧ Told found e := by
  have hfree : Stable maxBytes i fun e => e.lock ≠ some i := fun _ _ h hl => hl.unheld h
  have hdoc : ∀ doc, Stable maxBytes i fun e =>
      e.lock ≠ some i ∧ ∀ m, doc = some m → e.marker = some m :=
    fun doc _ _ h hl => ⟨hl.unheld h.1, fun m hm => (hl.frozen m (h.2 m hm)).1⟩
  have hmarker : Runs hides maxBytes i (fun e => e.lock ≠ some i)
      (.read (.marker false) fun w => if w.trouble then none else w.entry.marker)
      (fun e => e.lock ≠ some i)
      fun doc e => e.lock ≠ some i ∧ ∀ m, doc = some m → e.marker = some m := by
    refine runs_read hfree hdoc fun w hw _ => ⟨hw, fun m hm => ?_⟩
    cases htrouble : w.trouble with
    | true => simp [htrouble] at hm
    | false => simpa [htrouble] using hm
  refine hmarker.bind fun doc => ?_
  cases doc with
  | none => exact runs_ret (hdoc none) fun e he => ⟨he.1, fun _ h => by simp at h⟩
  | some m =>
    obtain ⟨bytes, files⟩ := m
    have hdir : Runs hides maxBytes i
        (fun e => e.lock ≠ some i ∧ ∀ m, some (bytes, files) = some m → e.marker = some m)
        (isDir hides false) (fun e => e.lock ≠ some i)
        fun _ e => e.lock ≠ some i ∧ ∀ m, some (bytes, files) = some m → e.marker = some m := by
      refine runs_act (hdoc _) fun w hw _ => ⟨.stays, _, hw, runs_ret (hdoc _) fun e he => ?_⟩
      cases htrouble : w.trouble with
      | false =>
        simp only [htrouble, Bool.false_eq_true, if_false]
        exact he
      | true =>
        simp only [htrouble, if_true]
        cases hides
        · exact he.1
        · exact he
    refine hdir.bind fun there => ?_
    cases there with
    | false => exact runs_ret (hdoc _) fun e he => ⟨he.1, fun _ h => by simp at h⟩
    | true =>
      refine runs_ret (hdoc _) fun e he => ⟨he.1, ?_⟩
      rintro _ ⟨⟩
      exact he.2 _ rfl

/-- What was told of stays told. -/
theorem stable_told (found : Option Fetched) : Stable maxBytes i (Told found) :=
  fun _ _ h hl fetched hf => (hl.frozen _ (h fetched hf)).1

/-- Holding the lock, a process is told of a checkout, or fills it. -/
theorem runs_storeHeld (fill : Fill) :
    Runs hides maxBytes i (fun e => e.lock = some i ∧ Holds maxBytes e)
      (storeHeld hides maxBytes fill) (fun _ => True) fun found e => Told found e := by
  refine (runs_lookup_held.weaken (fun _ h => h) (fun _ _ => trivial) fun _ _ h => h).bind
    fun found => ?_
  cases found with
  | some fetched => exact runs_ret (stable_held fun _ h => h.1) fun e he => he.2.1
  | none =>
    have hfill : Runs hides maxBytes i
        (fun e => e.lock = some i ∧ Told none e ∧ ((none : Option Fetched) = none → e.marker = none))
        (fillEntry maxBytes fill) (fun _ => True)
        fun fetched e => e.lock = some i ∧ e.marker = some (fetched.bytes, fetched.files) :=
      (runs_fillEntry fill).weaken (fun e he => ⟨he.1, he.2.2 rfl, trivial⟩) (fun _ _ => trivial)
        fun _ _ h => h
    refine hfill.bind fun fetched => runs_ret (stable_held fun _ h => h.1) fun e he => ?_
    rintro _ ⟨⟩
    exact he.2

/-- A store ends without the lock, of what a marker stands beside. -/
theorem runs_store (fill : Fill) :
    Runs hides maxBytes i (fun e => e.lock ≠ some i ∧ Holds maxBytes e)
      (store hides maxBytes i fill) (fun e => e.lock ≠ some i)
      fun found e => e.lock ≠ some i ∧ Told found e := by
  have hfree : Stable maxBytes i fun e => e.lock ≠ some i ∧ Holds maxBytes e :=
    fun _ _ h hl => ⟨hl.unheld h.1, hl.holds h.2⟩
  have hopen : Runs hides maxBytes i (fun e => e.lock ≠ some i ∧ Holds maxBytes e) (write id)
      (fun e => e.lock ≠ some i) fun _ e => e.lock ≠ some i ∧ Holds maxBytes e :=
    runs_write hfree hfree (fun _ h => h.1) fun e he => ⟨.stays, he⟩
  have hlock : Runs hides maxBytes i (fun e => e.lock ≠ some i ∧ Holds maxBytes e)
      (Prog.fallible World.raises (.write .lock (onEntry fun e => { e with lock := some i })))
      (fun _ => True) fun _ e => e.lock = some i ∧ Holds maxBytes e := by
    refine runs_act hfree fun w hw ht => ?_
    cases htrouble : w.trouble with
    | true =>
      simp only [World.raises, htrouble, if_true, Option.isSome_some]
      exact ⟨.stays, _, hw, runs_ret hfree fun _ _ => trivial⟩
    | false =>
      simp only [World.raises, htrouble, Bool.false_eq_true, if_false, Option.isSome_none]
      exact ⟨.locks (ht.1 rfl), _, ⟨rfl, hw.2⟩, runs_ret (stable_held fun _ h => h.1) fun _ h => h⟩
  have hunlock : ∀ {P : Entry → Prop}, Stable maxBytes i P →
      (∀ e, P e → P { e with lock := none }) → Runs hides maxBytes i P
        (.write .free (onEntry fun e => if e.lock = some i then { e with lock := none } else e))
        (fun e => e.lock ≠ some i) fun _ e => e.lock ≠ some i ∧ P e := by
    intro P hP hnone
    have hend : Stable maxBytes i fun e => e.lock ≠ some i ∧ P e :=
      fun e e' h hl => ⟨hl.unheld h.1, hP e e' h.2 hl⟩
    refine runs_act hP fun w hw _ => ?_
    simp only [onEntry]
    split_ifs with hlock
    · exact ⟨.unlocks hlock, _, ⟨by simp, hnone _ hw⟩, runs_ret hend fun _ h => h⟩
    · exact ⟨.stays, _, ⟨hlock, hw⟩, runs_ret hend fun _ h => h⟩
  have hlocked : Runs hides maxBytes i (fun e => e.lock ≠ some i ∧ Holds maxBytes e)
      (finally' (do
          Prog.fallible World.raises (.write .lock (onEntry fun e => { e with lock := some i }))
          storeHeld hides maxBytes fill)
        (.write .free (onEntry fun e => if e.lock = some i then { e with lock := none } else e)))
      (fun e => e.lock ≠ some i) fun found e => e.lock ≠ some i ∧ Told found e := by
    intro w hw
    refine Wp.finally' (((hlock.bind fun _ => runs_storeHeld fill) w hw).mono fun r w' hr => ?_)
    cases r with
    | ok found =>
      refine (hunlock (stable_told found) (fun _ h => h) w' hr).mono fun r' w'' hr' => ?_
      cases r' with
      | ok _ => exact hr'
      | error _ => exact hr'
    | error x =>
      refine (hunlock (P := fun _ => True) (fun _ _ _ _ => trivial) (fun _ _ => trivial) w'
        trivial).mono fun r' w'' hr' => ?_
      cases r' with
      | ok _ => exact hr'.1
      | error _ => exact hr'
  exact hopen.bind fun _ => hopen.bind fun _ => hlocked

/-! ## Every run -/

/-- What each process keeps, every run keeps. -/
theorem rule (hides : Bool) (maxBytes : ℕ) :
    Pool.Rule (pool hides maxBytes (Reads hides)) (share maxBytes)
      (fun i _ w w' => Acts maxBytes i w.entry w'.entry) (fun w => Holds maxBytes w.entry)
      (fun i _ r w => w.entry.lock ≠ some i ∧ ∀ found, r = .ok found → Told found w.entry)
      (fun i w => w.entry.lock ≠ some i) where
  prog i g w _ hw hidle := by
    have hpost : ∀ (r : Except Raised (Option Fetched)) (w : World), Post (fun e => e.lock ≠ some i)
        (fun found e => e.lock ≠ some i ∧ Told found e) r w.entry →
          w.entry.lock ≠ some i ∧ ∀ found, r = .ok found → Told found w.entry := by
      intro r w hr
      cases r with
      | ok found =>
        refine ⟨hr.1, ?_⟩
        rintro _ ⟨⟩
        exact hr.2
      | error x => exact ⟨hr, fun _ h => by simp at h⟩
    cases g with
    | lookup => exact (runs_lookup_free w hidle).mono hpost
    | store fill => exact (runs_store fill w ⟨hidle, hw⟩).mono hpost
  act i t w w' hw _ h := ⟨h.holds hw, fun j hj => h.leaves hj⟩
  kill dead w hw := by
    refine ⟨hw, fun j hj => ⟨fun h => h, fun hlock => ?_, fun hlock => ?_, fun m hm => ⟨hm, rfl⟩⟩⟩
    · have hfilter : w.entry.lock.filter (· ∉ dead) = w.entry.lock := by simp [hlock, hj]
      simp only [pool, onEntry, hfilter]
    · intro h
      exact hlock (Option.filter_eq_some_iff.1 h).1
  others w w' hw h := by
    obtain ⟨trouble, rfl⟩ := h
    exact ⟨hw, fun j => .refl _⟩
  idle i w w' hidle hl := hl.unheld hidle
  ended i g r w h := h.1
  killed dead i w hi := by
    intro h
    simpa [hi] using (Option.filter_eq_some_iff.1 h).2

instance (hides : Bool) (maxBytes : ℕ) (allows : Gate → World → Prop)
    [∀ t w, Decidable (allows t w)] (t : Gate) (w : World) :
    Decidable ((pool hides maxBytes allows).meets t w) :=
  inferInstanceAs (Decidable ((t = .lock → w.entry.lock = none) ∧ allows t w))

instance (hides : Bool) (t : Gate) (w : World) : Decidable (Reads hides t w) := by
  unfold Reads
  split <;> infer_instance

end RepoCache

end IcilOrchestrator
