import Mathlib
import IcilOrchestrator.Pattern
import IcilOrchestrator.Ids
import IcilOrchestrator.Store
import IcilOrchestrator.Journals

/-!
# The mirror's layout

The layout of a store is written twice : as the paths that `Store` builds, and as an expression
(`storeLayout`) that decides what a mirror uploads, and with it what a push that prunes deletes.

`layout_iff` : what the expression matches, by components. `replaceAll_exact` : in a root that only
`Store` has written to, whatever calls were made, together or in turn, finished or not, the files
that it matches are the published ones, so that the repository is then these and its own.
-/

namespace IcilOrchestrator

open Python Pattern PosixPath

namespace Mirror

/-! ## The expressions -/

/-- The characters that `\d` stands for, of which the ASCII ones are the ten digits. -/
structure Decimals where
  is : ℕ → Bool
  ascii : ∀ c < 128, is c = isDigit c

/-- `[^/]`. -/
def notSlash (c : ℕ) : Bool := c != 47

/-- `STORE_LAYOUT`. -/
def storeLayout (d : Decimals) : Pattern :=
  alts
    [lit (py "manifest.json"),
      cat [lit (py "tracks/"), rep notSlash 1 none, lit (py "/"),
        alts [lit (py "head"), lit (py "queue")], lit (py ".json")],
      cat [lit (py "tracks/"), rep notSlash 1 none, lit (py "/index-"), rep d.is 4 none,
        lit (py ".jsonl")],
      cat [lit (py "events/"), rep notSlash 1 none, lit (py "/"), rep isHexLower 8 (some 64),
        lit (py ".json")],
      cat [lit (py "media/"), rep isHexLower 1 (some 4), lit (py "/"), rep isHexLower 64 (some 64),
        lit (py "."), rep isAlnum 1 (some 8)]]

/-- What `TRACK_ID_RE.match` takes, where `$` also stands before a newline that ends the text. -/
def trackIdRe : Pattern :=
  cat [rep (fun c => decide (97 ≤ c ∧ c ≤ 122)) 1 (some 1),
    rep (fun c => decide (97 ≤ c ∧ c ≤ 122) || isDigit c || c == 95) 0 none,
    alts [lit [], lit (py "\n")]]

/-- The paths of the layout, by components. -/
inductive Shape (d : Decimals) : Path → Prop where
  | manifest : Shape d manifestPath
  | head {t : PyStr} : t ≠ [] → 47 ∉ t → Shape d (headPath t)
  | queue {t : PyStr} : t ≠ [] → 47 ∉ t → Shape d (queuePath t)
  | part {t n : PyStr} : t ≠ [] → 47 ∉ t → 4 ≤ n.length → n.all d.is = true →
    Shape d [py "tracks", t, py "index-" ++ n ++ py ".jsonl"]
  | event {t id : PyStr} : t ≠ [] → 47 ∉ t → 8 ≤ id.length → id.length ≤ 64 →
    id.all isHexLower = true → Shape d (eventPath t id)
  | media {b sha ext : PyStr} : 1 ≤ b.length → b.length ≤ 4 → b.all isHexLower = true →
    sha.length = 64 → sha.all isHexLower = true →
    1 ≤ ext.length → ext.length ≤ 8 → ext.all isAlnum = true →
    Shape d [py "media", b, sha ++ 46 :: ext]

variable {d : Decimals} {s t : PyStr} {p : Path}

theorem all_notSlash : s.all notSlash = true ↔ 47 ∉ s := by
  simp only [List.all_eq_true, notSlash, bne_iff_ne]
  exact ⟨fun h h' => h 47 h' rfl, fun h c hc heq => h (heq ▸ hc)⟩

theorem relText_three (a b c : PyStr) : relText [a, b, c] = a ++ 47 :: (b ++ 47 :: c) := by
  simp [relText, List.intercalate, List.intersperse]

/-- What the expression matches. -/
theorem layout_iff : (storeLayout d).fullmatch s = true ↔ ∃ p, Shape d p ∧ s = relText p := by
  rw [fullmatch_iff, storeLayout]
  simp (disch := simp) only [mem_alts, List.mem_cons, List.not_mem_nil, or_false,
    exists_eq_or_imp, exists_eq_left, mem_cat_cons, mem_cat_nil, mem_lit, mem_rep, all_notSlash]
  constructor
  · rintro (rfl | ⟨_, _, rfl, rfl, t, _, rfl, ⟨hne, -, hslash⟩, _, _, rfl, rfl, _, _, rfl, hname,
      _, _, rfl, rfl, rfl⟩ | ⟨_, _, rfl, rfl, t, _, rfl, ⟨hne, -, hslash⟩, _, _, rfl, rfl, n, _, rfl,
      ⟨hlen, -, hall⟩, _, _, rfl, rfl, rfl⟩ | ⟨_, _, rfl, rfl, t, _, rfl, ⟨hne, -, hslash⟩, _, _, rfl,
      rfl, n, _, rfl, ⟨hlo, hhi, hall⟩, _, _, rfl, rfl, rfl⟩ | ⟨_, _, rfl, rfl, b, _, rfl,
      ⟨hb, hb', hball⟩, _, _, rfl, rfl, n, _, rfl, ⟨hlo, hhi, hall⟩, _, _, rfl, rfl, e, _, rfl,
      ⟨helo, hehi, heall⟩, rfl⟩)
    · exact ⟨_, .manifest, by decide⟩
    · have hne := List.length_pos_iff.1 hne
      rcases hname with rfl | rfl
      · exact ⟨_, .head hne hslash, by simp [headPath, trackDir, relText_three, py]⟩
      · exact ⟨_, .queue hne hslash, by simp [queuePath, trackDir, relText_three, py]⟩
    · exact ⟨_, .part (List.length_pos_iff.1 hne) hslash hlen hall, by simp [relText_three, py]⟩
    · exact ⟨_, .event (List.length_pos_iff.1 hne) hslash hlo (hhi 64 rfl) hall,
        by simp [eventPath, relText_three, py]⟩
    · exact ⟨_, .media hb (hb' 4 rfl) hball (le_antisymm (hhi 64 rfl) hlo) hall helo (hehi 8 rfl)
        heall, by simp [relText_three, py]⟩
  · rintro ⟨p, hp, rfl⟩
    cases hp with
    | manifest => exact Or.inl (by decide)
    | @head t hne hslash =>
      refine Or.inr (Or.inl ⟨_, _, ?_, rfl, t, _, rfl, ⟨List.length_pos_iff.2 hne, by simp, hslash⟩,
        _, _, rfl, rfl, _, _, rfl, Or.inl rfl, _, _, rfl, rfl, rfl⟩)
      simp [headPath, trackDir, relText_three, py]
    | @queue t hne hslash =>
      refine Or.inr (Or.inl ⟨_, _, ?_, rfl, t, _, rfl, ⟨List.length_pos_iff.2 hne, by simp, hslash⟩,
        _, _, rfl, rfl, _, _, rfl, Or.inr rfl, _, _, rfl, rfl, rfl⟩)
      simp [queuePath, trackDir, relText_three, py]
    | @part t n hne hslash hlen hall =>
      refine Or.inr (Or.inr (Or.inl ⟨_, _, ?_, rfl, t, _, rfl,
        ⟨List.length_pos_iff.2 hne, by simp, hslash⟩, _, _, rfl, rfl, n, _, rfl,
        ⟨hlen, by simp, hall⟩, _, _, rfl, rfl, rfl⟩))
      simp [relText_three, py]
    | @event t id hne hslash hlo hhi hall =>
      refine Or.inr (Or.inr (Or.inr (Or.inl ⟨_, _, ?_, rfl, t, _, rfl,
        ⟨List.length_pos_iff.2 hne, by simp, hslash⟩, _, _, rfl, rfl, id, _, rfl,
        ⟨hlo, by simpa using hhi, hall⟩, _, _, rfl, rfl, rfl⟩)))
      simp [eventPath, relText_three, py]
    | @media b sha ext hb hb' hball hsha hshaall hext hext' hextall =>
      refine Or.inr (Or.inr (Or.inr (Or.inr ⟨_, _, ?_, rfl, b, _, rfl,
        ⟨hb, by simpa using hb', hball⟩, _, _, rfl, rfl, sha, _, rfl,
        ⟨hsha.ge, by simpa using hsha.le, hshaall⟩, _, _, rfl, rfl, ext, _, rfl,
        ⟨hext, by simpa using hext', hextall⟩, rfl⟩)))
      simp [relText_three, py]

/-! ## Components -/

/-- A path whose text tells its components. -/
def Slashless (p : Path) : Prop := p ≠ [] ∧ ∀ c ∈ p, 47 ∉ c

theorem splitOn_relText (hp : Slashless p) : (relText p).splitOn 47 = p := by
  rw [relText, if_neg hp.1, List.splitOn_intercalate 47 hp.2 hp.1]

theorem relText_inj {q : Path} (hp : Slashless p) (hq : Slashless q)
    (h : relText p = relText q) : p = q := by
  rw [← splitOn_relText hp, h, splitOn_relText hq]

/-- The dots of a path's name. -/
def dots (p : Path) : ℕ := (p.getLastD []).count 46

/-- A name of the layout has one dot, before its extension. -/
theorem Shape.dots (h : Shape d p) : Slashless p ∧ dots p = 1 := by
  have hdot : d.is 46 = false := by rw [d.ascii 46 (by decide)]; decide
  have hslash : d.is 47 = false := by rw [d.ascii 47 (by decide)]; decide
  cases h with
  | manifest => exact ⟨⟨by simp [manifestPath], by decide⟩, by decide⟩
  | head hne ht =>
    simp [Slashless, Mirror.dots, headPath, trackDir, ht, py]
  | queue hne ht => simp [Slashless, Mirror.dots, queuePath, trackDir, ht, py]
  | part hne ht hlen hall =>
    simp [Slashless, Mirror.dots, ht, py, notMem_of_all hall hslash,
      List.count_eq_zero.2 (notMem_of_all hall hdot)]
  | event hne ht hlo hhi hall =>
    simp [Slashless, Mirror.dots, eventPath, ht, py, notMem_of_all hall (c := 47) (by decide),
      List.count_eq_zero.2 (notMem_of_all hall (c := 46) (by decide))]
  | media hb hb' hball hsha hshaall hext hext' hextall =>
    have hnodot := List.count_eq_zero.2 (notMem_of_all hshaall (c := 46) (by decide))
    have hnodot' := List.count_eq_zero.2 (notMem_of_all hextall (c := 46) (by decide))
    simp [Slashless, Mirror.dots, py, notMem_of_all hball (c := 47) (by decide),
      notMem_of_all hshaall (c := 47) (by decide), notMem_of_all hextall (c := 47) (by decide),
      hnodot, hnodot']

/-! ## What `Store` writes -/

/-- What `load_spec` checks of the names in a store, and a format that is an extension. -/
structure Accepted (spec : Spec) : Prop where
  track : ∀ t ∈ spec.tracks, trackIdRe.fullmatch t = true
  bucket : 1 ≤ spec.mediaBucketHex ∧ spec.mediaBucketHex ≤ 4
  format : 1 ≤ spec.videoFormat.length ∧ spec.videoFormat.length ≤ 8 ∧
    spec.videoFormat.all isAlnum = true

/-- A published file. -/
inductive Published (spec : Spec) : Path → Prop where
  | manifest : Published spec manifestPath
  | head {t : PyStr} : t ∈ spec.tracks → Published spec (headPath t)
  | queue {t : PyStr} : t ∈ spec.tracks → Published spec (queuePath t)
  | part {t : PyStr} (n : ℕ) : t ∈ spec.tracks → Published spec (indexPartPath t n)
  | event {t id : PyStr} : t ∈ spec.tracks → 8 ≤ id.length → id.length ≤ 64 →
    id.all isHexLower = true → Published spec (eventPath t id)
  | media {sha : PyStr} : sha.length = 64 → sha.all isHexLower = true →
    Published spec (spec.mediaPath sha spec.videoFormat)

/-- The name that `mkstemp` makes up for a copy of a file. -/
def tempPath (p : Path) (random : PyStr) : Path :=
  p.dropLast ++ [py "." ++ p.getLastD [] ++ py "." ++ random ++ py ".tmp"]

/-- The name of a clip that is being copied. -/
def copyPath (p : Path) : Path := p.dropLast ++ [p.getLastD [] ++ py ".tmp"]

/-- `LOCK_FILE`. -/
def lockPath : Path := [py ".orchestrator.lock"]

/-- `INDEX_LOCK_FILE`, of a track. -/
def indexLockPath (t : PyStr) : Path := trackDir t ++ [py ".index.lock"]

/-- The characters of `mkstemp`'s names. -/
def isRandom (c : ℕ) : Bool := decide (97 ≤ c ∧ c ≤ 122) || isDigit c || c == 95

/-- A lock, a temporary or a half-copied file. -/
inductive Scratch (spec : Spec) : Path → Prop where
  | lock : Scratch spec lockPath
  | indexLock {t : PyStr} : t ∈ spec.tracks → Scratch spec (indexLockPath t)
  | temp {p : Path} {random : PyStr} : Published spec p → random.all isRandom = true →
    Scratch spec (tempPath p random)
  | copy {p : Path} : Published spec p → Scratch spec (copyPath p)

variable {spec : Spec}

/-- A track's id has no slash, and does not start with a dot. -/
theorem trackId_proper (h : trackIdRe.fullmatch t = true) : t ≠ [] ∧ t ≠ py "." ∧ 47 ∉ t := by
  rw [fullmatch_iff, trackIdRe] at h
  simp (disch := simp) only [mem_alts, List.mem_cons, List.not_mem_nil, or_false,
    exists_eq_or_imp, exists_eq_left, mem_cat_cons, mem_cat_nil, mem_lit, mem_rep] at h
  obtain ⟨a, _, rfl, ⟨hlen, hlen', ha⟩, b, _, rfl, ⟨-, -, hb⟩, e, _, rfl, hend, rfl⟩ := h
  obtain ⟨c, rfl⟩ := List.length_eq_one_iff.1 (le_antisymm (hlen' 1 rfl) hlen)
  have hc : 97 ≤ c ∧ c ≤ 122 := by simpa using ha
  have hbslash := notMem_of_all hb (c := 47) (by decide)
  refine ⟨by simp, fun heq => ?_, fun hmem => ?_⟩
  · obtain ⟨rfl, -⟩ := List.cons.inj heq
    exact absurd hc (by decide)
  · rcases List.mem_cons.1 hmem with rfl | hmem
    · exact absurd hc (by decide)
    · rcases hend with rfl | rfl <;> simp [hbslash, py] at hmem

/-- The digits of the numbers alone. -/
def ascii : Decimals := ⟨isDigit, fun _ _ => rfl⟩

theorem pad4_digits (n : ℕ) : 4 ≤ (pad4 n).length ∧ (pad4 n).all d.is = true := by
  constructor
  · rw [pad4, List.length_append, List.length_replicate]
    omega
  · have hdigit : ∀ c, isDigit c = true → d.is c = true := by
      intro c hc
      have : c ≤ 57 := (of_decide_eq_true hc).2
      rw [d.ascii c (by omega), hc]
    rw [pad4, List.all_append, Bool.and_eq_true, List.all_eq_true, List.all_eq_true]
    refine ⟨fun c hc => hdigit c ?_, fun c hc => hdigit c (isDigit_decimal n c hc)⟩
    rw [List.eq_of_mem_replicate hc]
    decide

/-- What is published is of the layout, whichever digits it takes. -/
theorem Published.shape (hs : Accepted spec) (h : Published spec p) : Shape d p := by
  cases h with
  | manifest => exact .manifest
  | head ht =>
    obtain ⟨hne, -, hslash⟩ := trackId_proper (hs.track _ ht)
    exact .head hne hslash
  | queue ht =>
    obtain ⟨hne, -, hslash⟩ := trackId_proper (hs.track _ ht)
    exact .queue hne hslash
  | part n ht =>
    obtain ⟨hne, -, hslash⟩ := trackId_proper (hs.track _ ht)
    obtain ⟨hlen, hall⟩ := pad4_digits (d := d) n
    exact .part hne hslash hlen hall
  | event ht hlo hhi hall =>
    obtain ⟨hne, -, hslash⟩ := trackId_proper (hs.track _ ht)
    exact .event hne hslash hlo hhi hall
  | @media sha hlen hall =>
    have htake : (sha.take spec.mediaBucketHex).length = spec.mediaBucketHex := by
      have := hs.bucket.2
      rw [List.length_take]
      omega
    refine .media ?_ ?_ ?_ hlen hall hs.format.1 hs.format.2.1 hs.format.2.2
    · rw [htake]
      exact hs.bucket.1
    · rw [htake]
      exact hs.bucket.2
    · exact List.all_eq_true.2 fun c hc => List.all_eq_true.1 hall c (List.mem_of_mem_take hc)

theorem length_proper {c : PyStr} (h : 1 < c.length) : c ≠ [] ∧ c ≠ py "." := by
  refine ⟨?_, ?_⟩ <;> rintro rfl <;> exact absurd h (by decide)

theorem Published.proper (hs : Accepted spec) (h : Published spec p) :
    ∀ c ∈ p, c ≠ [] ∧ c ≠ py "." ∧ 47 ∉ c := by
  suffices hp : ∀ c ∈ p, c ≠ [] ∧ c ≠ py "." from
    fun c hc => ⟨(hp c hc).1, (hp c hc).2, (h.shape (d := ascii) hs).dots.1.2 c hc⟩
  cases h with
  | manifest => simp [manifestPath, py]
  | head ht =>
    obtain ⟨hne, hdot, -⟩ := trackId_proper (hs.track _ ht)
    simp [headPath, trackDir, hne, hdot]
    simp [py]
  | queue ht =>
    obtain ⟨hne, hdot, -⟩ := trackId_proper (hs.track _ ht)
    simp [queuePath, trackDir, hne, hdot]
    simp [py]
  | part n ht =>
    obtain ⟨hne, hdot, -⟩ := trackId_proper (hs.track _ ht)
    simp [indexPartPath, trackDir, hne, hdot]
    simp [py]
  | @event t id ht hlo hhi hall =>
    obtain ⟨hne, hdot, -⟩ := trackId_proper (hs.track _ ht)
    have hname : id ++ py ".json" ≠ py "." := (length_proper (by
      rw [List.length_append]
      omega)).2
    simp [eventPath, hne, hdot, hname]
    simp [py]
  | @media sha hlen hall =>
    have hname := length_proper (c := sha ++ 46 :: spec.videoFormat) (by simp; omega)
    have hbucket : sha.take spec.mediaBucketHex ≠ py "." := by
      intro heq
      refine notMem_of_all hall (c := 46) (by decide) (List.mem_of_mem_take
        (i := spec.mediaBucketHex) ?_)
      rw [heq]
      decide
    have hpos : spec.mediaBucketHex ≠ 0 := Nat.one_le_iff_ne_zero.1 hs.bucket.1
    have hsha : sha ≠ [] := fun hnil => by simp [hnil] at hlen
    simp [Spec.mediaPath, hbucket, hpos, hsha, hname.2]
    simp [py]

theorem Published.dots (hs : Accepted spec) (h : Published spec p) :
    Slashless p ∧ Mirror.dots p = 1 := (h.shape (d := ascii) hs).dots

/-- A name that is not published has more dots. -/
theorem Scratch.dots (hs : Accepted spec) (h : Scratch spec p) :
    Slashless p ∧ Mirror.dots p ≠ 1 := by
  cases h with
  | lock => exact ⟨⟨by simp [lockPath], by decide⟩, by decide⟩
  | indexLock ht =>
    have hslash := (trackId_proper (hs.track _ ht)).2.2
    simp [Slashless, Mirror.dots, indexLockPath, trackDir, hslash, py]
  | @temp q random hq hrandom =>
    obtain ⟨⟨hne, hslash⟩, hdots⟩ := hq.dots hs
    have hrandom' := notMem_of_all hrandom (c := 47) (by decide)
    obtain ⟨q, c, rfl⟩ := (List.eq_nil_or_concat' q).resolve_left hne
    refine ⟨⟨by simp [tempPath], ?_⟩, by simp [Mirror.dots, tempPath, py]⟩
    simp only [tempPath, List.dropLast_concat, List.getLastD_concat, List.forall_mem_append,
      List.forall_mem_singleton] at hslash ⊢
    exact ⟨hslash.1, by simp [hslash.2, hrandom', py]⟩
  | @copy q hq =>
    obtain ⟨⟨hne, hslash⟩, hdots⟩ := hq.dots hs
    obtain ⟨q, c, rfl⟩ := (List.eq_nil_or_concat' q).resolve_left hne
    have hc : c.count 46 = 1 := by simpa [Mirror.dots] using hdots
    refine ⟨⟨by simp [copyPath], ?_⟩, by simp [Mirror.dots, copyPath, py, hc]⟩
    simp only [copyPath, List.dropLast_concat, List.getLastD_concat, List.forall_mem_append,
      List.forall_mem_singleton] at hslash ⊢
    exact ⟨hslash.1, by simp [hslash.2, py]⟩

/-! ## The calls of `Store` -/

/-- The files of a directory. -/
abbrev Root := Finmap fun _ : Path => Bytes

/-- What is done to the files. -/
inductive Act where
  /-- A file is opened, and created where there is none. -/
  | make (p : Path)
  /-- What a file holds after a write, or when it is cut. -/
  | put (p : Path) (data : Bytes)
  | rename (src dst : Path)
  | unlink (p : Path)

def Act.run (root : Root) : Act → Root
  | make p => if p ∈ root then root else root.insert p []
  | put p data => if p ∈ root then root.insert p data else root
  | rename src dst =>
    match root.lookup src with
    | none => root
    | some data => (root.erase src).insert dst data
  | unlink p => root.erase p

/-- What a file is written with : the random part of its temporary name, and what it holds after
each write. -/
structure Written where
  random : PyStr
  contents : List Bytes
  drawn : random.all isRandom = true

/-- `atomic_write_text`, with what it does when it raises. -/
def atomicWriteText (p : Path) (w : Written) : List Act :=
  .make (tempPath p w.random) :: (w.contents.map (.put (tempPath p w.random)) ++
    [.rename (tempPath p w.random) p, .unlink (tempPath p w.random)])

/-- A call of `Store`, or its lock. Where it depends on what there is already, it does either. -/
inductive Call where
  | storeLock
  /-- With the tracks that have no head. -/
  | init (manifest : Written) (heads : List (PyStr × Written))
  | writeHead (track : PyStr) (w : Written)
  /-- With what `repair_tail` leaves of the part before, what the new line adds, and the head. -/
  | append (track : PyStr) (before part : ℕ) (repaired contents : List Bytes) (head : Written)
  | rebuildHead (track : PyStr) (before : ℕ) (repaired : List Bytes) (head : Written)
  | writeEvent (track id : PyStr) (w : Written)
  | writeQueue (track : PyStr) (w : Written)
  | putMedia (sha : PyStr) (contents : List Bytes)

/-- What a call does to the files. -/
def Call.acts (spec : Spec) : Call → List Act
  | storeLock => [.make lockPath]
  | init manifest heads =>
    atomicWriteText manifestPath manifest ++
      heads.flatMap fun h => atomicWriteText (headPath h.1) h.2
  | writeHead t w => atomicWriteText (headPath t) w
  | append t before part repaired contents head =>
    .make (indexLockPath t) :: (repaired.map (.put (indexPartPath t before)) ++
      .make (indexPartPath t part) :: (contents.map (.put (indexPartPath t part)) ++
        atomicWriteText (headPath t) head))
  | rebuildHead t before repaired head =>
    .make (indexLockPath t) :: (repaired.map (.put (indexPartPath t before)) ++
      atomicWriteText (headPath t) head)
  | writeEvent t id w => atomicWriteText (eventPath t id) w
  | writeQueue t w => atomicWriteText (queuePath t) w
  | putMedia sha contents =>
    let dst := spec.mediaPath sha spec.videoFormat
    .make (copyPath dst) :: (contents.map (.put (copyPath dst)) ++ [.rename (copyPath dst) dst])

/-- The names that a call is given are the specification's, and those of events and clips. -/
def Call.Named (spec : Spec) : Call → Prop
  | storeLock => True
  | init _ heads => ∀ h ∈ heads, h.1 ∈ spec.tracks
  | writeHead t _ => t ∈ spec.tracks
  | append t _ _ _ _ _ => t ∈ spec.tracks
  | rebuildHead t _ _ _ => t ∈ spec.tracks
  | writeEvent t id _ => t ∈ spec.tracks ∧ 8 ≤ id.length ∧ id.length ≤ 64 ∧
    id.all isHexLower = true
  | writeQueue t _ => t ∈ spec.tracks
  | putMedia sha _ => sha.length = 64 ∧ sha.all isHexLower = true

/-- What a root may hold that only `Store` has written to. Any acts of any calls are taken, in any
order : calls that run together, are killed or raise are among them. -/
inductive Kept (spec : Spec) : Root → Prop where
  | empty : Kept spec ∅
  | act {root : Root} {call : Call} {a : Act} : Kept spec root → call.Named spec →
    a ∈ call.acts spec → Kept spec (a.run root)

/-- As much of a call as is done before it ends. -/
theorem Kept.acts {spec : Spec} {call : Call} {as : List Act} (hcall : call.Named spec)
    (has : as ⊆ call.acts spec) : ∀ {root : Root}, Kept spec root →
      Kept spec (as.foldl Act.run root) := by
  induction as with
  | nil => exact id
  | cons a as ih =>
    obtain ⟨ha, has⟩ := List.cons_subset.1 has
    exact fun h => ih has (h.act hcall ha)

/-! ## The files of a root -/

/-- A path is `Store`'s. -/
def Ours (spec : Spec) (p : Path) : Prop := Published spec p ∨ Scratch spec p

/-- An act that makes no file but `Store`'s. -/
def Act.Ours (spec : Spec) : Act → Prop
  | make p => Mirror.Ours spec p
  | put _ _ => True
  | rename _ dst => Mirror.Ours spec dst
  | unlink _ => True

theorem ours_atomicWriteText (hp : Published spec p) (w : Written) :
    ∀ a ∈ atomicWriteText p w, a.Ours spec := by
  simp only [atomicWriteText, List.forall_mem_cons, List.forall_mem_append, List.forall_mem_map]
  exact ⟨Or.inr (.temp hp w.drawn), fun _ _ => trivial, Or.inl hp, trivial, by simp⟩

/-- Each call makes published and scratch files only. -/
theorem Call.ours {call : Call} (h : call.Named spec) : ∀ a ∈ call.acts spec, a.Ours spec := by
  cases call with
  | storeLock => exact List.forall_mem_singleton.2 (Or.inr .lock)
  | init manifest heads =>
    refine List.forall_mem_append.2 ⟨ours_atomicWriteText .manifest manifest, fun a ha => ?_⟩
    obtain ⟨x, hx, ha⟩ := List.mem_flatMap.1 ha
    exact ours_atomicWriteText (.head (h x hx)) x.2 a ha
  | writeHead t w => exact ours_atomicWriteText (.head h) w
  | append t before part repaired contents head =>
    simp only [Call.acts, List.forall_mem_cons, List.forall_mem_append, List.forall_mem_map]
    exact ⟨Or.inr (.indexLock h), fun _ _ => trivial, Or.inl (.part part h), fun _ _ => trivial,
      ours_atomicWriteText (.head h) head⟩
  | rebuildHead t before repaired head =>
    simp only [Call.acts, List.forall_mem_cons, List.forall_mem_append, List.forall_mem_map]
    exact ⟨Or.inr (.indexLock h), fun _ _ => trivial, ours_atomicWriteText (.head h) head⟩
  | writeEvent t id w => exact ours_atomicWriteText (.event h.1 h.2.1 h.2.2.1 h.2.2.2) w
  | writeQueue t w => exact ours_atomicWriteText (.queue h) w
  | putMedia sha contents =>
    have hdst : Published spec (spec.mediaPath sha spec.videoFormat) := .media h.1 h.2
    simp only [Call.acts, List.forall_mem_cons, List.forall_mem_append, List.forall_mem_map]
    exact ⟨Or.inr (.copy hdst), fun _ _ => trivial, Or.inl hdst, by simp⟩

/-- An act keeps a root to `Store`'s files. -/
theorem Act.run_ours {root : Root} {a : Act} (ha : a.Ours spec)
    (hroot : ∀ p ∈ root, Mirror.Ours spec p) : ∀ p ∈ a.run root, Mirror.Ours spec p := by
  intro p hp
  cases a with
  | make q =>
    simp only [run] at hp
    split_ifs at hp
    · exact hroot p hp
    · rcases Finmap.mem_insert.1 hp with rfl | hp
      · exact ha
      · exact hroot p hp
  | put q data =>
    simp only [run] at hp
    split_ifs at hp with hq
    · rcases Finmap.mem_insert.1 hp with rfl | hp
      · exact hroot p hq
      · exact hroot p hp
    · exact hroot p hp
  | rename src dst =>
    cases hsrc : root.lookup src with
    | none => exact hroot p (by simpa only [run, hsrc] using hp)
    | some data =>
      simp only [run, hsrc] at hp
      rcases Finmap.mem_insert.1 hp with rfl | hp
      · exact ha
      · exact hroot p (Finmap.mem_erase.1 hp).2
  | unlink q => exact hroot p (Finmap.mem_erase.1 hp).2

theorem Kept.ours {root : Root} (h : Kept spec root) : ∀ p ∈ root, Ours spec p := by
  induction h with
  | empty => exact fun p hp => absurd hp Finmap.notMem_empty
  | act _ hnamed ha ih => exact Act.run_ours (Call.ours hnamed _ ha) ih

/-- Of a root's files, the expression matches the published ones. -/
theorem Kept.layout_iff {root : Root} (hs : Accepted spec) (h : Kept spec root) (hp : p ∈ root) :
    (storeLayout d).fullmatch (relText p) = true ↔ Published spec p := by
  rw [Mirror.layout_iff]
  constructor
  · rintro ⟨q, hq, heq⟩
    refine (h.ours p hp).resolve_right fun hscratch => ?_
    obtain ⟨hslash, hdots⟩ := hscratch.dots hs
    obtain rfl := relText_inj hslash hq.dots.1 heq
    exact hdots hq.dots.2
  · exact fun hpub => ⟨p, hpub.shape hs, rfl⟩

/-! ## Replacing a repository -/

/-- `REPO_OWNED`. -/
def repoOwned : List PyStr := [py ".gitattributes", py "README.md"]

/-- An operation of a commit : a file is taken out, or uploaded. -/
inductive Operation where
  | delete (file : PyStr)
  | add (file : PyStr) (source : Path)
deriving DecidableEq

/-- What an operation makes of a file. -/
def Operation.apply (root : Root) (f : PyStr) (old : Option Bytes) : Operation → Option Bytes
  | delete g => if g = f then none else old
  | add g source => if g = f then root.lookup source else old

/-- The Hub : the files of a repository, its listing, and a commit, which makes all of its
operations at once. -/
structure Hub (R : Type) where
  files : R → PyStr → Option Bytes
  siblings : R → List PyStr
  createCommit : R → Root → List Operation → R
  mem_siblings : ∀ r f, f ∈ siblings r ↔ (files r f).isSome
  files_createCommit : ∀ r root ops f,
    files (createCommit r root ops) f = ops.foldl (Operation.apply root f) (files r f)

/-- `sorted`. -/
def sorted (files : Finset PyStr) : List PyStr := files.sort (· ≤ ·)

/-- `store_files`. -/
def storeFiles (d : Decimals) (root : Root) : List PyStr :=
  sorted ((root.keys.image relText).filter fun f => (storeLayout d).fullmatch f = true)

/-- `check_is_store`. -/
def checkIsStore (d : Decimals) (root : Root) : Except PyError (List PyStr) :=
  if manifestPath ∈ root then .ok (storeFiles d root) else .error .valueError

/-- The operations of `replace_all`, of which `root / f` is the file to upload. -/
def replaceOps (local_ remote : List PyStr) : List Operation :=
  (sorted ((remote.toFinset \ local_.toFinset) \ repoOwned.toFinset)).map .delete ++
    local_.map fun f => .add f (partsOf f)

/-- `Mirror.replace_all`. -/
def replaceAll {R : Type} (hub : Hub R) (d : Decimals) (root : Root) (repo : R) :
    Except PyError R := do
  let files ← checkIsStore d root
  if files = [] then throw .valueError
  else return hub.createCommit repo root (replaceOps files (hub.siblings repo))

variable {root : Root} {f : PyStr} {files remote : List PyStr} {old : Option Bytes}

theorem mem_sorted {fs : Finset PyStr} : f ∈ sorted fs ↔ f ∈ fs := Finset.mem_sort _

theorem foldl_deletes : (files.map Operation.delete).foldl (Operation.apply root f) old =
    if f ∈ files then none else old := by
  induction files generalizing old with
  | nil => rfl
  | cons g files ih =>
    rw [List.map_cons, List.foldl_cons, ih, Operation.apply]
    by_cases hg : g = f
    · simp [hg]
    · simp [hg, Ne.symm hg]

theorem foldl_adds :
    (files.map fun g => Operation.add g (partsOf g)).foldl (Operation.apply root f) old =
      if f ∈ files then root.lookup (partsOf f) else old := by
  induction files generalizing old with
  | nil => rfl
  | cons g files ih =>
    rw [List.map_cons, List.foldl_cons, ih, Operation.apply]
    by_cases hg : g = f
    · subst hg
      simp
    · simp [hg, Ne.symm hg]

/-- What a replacing commit makes of a file. -/
theorem foldl_replaceOps : (replaceOps files remote).foldl (Operation.apply root f) old =
    if f ∈ files then root.lookup (partsOf f)
    else if f ∈ remote ∧ f ∉ repoOwned then none else old := by
  rw [replaceOps, List.foldl_append, foldl_adds, foldl_deletes]
  by_cases hf : f ∈ files
  · rw [if_pos hf, if_pos hf]
  · rw [if_neg hf, if_neg hf]
    simp [mem_sorted, hf]

theorem delete_mem_replaceOps : Operation.delete f ∈ replaceOps files remote ↔
    f ∈ remote ∧ f ∉ files ∧ f ∉ repoOwned := by
  simp [replaceOps, mem_sorted, and_assoc]

theorem add_mem_replaceOps {source : Path} : Operation.add f source ∈ replaceOps files remote ↔
    f ∈ files ∧ source = partsOf f := by
  simp only [replaceOps, List.mem_append, List.mem_map, reduceCtorEq, and_false, exists_false,
    false_or, Operation.add.injEq]
  exact ⟨fun ⟨g, hg, hgf, hsource⟩ => hgf ▸ ⟨hg, hsource.symm⟩,
    fun ⟨hf, hsource⟩ => ⟨f, hf, rfl, hsource.symm⟩⟩

theorem Kept.mem_storeFiles (hs : Accepted spec) (h : Kept spec root) :
    f ∈ storeFiles d root ↔ ∃ p ∈ root, Published spec p ∧ f = relText p := by
  rw [storeFiles, mem_sorted, Finset.mem_filter, Finset.mem_image]
  constructor
  · rintro ⟨⟨p, hp, rfl⟩, hmatch⟩
    have hp := Finmap.mem_keys.1 hp
    exact ⟨p, hp, (h.layout_iff hs hp).1 hmatch, rfl⟩
  · rintro ⟨p, hp, hpub, rfl⟩
    exact ⟨⟨p, Finmap.mem_keys.2 hp, rfl⟩, (h.layout_iff hs hp).2 hpub⟩

theorem replaceAll_ok {R : Type} {hub : Hub R} {repo repo' : R} :
    replaceAll hub d root repo = .ok repo' ↔ manifestPath ∈ root ∧ storeFiles d root ≠ [] ∧
      repo' = hub.createCommit repo root (replaceOps (storeFiles d root) (hub.siblings repo)) := by
  unfold replaceAll checkIsStore
  by_cases hm : manifestPath ∈ root
  · by_cases hfiles : storeFiles d root = []
    · simp [hm, hfiles, bind, Except.bind]
    · simp [hm, hfiles, bind, Except.bind, pure, Except.pure, eq_comm]
  · simp [hm, bind, Except.bind]

/-- What is published matches, and nothing else that `Store` makes; a root only it has written to
replaces a repository by the published files and what the repository owns. -/
theorem replaceAll_exact {R : Type} (hub : Hub R) (d : Decimals) (spec : Spec)
    (hs : Accepted spec) :
    (∀ p, Published spec p → (storeLayout d).fullmatch (relText p) = true) ∧
    (∀ p, Scratch spec p → (storeLayout d).fullmatch (relText p) = false) ∧
    ∀ root repo, Kept spec root →
      (∀ p ∈ root, Published spec p ∨ Scratch spec p) ∧
      (∀ file, Operation.delete file ∈ replaceOps (storeFiles d root) (hub.siblings repo) →
        ∀ p ∈ root, Published spec p → file ≠ relText p) ∧
      (∀ file source, Operation.add file source ∈
          replaceOps (storeFiles d root) (hub.siblings repo) →
        source ∈ root ∧ Published spec source ∧ file = relText source) ∧
      (manifestPath ∈ root → ∃ repo', replaceAll hub d root repo = .ok repo') ∧
      ∀ repo', replaceAll hub d root repo = .ok repo' →
        (∀ p ∈ root, Published spec p → hub.files repo' (relText p) = root.lookup p) ∧
        ∀ file, (∀ p ∈ root, Published spec p → file ≠ relText p) →
          hub.files repo' file = if file ∈ repoOwned then hub.files repo file else none := by
  refine ⟨fun p hp => layout_iff.2 ⟨p, hp.shape hs, rfl⟩, fun p hp => ?_, fun root repo hroot => ?_⟩
  · rw [← Bool.not_eq_true, layout_iff]
    rintro ⟨q, hq, heq⟩
    obtain ⟨hslash, hdots⟩ := hp.dots hs
    obtain rfl := relText_inj hslash hq.dots.1 heq
    exact hdots hq.dots.2
  · have hmem : ∀ {p}, p ∈ root → Published spec p → relText p ∈ storeFiles d root :=
      fun hp hpub => (hroot.mem_storeFiles hs).2 ⟨_, hp, hpub, rfl⟩
    refine ⟨hroot.ours, fun file hdel p hp hpub heq => ?_, fun file source hadd => ?_, fun hm => ?_, ?_⟩
    · exact (delete_mem_replaceOps.1 hdel).2.1 (heq ▸ hmem hp hpub)
    · obtain ⟨hfile, rfl⟩ := add_mem_replaceOps.1 hadd
      obtain ⟨p, hp, hpub, rfl⟩ := (hroot.mem_storeFiles hs).1 hfile
      rw [partsOf_relText (hpub.proper hs)]
      exact ⟨hp, hpub, rfl⟩
    · exact ⟨_, replaceAll_ok.2 ⟨hm, List.ne_nil_of_mem (hmem hm .manifest), rfl⟩⟩
    · intro repo' hrepo
      obtain ⟨-, -, rfl⟩ := replaceAll_ok.1 hrepo
      simp only [hub.files_createCommit, foldl_replaceOps]
      refine ⟨fun p hp hpub => ?_, fun file hfile => ?_⟩
      · rw [if_pos (hmem hp hpub), partsOf_relText (hpub.proper hs)]
      · have hnot : file ∉ storeFiles d root := fun hin => by
          obtain ⟨p, hp, hpub, heq⟩ := (hroot.mem_storeFiles hs).1 hin
          exact hfile p hp hpub heq
        rw [if_neg hnot]
        by_cases howned : file ∈ repoOwned
        · rw [if_neg fun h => h.2 howned, if_pos howned]
        · rw [if_neg howned, ite_eq_left_iff]
          intro h
          have hremote : file ∉ hub.siblings repo := fun hin => h ⟨hin, howned⟩
          rwa [hub.mem_siblings, Option.not_isSome_iff_eq_none] at hremote

/-- A repository of files, with its commits. -/
def toyHub : Hub (Finmap fun _ : PyStr => Bytes) where
  files r f := r.lookup f
  siblings r := sorted r.keys
  createCommit r root ops := ops.foldl (fun r op => match op with
    | .delete g => r.erase g
    | .add g source => match root.lookup source with
      | none => r.erase g
      | some data => r.insert g data) r
  mem_siblings r f := by rw [mem_sorted, Finmap.mem_keys, Finmap.lookup_isSome]
  files_createCommit r root ops f := by
    induction ops generalizing r with
    | nil => rfl
    | cons op ops ih =>
      rw [List.foldl_cons, List.foldl_cons, ih]
      congr 1
      cases op with
      | delete g =>
        by_cases hg : g = f
        · subst hg
          simp [Operation.apply, Finmap.lookup_erase]
        · simp [Operation.apply, hg, Finmap.lookup_erase_ne (Ne.symm hg)]
      | add g source =>
        by_cases hg : g = f
        · subst hg
          cases hs : root.lookup source <;> simp [Operation.apply, hs, Finmap.lookup_erase]
        · cases hs : root.lookup source <;>
            simp [Operation.apply, hg, hs, Finmap.lookup_erase_ne (Ne.symm hg),
              Finmap.lookup_insert_of_ne _ (Ne.symm hg)]

def toySpec : Spec where
  fingerprint := []
  tracks := [py "mallet"]
  videoFormat := py "mp4"
  schema := 1
  indexLinesPerPart := 10
  mediaBucketHex := 2
  version := 1

def toyWritten : Written := ⟨py "k2_x", [[123, 125]], by decide⟩

/-- A root with the store's lock, a manifest, and a head that is being written. -/
def toyRoot : Root :=
  ((Call.init toyWritten [(py "mallet", toyWritten)]).acts toySpec).take 6 |>.foldl Act.run
    ((Call.storeLock.acts toySpec).foldl Act.run ∅)

/-- Of what the repository had, the card alone is left. -/
theorem toy_replaced :
    ∃ repo', replaceAll toyHub ascii toyRoot
        ((Finmap.singleton (py "README.md") [1]).insert (py "queue.json") [2]) = .ok repo' ∧
      toyHub.files repo' (py "manifest.json") = some [123, 125] ∧
      toyHub.files repo' (py "README.md") = some [1] ∧
      toyHub.files repo' (py "queue.json") = none ∧
      toyHub.files repo' (py "tracks/mallet/.head.json.k2_x.tmp") = none := by
  have hs : Accepted toySpec := ⟨by decide, by decide, by decide⟩
  have hnamed : Call.storeLock.Named toySpec := trivial
  have hlock : Kept toySpec ((Call.storeLock.acts toySpec).foldl Act.run ∅) :=
    Kept.acts hnamed (List.Subset.refl _) .empty
  have hroot : Kept toySpec toyRoot :=
    Kept.acts (by simp [Call.Named, toySpec]) (List.take_subset _ _) hlock
  obtain ⟨-, -, h⟩ := replaceAll_exact toyHub ascii toySpec hs
  obtain ⟨-, -, -, hok, hfiles⟩ := h toyRoot
    ((Finmap.singleton (py "README.md") [1]).insert (py "queue.json") [2]) hroot
  have hmanifest : manifestPath ∈ toyRoot := by decide
  obtain ⟨repo', hrepo⟩ := hok hmanifest
  obtain ⟨hpub, hrest⟩ := hfiles repo' hrepo
  have hnone : ∀ file, (∀ p ∈ toyRoot.keys, dots p = 1 → file ≠ relText p) →
      ∀ p ∈ toyRoot, Published toySpec p → file ≠ relText p :=
    fun file h p hp hpub => h p (Finmap.mem_keys.2 hp) (hpub.dots hs).2
  refine ⟨repo', hrepo, ?_, ?_, ?_, ?_⟩
  · rw [show py "manifest.json" = relText manifestPath by decide, hpub _ hmanifest .manifest]
    decide
  · rw [hrest _ (hnone _ (by decide))]
    decide
  · rw [hrest _ (hnone _ (by decide))]
    decide
  · rw [hrest _ (hnone _ (by decide))]
    decide

end Mirror

end IcilOrchestrator
